import Dockerfile.Body
import Dockerfile.Proofs.Text.Bytes

/-!
# Tilings

Reading passes every character of a file once. A `Tiling` records what became of the characters
between two points of the file: each is layout (a blank, part of a line terminator, or the escape
character of a continuation), or belongs to a comment, or is kept. One lemma for each reader says
which tiling it produces; order, disjointness and completeness of the results are then facts about
tilings.
-/

namespace Dockerfile

/-- Whether these characters start with layout: a blank, part of a line terminator, or the escape
character of a continuation. -/
def startsLayout (escape : Char) : List Placed → Bool
  | [] => false
  | p :: rest =>
      isBlank p.char || isLineBreak p.char || (afterContinuation? escape (p :: rest)).isSome

/-- The spans of a comment lie in its text and do not cut a character. -/
theorem Comment.ofBody_wellPlaced (before body after : Text) :
    let c := ofBody (Text.byteLength before) (Text.byteLength before + 1 + Text.byteLength body) body
    c.span.WellPlaced (before ++ '#' :: (body ++ after)) ∧
      c.contentSpan.WellPlaced (before ++ '#' :: (body ++ after)) := by
  have hmark : ('#' : Char).utf8Size = 1 := rfl
  obtain ⟨tail, htail⟩ := Text.trimBlanksEnd_prefix (body.dropWhile isBlank)
  have hbody : body = body.takeWhile isBlank ++ (Text.trimBlanks body ++ tail) := by
    rw [Text.trimBlanks, Text.trimBlanksStart, htail, List.takeWhile_append_dropWhile]
  constructor
  · refine .of_boundaries (by omega) (Text.isBoundary_append _ _) ?_
    refine Text.isBoundary_iff.mpr ⟨before ++ '#' :: body, after, by simp, ?_⟩
    simp only [Text.byteLength_append, Text.byteLength_cons, hmark]
    omega
  · refine .of_boundaries (by omega) ?_ ?_
    · refine Text.isBoundary_iff.mpr ⟨before ++ '#' :: body.takeWhile isBlank,
        Text.trimBlanks body ++ tail ++ after, ?_, ?_⟩
      · conv => lhs; rw [hbody]
        simp
      · simp only [Text.byteLength_append, Text.byteLength_cons, hmark]
        omega
    · refine Text.isBoundary_iff.mpr
        ⟨before ++ '#' :: (body.takeWhile isBlank ++ Text.trimBlanks body), tail ++ after, ?_, ?_⟩
      · conv => lhs; rw [hbody]
        simp
      · simp only [Text.byteLength_append, Text.byteLength_cons, hmark]
        omega

/-- What the reading from `chars` up to `rest` passes as comments and what it keeps, all else being
layout. The file ends at `stop`. -/
inductive Tiling (escape : Char) (stop : Nat) :
    List Placed → List Comment → List Placed → List Placed → Prop
  | done (chars : List Placed) : Tiling escape stop chars [] [] chars
  | layout {p : Placed} {chars kept rest : List Placed} {comments : List Comment}
      (layout : startsLayout escape (p :: chars) = true)
      (next : Tiling escape stop chars comments kept rest) :
      Tiling escape stop (p :: chars) comments kept rest
  | keep {p : Placed} {chars kept rest : List Placed} {comments : List Comment}
      (content : isBlank p.char = false → startsLayout escape (p :: chars) = false)
      (next : Tiling escape stop chars comments kept rest) :
      Tiling escape stop (p :: chars) comments (p :: kept) rest
  | comment {mark : Placed} {body chars kept rest : List Placed} {comments : List Comment}
      (mark_char : mark.char = '#') (next : Tiling escape stop chars comments kept rest) :
      Tiling escape stop (mark :: (body ++ chars))
        (Comment.ofBody mark.offset (Placed.startOr stop chars) (Placed.text body) :: comments)
        kept rest

namespace Tiling

variable {escape : Char} {stop : Nat} {chars kept rest : List Placed} {comments : List Comment}

theorem trans {middle kept' : List Placed} {comments' : List Comment}
    (h : Tiling escape stop chars comments kept middle)
    (h' : Tiling escape stop middle comments' kept' rest) :
    Tiling escape stop chars (comments ++ comments') (kept ++ kept') rest := by
  induction h with
  | done => exact h'
  | layout hl _ ih => exact .layout hl (ih h')
  | keep hc _ ih => exact .keep hc (ih h')
  | comment hm _ ih => exact .comment hm (ih h')

theorem of_blank {skipped : List Placed}
    (h : ∀ p ∈ skipped, isBlank p.char = true ∨ isLineBreak p.char = true) :
    Tiling escape stop (skipped ++ rest) [] [] rest := by
  induction skipped with
  | nil => exact .done rest
  | cons p skipped ih =>
      refine .layout ?_ (ih fun q hq => h q (List.mem_cons_of_mem _ hq))
      rcases h p List.mem_cons_self with hb | hb <;> simp [startsLayout, hb]

theorem of_place {offset : Nat} {skipped after : Text}
    (h : ∀ c ∈ skipped, isBlank c = true ∨ isLineBreak c = true) :
    Tiling escape stop (Text.place offset (skipped ++ after)) [] []
      (Text.place (offset + Text.byteLength skipped) after) := by
  rw [Text.place_append]
  exact .of_blank fun p hp => h p.char (Text.char_mem_of_mem_place hp)

theorem suffix (h : Tiling escape stop chars comments kept rest) : rest <:+ chars := by
  induction h with
  | done => exact List.suffix_refl _
  | layout _ _ ih => exact ih.trans (List.suffix_cons _ _)
  | keep _ _ ih => exact ih.trans (List.suffix_cons _ _)
  | comment _ _ ih =>
      exact (ih.trans (List.suffix_append _ _)).trans (List.suffix_cons _ _)

/-- What is kept comes before what is left, in the order of the file. -/
theorem kept_sublist (h : Tiling escape stop chars comments kept rest) :
    (kept ++ rest).Sublist chars := by
  induction h with
  | done => exact List.Sublist.refl _
  | layout _ _ ih => exact ih.cons _
  | keep _ _ ih => exact ih.cons_cons _
  | comment _ _ ih => exact (ih.trans (List.sublist_append_right _ _)).cons _

/-! ## Places -/

section Places

variable {text : Text}

theorem kept_stop_le (h : Tiling escape stop chars comments kept rest)
    (hc : chars <:+ Text.place 0 text) {p : Placed} (hp : p ∈ kept) :
    p.stop ≤ Placed.startOr (Text.byteLength text) rest := by
  have hsub := h.kept_sublist.trans hc.sublist
  cases rest with
  | nil =>
      have := (Text.offset_of_mem_place (hsub.mem (List.mem_append_left _ hp))).2
      rwa [Nat.zero_add] at this
  | cons q rest =>
      have hpair := (Text.pairwise_place 0 text).sublist hsub
      exact (List.pairwise_append.mp hpair).2.2 p hp q List.mem_cons_self

theorem comment_span (h : Tiling escape (Text.byteLength text) chars comments kept rest)
    (hc : chars <:+ Text.place 0 text) {c : Comment} (hmem : c ∈ comments) :
    Placed.startOr (Text.byteLength text) chars ≤ c.span.start ∧ c.span.start < c.span.stop ∧
      c.span.stop ≤ Placed.startOr (Text.byteLength text) rest := by
  induction h with
  | done => simp at hmem
  | layout _ next ih =>
      have hs := (List.suffix_cons _ _).trans hc
      have := Text.startOr_le_startOr hc (List.suffix_cons _ _)
      have := ih hs hmem
      omega
  | keep _ next ih =>
      have hs := (List.suffix_cons _ _).trans hc
      have := Text.startOr_le_startOr hc (List.suffix_cons _ _)
      have := ih hs hmem
      omega
  | @comment mark body tail _ rest _ _ next ih =>
      have htail : tail <:+ Text.place 0 text :=
        ((List.suffix_append body tail).trans (List.suffix_cons _ _)).trans hc
      have hle : mark.stop ≤ Placed.startOr (Text.byteLength text) tail :=
        Text.stop_le_startOr (a := mark :: body) hc List.mem_cons_self
      have hlt := mark.offset_lt_stop
      rcases List.mem_cons.mp hmem with rfl | hmem
      · have := Text.startOr_le_startOr htail next.suffix
        simp only [Comment.ofBody, Placed.startOr_cons]
        omega
      · have := ih htail hmem
        rw [Placed.startOr_cons]
        omega

/-- Comments follow each other without overlap. -/
theorem comments_ordered (h : Tiling escape (Text.byteLength text) chars comments kept rest)
    (hc : chars <:+ Text.place 0 text) :
    comments.Pairwise fun a b => a.span.stop ≤ b.span.start := by
  induction h with
  | done => exact .nil
  | layout _ _ ih => exact ih ((List.suffix_cons _ _).trans hc)
  | keep _ _ ih => exact ih ((List.suffix_cons _ _).trans hc)
  | @comment mark body tail _ _ _ _ next ih =>
      have htail : tail <:+ Text.place 0 text :=
        ((List.suffix_append body tail).trans (List.suffix_cons _ _)).trans hc
      exact .cons (fun c hmem => (next.comment_span htail hmem).1) (ih htail)

theorem comment_apart (h : Tiling escape (Text.byteLength text) chars comments kept rest)
    (hc : chars <:+ Text.place 0 text) {c : Comment} (hmem : c ∈ comments) {p : Placed}
    (hp : p ∈ kept) : p.stop ≤ c.span.start ∨ c.span.stop ≤ p.offset := by
  induction h with
  | done => simp at hmem
  | layout _ _ ih => exact ih ((List.suffix_cons _ _).trans hc) hmem hp
  | @keep q tail _ _ _ _ next ih =>
      have htail : tail <:+ Text.place 0 text := (List.suffix_cons _ _).trans hc
      rcases List.mem_cons.mp hp with rfl | hp
      · have := Text.stop_le_startOr (a := [p]) hc List.mem_cons_self
        have := (next.comment_span htail hmem).1
        exact .inl (by omega)
      · exact ih htail hmem hp
  | @comment mark body tail _ _ _ _ next ih =>
      have htail : tail <:+ Text.place 0 text :=
        ((List.suffix_append body tail).trans (List.suffix_cons _ _)).trans hc
      rcases List.mem_cons.mp hmem with rfl | hmem
      · have hsub := next.kept_sublist
        exact .inr (Text.startOr_le_offset htail (hsub.mem (List.mem_append_left _ hp)))
      · exact ih htail hmem hp

/-- Both spans of a comment lie in the text and do not cut a character. -/
theorem comment_wellPlaced (h : Tiling escape (Text.byteLength text) chars comments kept rest)
    (hc : chars <:+ Text.place 0 text) {c : Comment} (hmem : c ∈ comments) :
    c.span.WellPlaced text ∧ c.contentSpan.WellPlaced text := by
  induction h with
  | done => simp at hmem
  | layout _ _ ih => exact ih ((List.suffix_cons _ _).trans hc) hmem
  | keep _ _ ih => exact ih ((List.suffix_cons _ _).trans hc) hmem
  | @comment mark body tail _ _ _ hm next ih =>
      have htail : tail <:+ Text.place 0 text :=
        ((List.suffix_append body tail).trans (List.suffix_cons _ _)).trans hc
      rcases List.mem_cons.mp hmem with rfl | hmem
      · obtain ⟨before, htext, hstart, hstop⟩ :=
          Text.exists_split_of_append_suffix (a := mark :: body) hc
        have hmark : mark.offset = Text.byteLength before := hstart
        rw [Placed.text_cons, hm, Text.byteLength_cons, ← Nat.add_assoc] at hstop
        rw [hmark, hstop, htext, Placed.text_cons, hm]
        exact Comment.ofBody_wellPlaced before (Placed.text body) (Placed.text tail)
      · exact ih htail hmem

theorem covers (h : Tiling escape (Text.byteLength text) chars comments kept [])
    (hc : chars <:+ Text.place 0 text) {p : Placed} {after : List Placed}
    (hp : p :: after <:+ chars) :
    startsLayout escape (p :: after) = true ∨ p ∈ kept ∨
      ∃ c ∈ comments, c.span.start ≤ p.offset ∧ p.stop ≤ c.span.stop := by
  generalize hrest : ([] : List Placed) = rest at h
  induction h with
  | done => subst hrest; simp at hp
  | layout hl _ ih =>
      rcases List.suffix_cons_iff.mp hp with heq | hp
      · rw [heq]; exact .inl hl
      · exact ih ((List.suffix_cons _ _).trans hc) hp hrest
  | keep _ _ ih =>
      rcases List.suffix_cons_iff.mp hp with heq | hp
      · cases heq; exact .inr (.inl List.mem_cons_self)
      · rcases ih ((List.suffix_cons _ _).trans hc) hp hrest with hl | hk | hcom
        · exact .inl hl
        · exact .inr (.inl (List.mem_cons_of_mem _ hk))
        · exact .inr (.inr hcom)
  | @comment mark body tail _ _ _ _ next ih =>
      have hsuf : tail <:+ mark :: (body ++ tail) :=
        (List.suffix_append body tail).trans (List.suffix_cons _ _)
      rcases List.suffix_or_suffix_of_suffix hp hsuf with hin | ⟨front, hfront⟩
      · rcases ih (hsuf.trans hc) hin hrest with hl | hk | ⟨c, hcmem, hcov⟩
        · exact .inl hl
        · exact .inr (.inl hk)
        · exact .inr (.inr ⟨c, List.mem_cons_of_mem _ hcmem, hcov⟩)
      · cases front with
        | nil =>
            have hin : p :: after <:+ tail := by rw [← hfront]; exact List.suffix_refl _
            rcases ih (hsuf.trans hc) hin hrest with hl | hk | ⟨c, hcmem, hcov⟩
            · exact .inl hl
            · exact .inr (.inl hk)
            · exact .inr (.inr ⟨c, List.mem_cons_of_mem _ hcmem, hcov⟩)
        | cons q front =>
            obtain ⟨rfl, rfl⟩ := List.cons.inj hfront
            refine .inr (.inr ⟨_, List.mem_cons_self, ?_, ?_⟩)
            · exact Text.startOr_le_offset hc (hp.mem List.mem_cons_self)
            · exact Text.stop_le_startOr (a := q :: front) (hp.trans hc) List.mem_cons_self

theorem kept_content (h : Tiling escape stop chars comments kept rest) {p : Placed}
    (hp : p ∈ kept) (hb : isBlank p.char = false) :
    ∃ after, p :: after <:+ chars ∧ startsLayout escape (p :: after) = false := by
  induction h with
  | done => simp at hp
  | layout _ _ ih =>
      obtain ⟨after, hs, hl⟩ := ih hp
      exact ⟨after, hs.trans (List.suffix_cons _ _), hl⟩
  | keep hcontent _ ih =>
      rcases List.mem_cons.mp hp with rfl | hp
      · exact ⟨_, List.suffix_refl _, hcontent hb⟩
      · obtain ⟨after, hs, hl⟩ := ih hp
        exact ⟨after, hs.trans (List.suffix_cons _ _), hl⟩
  | comment _ _ ih =>
      obtain ⟨after, hs, hl⟩ := ih hp
      exact ⟨after, (hs.trans (List.suffix_append _ _)).trans (List.suffix_cons _ _), hl⟩

end Places

end Tiling

end Dockerfile
