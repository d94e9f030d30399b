import Mathlib.Data.List.Forall2
import Dockerfile.Proofs.Body.Run
import Dockerfile.Proofs.Text.Bytes

/-!
# Reading with other names

A text in which some names are spelled otherwise is read alike: `Respelled` relates the characters of
the two texts, and each reader of `Dockerfile.Body` takes related characters to related results. In
the text a name may be broken by continuations (`Spelled`); the line that is read of it keeps the
name in one piece (`InOnePiece`). Only names that a line keeps are spelled otherwise, so comments and
the lines passed over stay as they are.
-/

namespace Dockerfile

theorem forall₂_mem {α β : Type} {R : α → β → Prop} {xs : List α} {ys : List β}
    (h : List.Forall₂ R xs ys) : List.Forall₂ (fun x y => x ∈ xs ∧ y ∈ ys ∧ R x y) xs ys := by
  induction h with
  | nil => exact .nil
  | cons hxy _ ih =>
      refine .cons ⟨List.mem_cons_self, List.mem_cons_self, hxy⟩ (ih.imp ?_)
      exact fun _ _ h => ⟨List.mem_cons_of_mem _ h.1, List.mem_cons_of_mem _ h.2.1, h.2.2⟩

theorem forall₂_map {α β γ δ : Type} {R : α → β → Prop} {S : γ → δ → Prop} {f : α → γ} {g : β → δ}
    {xs : List α} {ys : List β} (h : List.Forall₂ R xs ys) (hfg : ∀ x y, R x y → S (f x) (g y)) :
    List.Forall₂ S (xs.map f) (ys.map g) :=
  List.forall₂_map_left_iff.mpr (List.forall₂_map_right_iff.mpr (h.imp hfg))

theorem exists_of_forall₂ {α β : Type} {R : α → β → Prop} {xs : List α} {ys : List β}
    (h : List.Forall₂ R xs ys) {y : β} (hy : y ∈ ys) : ∃ x ∈ xs, R x y := by
  induction h with
  | nil => cases hy
  | cons hxy _ ih =>
      rcases List.mem_cons.mp hy with rfl | hy
      · exact ⟨_, List.mem_cons_self, hxy⟩
      · obtain ⟨x, hx, hxy⟩ := ih hy
        exact ⟨x, List.mem_cons_of_mem _ hx, hxy⟩

def Begins (names : List (List Placed)) (p : Placed) : Prop :=
  ∃ name ∈ names, name.head? = some p

/-- `chars'` are the characters `chars`, except that the names are replaced by `new`. What `spells`
says of such a place are the characters there, the name, and what follows it. -/
inductive Respelled (spells : List Placed → List Placed → List Placed → Prop)
    (names : List (List Placed)) (new : Text) : List Placed → List Placed → Prop
  | nil : Respelled spells names new [] []
  | keep {p p' : Placed} {chars chars' : List Placed} (kept : ¬ Begins names p)
      (same : p'.char = p.char) (next : Respelled spells names new chars chars') :
      Respelled spells names new (p :: chars) (p' :: chars')
  | name {p : Placed} {chars name rest fresh rest' : List Placed} (mem : p :: name ∈ names)
      (spelled : spells (p :: chars) (p :: name) rest) (written : Placed.text fresh = new)
      (next : Respelled spells names new rest rest') :
      Respelled spells names new (p :: chars) (fresh ++ rest')

def InOnePiece (chars name rest : List Placed) : Prop :=
  chars = name ++ rest

/-- Reading these characters keeps the name, across continuations, and goes on with `rest`. -/
inductive Spelled (escape : Char) (stop : Nat) : List Placed → List Placed → List Placed → Prop
  | last {p : Placed} {rest : List Placed} (content : afterContinuation? escape (p :: rest) = none)
      (inside : isLineBreak p.char = false) : Spelled escape stop (p :: rest) [p] rest
  | char {p : Placed} {chars name rest : List Placed}
      (content : afterContinuation? escape (p :: chars) = none)
      (inside : isLineBreak p.char = false) (next : Spelled escape stop chars name rest) :
      Spelled escape stop (p :: chars) (p :: name) rest
  | broken {p : Placed} {chars after name rest : List Placed}
      (continued : afterContinuation? escape (p :: chars) = some after)
      (next : Spelled escape stop (Body.skipLines stop after).rest name rest) :
      Spelled escape stop (p :: chars) name rest

/-- The new name is content wherever it stands, and each old one begins with a character that is
neither a blank nor a line break. -/
structure Spellable (escape : Char) (names : List (List Placed)) (new : Text) : Prop where
  nonempty : new ≠ []
  content : ∀ c ∈ new, Body.endsWord c = false ∧ c ≠ escape
  unmarked : ∀ c ∈ new.head?, c ≠ '#'
  heads : ∀ {p : Placed}, Begins names p → Body.endsWord p.char = false

theorem Spellable.exists_cons {escape : Char} {names : List (List Placed)} {new : Text}
    (hs : Spellable escape names new) {fresh : List Placed} (h : Placed.text fresh = new) :
    ∃ p rest, fresh = p :: rest := by
  refine List.exists_cons_of_ne_nil ?_
  rintro rfl
  exact hs.nonempty h.symm

theorem Spellable.not_begins {escape : Char} {names : List (List Placed)} {new : Text}
    (hs : Spellable escape names new) {p : Placed} (hp : Body.endsWord p.char = true) :
    ¬ Begins names p := by
  intro hbegins
  rw [hs.heads hbegins] at hp
  cases hp

/-! ## Related characters -/

namespace Respelled

variable {spells : List Placed → List Placed → List Placed → Prop} {escape : Char}
  {names : List (List Placed)} {new : Text} {p : Placed} {chars out : List Placed}

theorem eq_nil (h : Respelled spells names new [] out) : out = [] := by
  cases h
  rfl

theorem uncons (h : Respelled spells names new (p :: chars) out) (hp : ¬ Begins names p) :
    ∃ p' out', out = p' :: out' ∧ p'.char = p.char ∧ Respelled spells names new chars out' := by
  cases h with
  | keep _ same next => exact ⟨_, _, rfl, same, next⟩
  | name mem => exact absurd ⟨_, mem, rfl⟩ hp

theorem exists_head (hs : Spellable escape names new) (h : Respelled spells names new (p :: chars) out)
    (hp : Begins names p) :
    ∃ q out', out = q :: out' ∧ q.char ∈ new.head? := by
  cases h with
  | keep kept => exact absurd hp kept
  | @name _ _ _ _ fresh rest' _ _ written _ =>
      obtain ⟨q, fresh, rfl⟩ := hs.exists_cons written
      refine ⟨q, fresh ++ rest', rfl, ?_⟩
      rw [← written]
      rfl

theorem exists_first (hs : Spellable escape names new)
    (h : Respelled spells names new (p :: chars) out) :
    ∃ q out', out = q :: out' ∧ (q.char = p.char ∨ q.char ∈ new.head?) := by
  by_cases hp : Begins names p
  · obtain ⟨q, out', hout, hq⟩ := h.exists_head hs hp
    exact ⟨q, out', hout, .inr hq⟩
  · obtain ⟨q, out', hout, hq, -⟩ := h.uncons hp
    exact ⟨q, out', hout, .inl hq⟩

theorem exists_split {a rest : List Placed} (h : Respelled spells names new (a ++ rest) out)
    (ha : ∀ p ∈ a, ¬ Begins names p) :
    ∃ a' rest', out = a' ++ rest' ∧ Placed.text a' = Placed.text a ∧
      Respelled spells names new rest rest' := by
  induction a generalizing out with
  | nil => exact ⟨[], out, rfl, rfl, h⟩
  | cons p a ih =>
      obtain ⟨p', out', rfl, hp', hnext⟩ := h.uncons (ha p List.mem_cons_self)
      obtain ⟨a', rest', rfl, htext, hrest⟩ := ih hnext fun q hq => ha q (List.mem_cons_of_mem _ hq)
      exact ⟨p' :: a', rest', rfl, by rw [Placed.text_cons, Placed.text_cons, hp', htext], hrest⟩

theorem text_eq (h : Respelled spells names new chars out) (hc : ∀ p ∈ chars, ¬ Begins names p) :
    Placed.text out = Placed.text chars := by
  rw [← List.append_nil chars] at h
  obtain ⟨a', rest', rfl, htext, hrest⟩ := h.exists_split hc
  rw [hrest.eq_nil, List.append_nil]
  exact htext

theorem congr_text {out' : List Placed} (h : Respelled spells names new chars out)
    (htext : Placed.text out' = Placed.text out) : Respelled spells names new chars out' := by
  induction h generalizing out' with
  | nil =>
      obtain rfl := List.map_eq_nil_iff.mp htext
      exact .nil
  | keep kept same _ ih =>
      obtain ⟨p', rest', rfl, hp', hrest⟩ := List.map_eq_cons_iff.mp htext
      exact .keep kept (hp'.trans same) (ih hrest)
  | name mem spelled written _ ih =>
      rw [Placed.text_append] at htext
      obtain ⟨fresh', rest', rfl, hfresh, hrest⟩ := List.map_eq_append_iff.mp htext
      exact .name mem spelled (hfresh.trans written) (ih hrest)

theorem keep_append {a a' rest rest' : List Placed} (h : Respelled spells names new rest rest')
    (htext : Placed.text a' = Placed.text a) (ha : ∀ p ∈ a, ¬ Begins names p) :
    Respelled spells names new (a ++ rest) (a' ++ rest') := by
  induction a generalizing a' with
  | nil =>
      obtain rfl := List.map_eq_nil_iff.mp htext
      exact h
  | cons p a ih =>
      obtain ⟨p', a'', rfl, hp', hrest⟩ := List.map_eq_cons_iff.mp htext
      exact .keep (ha p List.mem_cons_self) hp' (ih hrest fun q hq => ha q (List.mem_cons_of_mem _ hq))

theorem of_kept (htext : Placed.text out = Placed.text chars) (hc : ∀ p ∈ chars, ¬ Begins names p) :
    Respelled spells names new chars out := by
  have hsame := (@nil spells names new).keep_append htext hc
  rwa [List.append_nil, List.append_nil] at hsame

/-- Passing characters in front of the first name passes the same characters on both sides, if they
end there because of a character that is not replaced or by one that is. -/
theorem dropWhile_of_kept (hs : Spellable escape names new) {f : Char → Bool}
    (h : Respelled spells names new chars out)
    (hkept : ∀ p ∈ chars.takeWhile (fun p => f p.char), ¬ Begins names p)
    (hends : ∀ p ∈ (chars.dropWhile fun p => f p.char).head?, Begins names p →
      ∀ c ∈ new.head?, f c = false) :
    Placed.text (out.takeWhile fun p => f p.char) = Placed.text (chars.takeWhile fun p => f p.char) ∧
      Respelled spells names new (chars.dropWhile fun p => f p.char)
        (out.dropWhile fun p => f p.char) := by
  induction chars generalizing out with
  | nil =>
      rw [h.eq_nil]
      exact ⟨rfl, .nil⟩
  | cons p chars ih =>
      by_cases hf : f p.char = true
      · have hp : ¬ Begins names p := hkept p (by simp [hf])
        obtain ⟨p', out', rfl, hp', hnext⟩ := h.uncons hp
        simp only [List.takeWhile_cons, List.dropWhile_cons, hp', hf, if_true] at hkept hends ⊢
        obtain ⟨htake, hdrop⟩ := ih hnext (fun q hq => hkept q (List.mem_cons_of_mem _ hq)) hends
        exact ⟨by rw [Placed.text_cons, Placed.text_cons, hp', htake], hdrop⟩
      · obtain ⟨q, out', rfl, hq⟩ : ∃ q out', out = q :: out' ∧ f q.char = false := by
          by_cases hp : Begins names p
          · obtain ⟨q, out', rfl, hq⟩ := h.exists_head hs hp
            refine ⟨q, out', rfl, hends p ?_ hp q.char hq⟩
            simp [hf]
          · obtain ⟨p', out', rfl, hp', -⟩ := h.uncons hp
            exact ⟨p', out', rfl, by rw [hp']; simpa using hf⟩
        simp only [List.takeWhile_cons, List.dropWhile_cons, hf, hq, Bool.false_eq_true, if_false]
        exact ⟨trivial, h⟩

/-- Blanks and line breaks are passed alike, for no name begins with one. -/
theorem dropWhile (hs : Spellable escape names new) {f : Char → Bool}
    (hf : ∀ c, f c = true → Body.endsWord c = true) (h : Respelled spells names new chars out) :
    Placed.text (out.takeWhile fun p => f p.char) = Placed.text (chars.takeWhile fun p => f p.char) ∧
      Respelled spells names new (chars.dropWhile fun p => f p.char)
        (out.dropWhile fun p => f p.char) := by
  refine h.dropWhile_of_kept hs ?_ ?_
  · intro p hp
    exact hs.not_begins (hf p.char (List.all_eq_true.mp List.all_takeWhile p hp))
  · intro p _ _ c hc
    have hword := (hs.content c (List.mem_of_head? hc)).1
    refine Bool.eq_false_iff.mpr fun htrue => ?_
    rw [hf c htrue] at hword
    cases hword

/-- What stands in front of a blank or a line break is left, and what follows is respelled. -/
theorem dropUntil (hs : Spellable escape names new) {f : Char → Bool}
    (hf : ∀ c, f c = true → Body.endsWord c = true) (h : Respelled spells names new chars out)
    (hkept : ∀ p ∈ chars.takeWhile (fun p => !f p.char), ¬ Begins names p) :
    Placed.text (out.takeWhile fun p => !f p.char) =
        Placed.text (chars.takeWhile fun p => !f p.char) ∧
      Respelled spells names new (chars.dropWhile fun p => !f p.char)
        (out.dropWhile fun p => !f p.char) := by
  refine h.dropWhile_of_kept hs (f := fun c => !f c) hkept ?_
  intro p hp hbegins
  have hhead := List.head?_dropWhile_not (fun p : Placed => !f p.char) chars
  rw [Option.mem_def.mp hp] at hhead
  have hend : f p.char = true := by simpa using hhead
  exact absurd hbegins (hs.not_begins (hf _ hend))

/-- Both sides start with the same blank or line break, if one of them does. -/
theorem head_iff (hs : Spellable escape names new) (h : Respelled spells names new chars out) {c : Char}
    (hc : Body.endsWord c = true) :
    out.head?.map Placed.char = some c ↔ chars.head?.map Placed.char = some c := by
  cases chars with
  | nil => rw [h.eq_nil]
  | cons p chars =>
      by_cases hp : Begins names p
      · obtain ⟨q, out', rfl, hq⟩ := h.exists_head hs hp
        have hnew := (hs.content q.char (List.mem_of_head? hq)).1
        have hold := hs.heads hp
        simp only [List.head?_cons, Option.map_some, Option.some.injEq]
        constructor
        · rintro rfl
          rw [hnew] at hc
          cases hc
        · rintro rfl
          rw [hold] at hc
          cases hc
      · obtain ⟨p', out', rfl, hp', -⟩ := h.uncons hp
        simp [hp']

end Respelled

/-! ## Line ends -/

section Readers

variable {spells : List Placed → List Placed → List Placed → Prop} {escape : Char} {stop : Nat}
  {names : List (List Placed)} {new : Text} {p : Placed} {chars out : List Placed}

theorem endsWord_of_isBlank {c : Char} (h : isBlank c = true) : Body.endsWord c = true := by
  simp [Body.endsWord, h]

theorem afterNewline?_respelled (hs : Spellable escape names new)
    (h : Respelled spells names new chars out) :
    (afterNewline? chars = none → afterNewline? out = none) ∧
      ∀ rest, afterNewline? chars = some rest →
        ∃ rest', afterNewline? out = some rest' ∧ Respelled spells names new rest rest' := by
  cases chars with
  | nil =>
      rw [h.eq_nil]
      exact ⟨id, fun rest hrest => by cases hrest⟩
  | cons p chars =>
      by_cases hb : isLineBreak p.char = true
      · obtain ⟨p', out', rfl, hp', hnext⟩ :=
          h.uncons (hs.not_begins (Body.endsWord_of_isLineBreak hb))
        have hfeed := hnext.head_iff hs (c := '\n') rfl
        rw [afterNewline?_cons, afterNewline?_cons, hp', if_pos hb, if_pos hb]
        refine ⟨fun hnone => (by cases hnone), ?_⟩
        intro rest hrest
        cases hrest
        refine ⟨_, rfl, ?_⟩
        by_cases hcrlf : p.char = '\r' ∧ chars.head?.map Placed.char = some '\n'
        · rw [if_pos hcrlf, if_pos ⟨hcrlf.1, hfeed.mpr hcrlf.2⟩]
          cases chars with
          | nil => simp at hcrlf
          | cons q chars =>
              have hq : q.char = '\n' := by simpa using hcrlf.2
              obtain ⟨q', out'', rfl, -, hrest⟩ :=
                hnext.uncons (hs.not_begins (by rw [hq]; rfl))
              exact hrest
        · rw [if_neg hcrlf, if_neg fun hcrlf' => hcrlf ⟨hcrlf'.1, hfeed.mp hcrlf'.2⟩]
          exact hnext
      · rw [afterNewline?_cons, if_neg hb]
        refine ⟨fun _ => ?_, fun rest hrest => by cases hrest⟩
        have hb' : ∀ q ∈ out.head?, isLineBreak q.char = false := by
          intro q hq
          refine Bool.eq_false_iff.mpr fun hbreak => hb ?_
          have hchar : out.head?.map Placed.char = some q.char := by
            rw [Option.mem_def.mp hq]
            rfl
          have hsame := (h.head_iff hs (Body.endsWord_of_isLineBreak hbreak)).mp hchar
          rw [List.head?_cons, Option.map_some, Option.some.injEq] at hsame
          rw [hsame]
          exact hbreak
        cases out with
        | nil => rfl
        | cons q out' => rw [afterNewline?_cons, if_neg (by rw [hb' q rfl]; simp)]

theorem dropNewline_respelled (hs : Spellable escape names new)
    (h : Respelled spells names new chars out) :
    Respelled spells names new (dropNewline chars) (dropNewline out) := by
  unfold dropNewline
  cases hafter : afterNewline? chars with
  | none =>
      rw [(afterNewline?_respelled hs h).1 hafter]
      exact h
  | some rest =>
      obtain ⟨rest', hafter', hrest⟩ := (afterNewline?_respelled hs h).2 rest hafter
      rw [hafter']
      exact hrest

theorem afterContinuation?_respelled (hs : Spellable escape names new)
    (h : Respelled spells names new (p :: chars) out) (hp : ¬ Begins names p) :
    (afterContinuation? escape (p :: chars) = none → afterContinuation? escape out = none) ∧
      ∀ rest, afterContinuation? escape (p :: chars) = some rest →
        ∃ rest', afterContinuation? escape out = some rest' ∧
          Respelled spells names new rest rest' := by
  obtain ⟨p', out', rfl, hp', hnext⟩ := h.uncons hp
  have hblanks := (hnext.dropWhile hs (f := isBlank) fun _ => endsWord_of_isBlank).2
  simp only [afterContinuation?, hp']
  by_cases hescape : p.char = escape
  · simp only [if_pos hescape]
    exact afterNewline?_respelled hs hblanks
  · simp only [if_neg hescape]
    exact ⟨fun _ => trivial, fun rest hrest => by cases hrest⟩

theorem Comment.read_respelled (hs : Spellable escape names new)
    (h : Respelled spells names new chars out) (hn : chars.Nodup) (start start' stop' : Nat)
    (hkept : ∀ p ∈ chars, Begins names p → p ∈ (Comment.read stop start chars).2) :
    Respelled spells names new (Comment.read stop start chars).2
      (Comment.read stop' start' out).2 := by
  refine dropNewline_respelled hs (h.dropUntil hs (fun _ => Body.endsWord_of_isLineBreak) ?_).2
  intro p hp hbegins
  have hin := hkept p ((List.takeWhile_sublist _).mem hp) hbegins
  have hrest := (dropNewline_suffix (chars.dropWhile fun p => !isLineBreak p.char)).mem hin
  rw [← @List.takeWhile_append_dropWhile _ (fun p : Placed => !isLineBreak p.char) chars] at hn
  exact (List.nodup_append.mp hn).2.2 p hp p hrest rfl

namespace Body

theorem skipLines_respelled (hs : Spellable escape names new)
    (h : Respelled spells names new chars out) (hn : chars.Nodup) (stop' : Nat)
    (hkept : ∀ p ∈ chars, Begins names p → p ∈ (skipLines stop chars).rest) :
    Respelled spells names new (skipLines stop chars).rest (skipLines stop' out).rest := by
  have hblanks := (h.dropWhile hs (f := isBlank) fun _ => endsWord_of_isBlank).2
  have hsub := List.dropWhile_sublist (fun p : Placed => isBlank p.char) (l := chars)
  fun_induction skipLines stop chars generalizing out with
  | case1 chars hc =>
      rw [hc] at hblanks
      rw [skipLines_of_nil hblanks.eq_nil]
      exact h
  | case2 chars p rest hc hb next =>
      rename_i ih
      rw [hc] at hblanks hsub
      obtain ⟨p', out', hout, hp', -⟩ :=
        hblanks.uncons (hs.not_begins (endsWord_of_isLineBreak hb))
      have hnext := dropNewline_respelled hs hblanks
      rw [hout] at hnext
      have hin := (dropNewline_suffix (p :: rest)).sublist.trans hsub
      rw [skipLines_of_break hout (by rw [hp']; exact hb)]
      exact ih hnext (hn.sublist hin) (fun q hq => hkept q (hin.mem hq))
        (hnext.dropWhile hs fun _ => endsWord_of_isBlank).2 (List.dropWhile_sublist _)
  | case3 chars p rest hc hb hmark comment =>
      rename_i next ih
      rw [hc] at hblanks hsub
      have hn' := hn.sublist hsub
      have hnext : next.rest <:+ comment.2 :=
        (skipLines_tiling comment.2 : Tiling escape stop _ _ _ _).suffix
      have hcomment : comment.2 <:+ rest := Comment.read_suffix stop p.offset rest
      have hp : ¬ Begins names p := fun hbegins => (List.nodup_cons.mp hn').1
        ((hnext.trans hcomment).mem (hkept p (hsub.mem List.mem_cons_self) hbegins))
      obtain ⟨p', out', hout, hp', htail⟩ := hblanks.uncons hp
      have hread : Respelled spells names new comment.2 (Comment.read stop' p'.offset out').2 :=
        Comment.read_respelled hs htail (List.nodup_cons.mp hn').2 p.offset p'.offset stop'
          fun q hq hbegins => hnext.mem (hkept q (hsub.mem (List.mem_cons_of_mem _ hq)) hbegins)
      have hin := (hcomment.sublist.trans (List.sublist_cons_self _ _)).trans hsub
      rw [skipLines_of_comment hout (hp'.trans hmark)]
      exact ih hread (hn.sublist hin) (fun q hq => hkept q (hin.mem hq))
        (hread.dropWhile hs fun _ => endsWord_of_isBlank).2 (List.dropWhile_sublist _)
  | case4 chars p rest hc hb hmark =>
      rw [hc] at hblanks
      obtain ⟨q, out', hout, hfirst⟩ := hblanks.exists_first hs
      have hq : isLineBreak q.char = false ∧ q.char ≠ '#' := by
        rcases hfirst with hsame | hnew
        · rw [hsame]
          exact ⟨by simpa using hb, hmark⟩
        · have hword := (hs.content q.char (List.mem_of_head? hnew)).1
          exact ⟨(Bool.or_eq_false_iff.mp hword).2, hs.unmarked q.char hnew⟩
      rw [skipLines_of_content hout hq.1 hq.2]
      exact h

end Body

end Readers

/-! ## Names that are kept -/

namespace Spelled

variable {escape : Char} {stop : Nat} {chars name rest : List Placed}

theorem readUntil_eq (h : Spelled escape stop chars name rest) :
    (Body.readUntil isLineBreak escape stop chars).chars =
        name ++ (Body.readUntil isLineBreak escape stop rest).chars ∧
      (Body.readUntil isLineBreak escape stop chars).rest =
        (Body.readUntil isLineBreak escape stop rest).rest := by
  induction h with
  | last content inside =>
      rw [Body.readUntil_of_char content inside]
      exact ⟨rfl, rfl⟩
  | char content inside _ ih =>
      rw [Body.readUntil_of_char content inside]
      exact ⟨congrArg (List.cons _) ih.1, ih.2⟩
  | broken continued _ ih =>
      rw [Body.readUntil_of_continuation continued]
      exact ih

theorem sublist (h : Spelled escape stop chars name rest) : (name ++ rest).Sublist chars := by
  induction h with
  | last => exact List.Sublist.refl _
  | char _ _ _ ih => exact ih.cons_cons _
  | @broken p chars after _ _ continued _ ih =>
      have hskip := (Body.skipLines_tiling after : Tiling escape stop _ _ _ _).suffix
      have hafter := (afterContinuation?_tiling continued : Tiling escape stop _ _ _ _).suffix
      exact ih.trans (hskip.trans hafter).sublist

theorem name_ne_nil (h : Spelled escape stop chars name rest) : name ≠ [] := by
  induction h with
  | last => simp
  | char => simp
  | broken _ _ ih => exact ih

theorem not_break (h : Spelled escape stop chars name rest) :
    ∀ p ∈ name, isLineBreak p.char = false := by
  induction h with
  | last _ inside => simpa using inside
  | char _ inside _ ih => exact List.forall_mem_cons.mpr ⟨inside, ih⟩
  | broken _ _ ih => exact ih

theorem length_lt (h : Spelled escape stop chars name rest) : rest.length < chars.length := by
  have hsub := h.sublist.length_le
  have := List.length_pos_iff.mpr h.name_ne_nil
  rw [List.length_append] at hsub
  omega

theorem exists_raw (h : Spelled escape stop chars name rest) :
    ∃ raw, chars = raw ++ rest ∧ raw.getLast? = name.getLast? := by
  induction h with
  | @last p rest => exact ⟨[p], rfl, rfl⟩
  | @char p chars name rest _ _ next ih =>
      obtain ⟨raw, rfl, hlast⟩ := ih
      refine ⟨p :: raw, rfl, ?_⟩
      rw [List.getLast?_cons, List.getLast?_cons, hlast]
  | @broken p chars after name rest continued next ih =>
      obtain ⟨raw, hraw, hlast⟩ := ih
      obtain ⟨front, hfront⟩ := (Body.skipLines_tiling after : Tiling escape stop _ _ _ _).suffix.trans
        (afterContinuation?_tiling continued : Tiling escape stop _ _ _ _).suffix
      refine ⟨front ++ raw, by rw [← hfront, hraw, List.append_assoc], ?_⟩
      rw [List.getLast?_append, hlast, List.getLast?_eq_some_getLast next.name_ne_nil]
      rfl

end Spelled

namespace Body

section Readers

variable {escape : Char} {stop : Nat} {names : List (List Placed)} {new : Text}
  {chars out : List Placed}

theorem exists_spelled_of_prefix {name b : List Placed} (hname : name ≠ [])
    (h : (readUntil isLineBreak escape stop chars).chars = name ++ b) :
    ∃ rest, Spelled escape stop chars name rest := by
  fun_induction readUntil isLineBreak escape stop chars generalizing name with
  | case1 => exact absurd (List.append_eq_nil_iff.mp h.symm).1 hname
  | case2 p rest after hc skipped =>
      rename_i ih
      obtain ⟨rest, hspelled⟩ := ih hname h
      exact ⟨rest, .broken hc hspelled⟩
  | case3 => exact absurd (List.append_eq_nil_iff.mp h.symm).1 hname
  | case4 p rest hc hb =>
      rename_i ih
      have hb : isLineBreak p.char = false := by simpa using hb
      cases name with
      | nil => exact absurd rfl hname
      | cons q name =>
          simp only [List.cons_append, List.cons.injEq] at h
          obtain ⟨rfl, h⟩ := h
          cases name with
          | nil => exact ⟨rest, .last hc hb⟩
          | cons q name =>
              obtain ⟨rest', hspelled⟩ := ih (List.cons_ne_nil q name) h
              exact ⟨rest', .char hc hb hspelled⟩

/-- A stretch that a line keeps is spelled in the text, from its first character to its last. -/
theorem exists_spelled {a name b : List Placed} (hname : name ≠ [])
    (h : (readUntil isLineBreak escape stop chars).chars = a ++ (name ++ b)) :
    ∃ front raw rest, chars = front ++ (raw ++ rest) ∧ raw.head? = name.head? ∧
      raw.getLast? = name.getLast? ∧ Spelled escape stop (raw ++ rest) name rest := by
  fun_induction readUntil isLineBreak escape stop chars generalizing a with
  | case1 =>
      have hnil := (List.append_eq_nil_iff.mp h.symm).2
      exact absurd (List.append_eq_nil_iff.mp hnil).1 hname
  | case2 p tail after hc skipped =>
      rename_i ih
      obtain ⟨front, raw, rest, hrest, hspelled⟩ := ih h
      obtain ⟨passed, hpassed⟩ := (skipLines_tiling after : Tiling escape stop _ _ _ _).suffix.trans
        (afterContinuation?_tiling hc : Tiling escape stop _ _ _ _).suffix
      refine ⟨passed ++ front, raw, rest, ?_, hspelled⟩
      rw [← hpassed, List.append_assoc]
      exact congrArg (passed ++ ·) hrest
  | case3 =>
      have hnil := (List.append_eq_nil_iff.mp h.symm).2
      exact absurd (List.append_eq_nil_iff.mp hnil).1 hname
  | case4 p tail hc hb =>
      rename_i ih
      have hb : isLineBreak p.char = false := by simpa using hb
      cases a with
      | cons q a =>
          simp only [List.cons_append, List.cons.injEq] at h
          obtain ⟨rfl, h⟩ := h
          obtain ⟨front, raw, rest, hrest, hspelled⟩ := ih h
          exact ⟨p :: front, raw, rest, by rw [hrest, List.cons_append], hspelled⟩
      | nil =>
          -- The name begins here; what is behind its first character may be broken.
          obtain ⟨rest, hspelled⟩ : ∃ rest, Spelled escape stop (p :: tail) name rest := by
            refine exists_spelled_of_prefix hname (b := b) ?_
            rw [readUntil_of_char hc hb]
            exact h
          obtain ⟨raw, hraw, hlast⟩ := hspelled.exists_raw
          refine ⟨[], raw, rest, hraw, ?_, hlast, by rwa [← hraw]⟩
          have hhead : name.head? = some p := by
            cases name with
            | nil => exact absurd rfl hname
            | cons q name =>
                simp only [List.nil_append, List.cons_append, List.cons.injEq] at h
                rw [← h.1]
                rfl
          cases raw with
          | nil => exact absurd hspelled.length_lt (by rw [hraw]; simp)
          | cons q raw =>
              rw [List.cons_append, List.cons.injEq] at hraw
              rw [hhead, ← hraw.1]
              rfl

/-! ## Lines -/

/-- A new name is kept wherever it stands. -/
theorem readUntil_fresh (hs : Spellable escape names new) {fresh rest : List Placed}
    (hfresh : ∀ p ∈ fresh, p.char ∈ new) :
    readUntil isLineBreak escape stop (fresh ++ rest) =
      { readUntil isLineBreak escape stop rest with
        chars := fresh ++ (readUntil isLineBreak escape stop rest).chars } := by
  induction fresh with
  | nil => rfl
  | cons p fresh ih =>
      obtain ⟨hword, hescape⟩ := hs.content p.char (hfresh p List.mem_cons_self)
      have hc : afterContinuation? escape (p :: (fresh ++ rest)) = none := by
        rw [afterContinuation?, if_neg hescape]
      rw [List.cons_append, readUntil_of_char hc (Bool.or_eq_false_iff.mp hword).2,
        ih fun q hq => hfresh q (List.mem_cons_of_mem _ hq)]
      rfl

theorem readUntil_respelled (hs : Spellable escape names new)
    (h : Respelled (Spelled escape stop) names new chars out) (hn : chars.Nodup) (stop' : Nat)
    (hkept : ∀ p ∈ chars, Begins names p →
      p ∈ (readUntil isLineBreak escape stop chars).chars ∨
        p ∈ (readUntil isLineBreak escape stop chars).rest) :
    Respelled InOnePiece names new (readUntil isLineBreak escape stop chars).chars
        (readUntil isLineBreak escape stop' out).chars ∧
      Respelled (Spelled escape stop) names new (readUntil isLineBreak escape stop chars).rest
        (readUntil isLineBreak escape stop' out).rest := by
  generalize hlength : chars.length = n
  induction n using Nat.strongRecOn generalizing chars out with
  | ind n ih =>
  cases h with
  | nil =>
      rw [readUntil, readUntil]
      exact ⟨.nil, .nil⟩
  | @keep p p' chars chars' kept same next =>
      have hcont := afterContinuation?_respelled hs (.keep kept same next) kept
      cases hc : afterContinuation? escape (p :: chars) with
      | some after =>
          obtain ⟨after', hc', hafter⟩ := hcont.2 after hc
          rw [readUntil_of_continuation hc] at hkept ⊢
          rw [readUntil_of_continuation hc']
          have hsuf := (afterContinuation?_tiling hc : Tiling escape stop _ _ _ _).suffix
          have hskip := (skipLines_tiling after : Tiling escape stop _ _ _ _).suffix
          have hrun := (readUntil_tiling (fun _ h => h) (skipLines stop after).rest :
            Tiling escape stop _ _ _ _).kept_sublist
          have hskipped := skipLines_respelled hs hafter (hn.sublist hsuf.sublist) stop' fun q hq hbegins =>
            hrun.mem (List.mem_append.mpr (hkept q (hsuf.mem hq) hbegins))
          have hlt : (skipLines stop after).rest.length < n := by
            have := afterContinuation?_length hc
            have := skipLines_length stop after
            omega
          exact ih _ hlt hskipped (hn.sublist (hskip.trans hsuf).sublist)
            (fun q hq => hkept q ((hskip.trans hsuf).mem hq)) rfl
      | none =>
          have hc' := hcont.1 hc
          by_cases hb : isLineBreak p.char = true
          · rw [readUntil_of_end hc hb, readUntil_of_end hc' (by rw [same]; exact hb)]
            exact ⟨.nil, .keep kept same next⟩
          · have hb : isLineBreak p.char = false := by simpa using hb
            rw [readUntil_of_char hc hb] at hkept ⊢
            rw [readUntil_of_char hc' (by rw [same]; exact hb)]
            have hkept' : ∀ q ∈ chars, Begins names q →
                q ∈ (readUntil isLineBreak escape stop chars).chars ∨
                  q ∈ (readUntil isLineBreak escape stop chars).rest := by
              intro q hq hbegins
              rcases hkept q (List.mem_cons_of_mem _ hq) hbegins with hin | hin
              · rcases List.mem_cons.mp hin with rfl | hin
                · exact absurd hbegins kept
                · exact .inl hin
              · exact .inr hin
            obtain ⟨hchars, hrest⟩ := ih chars.length (by rw [← hlength]; simp) next
              (List.nodup_cons.mp hn).2 hkept' rfl
            exact ⟨.keep kept same hchars, hrest⟩
  | @name p chars name rest fresh rest' mem spelled written next =>
      obtain ⟨hchars, hrest⟩ := spelled.readUntil_eq
      have hsub := spelled.sublist
      have hfresh : ∀ q ∈ fresh, q.char ∈ new := by
        intro q hq
        rw [← written]
        exact List.mem_map_of_mem hq
      rw [readUntil_fresh hs hfresh, hchars, hrest]
      have hkept' : ∀ q ∈ rest, Begins names q →
          q ∈ (readUntil isLineBreak escape stop rest).chars ∨
            q ∈ (readUntil isLineBreak escape stop rest).rest := by
        intro q hq hbegins
        have hin := hkept q (hsub.mem (List.mem_append_right _ hq)) hbegins
        rw [hchars, hrest] at hin
        rcases hin with hin | hin
        · rcases List.mem_append.mp hin with hname | hin
          · exact absurd rfl ((List.nodup_append.mp (hn.sublist hsub)).2.2 q hname q hq)
          · exact .inl hin
        · exact .inr hin
      obtain ⟨ihchars, ihrest⟩ := ih rest.length (by rw [← hlength]; exact spelled.length_lt) next
        (hn.sublist ((List.sublist_append_right _ _).trans hsub)) hkept' rfl
      exact ⟨.name mem rfl written ihchars, ihrest⟩

theorem logicalLines_respelled (hs : Spellable escape names new)
    (h : Respelled (Spelled escape stop) names new chars out) (hn : chars.Nodup) (stop' : Nat)
    (hkept : ∀ p ∈ chars, Begins names p → ∃ line ∈ logicalLines escape stop chars, p ∈ line.chars) :
    List.Forall₂ (fun line line' => Respelled InOnePiece names new line.chars line'.chars)
      (logicalLines escape stop chars) (logicalLines escape stop' out) := by
  have hwords := (h.dropWhile hs fun _ hc => hc).2
  have hsub := List.dropWhile_sublist (fun p : Placed => endsWord p.char) (l := chars)
  fun_induction logicalLines escape stop chars generalizing out with
  | case1 chars hc =>
      rw [hc] at hwords
      rw [(read_of_nil hwords.eq_nil).2]
      exact .nil
  | case2 chars p rest hc hmark ih =>
      rw [hc] at hwords hsub
      have hcomment : (Comment.read stop p.offset rest).2 <:+ rest := Comment.read_suffix stop p.offset rest
      have hin := (hcomment.sublist.trans (List.sublist_cons_self _ _)).trans hsub
      have hread : ∀ q ∈ p :: rest, Begins names q → q ∈ (Comment.read stop p.offset rest).2 := by
        intro q hq hbegins
        obtain ⟨line, hline, hmem⟩ := hkept q (hsub.mem hq) hbegins
        exact mem_of_mem_logicalLines hline hmem
      have hn' := List.nodup_cons.mp (hn.sublist hsub)
      have hp : ¬ Begins names p := fun hbegins =>
        hn'.1 (hcomment.mem (hread p List.mem_cons_self hbegins))
      obtain ⟨p', out', hout, hp', htail⟩ := hwords.uncons hp
      have hnext := Comment.read_respelled hs htail hn'.2 p.offset p'.offset stop'
        fun q hq hbegins => hread q (List.mem_cons_of_mem _ hq) hbegins
      rw [(read_of_comment hout (hp'.trans hmark)).2]
      exact ih hnext (hn.sublist hin) (fun q hq => hkept q (hin.mem hq))
        (hnext.dropWhile hs fun _ hc => hc).2 (List.dropWhile_sublist _)
  | case3 chars p rest hc hmark ih =>
      rw [hc] at hwords hsub
      have hn' := hn.sublist hsub
      have hline := (line_tiling escape stop (p :: rest)).kept_sublist
      have hdrop := dropNewline_suffix (afterLine escape stop (p :: rest))
      have hkept' : ∀ q ∈ p :: rest, Begins names q →
          q ∈ (lineAt escape stop (p :: rest)).chars ∨
            ∃ line ∈ logicalLines escape stop (dropNewline (afterLine escape stop (p :: rest))),
              q ∈ line.chars := by
        intro q hq hbegins
        obtain ⟨line, hin, hmem⟩ := hkept q (hsub.mem hq) hbegins
        rcases List.mem_cons.mp hin with rfl | hin
        · exact .inl hmem
        · exact .inr ⟨line, hin, hmem⟩
      obtain ⟨hchars, hrest⟩ := readUntil_respelled hs hwords hn' stop' fun q hq hbegins => by
        rw [← lineAt_chars, ← afterLine_eq]
        rcases hkept' q hq hbegins with hmem | ⟨line, hin, hmem⟩
        · exact .inl hmem
        · exact .inr (hdrop.mem (mem_of_mem_logicalLines hin hmem))
      obtain ⟨q, out', hout, hfirst⟩ := hwords.exists_first hs
      have hq : q.char ≠ '#' := hfirst.elim (fun hsame => by rwa [hsame]) (hs.unmarked q.char)
      rw [hout, ← lineAt_chars, ← lineAt_chars] at hchars
      rw [hout, ← afterLine_eq, ← afterLine_eq] at hrest
      have hnext := dropNewline_respelled hs hrest
      have hin : (dropNewline (afterLine escape stop (p :: rest))).Sublist chars :=
        (hdrop.sublist.trans ((List.sublist_append_right _ _).trans hline)).trans hsub
      rw [(read_of_line hout hq).2]
      refine .cons hchars (ih hnext (hn.sublist hin) ?_
        (hnext.dropWhile hs fun _ hc => hc).2 (List.dropWhile_sublist _))
      intro q hq hbegins
      have hafter := hdrop.mem hq
      rcases hkept' q (hline.mem (List.mem_append_right _ hafter)) hbegins with hmem | hmem
      · exact absurd rfl ((List.nodup_append.mp (hn'.sublist hline)).2.2 q hmem q hafter)
      · exact hmem

end Readers

end Body

end Dockerfile
