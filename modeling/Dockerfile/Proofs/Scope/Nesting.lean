import Dockerfile.Proofs.Checked.Substitution
import Dockerfile.Proofs.Scope.Gaps

/-!
# Substitutions are nested

A substitution begins behind the name of the one before it, and ends where that one ends or before,
or begins where that one ends or behind (`Substitution.Nested.pairwise_follows`). So the substitutions
of a text are a forest in the order of their dollar signs, and their names do not touch
(`Substitution.scan_forest`).
-/

namespace Dockerfile

/-! ## Places of stretches -/

namespace Placed

variable {a b : List Placed}

theorem reach_stop_le_start (h : ∀ p ∈ a, ∀ q ∈ b, p.stop ≤ q.offset) (ha : a ≠ []) (hb : b ≠ []) :
    (reach a).stop ≤ (reach b).start := by
  obtain ⟨p, hp, hstop⟩ := exists_reach_stop ha
  obtain ⟨q, hq, hstart⟩ := exists_reach hb
  rw [hstart]
  exact Nat.le_trans hstop (h p hp q hq)

theorem reach_stop_mono (ordered : b.Pairwise fun p q => p.stop ≤ q.offset) (ha : a ≠ [])
    (hab : a ⊆ b) : (reach a).stop ≤ (reach b).stop := by
  obtain ⟨p, hp, hstop⟩ := exists_reach_stop ha
  have hle : stopOr 0 b ≤ (reach b).stop := Nat.le_max_left _ _
  exact Nat.le_trans hstop (Nat.le_trans (stop_le_stopOr ordered (hab hp) 0) hle)

end Placed

namespace Text

variable {text : Text} {a b c : List Placed}

/-- The place of a stretch of a text is counted in bytes. -/
theorem reach_of_place (h : place 0 text = a ++ (b ++ c)) (hb : b ≠ []) :
    Placed.reach b = ⟨byteLength (Placed.text a),
      byteLength (Placed.text a) + byteLength (Placed.text b)⟩ := by
  obtain ⟨-, -, hbehind⟩ := split_of_place_eq h
  obtain ⟨-, hplace, -⟩ := split_of_place_eq hbehind.symm
  have htext : Placed.text b ≠ [] := fun hnil => hb (List.map_eq_nil_iff.mp hnil)
  conv => lhs; rw [hplace]
  rw [Nat.zero_add, reach_place _ htext]

theorem text_of_place (h : place 0 text = a ++ (b ++ c)) :
    text = Placed.text a ++ (Placed.text b ++ Placed.text c) := by
  rw [← Placed.text_append, ← Placed.text_append, ← h, text_place]

theorem slice_of_place (h : place 0 text = a ++ (b ++ c)) (hb : b ≠ []) :
    slice text (Placed.reach b) = Placed.text b := by
  rw [reach_of_place h hb, text_of_place h, slice_append]

theorem wellPlaced_of_place (h : place 0 text = a ++ (b ++ c)) (hb : b ≠ []) :
    (Placed.reach b).WellPlaced text := by
  rw [reach_of_place h hb]
  refine .of_boundaries (Nat.le_add_right _ _) ?_ ?_
  · exact isBoundary_iff.mpr ⟨_, _, text_of_place h, rfl⟩
  · refine isBoundary_iff.mpr ⟨Placed.text a ++ Placed.text b, Placed.text c, ?_, byteLength_append _ _⟩
    rw [text_of_place h, List.append_assoc]

end Text

/-! ## One substitution, and two -/

namespace Substitution

structure Shaped (s : Substitution) : Prop where
  split : ∃ dollar brace behind, s.whole = (dollar :: brace) ++ (s.name ++ behind) ∧
    dollar.char = '$'
  named : isName (Placed.text s.name) = true

/-- `t` begins behind the name of `s`, and is inside `s` or behind it. -/
def Follows (s t : Substitution) : Prop :=
  s.nameSpan.stop ≤ t.span.start ∧ (t.span.stop ≤ s.span.stop ∨ s.span.stop ≤ t.span.start)

namespace Shaped

variable {s t : Substitution}

theorem whole_ne_nil (h : Shaped s) : s.whole ≠ [] := by
  obtain ⟨dollar, brace, behind, hwhole, -⟩ := h.split
  rw [hwhole]
  exact List.cons_ne_nil _ _

theorem name_ne_nil (h : Shaped s) : s.name ≠ [] := by
  intro hnil
  have hnamed := h.named
  rw [hnil] at hnamed
  cases hnamed

theorem name_subset (h : Shaped s) : s.name ⊆ s.whole := by
  obtain ⟨dollar, brace, behind, hwhole, -⟩ := h.split
  rw [hwhole]
  exact fun p hp => List.mem_append_right _ (List.mem_append_left _ hp)

theorem follows_behind (h : Shaped s) (h' : Shaped t)
    (hfront : ∀ p ∈ s.whole, ∀ q ∈ t.whole, p.stop ≤ q.offset) : Follows s t := by
  refine ⟨?_, .inr (Placed.reach_stop_le_start hfront h.whole_ne_nil h'.whole_ne_nil)⟩
  exact Placed.reach_stop_le_start (fun p hp => hfront p (h.name_subset hp)) h.name_ne_nil
    h'.whole_ne_nil

theorem follows_inside (h : Shaped s) (h' : Shaped t)
    (ordered : s.whole.Pairwise fun p q => p.stop ≤ q.offset) (inside : t.whole ⊆ s.whole)
    (hfront : ∀ p ∈ s.name, ∀ q ∈ t.whole, p.stop ≤ q.offset) : Follows s t :=
  ⟨Placed.reach_stop_le_start hfront h.name_ne_nil h'.whole_ne_nil,
    .inl (Placed.reach_stop_mono ordered h'.whole_ne_nil inside)⟩

end Shaped

namespace Nested

variable {chars : List Placed} {subs : List Substitution}

theorem shaped (h : Nested chars subs) : ∀ s ∈ subs, Shaped s := by
  induction h with
  | nil => simp
  | skip _ ih => exact ih
  | found dollar named _ _ hinner hlater =>
      intro s hs
      rcases List.mem_cons.mp hs with rfl | hs
      · exact ⟨⟨_, _, _, rfl, dollar⟩, named⟩
      · exact (List.mem_append.mp hs).elim (hinner s) (hlater s)

theorem infix_of_mem (h : Nested chars subs) {s : Substitution} (hs : s ∈ subs) :
    s.whole <:+: chars := by
  induction h with
  | nil => cases hs
  | skip _ ih => exact (ih hs).trans (List.suffix_cons _ _).isInfix
  | @found p brace name inside close rest inner later _ _ _ _ hinner hlater =>
      have hsplit : p :: (brace ++ (name ++ (inside ++ (close ++ rest)))) =
          (p :: (brace ++ name)) ++ (inside ++ (close ++ rest)) := by
        simp only [List.cons_append, List.append_assoc]
      rcases List.mem_cons.mp hs with rfl | hs
      · refine ⟨[], rest, ?_⟩
        simp only [List.nil_append, List.cons_append, List.append_assoc]
      · rw [hsplit]
        refine List.IsInfix.trans ?_ (List.suffix_append _ _).isInfix
        rcases List.mem_append.mp hs with hs | hs
        · exact (hinner hs).trans (List.prefix_append _ _).isInfix
        · have hrest : rest <:+ inside ++ (close ++ rest) :=
            (List.suffix_append close rest).trans (List.suffix_append _ _)
          exact (hlater hs).trans hrest.isInfix

/-- Of two substitutions, the second begins behind the name of the first, and does not reach over its
end. -/
theorem pairwise_follows (h : Nested chars subs)
    (ordered : chars.Pairwise fun p q => p.stop ≤ q.offset) : subs.Pairwise Follows := by
  induction h with
  | nil => exact .nil
  | skip _ ih => exact ih (List.pairwise_cons.mp ordered).2
  | @found p brace name inside close rest inner later dollar named within next hinner hlater =>
      have hfirst : Shaped ⟨name, p :: (brace ++ (name ++ (inside ++ close)))⟩ :=
        ⟨⟨p, brace, _, rfl, dollar⟩, named⟩
      have hsplit : p :: (brace ++ (name ++ (inside ++ (close ++ rest)))) =
          p :: (brace ++ (name ++ (inside ++ close))) ++ rest := by
        simp only [List.cons_append, List.append_assoc]
      rw [hsplit] at ordered
      obtain ⟨hwhole, hrest, hfront⟩ := List.pairwise_append.mp ordered
      obtain ⟨-, hnamed, -⟩ := List.pairwise_append.mp (List.pairwise_cons.mp hwhole).2
      obtain ⟨-, hbehind, hname⟩ := List.pairwise_append.mp hnamed
      have hsubset : inside ⊆ p :: (brace ++ (name ++ (inside ++ close))) := fun q hq =>
        List.mem_cons_of_mem _ (by simp [hq])
      have hin : ∀ t ∈ inner, t.whole ⊆ inside := fun t ht => (within.infix_of_mem ht).subset
      have hout : ∀ t ∈ later, t.whole ⊆ rest := fun t ht => (next.infix_of_mem ht).subset
      refine .cons (fun t ht => ?_) (List.pairwise_append.mpr ⟨?_, hlater hrest, ?_⟩)
      · rcases List.mem_append.mp ht with ht | ht
        · refine hfirst.follows_inside (within.shaped t ht) hwhole ?_ ?_
          · exact List.Subset.trans (hin t ht) hsubset
          · exact fun q hq r hr => hname q hq r (List.mem_append_left _ (hin t ht hr))
        · refine hfirst.follows_behind (next.shaped t ht) ?_
          exact fun q hq r hr => hfront q hq r (hout t ht hr)
      · exact hinner (List.pairwise_append.mp hbehind).1
      · intro s hs t ht
        refine (within.shaped s hs).follows_behind (next.shaped t ht) ?_
        exact fun q hq r hr => hfront q (hsubset (hin s hs hq)) r (hout t ht hr)

end Nested

/-! ## All substitutions of a text -/

/-- The substitutions of a text, in order, with places that are counted in bytes: nested trees, each
in front of the next. -/
structure Forest (text : Text) (subs : List Substitution) : Prop where
  /-- The name is in the substitution, behind its start, and the substitution is in the text. -/
  ordered : ∀ s ∈ subs, s.span.start < s.nameSpan.start ∧ s.nameSpan.start < s.nameSpan.stop ∧
    s.nameSpan.stop ≤ s.span.stop ∧ s.span.stop ≤ Text.byteLength text
  /-- A dollar sign is at the start. -/
  dollar : ∀ s ∈ subs, (Text.dropBytes s.span.start text).head? = some '$'
  /-- The name is a letter or an underscore, then letters, digits and underscores. -/
  named : ∀ s ∈ subs, ∃ c rest, Text.slice text s.nameSpan = c :: rest ∧
    (c.isAlpha = true ∨ c = '_') ∧ ∀ d ∈ rest, d.isAlphanum = true ∨ d = '_'
  /-- All ends are between characters. -/
  wellPlaced : ∀ s ∈ subs, s.span.WellPlaced text ∧ s.nameSpan.WellPlaced text
  /-- They come in the order of their starts. -/
  starts : subs.Pairwise fun s t => s.span.start < t.span.start
  /-- There is something between any two names. -/
  apart : subs.Pairwise fun s t => s.nameSpan.stop < t.nameSpan.start
  /-- Two substitutions do not overlap, or the second is inside the first, behind its name. -/
  nested : subs.Pairwise fun s t => s.span.stop ≤ t.span.start ∨
    s.nameSpan.stop ≤ t.span.start ∧ t.span.stop ≤ s.span.stop

section Places

variable {text : Text} {s : Substitution}

/-- A substitution of a text, with the parts of the text around it. -/
theorem Shaped.exists_split (h : Shaped s) (hs : s.whole <:+: Text.place 0 text) :
    ∃ front dollar brace behind rest, dollar.char = '$' ∧
      s.whole = (dollar :: brace) ++ (s.name ++ behind) ∧
      Text.place 0 text = front ++ (s.whole ++ rest) ∧
      Text.place 0 text = (front ++ dollar :: brace) ++ (s.name ++ (behind ++ rest)) := by
  obtain ⟨front, rest, hplace⟩ := hs
  obtain ⟨dollar, brace, behind, hwhole, hdollar⟩ := h.split
  rw [List.append_assoc] at hplace
  refine ⟨front, dollar, brace, behind, rest, hdollar, hwhole, hplace.symm, ?_⟩
  rw [← hplace, hwhole]
  simp only [List.append_assoc, List.cons_append]

theorem Shaped.ordered (h : Shaped s) (hs : s.whole <:+: Text.place 0 text) :
    s.span.start < s.nameSpan.start ∧ s.nameSpan.start < s.nameSpan.stop ∧
      s.nameSpan.stop ≤ s.span.stop ∧ s.span.stop ≤ Text.byteLength text := by
  obtain ⟨front, dollar, brace, behind, rest, -, hwhole, hplace, hname⟩ := h.exists_split hs
  have hbounded : s.span.stop ≤ _ := (Text.wellPlaced_of_place hplace h.whole_ne_nil).bounded
  have hspan : s.span = _ := Text.reach_of_place hplace h.whole_ne_nil
  have hnameSpan : s.nameSpan = _ := Text.reach_of_place hname h.name_ne_nil
  have hpos : 0 < Text.byteLength (Placed.text s.name) := by
    obtain ⟨p, name, hcons⟩ := List.exists_cons_of_ne_nil h.name_ne_nil
    rw [hcons, Placed.text_cons, Text.byteLength_cons]
    exact Nat.add_pos_left p.size_pos _
  have hdollar : 0 < dollar.char.utf8Size := dollar.size_pos
  simp only [hspan, hnameSpan, hwhole, Placed.text_append, Placed.text_cons, Text.byteLength_append,
    Text.byteLength_cons] at hbounded ⊢
  omega

theorem Shaped.dollar (h : Shaped s) (hs : s.whole <:+: Text.place 0 text) :
    (Text.dropBytes s.span.start text).head? = some '$' := by
  obtain ⟨front, dollar, brace, behind, rest, hdollar, hwhole, hplace, -⟩ := h.exists_split hs
  have hspan : s.span = _ := Text.reach_of_place hplace h.whole_ne_nil
  rw [hspan, Text.text_of_place hplace, Text.dropBytes_append_byteLength, hwhole]
  exact congrArg some hdollar

theorem Shaped.name (h : Shaped s) (hs : s.whole <:+: Text.place 0 text) :
    ∃ c rest, Text.slice text s.nameSpan = c :: rest ∧ (c.isAlpha = true ∨ c = '_') ∧
      ∀ d ∈ rest, d.isAlphanum = true ∨ d = '_' := by
  obtain ⟨front, dollar, brace, behind, rest, -, -, -, hname⟩ := h.exists_split hs
  have hslice : Text.slice text s.nameSpan = Placed.text s.name :=
    Text.slice_of_place hname h.name_ne_nil
  have hnamed := h.named
  rw [← hslice] at hnamed
  cases htext : Text.slice text s.nameSpan with
  | nil =>
      rw [htext] at hnamed
      cases hnamed
  | cons c rest =>
      rw [htext] at hnamed
      simp only [isName, isNameStart, Bool.and_eq_true, Bool.or_eq_true, beq_iff_eq, List.all_eq_true,
        isNameChar] at hnamed
      exact ⟨c, rest, rfl, hnamed⟩

theorem Shaped.wellPlaced (h : Shaped s) (hs : s.whole <:+: Text.place 0 text) :
    s.span.WellPlaced text ∧ s.nameSpan.WellPlaced text := by
  obtain ⟨front, dollar, brace, behind, rest, -, -, hplace, hname⟩ := h.exists_split hs
  exact ⟨Text.wellPlaced_of_place hplace h.whole_ne_nil,
    Text.wellPlaced_of_place hname h.name_ne_nil⟩

end Places

theorem Nested.forest {text : Text} {subs : List Substitution}
    (h : Nested (Text.place 0 text) subs) : Forest text subs := by
  have hshaped := h.shaped
  have hordered : ∀ s ∈ subs, _ := fun s hs => (hshaped s hs).ordered (h.infix_of_mem hs)
  have hfollows := h.pairwise_follows (Text.pairwise_place 0 text)
  refine ⟨hordered, fun s hs => (hshaped s hs).dollar (h.infix_of_mem hs),
    fun s hs => (hshaped s hs).name (h.infix_of_mem hs),
    fun s hs => (hshaped s hs).wellPlaced (h.infix_of_mem hs), ?_, ?_, ?_⟩
  · refine hfollows.imp_of_mem fun {s t} hs _ hst => ?_
    have := hordered s hs
    have := hst.1
    omega
  · refine hfollows.imp_of_mem fun {s t} _ ht hst => ?_
    have := hordered t ht
    have := hst.1
    omega
  · exact hfollows.imp fun hst => hst.2.symm.imp_right fun hstop => ⟨hst.1, hstop⟩

end Substitution

/-! ## The bytes of a text -/

namespace Checked

/-- The bytes of a substitution that is found among characters. -/
def RawReference.of (s : Substitution) : RawReference :=
  ⟨s.nameSpan.start, s.nameSpan.stop, s.span.start, s.span.stop⟩

theorem Refers.eq_of {text : Text} {raw : RawReference} {s : Substitution}
    (h : Refers (Text.place 0 text) raw s) : raw = .of s := by
  obtain ⟨a, c, hname, hstart, hstop⟩ := h.name
  obtain ⟨a', c', hall, hstart', hstop'⟩ := h.all
  have hnameSpan : s.nameSpan = _ := Text.reach_of_place hname h.name_ne_nil
  have hspan : s.span = _ := Text.reach_of_place hall h.all_ne_nil
  simp only [Placed.total_size] at hstart hstop hstart' hstop'
  rw [RawReference.of, hnameSpan, hspan, ← hstop, ← hstop', ← hstart, ← hstart']

/-- No access to a byte fails, and the substitutions are those that are found among the characters. -/
theorem scan_place (escape : Char) (text : Text) :
    scan escape text = .ok ((Substitution.scan escape (Text.place 0 text)).map .of) := by
  obtain ⟨raws, hraws, hrefers⟩ := scan_eq escape (Text.place 0 text)
  rw [Text.text_place] at hraws
  have heq : List.Forall₂ Eq raws ((Substitution.scan escape (Text.place 0 text)).map .of) :=
    List.forall₂_map_right_iff.mpr (hrefers.imp fun _ _ h => h.eq_of)
  rw [List.forall₂_eq_eq_eq] at heq
  rw [hraws, heq]

end Checked

/-- The substitutions of a text are found by its bytes, and are a forest. -/
theorem Substitution.scan_forest (escape : Char) (text : Text) :
    Checked.scan escape text =
        .ok ((scan escape (Text.place 0 text)).map Checked.RawReference.of) ∧
      Forest text (scan escape (Text.place 0 text)) :=
  ⟨Checked.scan_place escape text, (scanFrom_nested escape false _).forest⟩

end Dockerfile
