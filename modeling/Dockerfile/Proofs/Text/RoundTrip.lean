import Dockerfile.Proofs.Text.Position

/-!
# Offsets and positions are inverse to each other

Where a text can be cut, except between a `\r` and its `\n`, the position of the cut depends only on
what stands in front of it and leads back to it (`Text.exists_position`). From this follow the two
round trips between offsets and positions; that positions keep the order of offsets follows from the
monotony of each measure they are made of.
-/

namespace Dockerfile

namespace Text

/-! ## The position of a cut -/

theorem Leading.exists_last {front rest : Text} {before : List Line} (a b : Text)
    (h : Leading front rest before) (hrest : rest = a ++ b)
    (hcut : ¬ (a.getLast? = some '\r' ∧ b.head? = some '\n')) :
    ∃ lead col before', a = lead ++ col ∧ (∀ c ∈ col, isLineBreak c = false) ∧
      Leading (front ++ lead) (col ++ b) before' := by
  generalize hn : a.length = n
  induction n using Nat.strongRecOn generalizing a front rest before with
  | ind n ih =>
  rcases a.exists_first_line with clean | ⟨content, terminator, rest', rfl, clean, ends⟩
  · exact ⟨[], a, before, rfl, clean, by rw [List.append_nil, ← hrest]; exact h⟩
  · have hends : IsTerminator terminator (rest' ++ b) := by
      rcases ends with hterm | hterm | ⟨hterm, hne⟩
      · exact .inl hterm
      · exact .inr (.inl hterm)
      · refine .inr (.inr ⟨hterm, fun hhead => ?_⟩)
        cases rest' with
        | nil => exact hcut ⟨by rw [hterm, List.append_nil, List.getLast?_append]; rfl, hhead⟩
        | cons c rest' => exact hne hhead
    have hlead : Leading front (content ++ (terminator ++ (rest' ++ b))) before := by
      rw [hrest] at h
      simpa only [List.append_assoc] using h
    have hlt : rest'.length < n := by
      have := List.length_pos_iff.mpr ends.ne_nil
      simp only [List.length_append] at hn
      omega
    have hcut' : ¬ (rest'.getLast? = some '\r' ∧ b.head? = some '\n') := by
      rintro ⟨hlast, hhead⟩
      apply hcut
      rw [← List.append_assoc, List.getLast?_append, hlast]
      exact ⟨rfl, hhead⟩
    obtain ⟨lead, col, before', rfl, hcol, hnext⟩ :=
      ih rest'.length hlt rest' (hlead.snoc clean hends) rfl hcut' rfl
    refine ⟨content ++ (terminator ++ lead), col, before', by simp, hcol, ?_⟩
    simpa only [List.append_assoc] using hnext

theorem exists_clean_prefix (text : Text) :
    ∃ c more, text = c ++ more ∧ (∀ x ∈ c, isLineBreak x = false) ∧
      ∀ x ∈ more.head?, isLineBreak x = true := by
  rcases text.exists_first_line with clean | ⟨content, terminator, rest, rfl, clean, ends⟩
  · exact ⟨text, [], by simp, clean, by simp⟩
  · exact ⟨content, terminator ++ rest, rfl, clean, ends.isLineBreak_head rest⟩

/-- A cut has one position, whatever stands behind it, and the position leads back to it. -/
theorem exists_position (a : Text) :
    ∃ p : Position, ∀ b, ¬ (a.getLast? = some '\r' ∧ b.head? = some '\n') →
      positionAt (a ++ b) (byteLength a) = p ∧ offsetAt (a ++ b) p = byteLength a := by
  -- A line feed may follow unless the text in front of it ends with `\r`.
  obtain ⟨next, hnext, hfree⟩ : ∃ next : Text,
      ¬ (a.getLast? = some '\r' ∧ next.head? = some '\n') ∧
        ∀ b : Text, ¬ (a.getLast? = some '\r' ∧ b.head? = some '\n') →
          b.head? = some '\n' → next.head? = some '\n' := by
    by_cases hlast : a.getLast? = some '\r'
    · exact ⟨[], by simp, fun b hb hhead => absurd ⟨hlast, hhead⟩ hb⟩
    · exact ⟨['\n'], fun h => hlast h.1, fun _ _ _ => rfl⟩
  obtain ⟨lead, col, before, rfl, hcol, hleading⟩ :=
    (leading_nil (a ++ next)).exists_last a next rfl hnext
  rw [List.nil_append] at hleading
  refine ⟨⟨before.length, unitLength col⟩, fun b hb => ?_⟩
  obtain ⟨c, more, rfl, hc, hmore⟩ := exists_clean_prefix b
  have clean : ∀ x ∈ col ++ c, isLineBreak x = false := by
    intro x hx
    rcases List.mem_append.mp hx with hx | hx
    · exact hcol x hx
    · exact hc x hx
  have hhead : ((col ++ c) ++ more).head? = some '\n' → (col ++ next).head? = some '\n' := by
    rw [List.append_assoc]
    cases col with
    | nil => exact hfree (c ++ more) hb
    | cons x col => exact id
  have hposition := hleading.positionAt hhead clean hmore
  have hoffset := hleading.offsetAt hhead clean hmore
  rw [List.append_assoc, ← List.append_assoc lead, ← byteLength_append] at hposition hoffset
  exact ⟨hposition, hoffset⟩

/-- The offset between the two characters of a `\r\n`. -/
def SplitsNewline (text : Text) (offset : Nat) : Prop :=
  ∃ a b, text = a ++ '\r' :: '\n' :: b ∧ offset = byteLength a + 1

theorem offsetAt_positionAt {text : Text} {offset : Nat} (h : isBoundary text offset = true)
    (hsplit : ¬ SplitsNewline text offset) : offsetAt text (positionAt text offset) = offset := by
  obtain ⟨a, b, rfl, rfl⟩ := isBoundary_iff.mp h
  have hcut : ¬ (a.getLast? = some '\r' ∧ b.head? = some '\n') := by
    rintro ⟨hlast, hhead⟩
    obtain ⟨front, rfl⟩ := List.getLast?_eq_some_iff.mp hlast
    obtain ⟨rest, rfl⟩ := List.head?_eq_some_iff.mp hhead
    refine hsplit ⟨front, rest, by simp, ?_⟩
    rw [byteLength_append]
    rfl
  obtain ⟨p, hp⟩ := exists_position a
  rw [(hp b hcut).1, (hp b hcut).2]

/-! ## Positions in a line -/

theorem prefix_takeUnits (units : Nat) (text : Text) : takeUnits units text <+: text := by
  induction text generalizing units with
  | nil => exact List.prefix_refl _
  | cons c text ih =>
      rw [takeUnits]
      by_cases h : units = 0
      · rw [if_pos h]
        exact List.nil_prefix
      · rw [if_neg h]
        exact List.cons_prefix_cons.mpr ⟨rfl, ih _⟩

section Line

variable {text : Text} {number : Nat} {line : Line} {a : Text}

theorem position_in_line (h : (lines text)[number]? = some line) (ha : a <+: line.content) :
    offsetAt text ⟨number, unitLength a⟩ = line.start + byteLength a ∧
      positionAt text (line.start + byteLength a) = ⟨number, unitLength a⟩ := by
  obtain ⟨hlt, hget⟩ := List.getElem?_eq_some_iff.mp h
  have hlines : lines text = (lines text).take number ++ line :: (lines text).drop (number + 1) := by
    rw [← hget, ← List.drop_eq_getElem_cons hlt, List.take_append_drop]
  obtain ⟨front, rest, hcut⟩ := Cut.exists_of_lines hlines
  obtain ⟨rest', hrest, hclean, hmore, -⟩ := hcut.exists_next
  obtain ⟨c, hcontent⟩ := ha
  rw [← hcontent] at hrest hclean
  have hnumber : ((lines text).take number).length = number := by
    rw [List.length_take]
    omega
  have hleading := hcut.leading
  rw [hrest] at hleading
  have hposition := hleading.positionAt id hclean hmore
  have hoffset := hleading.offsetAt id hclean hmore
  rw [← hrest, ← hcut.split, hnumber, ← hcut.start_eq] at hposition hoffset
  exact ⟨hoffset, hposition⟩

theorem offsetAt_eq_of_line (h : (lines text)[number]? = some line) (units : Nat) :
    offsetAt text ⟨number, units⟩ = line.start + byteLength (takeUnits units line.content) := by
  rw [offsetAt, h]

end Line

/-- Where an editor points to, whatever it says, is a place that has a position of its own. -/
theorem offsetAt_positionAt_offsetAt (text : Text) (p : Position) :
    offsetAt text (positionAt text (offsetAt text p)) = offsetAt text p := by
  cases hline : (lines text)[p.line]? with
  | none =>
      have hend : offsetAt text p = byteLength text := by rw [offsetAt, hline]
      obtain ⟨q, hq⟩ := exists_position text
      have hback := hq [] (by simp)
      rw [List.append_nil] at hback
      rw [hend, hback.1, hback.2]
  | some line =>
      have hplace := offsetAt_eq_of_line hline p.character
      obtain ⟨hoffset, hposition⟩ :=
        position_in_line hline (prefix_takeUnits p.character line.content)
      rw [show offsetAt text p = _ from hplace, hposition, hoffset]

/-! ## Order -/

theorem takeFit_prefix_of_le {α : Type} (size : α → Nat) {limit limit' : Nat} (h : limit ≤ limit')
    (xs : List α) : takeFit size limit xs <+: takeFit size limit' xs := by
  induction xs generalizing limit limit' with
  | nil => exact List.prefix_refl _
  | cons x xs ih =>
      rw [takeFit, takeFit]
      by_cases hx : size x ≤ limit
      · rw [if_pos hx, if_pos (by omega)]
        exact List.cons_prefix_cons.mpr ⟨rfl, ih (by omega)⟩
      · rw [if_neg hx]
        exact List.nil_prefix

theorem total_le_of_prefix {α : Type} (size : α → Nat) {xs ys : List α} (h : xs <+: ys) :
    total size xs ≤ total size ys := by
  obtain ⟨zs, rfl⟩ := h
  rw [total_append]
  omega

theorem floorBoundary_mono (text : Text) {offset offset' : Nat} (h : offset ≤ offset') :
    floorBoundary text offset ≤ floorBoundary text offset' :=
  total_le_of_prefix _ (takeFit_prefix_of_le _ h text)

theorem takeWhile_prefix_of_imp {α : Type} {f g : α → Bool} (xs : List α)
    (h : ∀ x, f x = true → g x = true) : xs.takeWhile f <+: xs.takeWhile g := by
  induction xs with
  | nil => exact List.prefix_refl _
  | cons x xs ih =>
      by_cases hx : f x = true
      · rw [List.takeWhile_cons, List.takeWhile_cons, if_pos hx, if_pos (h x hx)]
        exact List.cons_prefix_cons.mpr ⟨rfl, ih⟩
      · rw [List.takeWhile_cons, if_neg hx]
        exact List.nil_prefix

theorem lineOf_mono (text : Text) {offset offset' : Nat} (h : offset ≤ offset') :
    lineOf text offset ≤ lineOf text offset' := by
  have hprefix := takeWhile_prefix_of_imp (lines text)
    (f := fun line => line.start ≤ min offset (byteLength text))
    (g := fun line => line.start ≤ min offset' (byteLength text)) fun line hline => by
      simp only [decide_eq_true_eq] at hline ⊢
      omega
  have hlen := hprefix.length_le
  unfold lineOf lineIndex
  omega

theorem positionAt_mono (text : Text) {offset offset' : Nat} (h : offset ≤ offset') :
    (positionAt text offset').before (positionAt text offset) = false := by
  have hfloor := floorBoundary_mono text h
  have hline := lineOf_mono text hfloor
  by_cases heq : lineOf text (floorBoundary text offset) = lineOf text (floorBoundary text offset')
  · have hcolumn := total_le_of_prefix unitSize (takeFit_prefix_of_le Char.utf8Size
      (Nat.sub_le_sub_right hfloor (line text (lineOf text (floorBoundary text offset))).start)
      (line text (lineOf text (floorBoundary text offset))).content)
    simp only [Position.before, positionAt, ← heq, Nat.lt_irrefl, decide_false, Bool.false_or,
      BEq.rfl, Bool.true_and, decide_eq_false_iff_not, Nat.not_lt]
    exact hcolumn
  · have hlt : ¬ lineOf text (floorBoundary text offset') < lineOf text (floorBoundary text offset) := by
      omega
    have hne : ¬ lineOf text (floorBoundary text offset') = lineOf text (floorBoundary text offset) :=
      fun h => heq h.symm
    simp [Position.before, positionAt, hlt, hne]

/-- Offsets and positions are inverse to each other: an offset where a character starts comes back
from its position unless it splits a `\r\n`; a position in a line comes back from its offset; any
position leads to an offset that comes back; and positions are in the order of their offsets. -/
theorem offsets_positions_inverse (text : Text) :
    (∀ offset, isBoundary text offset = true → ¬ SplitsNewline text offset →
        offsetAt text (positionAt text offset) = offset) ∧
      (∀ (number : Nat) (line : Line) (a : Text), (lines text)[number]? = some line →
        a <+: line.content →
        positionAt text (offsetAt text ⟨number, unitLength a⟩) = ⟨number, unitLength a⟩) ∧
      (∀ p : Position, offsetAt text (positionAt text (offsetAt text p)) = offsetAt text p) ∧
      ∀ offset offset', offset ≤ offset' →
        (positionAt text offset').before (positionAt text offset) = false := by
  refine ⟨fun _ => offsetAt_positionAt, ?_, offsetAt_positionAt_offsetAt text,
    fun _ _ => positionAt_mono text⟩
  intro number line a hline ha
  obtain ⟨hoffset, hposition⟩ := position_in_line hline ha
  rw [hoffset, hposition]

end Text

end Dockerfile
