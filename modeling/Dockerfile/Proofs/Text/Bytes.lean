import Dockerfile.Proofs.Text.Placement

/-!
# The bytes of an excerpt

An excerpt is a faithful part of a text if its bytes stand in the text, in the same order, at the
offsets that `Excerpt.rawOffset` gives. Every selection of placed characters is one
(`Excerpt.faithful_of_sublist`), and the spans computed from it lie in the text and do not cut a
character (`Excerpt.Within.span`).
-/

namespace Dockerfile

namespace Text

def bytes (text : Text) : List UInt8 :=
  text.flatMap String.utf8EncodeChar

theorem bytes_cons (c : Char) (text : Text) :
    bytes (c :: text) = String.utf8EncodeChar c ++ bytes text := rfl

theorem bytes_append (a b : Text) : bytes (a ++ b) = bytes a ++ bytes b :=
  List.flatMap_append

theorem length_bytes (text : Text) : (bytes text).length = byteLength text := by
  induction text with
  | nil => rfl
  | cons c text ih => simp [bytes_cons, ih]

theorem getElem?_bytes_of_mem_place {text : Text} {p : Placed} (h : p ∈ place 0 text) {j : Nat}
    (hj : j < p.size) : (bytes text)[p.offset + j]? = (String.utf8EncodeChar p.char)[j]? := by
  obtain ⟨a, b, rfl, ho⟩ := exists_split_of_mem_place h
  have hlen : (bytes a).length = p.offset := by rw [length_bytes]; omega
  rw [bytes_append, bytes_cons, List.getElem?_append_right (by omega), hlen,
    Nat.add_sub_cancel_left, List.getElem?_append_left]
  rwa [String.length_utf8EncodeChar]

end Text

namespace Placed

def offsets (chars : List Placed) : List Nat :=
  chars.flatMap fun p => List.range' p.offset p.size

theorem offsets_cons (p : Placed) (chars : List Placed) :
    offsets (p :: chars) = List.range' p.offset p.size ++ offsets chars := rfl

theorem offsets_append (a b : List Placed) : offsets (a ++ b) = offsets a ++ offsets b :=
  List.flatMap_append

theorem mem_offsets {chars : List Placed} {o : Nat} :
    o ∈ offsets chars ↔ ∃ p ∈ chars, p.offset ≤ o ∧ o < p.stop := by
  simp [offsets, stop, List.mem_flatMap, List.mem_range'_1]

theorem offsets_sublist {a b : List Placed} (h : a.Sublist b) : (offsets a).Sublist (offsets b) := by
  induction h with
  | slnil => exact List.Sublist.refl _
  | cons p _ ih => exact ih.trans (List.sublist_append_right _ _)
  | cons_cons p _ ih => exact ih.append_left _

theorem offsets_place (offset : Nat) (text : Text) :
    offsets (Text.place offset text) = List.range' offset (Text.byteLength text) := by
  induction text generalizing offset with
  | nil => rfl
  | cons c text ih =>
      rw [Text.place_cons, offsets_cons, ih, Text.byteLength_cons]
      exact List.range'_append_1

theorem offsets_increasing {chars : List Placed} {text : Text}
    (h : chars.Sublist (Text.place 0 text)) : (offsets chars).Pairwise (· < ·) := by
  refine List.Pairwise.sublist (offsets_sublist h) ?_
  rw [offsets_place]
  exact List.pairwise_lt_range'

theorem stop_le_stopOr {chars : List Placed} (h : chars.Pairwise fun p q => p.stop ≤ q.offset)
    {p : Placed} (hp : p ∈ chars) (anchor : Nat) : p.stop ≤ stopOr anchor chars := by
  rcases List.eq_nil_or_concat chars with rfl | ⟨front, last, rfl⟩
  · cases hp
  · rw [List.concat_eq_append] at h hp ⊢
    simp only [stopOr, List.getLast?_append, List.getLast?_singleton, Option.some_or]
    rcases List.mem_append.mp hp with hp | hp
    · have := (List.pairwise_append.mp h).2.2 p hp last List.mem_cons_self
      have := last.offset_lt_stop
      omega
    · exact Nat.le_of_eq (congrArg stop (List.mem_singleton.mp hp))

end Placed

namespace Span

/-- A span in a text, with both ends between characters. -/
structure WellPlaced (text : Text) (span : Span) : Prop where
  ordered : span.start ≤ span.stop
  bounded : span.stop ≤ Text.byteLength text
  start_boundary : Text.isBoundary text span.start = true
  stop_boundary : Text.isBoundary text span.stop = true

theorem WellPlaced.of_boundaries {text : Text} {start stop : Nat} (h : start ≤ stop)
    (hstart : Text.isBoundary text start = true) (hstop : Text.isBoundary text stop = true) :
    WellPlaced text ⟨start, stop⟩ :=
  ⟨h, Text.le_byteLength_of_isBoundary hstop, hstart, hstop⟩

end Span

namespace Excerpt

def offsets (e : Excerpt) : List Nat :=
  (List.range e.byteLength).map e.rawOffset

/-- Each byte of the excerpt stands in the text at the offset it is mapped to, and the offsets
increase. -/
structure Faithful (text : Text) (e : Excerpt) : Prop where
  increasing : e.offsets.Pairwise (· < ·)
  byte : ∀ i, i < e.byteLength →
    ∃ b, (Text.bytes e.text)[i]? = some b ∧ (Text.bytes text)[e.rawOffset i]? = some b

theorem offsetIn_append (stop : Nat) (a b : List Placed) (index : Nat) :
    offsetIn stop (a ++ b) (total Placed.size a + index) = offsetIn stop b index := by
  induction a with
  | nil => simp
  | cons p a ih =>
      rw [List.cons_append, total_cons, offsetIn, if_neg (by omega)]
      rw [show p.size + total Placed.size a + index - p.size = total Placed.size a + index by omega]
      exact ih

theorem map_offsetIn (stop : Nat) (chars : List Placed) :
    (List.range (total Placed.size chars)).map (offsetIn stop chars) = Placed.offsets chars := by
  induction chars with
  | nil => rfl
  | cons p chars ih =>
      rw [total_cons, List.range_add, List.map_append, Placed.offsets_cons, ← ih]
      congr 1
      · rw [List.range'_eq_map_range]
        refine List.map_congr_left fun i hi => ?_
        rw [offsetIn, if_pos (List.mem_range.mp hi)]
      · rw [List.map_map]
        refine List.map_congr_left fun i _ => ?_
        rw [Function.comp_apply, offsetIn, if_neg (by omega), Nat.add_sub_cancel_left]

theorem offsets_eq (e : Excerpt) : e.offsets = Placed.offsets e.chars :=
  map_offsetIn e.stop e.chars

theorem mem_offsets {e : Excerpt} {o : Nat} :
    o ∈ e.offsets ↔ ∃ p ∈ e.chars, p.offset ≤ o ∧ o < p.stop := by
  rw [offsets_eq, Placed.mem_offsets]

/-- A byte of an excerpt is a byte of one of its characters, there and in the file. -/
theorem exists_char_of_index (stop : Nat) {chars : List Placed} {i : Nat}
    (h : i < total Placed.size chars) :
    ∃ p ∈ chars, ∃ j, j < p.size ∧ offsetIn stop chars i = p.offset + j ∧
      (Text.bytes (Placed.text chars))[i]? = (String.utf8EncodeChar p.char)[j]? := by
  induction chars generalizing i with
  | nil => simp at h
  | cons p chars ih =>
      have hlen : (String.utf8EncodeChar p.char).length = p.size := String.length_utf8EncodeChar _
      rw [Placed.text_cons, Text.bytes_cons]
      by_cases hi : i < p.size
      · refine ⟨p, List.mem_cons_self, i, hi, by rw [offsetIn, if_pos hi], ?_⟩
        exact List.getElem?_append_left (by omega)
      · rw [total_cons] at h
        obtain ⟨q, hq, j, hj, ho, hb⟩ := ih (i := i - p.size) (by omega)
        refine ⟨q, List.mem_cons_of_mem _ hq, j, hj, by rw [offsetIn, if_neg hi, ho], ?_⟩
        rw [List.getElem?_append_right (by omega), hlen, hb]

theorem faithful_of_sublist {text : Text} {e : Excerpt} (h : e.chars.Sublist (Text.place 0 text)) :
    e.Faithful text where
  increasing := by
    rw [offsets_eq]
    exact Placed.offsets_increasing h
  byte := by
    intro i hi
    obtain ⟨p, hp, j, hj, ho, hb⟩ := exists_char_of_index e.stop hi
    have hlt : j < (String.utf8EncodeChar p.char).length := by
      rw [String.length_utf8EncodeChar]
      exact hj
    refine ⟨(String.utf8EncodeChar p.char)[j], ?_, ?_⟩
    · exact hb.trans (List.getElem?_eq_getElem hlt)
    · rw [rawOffset, ho, Text.getElem?_bytes_of_mem_place (h.mem hp) hj]
      exact List.getElem?_eq_getElem hlt

/-! ## Spans of an excerpt -/

/-- A selection of the characters of a text, which stands at a boundary if it is empty. -/
structure Within (text : Text) (e : Excerpt) : Prop where
  chars : e.chars.Sublist (Text.place 0 text)
  anchor : Text.isBoundary text e.anchor = true

theorem start_eq (e : Excerpt) : e.start = e.anchor ∨ ∃ p ∈ e.chars, e.start = p.offset := by
  unfold start
  cases h : e.chars with
  | nil => exact .inl rfl
  | cons p chars => exact .inr ⟨p, List.mem_cons_self, rfl⟩

theorem stop_eq (e : Excerpt) :
    (e.chars = [] ∧ e.stop = e.anchor) ∨ ∃ p ∈ e.chars, e.stop = p.stop := by
  unfold stop Placed.stopOr
  cases h : e.chars.getLast? with
  | none => exact .inl ⟨List.getLast?_eq_none_iff.mp h, rfl⟩
  | some p => exact .inr ⟨p, List.mem_of_getLast? h, rfl⟩

namespace Within

variable {text : Text} {e : Excerpt}

theorem start_boundary (h : e.Within text) : Text.isBoundary text e.start = true := by
  rcases e.start_eq with hs | ⟨p, hp, hs⟩
  · rw [hs]; exact h.anchor
  · rw [hs]; exact (Text.isBoundary_of_mem_place (h.chars.mem hp)).1

theorem stop_boundary (h : e.Within text) : Text.isBoundary text e.stop = true := by
  rcases e.stop_eq with ⟨-, hs⟩ | ⟨p, hp, hs⟩
  · rw [hs]; exact h.anchor
  · rw [hs]; exact (Text.isBoundary_of_mem_place (h.chars.mem hp)).2

theorem span (h : e.Within text) : e.span.WellPlaced text :=
  .of_boundaries (Nat.le_max_right _ _) h.start_boundary
    (Text.isBoundary_max h.stop_boundary h.start_boundary)

theorem startOr_boundary (h : e.Within text) {rest : List Placed} (hr : rest.Sublist e.chars) :
    Text.isBoundary text (Placed.startOr e.stop rest) = true := by
  cases rest with
  | nil => exact h.stop_boundary
  | cons p rest =>
      exact (Text.isBoundary_of_mem_place (h.chars.mem (hr.mem List.mem_cons_self))).1

theorem part (h : e.Within text) {kept rest : List Placed} (hk : kept.Sublist e.chars)
    (hr : rest.Sublist e.chars) : (e.part kept rest).Within text :=
  ⟨hk.trans h.chars, h.startOr_boundary hr⟩

theorem stop_le (h : e.Within text) {p : Placed} (hp : p ∈ e.chars) : p.stop ≤ e.span.stop :=
  Nat.le_trans (Placed.stop_le_stopOr ((Text.pairwise_place 0 text).sublist h.chars) hp e.anchor)
    (Nat.le_max_left _ _)

end Within

/-- The bytes up to a character end where the character does. -/
theorem spanAt_zero_stop {e : Excerpt} {a b : List Placed} {p : Placed}
    (h : e.chars = a ++ p :: b) :
    (e.spanAt 0 (total Placed.size (a ++ [p]))).stop = max p.stop (e.rawOffset 0) := by
  have hpos := p.size_pos
  have hn : total Placed.size (a ++ [p]) = total Placed.size a + p.size := by simp
  have hle : total Placed.size (a ++ [p]) ≤ e.byteLength := by
    rw [byteLength, h, hn]
    simp only [total_append, total_cons]
    omega
  have hlast : e.rawOffset (total Placed.size (a ++ [p]) - 1) + 1 = p.stop := by
    rw [rawOffset, h, hn, Nat.add_sub_assoc hpos, offsetIn_append, offsetIn, if_pos (by omega)]
    simp only [Placed.stop]
    omega
  rw [spanAt, if_neg (by omega), if_pos hle, hlast]

theorem exists_prefix_of_trimmedBounds (e : Excerpt) :
    ∃ a b, e.chars = a ++ b ∧ e.trimmedBounds.2 = total Placed.size a := by
  obtain ⟨tail, htail⟩ := Text.trimBlanksEnd_prefix e.text
  obtain ⟨a, b, hab, ha, -⟩ := List.map_eq_append_iff.mp htail.symm
  have hstop : Text.byteLength (Text.trimBlanksEnd e.text) = total Placed.size a := by
    rw [Placed.total_size, ← ha]
    rfl
  rcases Nat.le_total (total Placed.size (leadingBlanks e.chars).1)
    (Text.byteLength (Text.trimBlanksEnd e.text)) with h | h
  · exact ⟨a, b, hab, (Nat.max_eq_left h).trans hstop⟩
  · exact ⟨_, _, (List.takeWhile_append_dropWhile).symm, Nat.max_eq_right h⟩

end Excerpt

end Dockerfile
