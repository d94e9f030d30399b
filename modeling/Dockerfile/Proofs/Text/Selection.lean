import Dockerfile.Proofs.Text.RoundTrip
import Dockerfile.Proofs.Text.Widening

/-!
# What an editor can select

A span of the text is selected by the positions of its ends, and it is found again from these unless
one of its ends stands between a carriage return and its line feed. No number of a position is
greater than the length of the text.
-/

namespace Dockerfile

namespace Text

theorem byteLength_pos_of_ne_nil {text : Text} (h : text ≠ []) : 0 < byteLength text := by
  obtain ⟨c, rest, rfl⟩ := List.exists_cons_of_ne_nil h
  exact Nat.add_pos_left c.utf8Size_pos _

/-- Of two beginnings of a text, the one with fewer bytes is a beginning of the other. -/
theorem prefix_of_byteLength_le {a b text : Text} (ha : a <+: text) (hb : b <+: text)
    (h : byteLength a ≤ byteLength b) : a <+: b := by
  rcases List.prefix_or_prefix_of_prefix ha hb with hab | ⟨rest, rfl⟩
  · exact hab
  · have hrest : rest = [] := by
      refine Classical.byContradiction fun hne => ?_
      have := byteLength_pos_of_ne_nil hne
      rw [byteLength_append] at h
      omega
    exact ⟨[], by rw [hrest, List.append_nil, List.append_nil]⟩

/-! ## Ends of characters -/

theorem not_splitsNewline_append {a b : Text} (h : ∀ c ∈ b.head?, c ≠ '\n') :
    ¬SplitsNewline (a ++ b) (byteLength a) := by
  rintro ⟨front, rest, htext, hfront⟩
  have hlen : byteLength (front ++ ['\r']) = byteLength a := by
    rw [byteLength_append, byteLength_cons, byteLength_nil, hfront]
    rfl
  have hsame : (front ++ ['\r']) ++ '\n' :: rest = a ++ b := by
    rw [htext, List.append_assoc]
    rfl
  exact h '\n' ((eq_of_byteLength_eq hsame hlen).2 ▸ rfl) rfl

theorem not_splitsNewline_offset {text : Text} {p : Placed} (h : p ∈ place 0 text)
    (hchar : p.char ≠ '\n') : ¬SplitsNewline text p.offset := by
  obtain ⟨front, rest, rfl, hfront⟩ := exists_split_of_mem_place h
  rw [hfront, Nat.zero_add]
  refine not_splitsNewline_append fun c hc => ?_
  cases Option.some.inj hc
  exact hchar

theorem not_splitsNewline_stop {text : Text} {p : Placed} (h : p ∈ place 0 text)
    (hchar : p.char ≠ '\r') : ¬SplitsNewline text p.stop := by
  rintro ⟨a, b, rfl, hstop⟩
  obtain ⟨front, rest, htext, hfront⟩ := exists_split_of_mem_place h
  have hlen : byteLength (a ++ ['\r']) = byteLength (front ++ [p.char]) := by
    have hsize : p.stop = p.offset + p.char.utf8Size := rfl
    simp only [byteLength_append, byteLength_cons, byteLength_nil,
      show '\r'.utf8Size = 1 by decide]
    omega
  have hsame : (a ++ ['\r']) ++ '\n' :: b = (front ++ [p.char]) ++ rest := by
    rw [List.append_assoc, List.append_assoc]
    exact htext
  have hlast := congrArg List.getLast? (eq_of_byteLength_eq hsame hlen).1
  rw [List.getLast?_concat, List.getLast?_concat] at hlast
  exact hchar (Option.some.inj hlast).symm

end Text

/-- A place in a line is found again from its position. -/
theorem Text.Cut.offsetAt_positionAt {text front rest a : Text} {before after : List Line}
    {line : Line} (h : Text.Cut text front rest before (line :: after)) (ha : a <+: line.content) :
    Text.offsetAt text (Text.positionAt text (line.start + Text.byteLength a)) =
      line.start + Text.byteLength a := by
  have hline : (Text.lines text)[before.length]? = some line := by
    rw [h.lines_eq, List.getElem?_append_right (Nat.le_refl _), Nat.sub_self]
    rfl
  obtain ⟨hoffset, hposition⟩ := Text.position_in_line hline ha
  rw [hposition, hoffset]

theorem Text.Cut.lineOf_eq {text front rest a : Text} {before after : List Line} {line : Line}
    (h : Text.Cut text front rest before (line :: after)) (ha : a <+: line.content) :
    Text.lineOf text (line.start + Text.byteLength a) = before.length := by
  have hline : (Text.lines text)[before.length]? = some line := by
    rw [h.lines_eq, List.getElem?_append_right (Nat.le_refl _), Nat.sub_self]
    rfl
  have hnumber := congrArg Position.line (Text.position_in_line hline ha).2
  obtain ⟨rest', hrest, -⟩ := h.exists_next
  obtain ⟨c, hcontent⟩ := ha
  have hsplit := h.split
  rw [hrest, ← hcontent, List.append_assoc, ← List.append_assoc front] at hsplit
  rwa [Text.positionAt, Text.floorBoundary_of_isBoundary (Text.isBoundary_iff.mpr
    ⟨_, _, hsplit, by rw [h.start_eq, Text.byteLength_append]⟩)] at hnumber

/-- A span from a place in a line to a place in the same line or a later one is found again from its
range. -/
theorem Text.Cut.spanOf_rangeOf {text front rest front' rest' a v : Text}
    {before before' tail after : List Line} {first last : Line}
    (h : Text.Cut text front rest before (first :: tail))
    (h' : Text.Cut text front' rest' before' (last :: after)) (ha : a <+: first.content)
    (hv : v <+: last.content)
    (hle : first.start + Text.byteLength a ≤ last.start + Text.byteLength v) :
    Text.spanOf text (Text.rangeOf text
        ⟨first.start + Text.byteLength a, last.start + Text.byteLength v⟩) =
      ⟨first.start + Text.byteLength a, last.start + Text.byteLength v⟩ := by
  simp only [Text.spanOf, Text.rangeOf, h.offsetAt_positionAt ha, h'.offsetAt_positionAt hv,
    Nat.min_eq_left hle, Nat.max_eq_right hle]

/-! ## Selections -/

/-- The span stands in the text, and an editor can select it. -/
structure Span.Selectable (text : Text) (span : Span) : Prop where
  placed : span.WellPlaced text
  start : ¬Text.SplitsNewline text span.start
  stop : ¬Text.SplitsNewline text span.stop

theorem Span.Selectable.spanOf_rangeOf {text : Text} {span : Span} (h : span.Selectable text) :
    Text.spanOf text (Text.rangeOf text span) = span := by
  have hstart := Text.offsetAt_positionAt h.placed.start_boundary h.start
  have hstop := Text.offsetAt_positionAt h.placed.stop_boundary h.stop
  simp only [Text.spanOf, Text.rangeOf, hstart, hstop, Nat.min_eq_left h.placed.ordered,
    Nat.max_eq_right h.placed.ordered]

theorem Placed.selectable_spanTo {text : Text} {p q : Placed} (hp : p ∈ Text.place 0 text)
    (hq : q ∈ Text.place 0 text) (hpq : p.offset ≤ q.offset)
    (hp' : isLineBreak p.char = false) (hq' : isLineBreak q.char = false) :
    (p.spanTo q).Selectable text := by
  have hne : ∀ {c : Char}, isLineBreak c = false → c ≠ '\n' ∧ c ≠ '\r' := by
    intro c hc
    refine ⟨?_, ?_⟩ <;> rintro rfl <;> exact absurd hc (by decide)
  have hstop : max q.stop p.offset = q.stop :=
    Nat.max_eq_left (Nat.le_trans hpq (Nat.le_of_lt q.offset_lt_stop))
  refine ⟨.of_boundaries (Nat.le_max_right _ _) (Text.isBoundary_of_mem_place hp).1 ?_,
    Text.not_splitsNewline_offset hp (hne hp').1, ?_⟩
  · show Text.isBoundary text (max q.stop p.offset) = true
    rw [hstop]
    exact (Text.isBoundary_of_mem_place hq).2
  · show ¬Text.SplitsNewline text (max q.stop p.offset)
    rw [hstop]
    exact Text.not_splitsNewline_stop hq (hne hq').2

namespace Excerpt

theorem span_eq_spanTo {e : Excerpt} {p q : Placed} (hp : e.chars.head? = some p)
    (hq : e.chars.getLast? = some q) : e.span = p.spanTo q := by
  have hstart : e.start = p.offset := by
    unfold start
    cases hchars : e.chars with
    | nil => simp [hchars] at hp
    | cons r rest =>
        rw [hchars, List.head?_cons] at hp
        rw [Option.some.inj hp, Placed.startOr_cons]
  simp only [span, Placed.spanTo, stop, Placed.stopOr, hq, hstart]

theorem Within.head_offset_le {text : Text} {e : Excerpt} (h : e.Within text) (hne : e.chars ≠ []) :
    (e.chars.head hne).offset ≤ (e.chars.getLast hne).offset := by
  have hpairs := (Text.pairwise_place 0 text).sublist h.chars
  generalize e.chars = chars at hne hpairs
  cases chars with
  | nil => exact absurd rfl hne
  | cons p rest =>
      rcases List.mem_cons.mp (List.getLast_mem hne) with hlast | hlast
      · exact Nat.le_of_eq (by rw [hlast, List.head_cons])
      · exact Nat.le_trans (Nat.le_of_lt p.offset_lt_stop)
          ((List.pairwise_cons.mp hpairs).1 _ hlast)

/-- An excerpt of a single line's characters, or of the contents of several lines. -/
theorem Within.selectable {text : Text} {e : Excerpt} (h : e.Within text) (hne : e.chars ≠ [])
    (hclean : ∀ p ∈ e.chars, isLineBreak p.char = false) : e.span.Selectable text := by
  have hp := List.head?_eq_some_head hne
  have hq := List.getLast?_eq_some_getLast hne
  rw [span_eq_spanTo hp hq]
  have hmem : ∀ p ∈ e.chars, p ∈ Text.place 0 text := fun p hp => h.chars.mem hp
  exact Placed.selectable_spanTo (hmem _ (List.head_mem hne)) (hmem _ (List.getLast_mem hne))
    (h.head_offset_le hne) (hclean _ (List.head_mem hne)) (hclean _ (List.getLast_mem hne))

end Excerpt

/-! ## The order of positions -/

theorem Position.eq_of_not_before {a b : Position} (hab : a.before b = false)
    (hba : b.before a = false) : a = b := by
  obtain ⟨line, character⟩ := a
  obtain ⟨line', character'⟩ := b
  simp only [before, Bool.or_eq_false_iff, Bool.and_eq_false_iff, decide_eq_false_iff_not,
    beq_eq_false_iff_ne] at hab hba
  have hline : line = line' := by omega
  have hcharacter : character = character' := by omega
  rw [hline, hcharacter]

/-- Places that can be selected are told apart by their positions. -/
theorem Text.positionAt_before {text : Text} {a b : Nat} (h : a < b)
    (ha : isBoundary text a = true) (hb : isBoundary text b = true) (hsplit : ¬SplitsNewline text a)
    (hsplit' : ¬SplitsNewline text b) : (positionAt text a).before (positionAt text b) = true := by
  cases hbefore : (positionAt text a).before (positionAt text b) with
  | true => rfl
  | false =>
      have hsame := Position.eq_of_not_before hbefore (positionAt_mono text (Nat.le_of_lt h))
      have hoffset := congrArg (offsetAt text) hsame
      rw [offsetAt_positionAt ha hsplit, offsetAt_positionAt hb hsplit'] at hoffset
      omega

def Range.inside (inner outer : Range) : Bool :=
  !inner.start.before outer.start && !outer.stop.before inner.stop

theorem Text.rangeOf_inside (text : Text) {inner outer : Span} (hstart : outer.start ≤ inner.start)
    (hstop : inner.stop ≤ outer.stop) : (rangeOf text inner).inside (rangeOf text outer) = true := by
  simp only [Range.inside, rangeOf, positionAt_mono text hstart, positionAt_mono text hstop,
    Bool.not_false, Bool.and_self]

/-! ## The size of positions -/

theorem unitSize_le (c : Char) : unitSize c ≤ c.utf8Size := by
  unfold unitSize
  split
  · rename_i h
    have h1 : ¬c.val ≤ 0x7f := fun hle => by
      have hle : c.toNat ≤ 0x7f := UInt32.le_iff_toNat_le.mp hle
      omega
    rw [Char.utf8Size]
    split
    · rename_i hle
      exact absurd hle h1
    · split
      · exact Nat.le_refl 2
      · split <;> omega
  · exact Char.utf8Size_pos c

theorem Text.unitLength_le (text : Text) : unitLength text ≤ byteLength text := by
  induction text with
  | nil => exact Nat.le_refl 0
  | cons c rest ih => exact Nat.add_le_add (unitSize_le c) ih

theorem Lined.length_le {start : Nat} {text : Text} {lines : List Line} (h : Lined start text lines) :
    lines.length ≤ Text.byteLength text + 1 := by
  induction h with
  | last => simp
  | cons clean ends next ih =>
      have := ends.byteLength_pos
      simp only [List.length_cons, Text.byteLength_append]
      omega

namespace Text

theorem byteLength_content_le {text : Text} {line : Line} (h : line ∈ lines text) :
    byteLength line.content ≤ byteLength text := by
  obtain ⟨before, after, heq⟩ := List.append_of_mem h
  obtain ⟨front, rest, hcut⟩ := Cut.exists_of_lines heq
  obtain ⟨rest', hrest, -⟩ := hcut.exists_next
  rw [hcut.split, hrest]
  simp only [byteLength_append]
  omega

theorem positionAt_le (text : Text) (offset : Nat) :
    (positionAt text offset).line ≤ byteLength text ∧
      (positionAt text offset).character ≤ byteLength text := by
  have hlines := (lined_lines text).length_le
  have hlt := lineOf_lt text (floorBoundary text offset)
  have hmem : line text (lineOf text (floorBoundary text offset)) ∈ lines text := by
    rw [line, List.getElem?_eq_getElem hlt]
    exact List.getElem_mem hlt
  refine ⟨Nat.le_of_lt_succ (Nat.lt_of_lt_of_le hlt hlines), ?_⟩
  refine Nat.le_trans (unitLength_le _) (Nat.le_trans ?_ (byteLength_content_le hmem))
  exact total_le_of_prefix _ ⟨_, takeFit_append_dropFit _ _ _⟩

/-- The numbers of a position in a text of less than 4 GiB are the same in words of 32 bits. -/
theorem toUInt32_positionAt {text : Text} (h : byteLength text < UInt32.size) (offset : Nat) :
    (positionAt text offset).line.toUInt32.toNat = (positionAt text offset).line ∧
      (positionAt text offset).character.toUInt32.toNat = (positionAt text offset).character := by
  obtain ⟨hline, hcharacter⟩ := positionAt_le text offset
  exact ⟨UInt32.toNat_ofNat_of_lt' (Nat.lt_of_le_of_lt hline h),
    UInt32.toNat_ofNat_of_lt' (Nat.lt_of_le_of_lt hcharacter h)⟩

theorem toUInt32_lineOf {text : Text} (h : byteLength text < UInt32.size) (offset : Nat) :
    (lineOf text offset).toUInt32.toNat = lineOf text offset := by
  have hlt := Nat.lt_of_lt_of_le (lineOf_lt text offset) (lined_lines text).length_le
  exact UInt32.toNat_ofNat_of_lt' (Nat.lt_of_le_of_lt (Nat.le_of_lt_succ hlt) h)

end Text

end Dockerfile
