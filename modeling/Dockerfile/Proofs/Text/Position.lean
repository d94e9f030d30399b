import Dockerfile.Proofs.Text.Lines

/-!
# Line numbers and editor positions

A text can be cut in front of each of its lines, and `Cut` says what stands before and behind. The
number of a line and the position of an offset in it depend on the lines in front of the cut only, so
they mean the same in every text that begins with the same lines (`Leading.spanOf_rangeOf`).
-/

namespace Dockerfile

namespace Text

/-- The text is cut in front of a line: `before` are the lines of `front`, and `lines` those of
`rest`. -/
structure Cut (text front rest : Text) (before lines : List Line) : Prop where
  split : text = front ++ rest
  leading : Leading front rest before
  lined : Lined (byteLength front) rest lines
  margin : ∀ c ∈ front.getLast?, isLineBreak c = true

theorem cut_start (text : Text) : Cut text [] text [] (lines text) :=
  ⟨rfl, leading_nil text, lined_lines text, by simp⟩

namespace Cut

variable {text front rest : Text} {before after : List Line} {line : Line}

theorem lines_eq {lines : List Line} (h : Cut text front rest before lines) :
    Text.lines text = before ++ lines := by
  rw [h.split, h.leading.eq id, h.lined.linesFrom_eq]

theorem front_eq {lines : List Line} (h : Cut text front rest before lines) :
    front = before.flatMap Line.whole := by
  have hwhole := (lined_lines text).text_eq
  rw [h.lines_eq, List.flatMap_append, ← h.lined.text_eq, h.split] at hwhole
  exact List.append_cancel_right hwhole

theorem line_eq (h : Cut text front rest before (line :: after)) :
    Text.line text before.length = line := by
  rw [Text.line, h.lines_eq, List.getElem?_append_right (Nat.le_refl _), Nat.sub_self]
  rfl

theorem start_eq (h : Cut text front rest before (line :: after)) : line.start = byteLength front := by
  obtain ⟨_, -, hstart, -⟩ := h.lined.exists_head
  exact hstart

theorem exists_next (h : Cut text front rest before (line :: after)) :
    ∃ rest', rest = line.content ++ (line.terminator ++ rest') ∧
      (∀ c ∈ line.content, isLineBreak c = false) ∧
      (∀ c ∈ (line.terminator ++ rest').head?, isLineBreak c = true) ∧
      ((after = [] ∧ line.terminator = [] ∧ rest' = []) ∨
        (IsTerminator line.terminator rest' ∧
          Cut text (front ++ (line.content ++ line.terminator)) rest' (before ++ [line]) after)) := by
  obtain ⟨rest', hrest, hstart, hclean, hbreak, hnext⟩ := h.lined.exists_head
  refine ⟨rest', hrest, hclean, ?_, ?_⟩
  · rcases hnext with ⟨-, hnil⟩ | ⟨ends, -⟩
    · simp [hnil]
    · exact ends.isLineBreak_head rest'
  · rcases hnext with ⟨hafter, hnil⟩ | ⟨ends, hnext⟩
    · obtain ⟨hterm, hrest'⟩ := List.append_eq_nil_iff.mp hnil
      exact .inl ⟨hafter, hterm, hrest'⟩
    · refine .inr ⟨ends, ?_, ?_, ?_, ?_⟩
      · rw [h.split, hrest]
        simp only [List.append_assoc]
      · have hleading := h.leading
        rw [hrest] at hleading
        have hsnoc := hleading.snoc hclean ends
        rwa [← hstart] at hsnoc
      · rwa [byteLength_append]
      · intro c hc
        rw [← List.append_assoc, List.getLast?_append] at hc
        rcases Option.or_eq_some_iff.mp (Option.mem_def.mp hc) with hlast | ⟨hnone, -⟩
        · exact hbreak c (List.mem_of_getLast? hlast)
        · exact absurd (List.getLast?_eq_none_iff.mp hnone) ends.ne_nil

theorem exists_of_lines (h : Text.lines text = before ++ line :: after) :
    ∃ front rest, Cut text front rest before (line :: after) := by
  suffices key : ∀ later {front rest before}, Cut text front rest before (later ++ line :: after) →
      ∃ front rest, Cut text front rest (before ++ later) (line :: after) by
    have hstart := cut_start text
    rw [h] at hstart
    exact key before hstart
  intro later
  induction later with
  | nil =>
      intro front rest before hcut
      rw [List.append_nil]
      exact ⟨front, rest, hcut⟩
  | cons first later ih =>
      intro front rest before hcut
      obtain ⟨rest', -, -, -, ⟨hnil, -⟩ | ⟨-, hnext⟩⟩ := hcut.exists_next
      · simp at hnil
      · have hlater := ih hnext
        rwa [List.append_assoc, List.singleton_append] at hlater

theorem exists_of_lt {number : Nat} (h : number < (Text.lines text).length) :
    ∃ front rest before line after, Cut text front rest before (line :: after) ∧
      before.length = number := by
  have hlines : Text.lines text = (Text.lines text).take number ++
      (Text.lines text)[number] :: (Text.lines text).drop (number + 1) := by
    rw [List.getElem_cons_drop, List.take_append_drop]
  obtain ⟨front, rest, hcut⟩ := exists_of_lines hlines
  exact ⟨front, rest, _, _, _, hcut, List.length_take_of_le (Nat.le_of_lt h)⟩

theorem unique {front' rest' : Text} {before' lines lines' : List Line}
    (h : Cut text front rest before lines) (h' : Cut text front' rest' before' lines')
    (hlength : byteLength front = byteLength front') :
    front = front' ∧ before = before' ∧ lines = lines' := by
  have hfront : front = front' := by
    rw [← takeBytes_append_byteLength front rest, ← h.split, hlength, h'.split,
      takeBytes_append_byteLength]
  subst hfront
  have hrest : rest = rest' := List.append_cancel_left (h.split.symm.trans h'.split)
  subst hrest
  have hlines : lines = lines' := h.lined.linesFrom_eq.symm.trans h'.lined.linesFrom_eq
  subst hlines
  exact ⟨rfl, List.append_cancel_right (h.lines_eq.symm.trans h'.lines_eq), rfl⟩

/-- Lines are numbered in the order in which they start. -/
theorem le_lineOf_iff (h : Cut text front rest before (line :: after)) {offset : Nat}
    (hle : offset ≤ byteLength text) : before.length ≤ lineOf text offset ↔ line.start ≤ offset := by
  have hstart := h.start_eq
  rw [lineOf, Nat.min_eq_left hle, h.lines_eq, lineIndex]
  constructor
  · intro hnumber
    refine Decidable.byContradiction fun hlt => ?_
    cases before with
    | nil =>
        have hlined := lined_lines text
        rw [h.lines_eq, List.nil_append] at hlined
        obtain ⟨_, -, hzero, -⟩ := hlined.exists_head
        omega
    | cons first before =>
        have hprefix : ((first :: before) ++ line :: after).takeWhile
            (fun line => line.start ≤ offset) <+: first :: before := by
          rw [List.takeWhile_append]
          split
          · simp [hlt]
          · exact List.takeWhile_prefix _
        have hlen := hprefix.length_le
        rw [List.length_cons] at hnumber hlen
        omega
  · intro hoffset
    have hbefore : ∀ l ∈ before, decide (l.start ≤ offset) = true := by
      intro l hl
      have := h.leading.start_lt l hl
      exact decide_eq_true (by omega)
    rw [List.takeWhile_append_of_pos hbefore, List.takeWhile_cons, if_pos (by simpa using hoffset),
      List.length_append, List.length_cons]
    omega

theorem isLineBreak_of_stop_eq (h : Cut text front rest before (line :: after)) {p : Placed}
    (hp : p ∈ place 0 text) (hstop : p.stop = line.start) : isLineBreak p.char = true := by
  obtain ⟨a, b, htext, hoffset⟩ := exists_split_of_mem_place hp
  rw [h.start_eq] at hstop
  have hlen : byteLength (a ++ [p.char]) = byteLength front := by
    rw [← hstop, byteLength_append, byteLength_cons, byteLength_nil, Placed.stop, Placed.size]
    omega
  have hfront : front = a ++ [p.char] := by
    have hsplit : front ++ rest = (a ++ [p.char]) ++ b := by
      rw [← h.split, htext, List.append_assoc, List.singleton_append]
    have := takeBytes_append_byteLength front rest
    rw [hsplit, ← hlen, takeBytes_append_byteLength] at this
    exact this.symm
  exact h.margin p.char (by rw [hfront, List.getLast?_concat]; rfl)

theorem stop_le_or_start_le (h : Cut text front rest before (line :: after)) {p : Placed}
    (hp : p ∈ place 0 text) : p.stop ≤ line.start ∨ line.start ≤ p.offset := by
  rw [h.split, place_append, Nat.zero_add] at hp
  rw [h.start_eq]
  rcases List.mem_append.mp hp with hp | hp
  · have := (offset_of_mem_place hp).2
    exact .inl (by omega)
  · exact .inr (offset_of_mem_place hp).1

end Cut

/-- A `\r` at the end of the front takes a line feed behind it into its line. -/
theorem Leading.exists_feed {front rest : Text} {lines : List Line} (h : Leading front rest lines)
    (hlast : front.getLast? = some '\r') :
    ∃ init line, lines = init ++ [line] ∧ ∀ more, Leading (front ++ ['\n']) more
      (init ++ [{ line with terminator := ['\r', '\n'] }]) := by
  have hlines := @h.eq [] (by simp)
  rw [List.append_nil] at hlines
  rcases List.eq_nil_or_concat lines with rfl | ⟨init, line, rfl⟩
  · have hnil := (lined_lines front).text_eq
    rw [hlines, List.nil_append, ← (lined_linesFrom _ _).text_eq] at hnil
    rw [hnil] at hlast
    cases hlast
  rw [List.concat_eq_append] at h hlines ⊢
  rw [List.append_assoc, List.singleton_append] at hlines
  obtain ⟨start, own, hcut⟩ := Cut.exists_of_lines hlines
  obtain ⟨rest', hown, hclean, -, ⟨hnil, -⟩ | ⟨ends, hnext⟩⟩ := hcut.exists_next
  · exact absurd hnil (lined_linesFrom _ _).ne_nil
  obtain rfl : rest' = [] := hnext.lined.text_eq.trans (lined_linesFrom _ _).text_eq.symm
  have hfront : front = start ++ (line.content ++ line.terminator) := by
    rw [hcut.split, hown, List.append_nil]
  have hterm : line.terminator = ['\r'] := by
    rw [hfront, ← List.append_assoc] at hlast
    rcases ends with heq | heq | ⟨heq, -⟩
    · simp [heq] at hlast
    · simp [heq] at hlast
    · exact heq
  refine ⟨init, line, rfl, fun more => ?_⟩
  have hleading : Leading start (line.content ++ (['\r', '\n'] ++ more)) init := by
    refine ⟨fun hfeed => hcut.leading.eq fun hhead => ?_, hcut.leading.start_lt⟩
    have hfirst := hfeed hhead
    rw [hown, hterm]
    cases hcontent : line.content with
    | nil => simp [hcontent] at hfirst
    | cons c content => simpa [hcontent] using hfirst
  have hsnoc := hleading.snoc hclean (.inl rfl)
  rw [← hcut.start_eq] at hsnoc
  rw [hfront, hterm]
  simpa using hsnoc

theorem lineOf_lt (text : Text) (offset : Nat) : lineOf text offset < (lines text).length := by
  have hle := (List.takeWhile_sublist (l := lines text) fun line : Line =>
    decide (line.start ≤ min offset (byteLength text))).length_le
  have hpos := List.length_pos_iff.mpr (lined_lines text).ne_nil
  unfold lineOf lineIndex
  omega

/-! ## Positions -/

theorem unitSize_pos (c : Char) : 0 < unitSize c := by
  unfold unitSize
  split <;> omega

theorem takeUnits_unitLength (a c : Text) : takeUnits (unitLength a) (a ++ c) = a := by
  induction a with
  | nil => cases c <;> rfl
  | cons x a ih =>
      have hpos := unitSize_pos x
      have hlen : unitLength (x :: a) = unitSize x + unitLength a := rfl
      rw [List.cons_append, takeUnits, hlen, if_neg (by omega), Nat.add_sub_cancel_left, ih]

section Positions

variable {front rest a c more : Text} {before : List Line}

theorem Leading.exists_lines (h : Leading front rest before)
    (hhead : ((a ++ c) ++ more).head? = some '\n' → rest.head? = some '\n')
    (clean : ∀ x ∈ a ++ c, isLineBreak x = false) (hmore : ∀ x ∈ more.head?, isLineBreak x = true) :
    ∃ terminator after, lines (front ++ ((a ++ c) ++ more)) =
        before ++ ⟨byteLength front, a ++ c, terminator⟩ :: after ∧
      ∀ line ∈ after, byteLength front + byteLength (a ++ c) < line.start := by
  obtain ⟨terminator, after, hfrom, hafter⟩ := exists_linesFrom clean hmore (byteLength front)
  exact ⟨terminator, after, by rw [h.eq hhead, hfrom], hafter⟩

theorem Leading.positionAt (h : Leading front rest before)
    (hhead : ((a ++ c) ++ more).head? = some '\n' → rest.head? = some '\n')
    (clean : ∀ x ∈ a ++ c, isLineBreak x = false) (hmore : ∀ x ∈ more.head?, isLineBreak x = true) :
    positionAt (front ++ ((a ++ c) ++ more)) (byteLength front + byteLength a) =
      ⟨before.length, unitLength a⟩ := by
  obtain ⟨terminator, after, hlines, hafter⟩ := h.exists_lines hhead clean hmore
  have hfloor : floorBoundary (front ++ ((a ++ c) ++ more)) (byteLength front + byteLength a) =
      byteLength front + byteLength a := by
    rw [floorBoundary, ← byteLength_append, List.append_assoc a, ← List.append_assoc front,
      takeBytes_append_byteLength]
  have hle : byteLength front + byteLength a ≤ byteLength (front ++ ((a ++ c) ++ more)) := by
    simp only [byteLength_append]
    omega
  have hbefore : ∀ l ∈ before, decide (l.start ≤ byteLength front + byteLength a) = true := by
    intro l hl
    have := h.start_lt l hl
    exact decide_eq_true (by omega)
  have hrest : after.takeWhile (fun l => l.start ≤ byteLength front + byteLength a) = [] := by
    cases after with
    | nil => rfl
    | cons l after =>
        have := hafter l List.mem_cons_self
        rw [byteLength_append] at this
        rw [List.takeWhile_cons, if_neg]
        simp only [decide_eq_true_eq]
        omega
  have hnumber : lineOf (front ++ ((a ++ c) ++ more)) (byteLength front + byteLength a) =
      before.length := by
    rw [lineOf, Nat.min_eq_left hle, hlines, lineIndex, List.takeWhile_append_of_pos hbefore,
      List.takeWhile_cons, if_pos (by simp), hrest, List.length_append, List.length_singleton,
      Nat.add_sub_cancel]
  have hline : line (front ++ ((a ++ c) ++ more)) before.length =
      ⟨byteLength front, a ++ c, terminator⟩ := by
    rw [line, hlines, List.getElem?_append_right (Nat.le_refl _), Nat.sub_self]
    rfl
  rw [Text.positionAt, hfloor, hnumber, hline, Nat.add_sub_cancel_left, takeBytes_append_byteLength]

theorem Leading.offsetAt (h : Leading front rest before)
    (hhead : ((a ++ c) ++ more).head? = some '\n' → rest.head? = some '\n')
    (clean : ∀ x ∈ a ++ c, isLineBreak x = false) (hmore : ∀ x ∈ more.head?, isLineBreak x = true) :
    offsetAt (front ++ ((a ++ c) ++ more)) ⟨before.length, unitLength a⟩ =
      byteLength front + byteLength a := by
  obtain ⟨terminator, after, hlines, -⟩ := h.exists_lines hhead clean hmore
  rw [Text.offsetAt, hlines, List.getElem?_append_right (Nat.le_refl _), Nat.sub_self]
  show byteLength front + byteLength (takeUnits (unitLength a) (a ++ c)) = _
  rw [takeUnits_unitLength]

/-- A range at the start of a line is the same place in every text with the same lines up to it. -/
theorem Leading.spanOf_rangeOf {more' : Text} (h : Leading front rest before)
    (hhead : ((a ++ c) ++ more).head? = some '\n' → rest.head? = some '\n')
    (hhead' : ((a ++ c) ++ more').head? = some '\n' → rest.head? = some '\n')
    (clean : ∀ x ∈ a ++ c, isLineBreak x = false) (hmore : ∀ x ∈ more.head?, isLineBreak x = true)
    (hmore' : ∀ x ∈ more'.head?, isLineBreak x = true) :
    spanOf (front ++ ((a ++ c) ++ more')) (rangeOf (front ++ ((a ++ c) ++ more))
      ⟨byteLength front, byteLength front + byteLength a⟩) =
        ⟨byteLength front, byteLength front + byteLength a⟩ := by
  have hstart := @Leading.positionAt front rest [] (a ++ c) more before h hhead clean hmore
  have hstart' := @Leading.offsetAt front rest [] (a ++ c) more' before h hhead' clean hmore'
  simp only [List.nil_append, byteLength_nil, Nat.add_zero] at hstart hstart'
  simp only [rangeOf, spanOf, hstart, hstart', h.positionAt hhead clean hmore,
    h.offsetAt hhead' clean hmore', Nat.min_eq_left (Nat.le_add_right _ _),
    Nat.max_eq_right (Nat.le_add_right _ _)]

end Positions

end Text

end Dockerfile
