import Mathlib.Data.List.TakeWhile
import Mathlib.Order.MinMax
import Dockerfile.Buffer
import Dockerfile.Proofs.Text.RoundTrip

/-!
# Buffers and files agree on positions

A buffer finds its lines by itself and counts characters where a file counts bytes. In a text without
the line breaks that only a buffer knows, both have the same lines (`Buffer.lines_eq`), and a position
leads to the same place in both exactly if its column is not inside a surrogate pair
(`Buffer.charIndex_eq_iff`). A batch of such changes therefore replaces one span after the other
(`Buffer.changes_replace_spans`).
-/

namespace Dockerfile

theorem Lined.exists_split {start number : Nat} {text : Text} {lines : List Line} {line : Line}
    (h : Lined start text lines) (hline : lines[number]? = some line) :
    ∃ rest, text = (lines.take number).flatMap Line.whole ++ (line.content ++ rest) ∧
      line.start = start + Text.byteLength ((lines.take number).flatMap Line.whole) := by
  induction h generalizing number with
  | @last start content clean =>
      cases number with
      | zero =>
          obtain rfl := Option.some.inj hline
          exact ⟨[], by simp, rfl⟩
      | succ number => cases hline
  | @cons start content terminator rest lines clean ends next ih =>
      cases number with
      | zero =>
          obtain rfl := Option.some.inj hline
          exact ⟨terminator ++ rest, rfl, rfl⟩
      | succ number =>
          obtain ⟨more, htext, hstart⟩ := ih hline
          refine ⟨more, ?_, ?_⟩
          · rw [htext, List.take_succ_cons, List.flatMap_cons, Line.whole]
            simp only [List.append_assoc]
          · rw [hstart, List.take_succ_cons, List.flatMap_cons, Line.whole,
              Text.byteLength_append (content ++ terminator), Nat.add_assoc]

/-- The content of a line has no line break, and its terminator is nothing else. -/
theorem Lined.breaks {start : Nat} {text : Text} {lines : List Line} (h : Lined start text lines)
    {line : Line} (hline : line ∈ lines) :
    (∀ c ∈ line.content, isLineBreak c = false) ∧ ∀ c ∈ line.terminator, isLineBreak c = true := by
  induction h with
  | last start clean =>
      obtain rfl := List.mem_singleton.mp hline
      exact ⟨clean, by simp⟩
  | cons clean ends _ ih =>
      rcases List.mem_cons.mp hline with rfl | hline
      · exact ⟨clean, fun c hc => ends.isLineBreak_of_mem hc⟩
      · exact ih hline

namespace Buffer

/-! ## Lines -/

/-- The characters that end a line of a buffer, but not of a file. -/
def furtherBreaks : List Char :=
  ['\x0b', '\x0c', '\u0085', '\u2028', '\u2029']

/-- The text has no line break that only a buffer knows. -/
def IsPlain (text : Text) : Prop :=
  ∀ c ∈ text, c ∉ furtherBreaks

instance (text : Text) : Decidable (IsPlain text) :=
  List.decidableBAll (· ∉ furtherBreaks) text

theorem isBreak_eq {c : Char} (h : c ∉ furtherBreaks) : isBreak c = isLineBreak c := by
  simp only [furtherBreaks, List.mem_cons, List.not_mem_nil, or_false, not_or, ← ne_eq,
    ← beq_eq_false_iff_ne] at h
  obtain ⟨h₁, h₂, h₃, h₄, h₅⟩ := h
  simp only [isBreak, h₁, h₂, h₃, h₄, h₅, Bool.or_false]

theorem lines_cons_of_clean {c : Char} (h : isBreak c = false) {rest line : Text}
    {others : List Text} (hrest : lines rest = line :: others) :
    lines (c :: rest) = (c :: line) :: others := by
  rw [lines.eq_def]
  split
  · rename_i heq
    cases heq
  · rename_i heq
    cases heq
    simp [isBreak, isLineBreak] at h
  · rename_i heq
    cases heq
    rw [h, hrest]
    rfl

theorem lines_terminator {terminator rest : Text} (h : IsTerminator terminator rest) :
    lines (terminator ++ rest) = terminator :: lines rest := by
  rcases h with rfl | rfl | ⟨rfl, hne⟩
  · rfl
  · rw [lines.eq_def]
    rfl
  · rw [lines.eq_def]
    cases rest with
    | nil => rfl
    | cons d rest =>
        have hd : d ≠ '\n' := by simpa using hne
        split
        · rename_i heq
          cases heq
        · rename_i heq
          simp only [List.cons_append, List.nil_append, List.cons.injEq] at heq
          exact absurd heq.2.1 hd
        · rename_i heq
          cases heq
          rfl

theorem lines_clean_append {content : Text} (clean : ∀ c ∈ content, isBreak c = false)
    {rest line : Text} {others : List Text} (hrest : lines rest = line :: others) :
    lines (content ++ rest) = (content ++ line) :: others := by
  induction content with
  | nil => exact hrest
  | cons c content ih =>
      have hc := clean c List.mem_cons_self
      exact lines_cons_of_clean hc (ih fun d hd => clean d (List.mem_cons_of_mem _ hd))

theorem lines_eq {start : Nat} {text : Text} {ls : List Line} (h : Lined start text ls)
    (hplain : IsPlain text) : lines text = ls.map Line.whole := by
  induction h with
  | @last start content clean =>
      have hbreak : ∀ c ∈ content, isBreak c = false := by
        intro c hc
        rw [isBreak_eq (hplain c hc)]
        exact clean c hc
      have hlines := lines_clean_append hbreak (show lines [] = [[]] by rw [lines])
      rw [List.append_nil] at hlines
      rw [hlines, List.map_singleton, Line.whole, List.append_nil]
  | @cons start content terminator rest ls clean ends next ih =>
      have hbreak : ∀ c ∈ content, isBreak c = false := by
        intro c hc
        rw [isBreak_eq (hplain c (List.mem_append_left _ hc))]
        exact clean c hc
      have hrest : IsPlain rest := fun c hc =>
        hplain c (List.mem_append_right _ (List.mem_append_right _ hc))
      rw [lines_clean_append hbreak (lines_terminator ends), ih hrest]
      rfl

theorem content_whole {line : Line} (clean : ∀ c ∈ line.content, isLineBreak c = false)
    (breaks : ∀ c ∈ line.terminator, isLineBreak c = true) : content line.whole = line.content := by
  have hterminator : line.terminator.reverse.dropWhile isLineBreak = [] := by
    refine List.dropWhile_eq_nil_iff.mpr fun c hc => ?_
    exact breaks c (List.mem_reverse.mp hc)
  have hcontent : line.content.reverse.dropWhile isLineBreak = line.content.reverse := by
    cases hr : line.content.reverse with
    | nil => rfl
    | cons c rest =>
        have hc : c ∈ line.content := by
          rw [← List.mem_reverse, hr]
          exact List.mem_cons_self
        rw [List.dropWhile_cons, clean c hc]
        rfl
  rw [content, Line.whole, List.reverse_append, List.dropWhile_append, hterminator, List.isEmpty_nil,
    if_pos rfl, hcontent, List.reverse_reverse]

/-! ## Columns -/

/-- The column stands between the two units of a character. -/
def InsidePair (units : Nat) (content : Text) : Prop :=
  ∃ i, ∃ h : i < content.length,
    unitSize content[i] = 2 ∧ units = Text.unitLength (content.take i) + 1

theorem insidePair_cons (units : Nat) (c : Char) (content : Text) :
    InsidePair units (c :: content) ↔ unitSize c = 2 ∧ units = 1 ∨
      unitSize c ≤ units ∧ InsidePair (units - unitSize c) content := by
  have hlength (i : Nat) : Text.unitLength ((c :: content).take (i + 1)) =
      unitSize c + Text.unitLength (content.take i) := by
    rw [List.take_succ_cons]
    rfl
  constructor
  · rintro ⟨i, hi, hsize, hunits⟩
    cases i with
    | zero => exact .inl ⟨hsize, hunits⟩
    | succ i =>
        rw [hlength] at hunits
        refine .inr ⟨by omega, i, Nat.lt_of_succ_lt_succ hi, hsize, by omega⟩
  · rintro (⟨hsize, hunits⟩ | ⟨hle, i, hi, hsize, hunits⟩)
    · exact ⟨0, Nat.zero_lt_succ _, hsize, hunits⟩
    · exact ⟨i + 1, Nat.succ_lt_succ hi, hsize, by rw [hlength]; omega⟩

/-- A file rounds a column up to the end of a pair, and a buffer down to its start. -/
theorem length_takeUnits_eq_iff (units : Nat) (content : Text) :
    (takeFit unitSize units content).length = (Text.takeUnits units content).length ↔
      ¬ InsidePair units content := by
  induction content generalizing units with
  | nil =>
      refine iff_of_true rfl ?_
      rintro ⟨i, hi, -⟩
      exact absurd hi (Nat.not_lt_zero i)
  | cons c content ih =>
      have hpos := Text.unitSize_pos c
      have hpair : unitSize c ≤ 2 := by
        unfold unitSize
        split <;> omega
      rw [insidePair_cons, takeFit, Text.takeUnits]
      by_cases hfits : unitSize c ≤ units
      · rw [if_pos hfits, if_neg (by omega), List.length_cons, List.length_cons, Nat.add_right_cancel_iff,
          ih, not_iff_not]
        constructor
        · exact fun h => .inr ⟨hfits, h⟩
        · rintro (⟨hsize, hunits⟩ | ⟨-, h⟩)
          · omega
          · exact h
      · rw [if_neg hfits]
        by_cases hzero : units = 0
        · rw [if_pos hzero]
          refine iff_of_true rfl ?_
          rintro (⟨-, hunits⟩ | ⟨hle, -⟩) <;> omega
        · -- The column is one unit into the first character.
          rw [if_neg hzero]
          refine iff_of_false (by simp) ?_
          exact not_not_intro (.inl ⟨by omega, by omega⟩)

def SplitsPair (text : Text) (position : Position) : Prop :=
  ∃ line ∈ (Text.lines text)[position.line]?, InsidePair position.character line.content

instance (units : Nat) (content : Text) : Decidable (InsidePair units content) :=
  inferInstanceAs (Decidable (∃ i, ∃ h : i < content.length,
    unitSize content[i] = 2 ∧ units = Text.unitLength (content.take i) + 1))

instance (text : Text) (position : Position) : Decidable (SplitsPair text position) :=
  inferInstanceAs (Decidable (∃ line ∈ (Text.lines text)[position.line]?,
    InsidePair position.character line.content))

/-! ## Positions -/

def charsBefore (text : Text) (offset : Nat) : Nat :=
  (Text.takeBytes offset text).length

theorem charIndex_eq_iff {text : Text} (hplain : IsPlain text) (position : Position) :
    charIndex text position = charsBefore text (Text.offsetAt text position) ↔
      ¬ SplitsPair text position := by
  have hlined := lined_lines text
  have hlines := lines_eq hlined hplain
  simp only [charIndex, charsBefore, SplitsPair, hlines, List.getElem?_map, Text.offsetAt]
  cases hline : (Text.lines text)[position.line]? with
  | none =>
      have hall := Text.takeBytes_append_byteLength text []
      rw [List.append_nil] at hall
      simp [hall]
  | some line =>
      obtain ⟨rest, htext, hstart⟩ := hlined.exists_split hline
      obtain ⟨clean, breaks⟩ := hlined.breaks (List.mem_of_getElem? hline)
      obtain ⟨more, hmore⟩ := Text.prefix_takeUnits position.character line.content
      have hbefore : Text.takeBytes
          (line.start + Text.byteLength (Text.takeUnits position.character line.content)) text =
            ((Text.lines text).take position.line).flatMap Line.whole ++
              Text.takeUnits position.character line.content := by
        rw [hstart, Nat.zero_add, ← Text.byteLength_append]
        generalize ((Text.lines text).take position.line).flatMap Line.whole = front at htext ⊢
        rw [htext]
        generalize Text.takeUnits position.character line.content = column at hmore ⊢
        rw [← hmore, List.append_assoc, ← List.append_assoc]
        exact Text.takeBytes_append_byteLength _ _
      simp only [Option.map_some, hbefore, content_whole clean breaks, List.length_append,
        ← List.map_take, ← List.flatMap_def, Nat.add_left_cancel_iff, Option.mem_some_iff,
        exists_eq_left', length_takeUnits_eq_iff]

/-! ## Changes -/

theorem charsBefore_mono (text : Text) : Monotone (charsBefore text) :=
  fun _ _ h => (Text.takeFit_prefix_of_le _ h text).length_le

theorem take_charsBefore (text : Text) (offset : Nat) :
    text.take (charsBefore text offset) = Text.takeBytes offset text := by
  have htake := @List.take_left _ (Text.takeBytes offset text) (Text.dropBytes offset text)
  rwa [Text.takeBytes_append_dropBytes] at htake

theorem drop_charsBefore (text : Text) (offset : Nat) :
    text.drop (charsBefore text offset) = Text.dropBytes offset text := by
  have hdrop := @List.drop_left _ (Text.takeBytes offset text) (Text.dropBytes offset text)
  rwa [Text.takeBytes_append_dropBytes] at hdrop

end Buffer

namespace Change

/-- What a change says about a file: the bytes of its range, or all of them, are replaced. -/
def replace (text : Text) (change : Change) : Text :=
  match change.range with
  | none => change.text
  | some range => Text.replaceSpan text (Text.spanOf text range) change.text

def IsAgreed (text : Text) (change : Change) : Prop :=
  ∀ range ∈ change.range, Buffer.IsPlain text ∧ ¬ Buffer.SplitsPair text range.start ∧
    ¬ Buffer.SplitsPair text range.stop

instance (text : Text) (change : Change) : Decidable (change.IsAgreed text) :=
  inferInstanceAs (Decidable (∀ range ∈ change.range, Buffer.IsPlain text ∧
    ¬ Buffer.SplitsPair text range.start ∧ ¬ Buffer.SplitsPair text range.stop))

/-- Each change of a batch is agreed on for the text that those in front of it leave. -/
def AreAgreed : Text → List Change → Prop
  | _, [] => True
  | text, change :: rest => change.IsAgreed text ∧ AreAgreed (change.replace text) rest

end Change

namespace Buffer

theorem applyChange_eq {text : Text} {change : Change} (h : change.IsAgreed text) :
    applyChange text change = change.replace text := by
  unfold applyChange Change.replace
  cases hrange : change.range with
  | none => rfl
  | some range =>
      obtain ⟨hplain, hstart, hstop⟩ := h range hrange
      have ha := (charIndex_eq_iff hplain range.start).mpr hstart
      have hb := (charIndex_eq_iff hplain range.stop).mpr hstop
      simp only [ha, hb, Text.replaceSpan, Text.spanOf]
      rw [← (charsBefore_mono text).map_min, ← (charsBefore_mono text).map_max, take_charsBefore,
        drop_charsBefore]

theorem applyChanges_eq {text : Text} {changes : List Change} (h : Change.AreAgreed text changes) :
    applyChanges text changes = changes.foldl Change.replace text := by
  induction changes generalizing text with
  | nil => rfl
  | cons change changes ih =>
      obtain ⟨hfirst, hrest⟩ := h
      show applyChanges (applyChange text change) changes = _
      rw [applyChange_eq hfirst, ih hrest]
      rfl

/-- A buffer and a file agree on positions: in a plain text, a position has as many characters before
it in the buffer as stand in front of its offset in the file, exactly if it is not inside a surrogate
pair; hence a batch of changes with such positions replaces, change after change, the bytes of the
range. -/
theorem changes_replace_spans (text : Text) :
    (IsPlain text → ∀ position,
      (charIndex text position = charsBefore text (Text.offsetAt text position) ↔
        ¬ SplitsPair text position)) ∧
    ∀ changes, Change.AreAgreed text changes →
      applyChanges text changes = changes.foldl Change.replace text :=
  ⟨charIndex_eq_iff, fun _ => applyChanges_eq⟩

/-- A range given backwards over the end of a line, a line feed behind a carriage return that was a
line break of its own, and a position behind the last line. -/
theorem changes_replace_spans_joined :
    let text := "x😀\r\ny".toList
    let changes : List Change := [⟨some ⟨⟨1, 1⟩, ⟨0, 3⟩⟩, "\r".toList⟩,
      ⟨some ⟨⟨1, 0⟩, ⟨7, 0⟩⟩, "\nz".toList⟩, ⟨some ⟨⟨0, 3⟩, ⟨1, 5⟩⟩, "!".toList⟩]
    (IsPlain text ∧ ¬ SplitsPair text ⟨0, 3⟩ ∧ SplitsPair text ⟨0, 2⟩ ∧
      Change.AreAgreed text changes) ∧
    charIndex text ⟨0, 3⟩ = charsBefore text (Text.offsetAt text ⟨0, 3⟩) ∧
    charIndex text ⟨0, 2⟩ ≠ charsBefore text (Text.offsetAt text ⟨0, 2⟩) ∧
    applyChanges text changes = changes.foldl Change.replace text := by
  intro text changes
  have hplain : IsPlain text := by decide
  have hends : ¬ SplitsPair text ⟨0, 3⟩ := by decide
  have hinside : SplitsPair text ⟨0, 2⟩ := by decide
  have hagreed : Change.AreAgreed text changes := ⟨by decide, by decide, by decide, trivial⟩
  obtain ⟨hpositions, hchanges⟩ := changes_replace_spans text
  exact ⟨⟨hplain, hends, hinside, hagreed⟩, (hpositions hplain _).mpr hends,
    fun heq => (hpositions hplain _).mp heq hinside, hchanges changes hagreed⟩

end Buffer

end Dockerfile
