import Dockerfile.Editor.Layout
import Dockerfile.Proofs.Checked.Body
import Dockerfile.Proofs.Checked.Navigation
import Dockerfile.Proofs.Directive.Entry
import Dockerfile.Protocol.Report

/-!
# Formatting and quick fixes, access by access

Formatting asks for lines by number, and cuts each behind the blanks it starts with. A line that was
just begun is looked at together with the one in front of it, up to where the new one starts.

A command is given a range, which may be any; its span is in the text all the same. Some commands take
the span for that of a keyword or of a flag, and look the instruction or the flag up; others remove
the blanks in front of it, or the line it starts in.
-/

namespace Dockerfile

/-! ## Formatting -/

namespace Checked

def extents (a : Analysis) : Checked (List (Nat × Nat)) :=
  a.file.instructions.mapM fun inst => do
    let first ← lineOf a.text inst.keywordSpan.start
    return (first, ← lineOf a.text (← extent inst).stop)

def indentWidth (content : Text) : Checked Nat :=
  minus (Text.byteLength content) (Text.byteLength (Text.trimBlanksStart content))

/-- Replaces the first bytes of a line, if they are not what they are replaced by. -/
def reindent? (text : Text) (number width : Nat) (indent : Text) : Checked (Option TextEdit) := do
  if (← sliceTo (← lineText text number) width) = indent then return none
  else
    let start := Text.lineStart text number
    let place ← span start (start + width)
    return some ⟨← rangeOf text place, indent⟩

def indentLine? (text : Text) (number : Nat) (indent : Text) : Checked (Option TextEdit) := do
  let content ← lineText text number
  let width ← indentWidth content
  reindent? text number width (if width = Text.byteLength content then [] else indent)

def formatLines (a : Analysis) (options : IndentOptions) (settings : FormatterSettings)
    (numbers : List Nat) : Checked (List TextEdit) := do
  let extents ← extents a
  filterMap (fun number => do
    if Layout.isContinued extents number then
      if settings.ignoreMultilineInstructions then return none
      else indentLine? a.text number (Layout.unit options)
    else indentLine? a.text number []) numbers

def format (a : Analysis) (options : IndentOptions) (settings : FormatterSettings) :
    Checked (List TextEdit) :=
  formatLines a options settings (List.range (Text.lines a.text).length)

def lineBefore (number : Nat) : Checked Nat :=
  minus number 1

/-- The last line of a range; one that ends at the margin leaves out that line. -/
def lastLine (range : Range) : Checked Nat :=
  if range.stop.character = 0 ∧ range.start.line < range.stop.line then lineBefore range.stop.line
  else return range.stop.line

def formatRange (a : Analysis) (range : Range) (options : IndentOptions)
    (settings : FormatterSettings) : Checked (List TextEdit) := do
  let first := range.start.line
  let last := min (← lastLine range) ((Text.lines a.text).length - 1)
  if last < first then return []
  else formatLines a options settings (List.range' first (← minus (last + 1) first))

def continuesInto (a : Analysis) (number : Nat) : Checked Bool := do
  let previous ← lineSpan a.text (← lineBefore number)
  let line ← slice a.text previous.start (Text.lineStart a.text number)
  let found ← find? (fun p => do
    if p.char == a.file.escape then
      return (← continuationLength? a.text p.offset a.file.escape).isSome
    else return false) (Text.place previous.start line)
  return found.isSome

/-- The edit for a line that was just begun with a line break, if the line before it goes on. -/
def formatOnType (a : Analysis) (position : Position) (typed : Text) (options : IndentOptions)
    (settings : FormatterSettings) : Checked (List TextEdit) := do
  let number := position.line
  if typed ≠ ['\n'] ∨ number = 0 ∨ settings.ignoreMultilineInstructions then return []
  else if (Text.lines a.text).length ≤ number then return []
  else if ← continuesInto a number then
    let width ← indentWidth (← lineText a.text number)
    return (← reindent? a.text number width (Layout.unit options)).toList
  else return []

@[simp] theorem extents_eq (a : Analysis) : extents a = .ok (Layout.extents a) :=
  mapM_eq fun inst _ => by
    rw [lineOf_eq, ok_bind, extent_eq, ok_bind, lineOf_eq]
    rfl

@[simp] theorem indentWidth_eq (content : Text) :
    indentWidth content = .ok (Text.byteLength (content.takeWhile isBlank)) :=
  minus_trimBlanksStart content

theorem reindent?_eq (text : Text) (number : Nat) (indent : Text) :
    reindent? text number (Text.byteLength ((Text.line text number).content.takeWhile isBlank))
        indent =
      .ok (if Layout.indentation (Text.line text number) = indent then none
        else some (Layout.reindent text (Text.line text number) indent)) := by
  have hcut : sliceTo (Text.line text number).content
      (Text.byteLength ((Text.line text number).content.takeWhile isBlank)) =
        .ok (Layout.indentation (Text.line text number)) :=
    sliceTo_eq List.takeWhile_append_dropWhile.symm rfl
  rw [reindent?, lineText_eq, ok_bind, hcut, ok_bind]
  simp only [span_add, rangeOf_eq, ok_bind, pure_eq]
  split <;> rfl

theorem indentLine?_eq (text : Text) (number : Nat) (indent : Text) :
    indentLine? text number indent = .ok (Layout.indentLine? text number indent) := by
  have hblank : Text.byteLength ((Text.line text number).content.takeWhile isBlank) =
      Text.byteLength (Text.line text number).content ↔
        (Text.line text number).content.all isBlank = true := by
    have happend := @List.takeWhile_append_dropWhile _ isBlank (Text.line text number).content
    constructor
    · intro h
      have hsame := (Text.eq_of_byteLength_eq (happend.trans (List.append_nil _).symm) h).1
      exact List.all_eq_true.mpr (List.takeWhile_eq_self_iff.mp hsame)
    · intro h
      rw [List.takeWhile_eq_self_iff.mpr (List.all_eq_true.mp h)]
  rw [indentLine?, lineText_eq, ok_bind, indentWidth_eq, ok_bind]
  exact (congrArg _ (if_congr hblank rfl rfl)).trans (reindent?_eq text number _)

theorem formatLines_eq (a : Analysis) (options : IndentOptions) (settings : FormatterSettings)
    (numbers : List Nat) :
    formatLines a options settings numbers = .ok (Layout.formatLines a options settings numbers) := by
  rw [formatLines, extents_eq, ok_bind]
  refine filterMap_eq fun number _ => ?_
  simp only [indentLine?_eq, pure_eq, Layout.formatLine?]
  split
  · split <;> rfl
  · rfl

theorem format_eq (a : Analysis) (options : IndentOptions) (settings : FormatterSettings) :
    format a options settings = .ok (a.format options settings) :=
  formatLines_eq a options settings _

theorem lastLine_eq (range : Range) :
    lastLine range = .ok (if range.stop.character = 0 ∧ range.start.line < range.stop.line then
      range.stop.line - 1 else range.stop.line) := by
  unfold lastLine
  split
  · exact minus_eq (by omega)
  · rfl

theorem formatRange_eq (a : Analysis) (range : Range) (options : IndentOptions)
    (settings : FormatterSettings) :
    formatRange a range options settings = .ok (a.formatRange range options settings) := by
  rw [formatRange, lastLine_eq, ok_bind, Analysis.formatRange]
  dsimp only
  generalize min _ ((Text.lines a.text).length - 1) = last
  split
  · rename_i h
    rw [Nat.sub_eq_zero_of_le h]
    rfl
  · rw [minus_eq (by omega), ok_bind]
    exact formatLines_eq a options settings _

theorem continuesInto_eq (a : Analysis) {number : Nat} (h : 0 < number) :
    continuesInto a number =
      .ok (Layout.continues a.text a.file.escape (Text.line a.text (number - 1))) := by
  obtain ⟨previous, rfl⟩ : ∃ previous, number = previous + 1 := ⟨number - 1, by omega⟩
  obtain ⟨front, more, htext, hstart, hnext, -⟩ := exists_around_line a.text previous
  have hline : slice a.text (Text.line a.text previous).span.start
      (Text.lineStart a.text (previous + 1)) =
        .ok ((Text.line a.text previous).content ++ (Text.line a.text previous).terminator) :=
    slice_eq (by rw [List.append_assoc]; exact htext) hstart hnext
  have hfound : ∀ p ∈ Text.place (Text.line a.text previous).span.start
      ((Text.line a.text previous).content ++ (Text.line a.text previous).terminator),
      (do
        if p.char == a.file.escape then
          return (← continuationLength? a.text p.offset a.file.escape).isSome
        else return false) = (.ok (p.char == a.file.escape &&
          (Text.continuationLength? a.text p.offset a.file.escape).isSome) : Checked Bool) := by
    intro p _
    rw [continuationLength?_eq]
    cases p.char == a.file.escape <;> rfl
  rw [Nat.add_sub_cancel, continuesInto, lineBefore, minus_add, ok_bind, lineSpan_eq, ok_bind, hline,
    ok_bind, find?_eq hfound, ok_bind, List.isSome_find?]
  rfl

theorem formatOnType_eq (a : Analysis) (position : Position) (typed : Text) (options : IndentOptions)
    (settings : FormatterSettings) :
    formatOnType a position typed options settings =
      .ok (a.formatOnType position typed options settings) := by
  unfold formatOnType Analysis.formatOnType
  dsimp only
  by_cases hguard : typed ≠ ['\n'] ∨ position.line = 0 ∨ settings.ignoreMultilineInstructions
  · rw [if_pos hguard, if_pos (hguard.imp_right (Or.imp_right Or.inl))]
    rfl
  rw [if_neg hguard]
  by_cases hlines : (Text.lines a.text).length ≤ position.line
  · rw [if_pos hlines, if_pos (.inr (.inr (.inr (.inl hlines))))]
    rfl
  have hpos : 0 < position.line := Nat.pos_of_ne_zero fun h => hguard (.inr (.inl h))
  rw [if_neg hlines, continuesInto_eq a hpos, ok_bind]
  cases hcontinues : Layout.continues a.text a.file.escape (Text.line a.text (position.line - 1)) with
  | false =>
      rw [if_neg Bool.false_ne_true, if_pos (.inr (.inr (.inr (.inr rfl))))]
      rfl
  | true =>
      have hopen : ¬ (typed ≠ ['\n'] ∨ position.line = 0 ∨ settings.ignoreMultilineInstructions = true ∨
          (Text.lines a.text).length ≤ position.line ∨ (!true) = true) := by
        simp only [not_or] at hguard ⊢
        exact ⟨hguard.1, hguard.2.1, hguard.2.2, hlines, Bool.false_ne_true⟩
      rw [if_pos rfl, if_neg hopen, lineText_eq, ok_bind, indentWidth_eq, ok_bind, reindent?_eq,
        ok_bind]
      split <;> rfl

end Checked

/-! ## Quick fixes -/

namespace Checked

def withLeadingBlanks (text : Text) (s : Span) : Checked Span := do
  let before ← sliceTo text s.start
  let blanks ← minus (Text.byteLength before) (Text.byteLength (Text.trimBlanksEnd before))
  span (← minus s.start blanks) s.stop

def wholeLine (text : Text) (offset : Nat) : Checked Span := do
  let number ← lineOf text offset
  span (Text.lineStart text number) (Text.lineStart text (number + 1))

def replacement? (a : Analysis) (s : Span) (value : Option String) (fix : Fix) :
    Checked (Option (Span × Text)) := do
  let text ← sliceSpan a.text s
  match fix with
  | .uppercaseInstruction => return some (s, Text.uppercase text)
  | .lowercaseDirective => return some (s, Text.lowercase text)
  | .escapeDirective =>
      return match value with
        | some "\\" => some (s, ['\\'])
        | some "`" => some (s, ['\x60'])
        | _ => none
  | .convertToAs => return some (s, "AS".toList)
  | .maintainerToLabel =>
      return (a.file.instructions.find? fun inst => inst.keywordSpan == s).map fun inst =>
        (inst.span, "LABEL maintainer=".toList ++ Fix.quoteLabel (Text.trim inst.region.text))
  | .removeEmptyLine => return some (← wholeLine a.text s.start, [])
  | .removeArgument => return some (← withLeadingBlanks a.text s, [])
  | .removeFlag =>
      match (← flatMap flags a.file.instructions).find? fun f => f.name.span == s with
      | some f => return some (← withLeadingBlanks a.text f.span, [])
      | none => return none
  | .convertToDoubleQuotes => return some (s, Fix.doubleQuotes false text)

def commandEdit? (a : Analysis) (command : String) (target : FixTarget) :
    Checked (Option WorkspaceEdit) := do
  let s ← spanOf a.text target.range
  match Fix.ofCommand? command with
  | none => return none
  | some fix =>
      match ← replacement? a s target.value fix with
      | none => return none
      | some (place, newText) => return some ⟨target.uri, [← editOf a.text place newText]⟩

theorem withLeadingBlanks_eq {text : Text} {s : Span} (h : s.WellPlaced text) :
    withLeadingBlanks text s = .ok (Fix.withLeadingBlanks text s) := by
  have hblanks := congrArg Text.byteLength
    (Text.trimBlanksEnd_append_blanks (Text.takeBytes s.start text))
  rw [Text.byteLength_append, Text.byteLength_reverse] at hblanks
  have hlen : Text.byteLength (Text.takeBytes s.start text) ≤ s.start := total_takeFit_le _ _ _
  have hordered := h.ordered
  rw [withLeadingBlanks, sliceTo_boundary h.start_boundary, ok_bind, minus_eq (by omega), ok_bind,
    minus_eq (by omega), ok_bind, span_eq (by omega), Fix.withLeadingBlanks]
  congr 2
  omega

@[simp] theorem wholeLine_eq (text : Text) (offset : Nat) :
    wholeLine text offset = .ok ⟨Text.lineStart text (Text.lineOf text offset),
      Text.lineStart text (Text.lineOf text offset + 1)⟩ := by
  obtain ⟨front, more, -, hstart, hnext, -⟩ := exists_around_line text (Text.lineOf text offset)
  rw [wholeLine, lineOf_eq, ok_bind]
  exact span_eq (by rw [hstart, hnext]; exact Nat.le_add_right _ _)

theorem replacement?_eq {a : Analysis} (hwithin : ∀ inst ∈ a.file.instructions, inst.Within a.text)
    {s : Span} (h : s.WellPlaced a.text) (value : Option String) (fix : Fix) :
    replacement? a s value fix = .ok (fix.replacement? a s value) := by
  unfold replacement? Fix.replacement?
  rw [sliceSpan_eq, ok_bind]
  cases fix with
  | uppercaseInstruction => rfl
  | lowercaseDirective => rfl
  | convertToAs => rfl
  | maintainerToLabel => rfl
  | convertToDoubleQuotes => rfl
  | escapeDirective => rfl
  | removeEmptyLine => simp only [wholeLine_eq, ok_bind, pure_eq]
  | removeArgument => simp only [withLeadingBlanks_eq h, ok_bind, pure_eq]
  | removeFlag =>
      simp only [flatMap_eq fun inst _ => flags_eq inst, ok_bind]
      cases hfound : (a.file.instructions.flatMap Instruction.flags).find? fun f =>
          f.name.span == s with
      | none => rfl
      | some f =>
          obtain ⟨inst, hinst, hf⟩ := List.mem_flatMap.mp (List.mem_of_find?_eq_some hfound)
          obtain ⟨-, -, hplaced⟩ := (hwithin inst hinst).flag hf
          simp only [withLeadingBlanks_eq hplaced, ok_bind, pure_eq]
          rfl

theorem commandEdit?_eq {a : Analysis} (hwithin : ∀ inst ∈ a.file.instructions, inst.Within a.text)
    (command : String) (target : FixTarget) :
    commandEdit? a command target = .ok (target.edit? a command) := by
  rw [commandEdit?, spanOf_eq, ok_bind, FixTarget.edit?]
  cases Fix.ofCommand? command with
  | none => rfl
  | some fix =>
      have hplaced := spanOf_wellPlaced a.text target.range
      simp only [replacement?_eq hwithin hplaced, editOf_eq, ok_bind, pure_eq,
        Option.bind_eq_bind, Option.bind_some, Fix.edit?]
      cases fix.replacement? a (Text.spanOf a.text target.range) target.value <;> rfl

end Checked

end Dockerfile
