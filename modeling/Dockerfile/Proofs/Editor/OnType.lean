import Dockerfile.Proofs.File.Idempotence
import Dockerfile.Proofs.File.Patched

/-!
# Formatting a line that was just begun

A line that a line break has just begun is indented if the line before it ends like one with a
continuation. That looks at the line alone: a comment can end like this, and so can a directive. Full
formatting goes by the instructions of the file. The two agree on the line exactly if an instruction
keeps characters in front of it and others from it on (`Layout.formatOnType_agrees_iff`).
-/

namespace Dockerfile

namespace Layout

open Body

variable {text front rest : Text} {before after : List Line} {line : Line} {settings : Settings}
  {options : IndentOptions} {formatter : FormatterSettings} {position : Position} {edit : TextEdit}

/-! ## The edit -/

theorem mem_formatOnType
    (h : edit ∈ (analyze text settings).formatOnType position ['\n'] options formatter) :
    (0 < position.line ∧ position.line < (Text.lines text).length) ∧
      formatter.ignoreMultilineInstructions = false ∧
      continues text (File.parse text).escape (Text.line text (position.line - 1)) = true ∧
      indentation (Text.line text position.line) ≠ unit options ∧
      edit = reindent text (Text.line text position.line) (unit options) := by
  unfold Analysis.formatOnType at h
  dsimp only at h
  split at h
  · cases h
  · rename_i hguard
    simp only [not_or, Nat.not_le, Bool.not_eq_true, Bool.not_eq_false'] at hguard
    obtain ⟨-, hpos, hignore, hlines, hcontinues⟩ := hguard
    split at h
    · cases h
    · rename_i hindent
      exact ⟨⟨Nat.pos_of_ne_zero hpos, hlines⟩, hignore, hcontinues, hindent,
        List.mem_singleton.mp h⟩

theorem spanOf_reindent (hcut : Text.Cut text front rest before (line :: after)) (indent : Text) :
    Text.spanOf text (reindent text line indent).range =
      ⟨line.start, line.start + Text.byteLength (indentation line)⟩ := by
  have hspan := hcut.spanOf_rangeOf hcut (List.nil_prefix (l := line.content))
    (List.takeWhile_prefix isBlank) (Nat.le_add_right line.start _)
  exact hspan

/-- Full formatting gives an edit that indents a line by one unit exactly if some instruction keeps
characters on both sides of the start of that line. -/
theorem reindent_mem_format_iff (hcut : Text.Cut text front rest before (line :: after))
    (hignore : formatter.ignoreMultilineInstructions = false)
    (hcontent : line.content.all isBlank = false) (hindent : indentation line ≠ unit options) :
    reindent text line (unit options) ∈ (analyze text settings).format options formatter ↔
      ∃ inst ∈ (File.parse text).instructions, (∃ p ∈ inst.chars, p.offset < line.start) ∧
        ∃ q ∈ inst.chars, line.start ≤ q.offset := by
  constructor
  · intro h
    obtain ⟨number, hnumber, hedit⟩ := List.mem_filterMap.mp h
    obtain ⟨_, _, before', line', after', hcut', rfl⟩ :=
      Text.Cut.exists_of_lt (show number < (Text.lines text).length from List.mem_range.mp hnumber)
    have hcontinued : isContinued (extents (analyze text settings)) before'.length = true := by
      have hnew := (formatLine?_eq_some hedit).newText_eq
      split at hnew
      · rename_i hfurther
        exact (Bool.and_eq_true_iff.mp hfurther).1
      · exact absurd hnew (unit_ne_nil options)
    -- The edit tells its line by where it starts.
    have hstart : line'.start = line.start := by
      have hspan := (mem_format hcut' hedit).2
      rw [spanOf_reindent hcut] at hspan
      exact (congrArg Span.start hspan).symm
    rw [← hstart]
    exact (isContinued_iff settings hcut').mp hcontinued
  · intro h
    refine (mem_format hcut ?_).1
    rw [formatLine?, if_pos ((isContinued_iff settings hcut).mpr h), if_neg (by simp [hignore]),
      indentLine?]
    simp only [hcut.line_eq, hcontent, Bool.false_eq_true, if_false, if_neg hindent]

/-! ## Lines that end like one with a continuation -/

/-- In a line, a continuation is the escape character with blanks at most between it and the
terminator. -/
theorem continuation_in_line (hcut : Text.Cut text front rest before (line :: after))
    {escape c : Char} {a b : Text} (hcontent : line.content = a ++ c :: b)
    (h : (Text.continuationLength? text (line.start + Text.byteLength a) escape).isSome = true) :
    c = escape ∧ b.all isBlank = true ∧ line.terminator ≠ [] := by
  obtain ⟨rest', hrest, hclean, hmore, hnext⟩ := hcut.exists_next
  have hsplit : text = (front ++ a) ++ (c :: (b ++ (line.terminator ++ rest'))) := by
    rw [hcut.split, hrest, hcontent]
    simp
  have hstart : line.start + Text.byteLength a = Text.byteLength (front ++ a) := by
    rw [hcut.start_eq, Text.byteLength_append]
  have hplaced : Text.placedFrom? text (line.start + Text.byteLength a) =
      some (Text.place (line.start + Text.byteLength a) (c :: (b ++ (line.terminator ++ rest')))) := by
    rw [Text.placedFrom?, hsplit, hstart, if_pos (Text.isBoundary_append _ _),
      Text.dropBytes_append_byteLength]
  have hb : ∀ d ∈ b, isLineBreak d = false := fun d hd => hclean d (by rw [hcontent]; simp [hd])
  rw [Text.continuationLength?, hplaced, Option.bind_some, Text.place_cons,
    afterContinuation?_place hb hmore] at h
  split at h
  · rename_i hend
    refine ⟨hend.1, hend.2, fun hnil => ?_⟩
    rcases hnext with ⟨-, -, rfl⟩ | ⟨ends, -⟩
    · simp [hnil, afterNewline?] at h
    · exact ends.ne_nil hnil
  · cases h

/-- Such a line goes on, if it is part of an instruction. -/
theorem goesOn_of_continues (hcut : Text.Cut text front rest before (line :: after)) {escape : Char}
    (he : endsWord escape = false) (h : continues text escape line = true) :
    line.goesOn escape = true := by
  obtain ⟨hblank, hbreak⟩ : isBlank escape = false ∧ isLineBreak escape = false := by
    simpa [endsWord] using he
  obtain ⟨p, hp, hfound⟩ := List.any_eq_true.mp h
  obtain ⟨hchar, hlength⟩ := Bool.and_eq_true_iff.mp hfound
  rw [Text.place_append] at hp
  rcases List.mem_append.mp hp with hp | hp
  · obtain ⟨a, b, hcontent, hoffset⟩ := Text.exists_split_of_mem_place hp
    rw [hoffset] at hlength
    obtain ⟨hescape, hall, hterm⟩ := continuation_in_line hcut hcontent hlength
    rw [Line.goesOn_eq_content hblank hterm, Option.isSome_iff_exists]
    exact ⟨a, (Text.beforeEscape?_eq_some_iff hblank).mpr
      ⟨b, by rw [hcontent, hescape], List.all_eq_true.mp hall⟩⟩
  · -- The escape character is no line break.
    obtain ⟨_, -, -, -, hnext⟩ := hcut.exists_next
    rcases hnext with ⟨-, hnil, -⟩ | ⟨ends, -⟩
    · rw [hnil] at hp
      cases hp
    · have := ends.isLineBreak_of_mem (Text.char_mem_of_mem_place hp)
      rw [beq_iff_eq.mp hchar, hbreak] at this
      cases this

/-- What a logical line keeps of a line that goes on stands in front of what it keeps of the next. -/
theorem eq_append_of_mem_runs {escape : Char} {more : List Line} {previous : Line}
    {run : List Placed} (hrun : run ∈ runs escape none (more ++ previous :: line :: after))
    (hfront : ∀ l ∈ more, l.stop ≤ previous.start) (hlines : ∀ l ∈ line :: after, line.start ≤ l.start)
    (hgoes : previous.goesOn escape = true) {p : Placed} (hp : p ∈ run)
    (hstart : previous.start ≤ p.offset) (hlt : p.offset < line.start) :
    ∃ kept, run = kept ++ keptFrom escape (line :: after) := by
  obtain ⟨⟨closed, hruns, hclosed⟩, hkept⟩ := @exists_runs_append escape none previous.start more
    hfront (by simp) (previous :: line :: after)
  obtain ⟨houtside, hinside⟩ := @exists_runs_open escape (line :: after) line.start hlines
  have hhere : run ∈ runs escape (standing escape none more) (previous :: line :: after) := by
    rw [hruns] at hrun
    rcases List.mem_append.mp hrun with hrun | hrun
    · have := hclosed run hrun p hp
      have := p.offset_lt_stop
      omega
    · exact hrun
  cases hextended : extended? escape (standing escape none more) previous with
  | none =>
      rw [runs_of_passed hextended] at hhere
      cases hopen : standing escape none more with
      | none =>
          rw [hopen] at hhere
          have := houtside run hhere p hp
          omega
      | some kept =>
          obtain ⟨later, hlater, hbound⟩ := hinside kept
          rw [hopen, hlater] at hhere
          rcases List.mem_cons.mp hhere with rfl | hhere
          · exact ⟨kept, rfl⟩
          · have := hbound run hhere p hp
            omega
  | some kept =>
      rw [runs_of_extended hextended, if_pos hgoes] at hhere
      obtain ⟨later, hlater, hbound⟩ := hinside kept
      rw [hlater] at hhere
      rcases List.mem_cons.mp hhere with rfl | hhere
      · exact ⟨kept, rfl⟩
      · have := hbound run hhere p hp
        omega

theorem keptFrom_ne_nil {escape : Char} (hcomment : line.isComment = false)
    (hkept : line.kept escape ≠ []) : keptFrom escape (line :: after) ≠ [] := by
  have hcore : line.core ≠ [] := by
    intro hnil
    have hprefix := kept_prefix escape line
    rw [hnil, List.prefix_nil] at hprefix
    exact hkept hprefix
  have hskipped : line.isSkipped = false := by simp [Line.isSkipped, hcomment, hcore]
  rw [keptFrom, if_neg (by simp [hskipped])]
  refine List.append_ne_nil_of_left_ne_nil (List.ne_nil_of_length_pos ?_) _
  rw [Text.length_place, List.length_append]
  have := List.length_pos_iff.mpr hkept
  omega

theorem start_le_of_taken {lead body : Text} {taken lines more : List Line} {previous : Line}
    (hbody : Text.Cut text lead body taken lines)
    (hlines : Text.lines text = before ++ previous :: line :: after)
    (htaken : taken = before ++ previous :: more) : line.start ≤ Text.byteLength lead := by
  rw [hbody.lines_eq, htaken, List.append_assoc, List.cons_append] at hlines
  obtain ⟨-, hmore⟩ := List.cons.inj (List.append_cancel_left hlines)
  cases more with
  | nil =>
      have hlined := hbody.lined
      rw [show lines = line :: after from hmore] at hlined
      obtain ⟨_, -, hfirst, -⟩ := hlined.exists_head
      exact Nat.le_of_eq hfirst
  | cons l more =>
      obtain ⟨rfl, -⟩ := List.cons.inj hmore
      exact Nat.le_of_lt (hbody.leading.start_lt l (by rw [htaken]; simp))

/-- An instruction that keeps a character of a line that goes on keeps what the next line keeps. -/
theorem exists_kept_behind {previous : Line}
    (hcut : Text.Cut text front rest (before ++ [previous]) (line :: after)) {inst : Instruction}
    (hinst : inst ∈ (File.parse text).instructions)
    (hgoes : previous.goesOn (File.parse text).escape = true) {p : Placed} (hp : p ∈ inst.chars)
    (hstart : previous.start ≤ p.offset) (hlt : p.offset < line.start)
    (hcomment : line.isComment = false) (hkept : line.kept (File.parse text).escape ≠ []) :
    ∃ q ∈ inst.chars, line.start ≤ q.offset := by
  obtain ⟨taken, lines, found, hbodied⟩ := File.Bodied.exists_of_mem hinst
  obtain ⟨lead, body, hbody, hread⟩ := hbodied.readAll_eq
  have hlines : Text.lines text = before ++ previous :: line :: after := by
    rw [hcut.lines_eq, List.append_assoc, List.singleton_append]
  rcases line_cases hbody hlines with ⟨more, -, rfl⟩ | ⟨more, htaken⟩
  · have hrun : inst.chars ∈ runs (File.parse text).escape none (more ++ previous :: line :: after) := by
      rw [← hbodied.chars_eq]
      exact List.mem_map_of_mem (File.mem_logicalLines hinst)
    have hfront := hbody.lined.around.1
    have hbehind : ∀ l ∈ line :: after, line.start ≤ l.start := by
      have hlined := hbody.lined
      rw [List.append_cons] at hlined
      exact hlined.around.2
    obtain ⟨kept, hchars⟩ := eq_append_of_mem_runs hrun hfront hbehind hgoes hp hstart hlt
    obtain ⟨q, hq⟩ := List.exists_mem_of_ne_nil _ (keptFrom_ne_nil hcomment hkept)
    have hmem : q ∈ inst.chars := hchars ▸ List.mem_append_right _ hq
    exact ⟨q, hmem, le_offset_of_mem_keptFrom hbehind q hq⟩
  · -- Nothing is kept of a directive.
    exfalso
    have hbound := start_le_of_taken hbody hlines htaken
    have hmem := mem_of_mem_logicalLines (File.mem_logicalLines hinst) hp
    have := (Text.offset_of_mem_place hmem).1
    rw [hread] at this
    omega

/-- The edit of a line that was just begun is one of full formatting exactly if some instruction keeps
characters on both sides of the start of the line. It is if the line before it holds a part of an
instruction and the line itself more than a comment or a continuation. -/
theorem formatOnType_agrees_iff (settings : Settings) (options : IndentOptions)
    (formatter : FormatterSettings) {text : Text} {position : Position} {edit : TextEdit}
    (hedit : edit ∈ (analyze text settings).formatOnType position ['\n'] options formatter)
    (hcontent : (Text.line text position.line).content.all isBlank = false) :
    (edit ∈ (analyze text settings).format options formatter ↔
      ∃ inst ∈ (File.parse text).instructions,
        (∃ p ∈ inst.chars, p.offset < Text.lineStart text position.line) ∧
          ∃ q ∈ inst.chars, Text.lineStart text position.line ≤ q.offset) ∧
    ((∃ inst ∈ (File.parse text).instructions, ∃ p ∈ inst.chars,
        Text.lineStart text (position.line - 1) ≤ p.offset ∧
          p.offset < Text.lineStart text position.line) →
      (Text.line text position.line).isComment = false →
      (Text.line text position.line).kept (File.parse text).escape ≠ [] →
      edit ∈ (analyze text settings).format options formatter) := by
  obtain ⟨⟨hpos, hlines⟩, hignore, hcontinues, hindent, rfl⟩ := mem_formatOnType hedit
  obtain ⟨front, rest, before, line, after, hcut, hnumber⟩ := Text.Cut.exists_of_lt hlines
  have hline : Text.line text position.line = line := by rw [← hnumber, hcut.line_eq]
  have hstart : Text.lineStart text position.line = line.start := by rw [Text.lineStart, hline]
  rw [hline] at hcontent hindent ⊢
  rw [hstart]
  have hagrees := @reindent_mem_format_iff text front rest before after line settings options formatter
    hcut hignore hcontent hindent
  refine ⟨hagrees, ?_⟩
  rintro ⟨inst, hinst, p, hp, hprevious, hlt⟩ hcomment hkept
  obtain ⟨before, previous, rfl⟩ : ∃ before' previous, before = before' ++ [previous] := by
    refine ⟨_, _, (List.dropLast_concat_getLast ?_).symm⟩
    rintro rfl
    rw [← hnumber] at hpos
    exact absurd hpos (Nat.lt_irrefl 0)
  obtain ⟨_, _, hcut'⟩ := Text.Cut.exists_of_lines
    (by rw [hcut.lines_eq, List.append_assoc, List.singleton_append] :
      Text.lines text = before ++ previous :: line :: after)
  have hbefore : Text.line text (position.line - 1) = previous := by
    rw [← hnumber, List.length_append, List.length_singleton, Nat.add_sub_cancel]
    exact hcut'.line_eq
  rw [hbefore] at hcontinues
  rw [Text.lineStart, hbefore] at hprevious
  have hgoes := goesOn_of_continues hcut' (File.escapeUnder_content _).1 hcontinues
  obtain ⟨q, hq, hle⟩ :=
    exists_kept_behind hcut hinst hgoes hp hprevious hlt hcomment hkept
  exact hagrees.mpr ⟨inst, hinst, ⟨p, hp, hlt⟩, q, hq, hle⟩

/-- The line behind a comment inside an instruction, and the line behind its first. -/
theorem formatOnType_agrees_run :
    (⟨⟨⟨2, 0⟩, ⟨2, 1⟩⟩, "    ".toList⟩ ∈ (analyze "RUN a \\\n# c \\\n b".toList {}).formatOnType
          ⟨2, 1⟩ ['\n'] ⟨4, true⟩ {} ∧
        ⟨⟨⟨2, 0⟩, ⟨2, 1⟩⟩, "    ".toList⟩ ∈
          (analyze "RUN a \\\n# c \\\n b".toList {}).format ⟨4, true⟩ {}) ∧
      ⟨⟨⟨1, 0⟩, ⟨1, 0⟩⟩, "\t".toList⟩ ∈ (analyze "RUN a \\\nb".toList {}).formatOnType
          ⟨1, 0⟩ ['\n'] ⟨4, false⟩ {} ∧
        ⟨⟨⟨1, 0⟩, ⟨1, 0⟩⟩, "\t".toList⟩ ∈
          (analyze "RUN a \\\nb".toList {}).format ⟨4, false⟩ {} := by
  have hcomment : ⟨⟨⟨2, 0⟩, ⟨2, 1⟩⟩, "    ".toList⟩ ∈
      (analyze "RUN a \\\n# c \\\n b".toList {}).formatOnType ⟨2, 1⟩ ['\n'] ⟨4, true⟩ {} := by
    decide +kernel
  have hfirst : ⟨⟨⟨1, 0⟩, ⟨1, 0⟩⟩, "\t".toList⟩ ∈
      (analyze "RUN a \\\nb".toList {}).formatOnType ⟨1, 0⟩ ['\n'] ⟨4, false⟩ {} := by
    decide +kernel
  refine ⟨⟨hcomment, ?_⟩, hfirst, ?_⟩
  · exact (formatOnType_agrees_iff {} _ {} hcomment (by decide +kernel)).1.mpr (by decide +kernel)
  · exact (formatOnType_agrees_iff {} _ {} hfirst (by decide +kernel)).2 (by decide +kernel)
      (by decide +kernel) (by decide +kernel)

/-- A comment can end like a line with a continuation, and so can a directive: the line behind it is
indented, and full formatting leaves it alone. -/
theorem formatOnType_comment :
    (analyze "# a \\\nFROM b".toList {}).formatOnType ⟨1, 0⟩ ['\n'] ⟨4, true⟩ {} =
        [⟨⟨⟨1, 0⟩, ⟨1, 0⟩⟩, "    ".toList⟩] ∧
      (analyze "# a \\\nFROM b".toList {}).format ⟨4, true⟩ {} = [] ∧
      (analyze "# escape=`\nFROM b".toList {}).formatOnType ⟨1, 0⟩ ['\n'] ⟨4, true⟩ {} =
        [⟨⟨⟨1, 0⟩, ⟨1, 0⟩⟩, "    ".toList⟩] ∧
      (analyze "# escape=`\nFROM b".toList {}).format ⟨4, true⟩ {} = [] := by
  decide +kernel

end Layout

end Dockerfile
