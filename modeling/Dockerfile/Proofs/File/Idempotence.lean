import Dockerfile.Proofs.Editor.Tidy
import Dockerfile.Proofs.File.Formatting

/-!
# Formatting twice

A text has nothing to format if the lines of its directives are not indented and those of its body
are tidy (`Layout.format_eq_nil_iff_of_body`). A formatted text is of that kind if formatting spares
the directives and either leaves the further lines of instructions alone or takes the same lines for
further lines in both runs. The latter is a property of the text (`Layout.Lasting`), and there is no
other way for the second run to find nothing (`Layout.format_formatted_iff`).
-/

namespace Dockerfile

namespace Layout

open Body

section Lines

variable {text : Text} {extents : List (Nat × Nat)} {options : IndentOptions}
  {formatter : FormatterSettings} {number : Nat} {line : Line}

theorem newIndent_formatLine? (hline : Text.line text number = line) :
    newIndent (formatLine? text extents options formatter) number line =
      tidyIndent options formatter (isContinued extents number) line := by
  have hindent (indent : Text) :
      ((indentLine? text number indent).map TextEdit.newText).getD (indentation line) =
        if line.core.isEmpty then [] else indent := by
    unfold indentLine?
    have hblank : line.content.all isBlank = line.core.isEmpty := by
      rw [Bool.eq_iff_iff, ← core_eq_nil_iff, List.isEmpty_iff]
      rfl
    simp only [hline, hblank]
    generalize (if line.core.isEmpty = true then [] else indent) = new
    split
    · assumption
    · rfl
  unfold newIndent formatLine? tidyIndent
  split
  · split
    · rfl
    · exact hindent (unit options)
  · rw [hindent, ite_self]

theorem formatLine?_eq_none_iff (hline : Text.line text number = line) :
    formatLine? text extents options formatter number = none ↔
      line.indent = tidyIndent options formatter (isContinued extents number) line := by
  have hnew := @newIndent_formatLine? text extents options formatter number line hline
  rw [← hnew, newIndent]
  cases hedit : formatLine? text extents options formatter number with
  | none => exact ⟨fun _ => rfl, fun _ => rfl⟩
  | some edit =>
      have hchanged := (formatLine?_eq_some hedit).changed
      rw [hline] at hchanged
      constructor
      · intro hnone
        cases hnone
      · intro htidy
        exact absurd htidy hchanged

end Lines

section Relined

variable {text : Text} {extents : List (Nat × Nat)} {options : IndentOptions}
  {formatter : FormatterSettings} {edit? : Nat → Option TextEdit} {escape : Char}

theorem relaidLine_indent (hedits : Reindenting text extents options edit?) (number start : Nat)
    (line : Line) : (relaidLine edit? number start line).indent = newIndent edit? number line := by
  unfold Line.indent relaidLine
  rw [List.takeWhile_append_of_pos (newIndent_blank hedits number line)]
  have hhead := line.isBlank_core_head
  unfold Line.core at hhead
  cases hcore : line.content.dropWhile isBlank with
  | nil => simp
  | cons c core =>
      rw [List.takeWhile_cons_of_neg (by simp [hhead c (by rw [hcore]; rfl)]), List.append_nil]

/-- Lines, laid out. If the text of these starts with a line feed, that may belong to a `\r` in front
of it, and then the first line is gone. -/
theorem relined_linesFrom (hedits : Reindenting text extents options edit?) {start : Nat}
    {rest : Text} {lines : List Line} (h : Lined start rest lines) :
    ∀ {opened : Option (List Placed)} {number : Nat},
      (∀ before line after, lines = before ++ line :: after →
        newIndent edit? (number + before.length) line = tidyIndent options formatter
          (isFurther escape (standing escape opened before) (line :: after)) line) →
      ∀ offset, Relined escape options formatter opened lines
          (Text.linesFrom offset offset (relaid edit? number lines)) ∧
        ∀ out, relaid edit? number lines = '\n' :: out →
          Relined escape options formatter opened lines (Text.linesFrom offset offset out) := by
  induction h with
  | @last start content clean =>
      intro opened number hindent offset
      have hnew := hindent [] ⟨start, content, []⟩ [] rfl
      have hclean := @relaidLine_clean text extents options edit? hedits number offset
        ⟨start, content, []⟩ clean
      have hrelaid := @relaid_cons edit? number offset ⟨start, content, []⟩ []
      simp only [relaid, List.append_nil] at hrelaid
      constructor
      · simp only [relaid, List.append_nil]
        rw [hrelaid, Text.linesFrom_last hclean]
        refine .cons ⟨relaidLine_core hedits number offset ⟨start, content, []⟩, rfl⟩ ?_
          (fun _ => rfl) .nil
        exact (relaidLine_indent hedits number offset ⟨start, content, []⟩).trans hnew
      · intro out hout
        simp only [relaid, List.append_nil] at hout
        rw [hrelaid] at hout
        have hbreak := hclean '\n' (by rw [hout]; exact List.mem_cons_self)
        cases hbreak
  | @cons start content terminator rest lines clean ends next ih =>
      intro opened number hindent offset
      generalize hline : (⟨start, content, terminator⟩ : Line) = line at hindent ⊢
      have hcontent : ∀ c ∈ line.content, isLineBreak c = false := by rw [← hline]; exact clean
      have hends : line.terminator = terminator := by rw [← hline]
      have hclean := relaidLine_clean hedits number offset hcontent
      have hcore := relaidLine_core hedits number offset line
      have hnew : (relaidLine edit? number offset line).indent = tidyIndent options formatter
          (isFurther escape opened (line :: lines)) line :=
        (relaidLine_indent hedits number offset line).trans (hindent [] line lines rfl)
      have hlast : line.terminator = [] → lines = [] := fun hnil =>
        absurd (hends.symm.trans hnil) ends.ne_nil
      have hnext := @ih (openAfter escape opened line) (number + 1) fun before l after hlines => by
        have := hindent (line :: before) l after (by rw [hlines]; rfl)
        rwa [List.length_cons, ← Nat.add_assoc, Nat.add_right_comm] at this
      have hrelaid := @relaid_cons edit? number offset line lines
      rw [hends] at hrelaid
      constructor
      · by_cases ends' : IsTerminator terminator (relaid edit? (number + 1) lines)
        · rw [hrelaid, Text.linesFrom_line hclean ends']
          refine .cons ⟨hcore, ?_⟩ hnew hlast (hnext _).1
          rw [hends]
        · -- The `\r` takes the line feed that follows it now.
          obtain ⟨hterm, out, hout⟩ := ends.lost ends'
          have hjoined : terminator ++ relaid edit? (number + 1) lines = ['\r', '\n'] ++ out := by
            rw [hterm, hout]
            rfl
          rw [hrelaid, hjoined, Text.linesFrom_line hclean (.inl rfl)]
          refine .cons ⟨hcore, ?_⟩ hnew hlast ((hnext _).2 out hout)
          rw [hends, hterm]
          rfl
      · intro out hout
        rw [hrelaid] at hout
        obtain ⟨hnil, hout⟩ := relaidLine_eq_nil hedits hcontent hout
        have hblank : line.core = [] := by
          rw [Line.core, ← hcore, hnil]
          rfl
        rw [← (ends.eq_feed hout).2]
        have hne : line.terminator ≠ [] := by rw [hends]; exact ends.ne_nil
        have hlater := (hnext offset).1
        rw [openAfter_of_blank hblank hne] at hlater
        exact .drop hblank hne hlater

theorem Opens.exists_taken {found : List Directive} {resume : Nat} {out : Text}
    (hedits : Reindenting text extents options edit?) (hspares : Spares text edit? found resume)
    {others : List Line} (taken : List Line) :
    ∀ {front rest front' : Text} {before before' : List Line},
      Text.Cut text front rest before (taken ++ others) →
      Opens edit? out front' before' before.length (taken ++ others) →
      (∀ l ∈ taken ++ others.head?.toList, l.start ≤ resume) →
      ∃ taken', Reaches edit? out (before' ++ taken') (before.length + taken.length) others ∧
        ∀ line' ∈ taken', ∃ number start, number < before.length + taken.length ∧
          line' = relaidLine edit? number start (Text.line text number) := by
  induction taken with
  | nil =>
      intro front rest front' before before' hcut hopens hresume
      refine ⟨[], .inr ⟨?_, front', ?_⟩, by simp⟩
      · rintro rfl
        cases hcut.lined
      · rw [List.append_nil]
        exact hopens
  | cons line taken ih =>
      intro front rest front' before before' hcut hopens hresume
      have hhead : ∀ l ∈ (taken ++ others).head?, l.start ≤ resume := by
        intro l hl
        cases taken with
        | nil =>
            rw [List.nil_append] at hl
            exact hresume l (by simp [Option.mem_def.mp hl])
        | cons first taken =>
            cases Option.mem_some.mp hl
            exact hresume _ (by simp)
      have hline := hcut.line_eq
      rcases hopens.next hspares hedits hcut hhead with ⟨hnil, hlines⟩ | ⟨_, _, _, hnext, -, hopen⟩
      · obtain ⟨rfl, rfl⟩ := List.append_eq_nil_iff.mp hnil
        refine ⟨[_], .inl ⟨rfl, hlines⟩, ?_⟩
        intro line' hline'
        rw [List.mem_singleton.mp hline']
        exact ⟨before.length, _, by simp, by rw [hline]⟩
      · obtain ⟨taken', hreaches, htaken'⟩ := ih hnext hopen fun l hl =>
          hresume l (List.mem_cons_of_mem _ hl)
        have hlen : (before ++ [line]).length + taken.length =
            before.length + (line :: taken).length := by
          simp only [List.length_append, List.length_cons, List.length_nil]
          omega
        rw [hlen, List.append_assoc, List.singleton_append] at hreaches
        refine ⟨_, hreaches, ?_⟩
        intro line' hline'
        rcases List.mem_cons.mp hline' with rfl | hline'
        · exact ⟨before.length, _, by simp, by rw [hline]⟩
        · obtain ⟨number, start, hlt, heq⟩ := htaken' line' hline'
          exact ⟨number, start, by omega, heq⟩

end Relined

/-! ## Texts without anything to format -/

theorem line_cases {text front body : Text} {taken lines before after : List Line} {line : Line}
    (hbody : Text.Cut text front body taken lines)
    (hlines : Text.lines text = before ++ line :: after) :
    (∃ more, before = taken ++ more ∧ lines = more ++ line :: after) ∨
      ∃ more, taken = before ++ line :: more := by
  rw [hbody.lines_eq] at hlines
  rcases List.append_eq_append_iff.mp hlines with ⟨more, hbefore, hmore⟩ | ⟨more, htaken, hmore⟩
  · exact .inl ⟨more, hbefore, hmore⟩
  · cases more with
    | nil => exact .inl ⟨[], by simpa using htaken.symm, hmore.symm⟩
    | cons first more =>
        obtain ⟨rfl, rfl⟩ := List.cons.inj hmore
        exact .inr ⟨more, htaken⟩

section Formatted

variable {text front body : Text} {taken lines : List Line} {settings : Settings}
  {options : IndentOptions} {formatter : FormatterSettings}

theorem format_eq_nil_iff (text : Text) :
    (analyze text settings).format options formatter = [] ↔
      ∀ before line after, Text.lines text = before ++ line :: after →
        line.indent = tidyIndent options formatter
          (isContinued (extents (analyze text settings)) before.length) line := by
  unfold Analysis.format formatLines
  rw [List.filterMap_eq_nil_iff]
  constructor
  · intro h before line after hlines
    obtain ⟨_, _, hcut⟩ := Text.Cut.exists_of_lines hlines
    apply (formatLine?_eq_none_iff hcut.line_eq).mp
    apply h before.length
    show before.length ∈ List.range (Text.lines text).length
    rw [hlines, List.mem_range, List.length_append, List.length_cons]
    omega
  · intro h number hnumber
    obtain ⟨_, _, before, line, after, hcut, rfl⟩ :=
      Text.Cut.exists_of_lt (show number < (Text.lines text).length from List.mem_range.mp hnumber)
    exact (formatLine?_eq_none_iff hcut.line_eq).mpr (h before line after hcut.lines_eq)

theorem format_eq_nil_iff_of_directives
    (hresume : (Directive.readAll text).2 = Text.byteLength text) :
    (analyze text settings).format options formatter = [] ↔
      ∀ line ∈ Text.lines text, line.indent = [] := by
  have hcontinued {before after : List Line} {line : Line}
      (hlines : Text.lines text = before ++ line :: after) :
      isContinued (extents (analyze text settings)) before.length = false := by
    obtain ⟨_, _, hcut⟩ := Text.Cut.exists_of_lines hlines
    apply not_isContinued settings hcut
    have hle := (lined_lines text).start_le_stop (by rw [hlines]; simp : line ∈ Text.lines text)
    omega
  rw [format_eq_nil_iff]
  constructor
  · intro h line hline
    obtain ⟨before, after, hlines⟩ := List.append_of_mem hline
    rw [h before line after hlines, hcontinued hlines]
    rfl
  · intro h before line after hlines
    rw [hcontinued hlines, h line (by rw [hlines]; simp)]
    rfl

/-- A text has nothing to format if the lines of its directives are not indented and those of its body
are tidy. -/
theorem format_eq_nil_iff_of_body (hbody : Text.Cut text front body taken lines)
    (hresume : (Directive.readAll text).2 = Text.byteLength front) :
    (analyze text settings).format options formatter = [] ↔
      (∀ line ∈ taken, line.indent = []) ∧
        Tidy (File.parse text).escape options formatter none lines := by
  have hdirective {before after : List Line} {line : Line} (htaken : taken = before ++ line :: after) :
      isContinued (extents (analyze text settings)) before.length = false := by
    have hlines : Text.lines text = before ++ line :: (after ++ lines) := by
      rw [hbody.lines_eq, htaken, List.append_assoc, List.cons_append]
    obtain ⟨_, _, hcut⟩ := Text.Cut.exists_of_lines hlines
    apply not_isContinued settings hcut
    have hlt := hbody.leading.start_lt line (by rw [htaken]; simp)
    omega
  rw [format_eq_nil_iff]
  constructor
  · intro h
    constructor
    · intro line hline
      obtain ⟨before, after, htaken⟩ := List.append_of_mem hline
      rw [h before line (after ++ lines) (by rw [hbody.lines_eq, htaken]; simp),
        hdirective htaken]
      rfl
    · rintro before line after rfl
      rw [h (taken ++ before) line after (by rw [hbody.lines_eq, List.append_assoc]),
        List.length_append, isContinued_eq settings hbody hresume]
  · rintro ⟨htaken, htidy⟩ before line after hlines
    rcases line_cases hbody hlines with ⟨more, rfl, rfl⟩ | ⟨more, hmore⟩
    · rw [List.length_append, isContinued_eq settings hbody hresume]
      exact htidy more line after rfl
    · rw [hdirective hmore, htaken _ (by rw [hmore]; simp)]
      rfl

end Formatted

/-! ## The second run -/

/-- Formatting spares the directives of a text: no edit falls inside a value, and none joins two line
terminators in front of the body. -/
structure Spared (text : Text) (settings : Settings) (options : IndentOptions)
    (formatter : FormatterSettings) : Prop where
  values : ∀ edit ∈ (analyze text settings).format options formatter,
    ∀ d ∈ (File.parse text).directives,
      ¬ (d.valueSpan.start < (Text.spanOf text edit.range).start ∧
        (Text.spanOf text edit.range).start < d.valueSpan.stop)
  apart : ∀ edit ∈ (analyze text settings).format options formatter,
    (Text.spanOf text edit.range).start ≤ (Directive.readAll text).2 → ¬ edit.Joins text

/-- What instructions a text has does not hang on its layout: each logical line without a keyword has
its content in one line, and behind each comment inside an instruction comes a line that is neither
blank nor a comment. -/
structure Lasting (text : Text) (settings : Settings) : Prop where
  nameless : ∀ line ∈ File.logicalLines text, line.isNamed = false →
    ∀ p ∈ line.chars, ∀ q ∈ line.chars, isBlank p.char = false → isBlank q.char = false →
      Text.lineOf text p.offset = Text.lineOf text q.offset
  comments : ∀ number < (Text.lines text).length,
    isContinued (extents (analyze text settings)) number = true →
    (Text.line text number).isComment = true →
    ∃ line ∈ (Text.lines text).drop (number + 1), line.isContent = true

section Lasting

variable {text front body : Text} {taken lines : List Line} {settings : Settings}

theorem offset_le_of_mem_chars {inst : Instruction} (hinst : inst ∈ File.logicalLines text)
    {p : Placed} (hp : p ∈ inst.chars) : p.offset ≤ Text.byteLength text := by
  have hplaced : p ∈ Text.place 0 text :=
    (File.bodyChars_suffix text).mem (mem_of_mem_logicalLines hinst hp)
  have := (Text.offset_of_mem_place hplaced).2
  have := p.offset_lt_stop
  omega

/-- Of two characters in different lines, the later line starts between them. -/
theorem lineOf_le_of_together (hbody : Text.Cut text front body taken lines)
    (hresume : (Directive.readAll text).2 = Text.byteLength front)
    (htogether : Together (File.parse text).escape none lines) {inst : Instruction}
    (hinst : inst ∈ File.logicalLines text) (hnamed : inst.isNamed = false) {p q : Placed}
    (hp : p ∈ inst.chars) (hq : q ∈ inst.chars) (hpc : isBlank p.char = false)
    (hqc : isBlank q.char = false) : Text.lineOf text q.offset ≤ Text.lineOf text p.offset := by
  refine Nat.le_of_not_lt fun hlt => ?_
  obtain ⟨_, _, before, line, after, hcut, hlen⟩ :=
    Text.Cut.exists_of_lt (Text.lineOf_lt text q.offset)
  have hpin := (Text.offset_of_mem_place (mem_of_mem_logicalLines hinst hp)).1
  have hple := hcut.le_lineOf_iff (offset_le_of_mem_chars hinst hp)
  have hqle := hcut.le_lineOf_iff (offset_le_of_mem_chars hinst hq)
  rcases line_cases hbody hcut.lines_eq with ⟨more, rfl, rfl⟩ | ⟨more, hmore⟩
  · obtain ⟨hbefore, hafter⟩ := hbody.lined.around
    have hrun : inst.chars ∈ runs (File.parse text).escape none (more ++ line :: after) := by
      rw [← File.chars_logicalLines hbody hresume]
      exact List.mem_map.mpr ⟨inst, hinst, rfl⟩
    obtain ⟨kept, hstanding, hchars, hkept, hfrom⟩ := exists_standing_of_mem_runs hrun hbefore
      hafter hp (by omega) hq (by omega)
    rw [File.isNamed_eq hinst, hchars, startsNamed_append_of_mem hkept] at hnamed
    rw [htogether more _ kept rfl hstanding hnamed ⟨p, hkept, hpc⟩ q hfrom] at hqc
    cases hqc
  · have := hbody.leading.start_lt line (by rw [hmore]; simp)
    omega

theorem together_iff (hbody : Text.Cut text front body taken lines)
    (hresume : (Directive.readAll text).2 = Text.byteLength front) :
    Together (File.parse text).escape none lines ↔
      ∀ line ∈ File.logicalLines text, line.isNamed = false →
        ∀ p ∈ line.chars, ∀ q ∈ line.chars, isBlank p.char = false → isBlank q.char = false →
          Text.lineOf text p.offset = Text.lineOf text q.offset := by
  constructor
  · intro htogether inst hinst hnamed p hp q hq hpc hqc
    exact Nat.le_antisymm
      (lineOf_le_of_together hbody hresume htogether hinst hnamed hq hp hqc hpc)
      (lineOf_le_of_together hbody hresume htogether hinst hnamed hp hq hpc hqc)
  · rintro hlines before after kept rfl hstanding hnamed ⟨p, hp, hpc⟩ q hq
    cases after with
    | nil => cases hq
    | cons line after =>
        obtain ⟨hbefore, hafter⟩ := hbody.lined.around
        obtain ⟨hrun, hkept, hfrom⟩ := mem_runs_of_standing hstanding hbefore hafter
        rw [← File.chars_logicalLines hbody hresume] at hrun
        obtain ⟨inst, hinst, hchars⟩ := List.mem_map.mp hrun
        have hp' : p ∈ inst.chars := by rw [hchars]; exact List.mem_append_left _ hp
        have hq' : q ∈ inst.chars := by rw [hchars]; exact List.mem_append_right _ hq
        have hname : inst.isNamed = false := by
          rw [File.isNamed_eq hinst, hchars, startsNamed_append_of_mem hp, hnamed]
        cases hqc : isBlank q.char with
        | true => rfl
        | false =>
            have hsame := hlines inst hinst hname p hp' q hq' hpc hqc
            obtain ⟨_, _, hcut⟩ := Text.Cut.exists_of_lines
              (by rw [hbody.lines_eq, List.append_assoc] :
                Text.lines text = (taken ++ before) ++ line :: after)
            have hple := hcut.le_lineOf_iff (offset_le_of_mem_chars hinst hp')
            have hqle := hcut.le_lineOf_iff (offset_le_of_mem_chars hinst hq')
            have := hkept p hp
            have := hfrom q hq
            have := p.offset_lt_stop
            omega

theorem resumed_iff (hbody : Text.Cut text front body taken lines)
    (hresume : (Directive.readAll text).2 = Text.byteLength front) :
    Resumed (File.parse text).escape none lines ↔
      ∀ number < (Text.lines text).length,
        isContinued (extents (analyze text settings)) number = true →
        (Text.line text number).isComment = true →
        ∃ line ∈ (Text.lines text).drop (number + 1), line.isContent = true := by
  have hdrop {before after : List Line} {line : Line}
      (hlines : Text.lines text = before ++ line :: after) :
      (Text.lines text).drop (before.length + 1) = after := by
    rw [hlines, ← List.drop_drop, List.drop_left]
    rfl
  constructor
  · intro hresumed number hnumber hcontinued hmark
    obtain ⟨_, _, before, line, after, hcut, rfl⟩ := Text.Cut.exists_of_lt hnumber
    rw [hcut.line_eq] at hmark
    rw [hdrop hcut.lines_eq]
    rcases line_cases hbody hcut.lines_eq with ⟨more, rfl, rfl⟩ | ⟨more, hmore⟩
    · rw [List.length_append, isContinued_eq settings hbody hresume] at hcontinued
      exact hresumed more line after rfl hcontinued hmark
    · have hlt := hbody.leading.start_lt line (by rw [hmore]; simp)
      rw [not_isContinued settings hcut (by omega)] at hcontinued
      cases hcontinued
  · rintro hlines before line after rfl hfurther hmark
    have hsplit : Text.lines text = (taken ++ before) ++ line :: after := by
      rw [hbody.lines_eq, List.append_assoc]
    obtain ⟨_, _, hcut⟩ := Text.Cut.exists_of_lines hsplit
    have hnumber : (taken ++ before).length < (Text.lines text).length := by
      have hlen := congrArg List.length hsplit
      rw [List.length_append, List.length_cons] at hlen
      omega
    rw [← isContinued_eq settings hbody hresume, ← List.length_append] at hfurther
    rw [← hcut.line_eq] at hmark
    have hlater := hlines _ hnumber hfurther hmark
    rwa [hdrop hsplit] at hlater

theorem lasting_iff (hbody : Text.Cut text front body taken lines)
    (hresume : (Directive.readAll text).2 = Text.byteLength front) :
    Lasting text settings ↔ Together (File.parse text).escape none lines ∧
      Resumed (File.parse text).escape none lines := by
  rw [together_iff hbody hresume, resumed_iff hbody hresume]
  exact ⟨fun h => ⟨h.nameless, h.comments⟩, fun h => ⟨h.1, h.2⟩⟩

theorem lasting_of_directives (hresume : (Directive.readAll text).2 = Text.byteLength text) :
    Lasting text settings := by
  constructor
  · intro line hline
    have hnil : File.logicalLines text = [] := by
      rw [File.logicalLines, hresume, Directive.bodyChars_byteLength]
      exact (read_of_nil rfl).2
    rw [hnil] at hline
    cases hline
  · intro number hnumber hcontinued
    obtain ⟨_, _, before, line, after, hcut, rfl⟩ := Text.Cut.exists_of_lt hnumber
    have hline : line ∈ Text.lines text := by rw [hcut.lines_eq]; simp
    have hle := (lined_lines text).start_le_stop hline
    rw [not_isContinued settings hcut (by omega)] at hcontinued
    cases hcontinued

end Lasting

section Formatted

variable {text out : Text} {settings : Settings} {options : IndentOptions}
  {formatter : FormatterSettings} {taken : List Line}

theorem exists_margin {others : List Line}
    (hspares : Spares text (formatLine? text (extents (analyze text settings)) options formatter)
      (Directive.readAll text).1 (Directive.readAll text).2)
    (hout : out = relaid (formatLine? text (extents (analyze text settings)) options formatter) 0
      (Text.lines text))
    (hlines : Text.lines text = taken ++ others)
    (hle : ∀ l ∈ taken ++ others.head?.toList, l.start ≤ (Directive.readAll text).2) :
    ∃ taken', Reaches (formatLine? text (extents (analyze text settings)) options formatter) out
        taken' taken.length others ∧ ∀ line' ∈ taken', line'.indent = [] := by
  have hcut := Text.cut_start text
  rw [hlines] at hcut hout
  have hopens : Opens (formatLine? text (extents (analyze text settings)) options formatter) out []
      [] ([] : List Line).length (taken ++ others) := ⟨hout, Text.leading_nil _⟩
  obtain ⟨taken', hreaches, htaken'⟩ :=
    hopens.exists_taken reindenting_formatLine? hspares taken hcut hle
  rw [List.nil_append, List.length_nil, Nat.zero_add] at hreaches
  refine ⟨taken', hreaches, ?_⟩
  intro line' hline'
  obtain ⟨number, start, hnumber, rfl⟩ := htaken' line' hline'
  rw [List.length_nil, Nat.zero_add] at hnumber
  obtain ⟨_, _, before, line, after, hcut', rfl⟩ :=
    Text.Cut.exists_of_lt
      (show number < (Text.lines text).length by rw [hlines, List.length_append]; omega)
  have hmem : line ∈ taken := by
    have hget : taken[before.length]? = some line := by
      rw [← List.getElem?_append_left hnumber, ← hlines, hcut'.lines_eq]
      simp
    exact List.mem_of_getElem? hget
  rw [relaidLine_indent reindenting_formatLine?, newIndent_formatLine? rfl,
    not_isContinued settings hcut' (hle line (List.mem_append_left _ hmem))]
  rfl

theorem relined_body {front body : Text} {lines : List Line}
    (hbody : Text.Cut text front body taken lines)
    (hresume : (Directive.readAll text).2 = Text.byteLength front) (offset : Nat) :
    Relined (File.parse text).escape options formatter none lines
      (Text.linesFrom offset offset (relaid
        (formatLine? text (extents (analyze text settings)) options formatter) taken.length
          lines)) := by
  refine (relined_linesFrom reindenting_formatLine? hbody.lined ?_ offset).1
  rintro before line after rfl
  have hlines : Text.lines text = (taken ++ before) ++ line :: after := by
    rw [hbody.lines_eq, List.append_assoc]
  obtain ⟨_, _, hcut⟩ := Text.Cut.exists_of_lines hlines
  have hline := hcut.line_eq
  rw [List.length_append] at hline
  rw [newIndent_formatLine? hline, isContinued_eq settings hbody hresume]

/-- The formatted text has its body behind the lines of its directives, and the lines of that body
are those of the text, laid out. -/
theorem exists_body_relined {front body front' : Text} {taken' tail : List Line} {line : Line}
    (hspares : Spares text (formatLine? text (extents (analyze text settings)) options formatter)
      (Directive.readAll text).1 (Directive.readAll text).2)
    (hout : out = relaid (formatLine? text (extents (analyze text settings)) options formatter) 0
      (Text.lines text))
    (hresume : (Directive.readAll text).2 = Text.byteLength front)
    (hcut : Text.Cut text front body taken (line :: tail))
    (hopens : Opens (formatLine? text (extents (analyze text settings)) options formatter) out front'
      taken' taken.length (line :: tail)) :
    ∃ front'' body' lines', Text.Cut out front'' body' taken' lines' ∧
      Text.byteLength front'' = Text.byteLength front' ∧ (∀ line' ∈ taken', line'.indent = []) ∧
      Relined (File.parse text).escape options formatter none (line :: tail) lines' := by
  have hstart := hcut.start_eq
  obtain ⟨taken'', ⟨hnil, -⟩ | ⟨-, front'', hopens''⟩, hmargin⟩ :=
    exists_margin hspares hout hcut.lines_eq fun l hl => by
      rcases List.mem_append.mp hl with hl | hl
      · have := hcut.leading.start_lt l hl
        omega
      · rw [List.head?_cons, Option.toList_some, List.mem_singleton] at hl
        rw [hl]
        omega
  · cases hnil
  -- Both ways of reaching the body end in the same place.
  obtain rfl : front'' = front' :=
    List.append_cancel_right (hopens''.split.symm.trans hopens.split)
  have hlines' := hopens.leading.eq id
  have hlines'' := hopens''.leading.eq id
  rw [← hopens.split] at hlines' hlines''
  obtain rfl : taken'' = taken' := List.append_cancel_right (hlines''.symm.trans hlines')
  have hrelined := @relined_body text settings options formatter taken _ _ _ hcut hresume
    (Text.byteLength front'')
  have hlined := lined_linesFrom (Text.byteLength front'')
    (relaid (formatLine? text (extents (analyze text settings)) options formatter) taken.length
      (line :: tail))
  generalize Text.linesFrom (Text.byteLength front'') (Text.byteLength front'') _ = lines'
    at hlines' hrelined hlined
  obtain ⟨line', tail', rfl⟩ := List.exists_cons_of_ne_nil hlined.ne_nil
  obtain ⟨_, -, hstart', -⟩ := hlined.exists_head
  obtain ⟨_, _, hcut'⟩ := Text.Cut.exists_of_lines hlines'
  exact ⟨_, _, _, hcut', hcut'.start_eq.symm.trans hstart', hmargin, hrelined⟩

end Formatted

/-- Once a text whose directives are spared is formatted, formatting finds nothing to do, if and only
if further lines of instructions are left alone or the text lasts. -/
theorem format_formatted_iff (text : Text) (settings settings' : Settings) (options : IndentOptions)
    (formatter : FormatterSettings) (h : Spared text settings options formatter) :
    (analyze (formatted text settings options formatter) settings').format options formatter = [] ↔
      (formatter.ignoreMultilineInstructions = false → Lasting text settings) := by
  have hspares := spares_format h.values h.apart
  have hformat : formatted text settings options formatter =
      relaid (formatLine? text (extents (analyze text settings)) options formatter) 0
        (Text.lines text) := applyAll_format (analyze text settings) options formatter
  obtain ⟨hentry, hopens⟩ := exists_readAll_relaid reindenting_formatLine? hspares
  rw [← hformat] at hentry hopens
  generalize formatted text settings options formatter = out at hformat hentry hopens ⊢
  have hescape : (File.parse out).escape = (File.parse text).escape := File.escapeUnder_congr hentry
  generalize hresume' : (Directive.readAll out).2 = resume' at hopens
  cases hopens with
  | none hresume =>
      obtain ⟨taken', ⟨-, hlines'⟩ | ⟨hne, -⟩, hmargin⟩ := exists_margin hspares hformat
        (List.append_nil _).symm fun l hl => by
          rw [List.head?_nil, Option.toList_none, List.append_nil] at hl
          have := (lined_lines text).start_le_stop hl
          omega
      · rw [format_eq_nil_iff_of_directives hresume', ← hlines']
        exact ⟨fun _ _ => lasting_of_directives hresume, fun _ => hmargin⟩
      · exact absurd rfl hne
  | @some front body front' taken taken' tail line hresume hcut hopens =>
      obtain ⟨front'', body', lines', hcut', hfront, hmargin, hrelined⟩ :=
        exists_body_relined hspares hformat hresume hcut hopens
      rw [format_eq_nil_iff_of_body hcut' (hresume'.trans hfront.symm), hescape,
        lasting_iff hcut hresume, ← hrelined.tidy_iff .outside]
      exact ⟨And.right, fun htidy => ⟨hmargin, htidy⟩⟩

/-- A comment inside an instruction, a logical line without a keyword and a blank line at the end. -/
theorem format_formatted_run :
    Spared " RUN a \\\n# c\nb\n\\\n  x\n  ".toList {} ⟨4, true⟩ {} ∧
      ((analyze " RUN a \\\n# c\nb\n\\\n  x\n  ".toList {}).format ⟨4, true⟩ {}).length = 5 ∧
      (analyze (formatted " RUN a \\\n# c\nb\n\\\n  x\n  ".toList {} ⟨4, true⟩ {}) {}).format
        ⟨4, true⟩ {} = [] := by
  have hspared : Spared " RUN a \\\n# c\nb\n\\\n  x\n  ".toList {} ⟨4, true⟩ {} := by
    refine ⟨by decide +kernel, ?_⟩
    unfold TextEdit.Joins
    decide +kernel
  refine ⟨hspared, by decide +kernel, ?_⟩
  exact (format_formatted_iff _ {} {} ⟨4, true⟩ {} hspared).mpr fun _ =>
    ⟨by decide +kernel, by decide +kernel⟩

/-- Formatting finds something to do once more if it removes blanks of the last line that an
instruction keeps behind a comment, if it gives a keyword to several lines that had none, if it joins
the terminators of two lines in front of the body, and if it cuts into the value of a directive. -/
theorem format_formatted_ne :
    (analyze (formatted "RUN a \\\n # c\n   ".toList {} ⟨4, true⟩ {}) {}).format ⟨4, true⟩ {} ≠ [] ∧
      (analyze (formatted "\\\n FROM x \\\n y".toList {} ⟨4, true⟩ {}) {}).format ⟨4, true⟩ {} ≠ [] ∧
      (analyze (formatted "# a=b\r \n# escape=`\nRUN a \\\n b".toList {} ⟨4, true⟩ {}) {}).format
        ⟨4, true⟩ {} ≠ [] ∧
      (analyze (formatted "# escape=`\\\n  \\\n\nRUN a \\\n b".toList {} ⟨4, true⟩ {}) {}).format
        ⟨4, true⟩ {} ≠ [] := by
  decide +kernel

end Layout

end Dockerfile
