import Dockerfile.Proofs.Editor.Directives
import Dockerfile.Proofs.Editor.Extent
import Dockerfile.Proofs.File.Coverage

/-!
# Formatting and meaning

The meaning of a file is what its directives say and the keywords and arguments of its instructions.
Formatting indents every further line of an instruction, while reading joins these lines without a
blank, so the meaning can change (`Layout.meaning_format_ne`). It stays if the edits are harmless:
none moves what stands inside a word or the value of a directive, no line is without a keyword but
blank ones, and no two line terminators become one in front of a directive or inside a value
(`Layout.meaning_format`).
-/

namespace Dockerfile

def Instruction.words (inst : Instruction) : Text × List Text :=
  (inst.keyword.text, inst.arguments.map Argument.text)

namespace File

structure Meaning where
  directives : List (Text × Text)
  instructions : List (Text × List Text)
  deriving DecidableEq, Repr

def meaning (file : File) : Meaning :=
  ⟨file.directives.map Directive.entry, file.instructions.map Instruction.words⟩

def wordSpans (file : File) : List Span :=
  file.instructions.flatMap fun inst => inst.keywordSpan :: inst.arguments.map Argument.span

end File

namespace TextEdit

def Cuts (text : Text) (edit : TextEdit) (span : Span) : Prop :=
  span.start < (Text.spanOf text edit.range).start ∧ (Text.spanOf text edit.range).start < span.stop

/-- Neither a comment nor the end of a line stands behind the edit. -/
def Moves (text : Text) (edit : TextEdit) : Prop :=
  ∀ c ∈ (Text.dropBytes (Text.spanOf text edit.range).stop text).head?,
    isLineBreak c = false ∧ c ≠ '#'

/-- Without the edit's span, a line feed would follow a `\r` and belong to it. -/
def Joins (text : Text) (edit : TextEdit) : Prop :=
  edit.newText = [] ∧
    (Text.takeBytes (Text.spanOf text edit.range).start text).getLast? = some '\r' ∧
    (Text.dropBytes (Text.spanOf text edit.range).stop text).head? = some '\n'

instance (text : Text) (edit : TextEdit) (span : Span) : Decidable (edit.Cuts text span) :=
  inferInstanceAs (Decidable (_ ∧ _))

instance (text : Text) (edit : TextEdit) : Decidable (edit.Moves text) :=
  decidable_of_iff ((Text.dropBytes (Text.spanOf text edit.range).stop text).head?.all fun c =>
      isLineBreak c == false && c != '#')
    (by simp [Moves, Option.all_eq_true])

instance (text : Text) (edit : TextEdit) : Decidable (edit.Joins text) :=
  inferInstanceAs (Decidable (_ ∧ _))

end TextEdit

namespace Layout

def formatted (text : Text) (settings : Settings) (options : IndentOptions)
    (formatter : FormatterSettings) : Text :=
  TextEdit.applyAll text ((analyze text settings).format options formatter)

/-- Edits of a text that leave its meaning alone. -/
structure Harmless (text : Text) (edits : List TextEdit) : Prop where
  nameless : File.NamelessLinesBlank text
  values : ∀ edit ∈ edits, ∀ d ∈ (File.parse text).directives, ¬ edit.Cuts text d.valueSpan
  words : ∀ edit ∈ edits, edit.Moves text → ∀ span ∈ (File.parse text).wordSpans,
    ¬ edit.Cuts text span
  /-- A line feed moves behind a `\r` at most where the body begins and in front of no directive. -/
  joins : ∀ edit ∈ edits,
    (Text.spanOf text edit.range).start ≤ (Directive.readAll text).2 → edit.Joins text →
      (Text.spanOf text edit.range).start = (Directive.readAll text).2 ∧
        ∀ line ∈ Text.lines text, line.start = (Text.spanOf text edit.range).stop + 1 →
          Directive.ofLine? line = none

end Layout

/-! ## Lines that differ in separating blanks -/

namespace Body

variable {text : Text} {escape : Char}

/-- The words of a line stay the same if blanks change only between them. -/
theorem words_of_respaced {edited : Nat → Prop} {lo stop' : Nat}
    {chars chars' : List Placed} (hc : chars <:+ Text.place 0 text)
    (h : Respaced (Respaced.Separating edited) lo (lineAt escape (Text.byteLength text) chars).chars
      (lineAt escape stop' chars').chars)
    (hkeyword : ∀ offset, edited offset →
      ∀ q ∈ (lineAt escape (Text.byteLength text) chars).keyword.chars, q.offset < offset)
    (harguments : ∀ arg ∈ (lineAt escape (Text.byteLength text) chars).arguments,
      ∀ offset, edited offset → ¬ (arg.span.start < offset ∧ offset < arg.span.stop)) :
    (lineAt escape stop' chars').isNamed = (lineAt escape (Text.byteLength text) chars).isNamed ∧
      (lineAt escape stop' chars').words = (lineAt escape (Text.byteLength text) chars).words := by
  obtain ⟨word', rest', hline', htext, lo', hnext⟩ := h.stretch fun o ho _ => hkeyword o ho
  obtain ⟨hword, hregion⟩ := @keyword_eq escape stop' chars'
  have hblank : ∀ p ∈ word', (!isBlank p.char) = true := by
    intro p hp
    have hmem : p.char ∈ Placed.text word' := List.mem_map.mpr ⟨p, hp, rfl⟩
    rw [htext] at hmem
    obtain ⟨q, hq, hchar⟩ := List.mem_map.mp hmem
    rw [(keyword_eq chars).1] at hq
    rw [← hchar]
    exact List.all_eq_true.mp List.all_takeWhile q hq
  have hhead : rest' = [] ∨ ∃ p tail, rest' = p :: tail ∧ isBlank p.char = true := by
    rcases @region_head escape (Text.byteLength text) chars with hnil | ⟨p, tail, hcons, hp⟩
    · rw [hnil] at hnext
      exact .inl hnext.eq_nil
    · rw [hcons] at hnext
      exact hnext.head_blank hp
  have hword' : (lineAt escape stop' chars').keyword.chars = word' := by
    rw [hword, hline', List.takeWhile_append_of_pos hblank]
    rcases hhead with rfl | ⟨p, tail, rfl, hp⟩
    · rw [List.takeWhile_nil, List.append_nil]
    · rw [List.takeWhile_cons, hp]
      exact List.append_nil _
  have hregion' : (lineAt escape stop' chars').region.chars = rest' := by
    rw [hregion, hline', List.dropWhile_append_of_pos hblank]
    rcases hhead with rfl | ⟨p, tail, rfl, hp⟩
    · rfl
    · rw [List.dropWhile_cons, hp]
      rfl
  have hnames : (lineAt escape stop' chars').keyword.text =
      (lineAt escape (Text.byteLength text) chars).keyword.text := by
    rw [Excerpt.text, Excerpt.text, hword', htext]
  have hordered : (lineAt escape (Text.byteLength text) chars).region.chars.Pairwise
      fun p q => p.stop ≤ q.offset :=
    (Text.pairwise_place 0 text).sublist (lineAt_within hc).region.chars
  constructor
  · have hempty := congrArg List.isEmpty hnames
    rw [Excerpt.text, Excerpt.text, Placed.text, Placed.text, List.isEmpty_map,
      List.isEmpty_map] at hempty
    exact congrArg Bool.not hempty
  · refine Prod.ext hnames ?_
    show (Argument.splitFrom escape _ 0 (lineAt escape stop' chars').region.chars).map _ = _
    rw [hregion']
    exact Argument.splitFrom_respaced hnext hordered harguments

end Body

namespace Layout

variable {text : Text}

/-! ## Edits between words -/

section Edits

variable {settings : Settings} {options : IndentOptions} {formatter : FormatterSettings}

def Edited (text : Text) (edits : List TextEdit) (offset : Nat) : Prop :=
  ∃ edit ∈ edits, edit.Moves text ∧ (Text.spanOf text edit.range).start = offset

theorem mem_format {front rest : Text} {before after : List Line} {line : Line} {edit : TextEdit}
    (hcut : Text.Cut text front rest before (line :: after))
    (hedit : formatLine? text (extents (analyze text settings)) options formatter before.length =
      some edit) :
    edit ∈ (analyze text settings).format options formatter ∧
      Text.spanOf text edit.range =
        ⟨line.start, line.start + Text.byteLength (indentation line)⟩ := by
  constructor
  · refine List.mem_filterMap.mpr ⟨before.length, List.mem_range.mpr ?_, hedit⟩
    show before.length < (Text.lines text).length
    rw [hcut.lines_eq, List.length_append, List.length_cons]
    omega
  · obtain ⟨rest', hrest, -, hmore, -⟩ := hcut.exists_next
    exact ((formatLine?_eq_some hedit).apply_eq hcut hrest (by rw [hrest]; exact id) hmore).1

theorem exists_first {line : Instruction} (h : line ∈ (File.parse text).instructions) :
    ∃ p rest, line.chars = p :: rest ∧ isBlank p.char = false := by
  have hnamed := File.isNamed_of_mem h
  obtain ⟨start, -, rfl⟩ := Body.exists_lineAt_of_mem (File.mem_logicalLines h)
  exact (Body.isNamed_lineAt_iff start).mp hnamed

/-- Blanks of an instruction that start a line start one of its further lines: it starts with none. -/
theorem isContinued_of_blanks {line : Instruction} (hline : line ∈ (File.parse text).instructions)
    {above below : Text} {before after : List Line} {physical : Line} {front old tail : List Placed}
    (hcut : Text.Cut text above below before (physical :: after)) (hne : old ≠ [])
    (hold : ∀ q ∈ old, isBlank q.char = true) (hchars : line.chars = front ++ (old ++ tail))
    (hfront : ∀ p ∈ front, p.stop ≤ physical.start)
    (hbehind : ∀ p ∈ old ++ tail, physical.start ≤ p.offset) :
    isContinued (extents (analyze text settings)) before.length = true := by
  obtain ⟨q, old, rfl⟩ := List.exists_cons_of_ne_nil hne
  refine (isContinued_iff settings hcut).mpr
    ⟨line, hline, ?_, q, by rw [hchars]; simp, hbehind q List.mem_cons_self⟩
  obtain ⟨p, rest, hfirst, hp⟩ := exists_first hline
  cases front with
  | nil =>
      rw [hfirst] at hchars
      obtain ⟨rfl, -⟩ := List.cons.inj hchars
      rw [hold p List.mem_cons_self] at hp
      cases hp
  | cons r front =>
      have := hfront r List.mem_cons_self
      have := r.offset_lt_stop
      exact ⟨r, by rw [hchars]; exact List.mem_cons_self, by omega⟩

theorem isLineBreak_of_blank_line {above below : Text} {before after : List Line} {line : Line}
    (hcut : Text.Cut text above below before (line :: after))
    (hblank : line.content.all isBlank = true) :
    ∀ c ∈ (Text.dropBytes (line.start + Text.byteLength (indentation line)) text).head?,
      isLineBreak c = true := by
  obtain ⟨rest', hrest, -, hmore, -⟩ := hcut.exists_next
  have hcontent := indentation_append line
  rw [(core_eq_nil_iff line).mpr hblank, List.append_nil] at hcontent
  rwa [hcut.start_eq, ← Text.byteLength_append, hcut.split, hrest, hcontent, ← List.append_assoc,
    Text.dropBytes_append_byteLength]

/-- An edit among the characters that an instruction keeps stands between two of its words, or in
front of blanks that it ends with. -/
theorem separating_of_kept {line : Instruction} (hline : line ∈ (File.parse text).instructions)
    {hi offset : Nat} {front old new tail : List Placed}
    (hkept : Body.KeptEdit (LineEdit text
      (formatLine? text (extents (analyze text settings)) options formatter)) hi offset old new tail)
    (hchars : line.chars = front ++ (old ++ tail)) (hfront : ∀ p ∈ front, p.stop ≤ offset)
    (hbehind : ∀ p ∈ old ++ tail, offset ≤ p.offset)
    (hothers : ∀ inst ∈ (File.parse text).instructions, inst = line ∨
      (∀ p ∈ inst.chars, p.offset < offset) ∨ ∀ p ∈ inst.chars, offset ≤ p.offset) :
    Respaced.Separating (fun o => Edited text ((analyze text settings).format options formatter) o ∧
      line.keywordSpan.start < o) offset old new tail := by
  obtain ⟨-, rest, ⟨before, physical, after, edit, hlines, rfl, hedit, hold, hnew, hrest⟩, hend,
    hhead⟩ := hkept
  obtain ⟨above, below, hcut⟩ := Text.Cut.exists_of_lines hlines
  have hreindents := formatLine?_eq_some hedit
  have hchanged := hreindents.changed
  have hnewText := hreindents.newText_eq
  rw [hcut.line_eq] at hchanged hnewText
  have hcontinued : isContinued (extents (analyze text settings)) before.length = true := by
    refine Decidable.byContradiction fun hc =>
      hc (isContinued_of_blanks hline hcut ?_ ?_ hchars hfront hbehind)
    · rintro rfl
      rw [Bool.eq_false_iff.mpr hc] at hnewText
      exact hchanged (hold.symm.trans hnewText.symm)
    · intro q hq
      refine @isBlank_of_mem_indentation physical _ ?_
      rw [← hold]
      exact List.mem_map.mpr ⟨q, hq, rfl⟩
  obtain ⟨inst, hinst, ⟨p, hp, hplt⟩, q, hq, hqle⟩ := (isContinued_iff settings hcut).mp hcontinued
  obtain rfl : inst = line := by
    rcases hothers inst hinst with heq | hbefore | hafter
    · exact heq
    · have := hbefore q hq
      omega
    · have := hafter p hp
      omega
  obtain ⟨hmem, hspan⟩ := mem_format hcut hedit
  have hstart := Instruction.keywordSpan_start_le (File.instruction_within hinst)
    (File.isNamed_of_mem hinst) hp
  have hmoves : edit.Moves text := by
    intro c hc
    rw [hspan, ← hrest, Placed.text, List.head?_map] at hc
    obtain ⟨r, hr, rfl⟩ := Option.map_eq_some_iff.mp hc
    exact hhead r hr
  refine ⟨⟨⟨edit, hmem, hmoves, by rw [hspan]⟩, by omega⟩, ?_, ?_⟩
  · intro hnil
    rw [hchars, hnil, List.append_nil] at hq
    have := hfront q hq
    have := q.offset_lt_stop
    omega
  · cases hall : physical.content.all isBlank with
    | true =>
        right
        apply hend
        cases rest with
        | nil => rfl
        | cons r rest =>
            have hbreak := isLineBreak_of_blank_line hcut hall r.char (by rw [← hrest]; rfl)
            rw [(hhead r rfl).1] at hbreak
            cases hbreak
    | false =>
        left
        rintro rfl
        rw [hcontinued, hall, ← hnew] at hnewText
        exact unit_ne_nil options hnewText.symm

/-- All edits among the characters of an instruction stand between its words, since the other
instructions stand before it or behind it. -/
theorem separating_line {before lines : List Instruction} {line : Instruction} {chars' : List Placed}
    {lo hi : Nat} (hlines : File.logicalLines text = before ++ line :: lines)
    (hline : line ∈ (File.parse text).instructions)
    (hbefore : ∀ l ∈ before, ∀ p ∈ l.chars, p.stop ≤ lo)
    (hlater : ∀ l ∈ lines, ∀ p ∈ l.chars, hi ≤ p.offset)
    (hchars : Respaced (Body.KeptEdit (LineEdit text
      (formatLine? text (extents (analyze text settings)) options formatter)) hi) lo line.chars
        chars') :
    Respaced (Respaced.Separating fun o =>
      Edited text ((analyze text settings).format options formatter) o ∧ line.keywordSpan.start < o)
        lo line.chars chars' := by
  refine @Respaced.imp _ _ _ _ _ line.chars [] hchars rfl (by simp) ?_
  intro _ _ _ _ _ hkept hwhole hlo hfront hbehind
  refine separating_of_kept hline hkept hwhole hfront hbehind fun inst hinst => ?_
  have hin := File.mem_logicalLines hinst
  rw [hlines] at hin
  rcases List.mem_append.mp hin with hin | hin
  · refine .inr (.inl fun p hp => ?_)
    have := hbefore inst hin p hp
    have := p.offset_lt_stop
    omega
  · rcases List.mem_cons.mp hin with rfl | hin
    · exact .inl rfl
    · exact .inr (.inr fun p hp => Nat.le_trans hkept.1 (hlater inst hin p hp))

/-- What harmless edits leave of a line: its words if it has a keyword, and blanks if not. -/
theorem line_words (h : Harmless text ((analyze text settings).format options formatter))
    {before lines : List Instruction} {line : Instruction} {chars' : List Placed} {stop' lo hi : Nat}
    (hlines : File.logicalLines text = before ++ line :: lines)
    (hbefore : ∀ l ∈ before, ∀ p ∈ l.chars, p.stop ≤ lo)
    (hlater : ∀ l ∈ lines, ∀ p ∈ l.chars, hi ≤ p.offset)
    (hchars : Respaced (Body.KeptEdit (LineEdit text
      (formatLine? text (extents (analyze text settings)) options formatter)) hi) lo line.chars
        (Body.lineAt (File.parse text).escape stop' chars').chars) :
    (Body.lineAt (File.parse text).escape stop' chars').isNamed = line.isNamed ∧
      (line.isNamed = true →
        (Body.lineAt (File.parse text).escape stop' chars').words = line.words) := by
  have hmem : line ∈ File.logicalLines text := by rw [hlines]; simp
  cases hnamed : line.isNamed with
  | false =>
      have hblank := hchars.all_blank fun p hp =>
        h.nameless line hmem hnamed p (File.region_of_nameless hnamed hp)
      refine ⟨Bool.eq_false_iff.mpr fun hnamed' => ?_, by simp⟩
      obtain ⟨p, rest, hcons, hp⟩ := (Body.isNamed_lineAt_iff chars').mp hnamed'
      rw [hblank p (by rw [hcons]; exact List.mem_cons_self)] at hp
      cases hp
  | true =>
      have hline : line ∈ (File.parse text).instructions := by
        rw [File.instructions_parse]
        exact List.mem_filter.mpr ⟨hmem, hnamed⟩
      have hspans {span : Span} (hspan : span ∈ line.keywordSpan :: line.arguments.map Argument.span)
          {offset : Nat} (ho : Edited text ((analyze text settings).format options formatter) offset) :
          ¬ (span.start < offset ∧ offset < span.stop) := by
        obtain ⟨edit, hedit, hmoves, rfl⟩ := ho
        exact h.words edit hedit hmoves span (List.mem_flatMap.mpr ⟨line, hline, hspan⟩)
      have hseparating := separating_line hlines hline hbefore hlater hchars
      have hwithin := File.instruction_within hline
      obtain ⟨start, hstart, rfl⟩ := Body.exists_lineAt_of_mem hmem
      have hwords := Body.words_of_respaced (hstart.trans (File.bodyChars_suffix text)) hseparating
        (fun o ho q hq => by
          have hstop := hwithin.keyword.stop_le hq
          have hoff := hspans List.mem_cons_self ho.1
          have hstart := ho.2
          have := q.offset_lt_stop
          unfold Instruction.keywordSpan at hoff hstart
          omega)
        (fun arg harg o ho => hspans (List.mem_cons_of_mem _ (List.mem_map.mpr ⟨arg, harg, rfl⟩)) ho.1)
      rw [hnamed] at hwords
      exact ⟨hwords.1, fun _ => hwords.2⟩

theorem words_eq (h : Harmless text ((analyze text settings).format options formatter))
    {start stop' : Nat} {lines lines' : List Instruction}
    (hrelaid : Body.RelaidLines (LineEdit text
      (formatLine? text (extents (analyze text settings)) options formatter)) True start lines lines')
    (hlines' : ∀ line ∈ lines', ∃ chars, line = Body.lineAt (File.parse text).escape stop' chars) :
    ∀ {before}, File.logicalLines text = before ++ lines →
      (∀ line ∈ before, ∀ p ∈ line.chars, p.stop ≤ start) →
      (lines'.filter Instruction.isNamed).map Instruction.words =
        (lines.filter Instruction.isNamed).map Instruction.words := by
  induction hrelaid with
  | nil => intro _ _ _; rfl
  | @cons start lo hi line line' lines lines' after ordered inside chars _ next ih =>
      intro before hlines hbefore
      obtain ⟨chars', rfl⟩ := hlines' line' List.mem_cons_self
      have hbefore' : ∀ l ∈ before, ∀ p ∈ l.chars, p.stop ≤ lo := fun l hl p hp =>
        Nat.le_trans (hbefore l hl p hp) after
      obtain ⟨hnamed, hwords⟩ := line_words h hlines hbefore' next.start_le chars
      have hrest := @ih (fun l hl => hlines' l (List.mem_cons_of_mem _ hl)) (before ++ [line])
        (by rw [hlines, List.append_assoc, List.singleton_append]) ?_
      · cases hline : line.isNamed with
        | false =>
            rw [hline] at hnamed
            rw [List.filter_cons_of_neg (by simp [hnamed]), List.filter_cons_of_neg (by simp [hline])]
            exact hrest
        | true =>
            rw [hline] at hnamed
            rw [List.filter_cons_of_pos hnamed, List.filter_cons_of_pos hline, List.map_cons,
              List.map_cons, hwords hline, hrest]
      · intro l hl p hp
        rcases List.mem_append.mp hl with hl | hl
        · exact Nat.le_trans (hbefore' l hl p hp) ordered
        · rw [List.mem_singleton.mp hl] at hp
          exact (inside p hp).2

theorem joins_of_cut {front rest : Text} {before after : List Line} {line : Line} {edit : TextEdit}
    (hcut : Text.Cut text front rest before (line :: after))
    (hspan : Text.spanOf text edit.range =
      ⟨line.start, line.start + Text.byteLength (indentation line)⟩)
    (hnew : edit.newText = []) (hlast : front.getLast? = some '\r')
    (hhead : (Text.dropBytes (Text.byteLength (indentation line)) rest).head? = some '\n') :
    edit.Joins text := by
  obtain ⟨rest', hrest, -⟩ := hcut.exists_next
  rw [← indentation_append line, List.append_assoc] at hrest
  rw [hrest, Text.dropBytes_append_byteLength] at hhead
  refine ⟨hnew, ?_, ?_⟩
  · rw [hspan, hcut.start_eq, hcut.split, Text.takeBytes_append_byteLength]
    exact hlast
  · rw [hspan]
    simp only
    rw [hcut.start_eq, hcut.split, hrest, ← List.append_assoc, ← Text.byteLength_append,
      Text.dropBytes_append_byteLength]
    exact hhead

/-- The edits spare the directives if none falls inside a value or moves a line feed in front of the
body behind a `\r`. -/
theorem spares_format
    (values : ∀ edit ∈ (analyze text settings).format options formatter,
      ∀ d ∈ (File.parse text).directives,
        ¬ (d.valueSpan.start < (Text.spanOf text edit.range).start ∧
          (Text.spanOf text edit.range).start < d.valueSpan.stop))
    (apart : ∀ edit ∈ (analyze text settings).format options formatter,
      (Text.spanOf text edit.range).start ≤ (Directive.readAll text).2 → ¬ edit.Joins text) :
    Spares text (formatLine? text (extents (analyze text settings)) options formatter)
      (Directive.readAll text).1 (Directive.readAll text).2 := by
  constructor
  · intro front rest before line after edit hcut hedit d hd
    obtain ⟨hmem, hspan⟩ := mem_format hcut hedit
    have hvalue := values edit hmem d hd
    rwa [hspan] at hvalue
  · intro front rest before line after edit hcut hresume hedit hnew hlast hhead
    obtain ⟨hmem, hspan⟩ := mem_format hcut hedit
    exact apart edit hmem (by rw [hspan]; exact hresume) (joins_of_cut hcut hspan hnew hlast hhead)

theorem Harmless.readsAlike
    (h : Harmless text ((analyze text settings).format options formatter)) :
    ReadsAlike text (formatLine? text (extents (analyze text settings)) options formatter) := by
  refine readsAlike_of_joins reindenting_formatLine? ?_ ?_
  · intro front rest before line after edit hcut hedit d hd
    obtain ⟨hmem, hspan⟩ := mem_format hcut hedit
    have hvalue := h.values edit hmem d hd
    rwa [TextEdit.Cuts, hspan] at hvalue
  · intro front rest before after line hjoins hle
    obtain ⟨hcontent, hterm, -⟩ := hjoins.relaid_eq
    obtain ⟨hcut, ⟨edit, hedit, hnew⟩, hlast, hhead⟩ := hjoins
    obtain ⟨hmem, hspan⟩ := mem_format hcut hedit
    obtain ⟨hstart, hnone⟩ :=
      h.joins edit hmem (by rwa [hspan]) (joins_of_cut hcut hspan hnew hlast hhead)
    rw [hspan] at hstart hnone
    refine ⟨hstart, fun next hnext => ?_⟩
    obtain ⟨rest', -, -, -, ⟨rfl, -⟩ | ⟨-, hbehind⟩⟩ := hcut.exists_next
    · cases hnext
    obtain ⟨tail, rfl⟩ := List.head?_eq_some_iff.mp hnext
    refine hnone next (by rw [hbehind.lines_eq]; simp) ?_
    rw [hbehind.start_eq, hcontent, hterm, hcut.start_eq, Text.byteLength_append,
      Text.byteLength_append, Nat.add_assoc]
    rfl

end Edits

/-- Harmless edits leave the meaning of a file as it is. -/
theorem meaning_format (text : Text) (settings : Settings) (options : IndentOptions)
    (formatter : FormatterSettings)
    (h : Harmless text ((analyze text settings).format options formatter)) :
    (File.parse (formatted text settings options formatter)).meaning =
      (File.parse text).meaning := by
  have hformat : formatted text settings options formatter =
      relaid (formatLine? text (extents (analyze text settings)) options formatter) 0
        (Text.lines text) := applyAll_format (analyze text settings) options formatter
  obtain ⟨hentry, hbody⟩ := h.readsAlike
  rw [← hformat] at hentry hbody
  generalize formatted text settings options formatter = out at hentry hbody ⊢
  have hescape : (File.parse out).escape = (File.parse text).escape := File.escapeUnder_congr hentry
  have he : Body.endsWord (File.parse text).escape = false := (File.escapeUnder_content _).1
  have hlines := (Body.read_relaid he (File.bodyChars_suffix text) hbody (Text.byteLength out)).2
  have hread : ∀ line ∈ Body.logicalLines (File.parse text).escape (Text.byteLength out)
      (Directive.bodyChars out (Directive.readAll out).2),
      ∃ chars, line = Body.lineAt (File.parse text).escape (Text.byteLength out) chars := by
    intro line hline
    obtain ⟨chars, -, hchars⟩ := Body.exists_lineAt_of_mem hline
    exact ⟨chars, hchars⟩
  have hwords := @words_eq text settings options formatter h _ _ _ _ hlines hread [] rfl (by simp)
  rw [File.meaning, File.meaning, File.instructions_parse, File.instructions_parse,
    File.logicalLines, hescape, hwords]
  exact congrArg (File.Meaning.mk · _) hentry

/-- A directive, and an instruction on two lines with a comment between them: all but the first line
are indented otherwise, and the meaning stays. So it does if two terminators become one in front of an
instruction, and if a comment is indented between two lines of an argument. -/
theorem meaning_format_run :
    ((analyze "# syntax=x\n  RUN a \\\n # note\nb".toList {}).format ⟨4, true⟩ {}).length = 3 ∧
      (File.parse (formatted "# syntax=x\n  RUN a \\\n # note\nb".toList {} ⟨4, true⟩ {})).meaning =
        (File.parse "# syntax=x\n  RUN a \\\n # note\nb".toList).meaning ∧
      ((analyze "# a=b\r \nRUN 'x\\\n# note\n y'".toList {}).format ⟨1, true⟩ {}).length = 2 ∧
      (File.parse (formatted "# a=b\r \nRUN 'x\\\n# note\n y'".toList {} ⟨1, true⟩ {})).meaning =
        (File.parse "# a=b\r \nRUN 'x\\\n# note\n y'".toList).meaning := by
  refine ⟨by decide +kernel, meaning_format _ _ _ _ ⟨?_, ?_, ?_, ?_⟩, by decide +kernel,
    meaning_format _ _ _ _ ⟨?_, ?_, ?_, ?_⟩⟩
  all_goals
    try unfold File.NamelessLinesBlank
    decide +kernel

/-- Formatting changes the meaning if it cuts into an argument, a keyword or the value of a directive,
if there is content in a line without a keyword, and if it joins the terminators of two lines in front
of a directive or in a value that goes on. -/
theorem meaning_format_ne :
    (File.parse (formatted "EXPOSE 80\\\n80".toList {} ⟨4, true⟩ {})).meaning ≠
        (File.parse "EXPOSE 80\\\n80".toList).meaning ∧
      (File.parse (formatted "EXP\\\nOSE 80".toList {} ⟨4, true⟩ {})).meaning ≠
        (File.parse "EXP\\\nOSE 80".toList).meaning ∧
      (File.parse (formatted "# a=b\\\n c".toList {} ⟨4, true⟩ {})).meaning ≠
        (File.parse "# a=b\\\n c".toList).meaning ∧
      (File.parse (formatted "\\\n FROM x".toList {} ⟨4, true⟩ {})).meaning ≠
        (File.parse "\\\n FROM x".toList).meaning ∧
      (File.parse (formatted "# a=b\r \n# c=d".toList {} ⟨4, true⟩ {})).meaning ≠
        (File.parse "# a=b\r \n# c=d".toList).meaning ∧
      (File.parse (formatted "# a=b\\\r \nFROM x".toList {} ⟨4, true⟩ {})).meaning ≠
        (File.parse "# a=b\\\r \nFROM x".toList).meaning := by
  decide +kernel

end Layout

end Dockerfile
