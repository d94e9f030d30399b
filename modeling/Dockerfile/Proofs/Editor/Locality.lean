import Dockerfile.Proofs.Editor.Patches
import Dockerfile.Proofs.File.Directives
import Dockerfile.Proofs.File.Removed

/-!
# Fixes and other instructions

A fix for a finding about an instruction leaves all other instructions as they are.
-/

namespace Dockerfile

/-- An array goes from its opening bracket to its closing one. -/
theorem StringArray.exists_ends {quote escape : Char} {e : Excerpt} {array : StringArray}
    (h : parse quote escape e = .ok array) :
    ∃ p rest q, p :: rest <:+ e.chars ∧ q ∈ rest ∧ array.span = p.spanTo q := by
  obtain ⟨front, opening, rest, literals, closing, hchars, -, -, hrest, rfl⟩ := exists_bracket h
  have hstops := elements_stopsIn quote escape e.stop .valueOrClose rest (List.suffix_refl _) (by simp)
  rw [hrest] at hstops
  exact ⟨opening, rest, closing, ⟨front, hchars.symm⟩, hstops, rfl⟩

theorem Text.trim_subset (text : Text) : trim text ⊆ text := by
  intro c hc
  have hc := (List.dropWhile_sublist _).mem (List.mem_reverse.mp hc)
  exact (List.dropWhile_sublist _).mem (List.mem_reverse.mp hc)

theorem Flag.span_eq {arg : Argument} {index : Nat} {f : Flag} (h : ofArgument? arg index = some f) :
    f.span = arg.span := by
  unfold ofArgument? at h
  split at h
  · cases h
    rfl
  · cases h

namespace File

variable {text : Text} {inst t : Instruction} (hinst : inst ∈ (parse text).instructions)
include hinst

theorem holds_keywordSpan (ht : inst.Defers t) : inst.Holds t.keywordSpan := by
  obtain ⟨hnamed, hchars⟩ := ht.inside (isNamed_of_mem hinst)
  refine .of_excerpt ((instruction_within hinst).defers ht).keyword ?_
    (List.Subset.trans (List.subset_append_left _ _) hchars)
  intro hnil
  simp [Instruction.isNamed, Excerpt.isEmpty, hnil] at hnamed

theorem holds_argument (ht : inst.Defers t) {arg : Argument} (harg : arg ∈ t.arguments) :
    inst.Holds arg.span := by
  obtain ⟨p, rest, hchars, -⟩ := Argument.exists_head_of_splitFrom harg
  refine .of_excerpt (((instruction_within hinst).defers ht).argument harg) (by simp [hchars]) ?_
  exact List.Subset.trans (Argument.infix_of_mem_splitFrom harg).subset
    (List.Subset.trans (List.subset_append_right _ _) (ht.inside (isNamed_of_mem hinst)).2)

theorem holds_array (ht : inst.Defers t) {quote escape : Char} {array : StringArray}
    (h : StringArray.parse quote escape t.region = .ok array) : inst.Holds array.span := by
  obtain ⟨p, rest, q, hsuf, hq, hspan⟩ := StringArray.exists_ends h
  have hchars : t.region.chars ⊆ inst.chars :=
    List.Subset.trans (List.subset_append_right _ _) (ht.inside (isNamed_of_mem hinst)).2
  have hordered := (Text.pairwise_place 0 text).sublist
    (hsuf.sublist.trans ((instruction_within hinst).defers ht).region.chars)
  have hpq : p.stop ≤ q.offset := List.rel_of_pairwise_cons hordered hq
  have := p.offset_lt_stop
  have := q.offset_lt_stop
  refine ⟨p, hchars (hsuf.mem List.mem_cons_self), q,
    hchars (hsuf.mem (List.mem_cons_of_mem _ hq)), by omega, ?_⟩
  rw [hspan, Placed.spanTo, Nat.max_eq_left (by omega)]

theorem exists_first : ∃ p rest, inst.chars = p :: rest ∧ isBlank p.char = false ∧
    inst.span.start = p.offset := by
  obtain ⟨start, -, hline⟩ := Body.exists_lineAt_of_mem (mem_logicalLines hinst)
  have hnamed := isNamed_of_mem hinst
  rw [hline] at hnamed
  obtain ⟨p, rest, hchars, hblank⟩ := (Body.isNamed_lineAt_iff start).mp hnamed
  rw [← hline] at hnamed hchars
  refine ⟨p, rest, hchars, hblank, ?_⟩
  show inst.keyword.start = p.offset
  cases hkeyword : inst.keyword.chars with
  | nil => simp [Instruction.isNamed, Excerpt.isEmpty, hkeyword] at hnamed
  | cons first keyword =>
      rw [Instruction.chars, hkeyword, List.cons_append] at hchars
      rw [Excerpt.start, hkeyword, Placed.startOr_cons, (List.cons.inj hchars).1]

/-- The place of an instruction goes from its keyword to one of its characters. -/
theorem holds_span : inst.Holds inst.span := by
  have hwithin := instruction_within hinst
  obtain ⟨q, hq, hstop⟩ := Instruction.exists_span_stop hwithin (isNamed_of_mem hinst)
  obtain ⟨p, rest, hchars, -, hstart⟩ := exists_first hinst
  refine ⟨p, hchars ▸ List.mem_cons_self, q, hq, ?_, ?_⟩
  · have hordered := (Text.pairwise_place 0 text).sublist hwithin.chars
    rw [hchars] at hordered hq
    rcases List.mem_cons.mp hq with rfl | hq
    · exact Nat.le_refl _
    · exact Nat.le_trans (Nat.le_of_lt p.offset_lt_stop) (List.rel_of_pairwise_cons hordered hq)
  · rw [← hstart, ← hstop]

theorem eq_of_mem_holds {other : Instruction} (hother : other ∈ (parse text).instructions)
    {span span' : Span} (h : inst.Holds span) (h' : other.Holds span')
    (hstart : span'.start = span.start) : other = inst := by
  obtain ⟨p, hp, _, -, -, rfl⟩ := h
  obtain ⟨p', hp', _, -, -, rfl⟩ := h'
  have hsame : p' = p := Text.eq_of_mem_place ((instruction_within hother).chars.mem hp')
    ((instruction_within hinst).chars.mem hp) hstart
  exact eq_of_mem_chars (mem_logicalLines hother) (mem_logicalLines hinst) hp' (hsame ▸ hp)

theorem find?_keywordSpan : (parse text).instructions.find?
    (fun other => other.keywordSpan == inst.keywordSpan) = some inst := by
  cases hfind : (parse text).instructions.find? fun other => other.keywordSpan == inst.keywordSpan with
  | none => exact absurd BEq.rfl (List.find?_eq_none.mp hfind inst hinst)
  | some other =>
      have hother := List.mem_of_find?_eq_some hfind
      rw [eq_of_mem_holds hinst hother (holds_keywordSpan hinst .self) (holds_keywordSpan hother .self)
        (congrArg Span.start (beq_iff_eq.mp (List.find?_some hfind :)))]

theorem not_break_label : ∀ c ∈ "LABEL maintainer=".toList ++
    Fix.quoteLabel (Text.trim inst.region.text), isLineBreak c = false := by
  intro c hc
  rcases List.mem_append.mp hc with hc | hc
  · exact (by simp [isLineBreak] : ∀ c ∈ "LABEL maintainer=".toList, isLineBreak c = false) c hc
  · rcases Fix.mem_quoteLabel hc with hc | rfl | rfl
    · obtain ⟨p, hp, rfl⟩ := List.mem_map.mp (Text.trim_subset _ hc)
      exact not_break_of_mem (mem_logicalLines hinst) (List.mem_append_right _ hp)
    · rfl
    · rfl

theorem holds_of_mendable (ht : inst.Defers t) {code : Code} {span : Span}
    (h : t.Mendable code span) : inst.Holds span := by
  have hpositional : ∀ {arg}, arg ∈ t.positional → inst.Holds arg.span :=
    fun harg => holds_argument hinst ht (t.positional_sublist.mem harg)
  cases h with
  | casing | maintainer => exact holds_keywordSpan hinst ht
  | as _ hargs => exact hpositional (by rw [hargs]; simp)
  | unnecessary _ hargs hmem => exact hpositional (by rw [hargs]; simp [hmem])
  | further hmem => exact holds_argument hinst ht (List.mem_of_mem_drop hmem)
  | extra _ hargs hmem => exact hpositional (by rw [hargs]; simp [hmem])
  | flag _ hf hknown =>
      refine .of_excerpt (((instruction_within hinst).defers ht).flag hf).1 (fun hnil => ?_)
        (flagName_subset_chars hinst ht hf)
      exact FlagSpec.ne_nil_of_knows hknown (by rw [Excerpt.text, hnil]; rfl)
  | quotes harray => exact holds_array hinst ht harray

theorem exists_keyword (ht : inst.Defers t) {arg : Argument} (harg : arg ∈ t.arguments) :
    ∃ p ∈ inst.chars, isBlank p.char = false ∧ p.offset < arg.span.start := by
  obtain ⟨first, rest, hfirst, hblank, -⟩ := exists_first hinst
  obtain ⟨hnamed, hsub⟩ := ht.inside (isNamed_of_mem hinst)
  obtain ⟨a, tail, ha, -⟩ := Argument.exists_head_of_splitFrom harg
  obtain ⟨k, keyword, hk⟩ : ∃ k keyword, t.keyword.chars = k :: keyword :=
    List.exists_cons_of_ne_nil fun hnil => by
      simp [Instruction.isNamed, Excerpt.isEmpty, hnil] at hnamed
  have haregion : a ∈ t.region.chars :=
    (Argument.infix_of_mem_splitFrom harg).subset (ha ▸ List.mem_cons_self)
  have hka : k.stop ≤ a.offset := by
    have hordered := (Text.pairwise_place 0 text).sublist ((instruction_within hinst).defers ht).chars
    rw [Instruction.chars, hk] at hordered
    exact (List.pairwise_append.mp hordered).2.2 k List.mem_cons_self a haregion
  have hle : first.offset ≤ k.offset := by
    have hordered := (Text.pairwise_place 0 text).sublist (instruction_within hinst).chars
    have hmem := hsub (List.mem_append_left t.region.chars (hk ▸ List.mem_cons_self))
    rw [hfirst] at hordered hmem
    rcases List.mem_cons.mp hmem with rfl | hmem
    · exact Nat.le_refl _
    · exact Nat.le_trans (Nat.le_of_lt first.offset_lt_stop) (List.rel_of_pairwise_cons hordered hmem)
  have hstart : arg.span.start = a.offset := by
    show Placed.startOr _ arg.content.chars = a.offset
    rw [ha, Placed.startOr_cons]
  have := k.offset_lt_stop
  exact ⟨first, hfirst ▸ List.mem_cons_self, hblank, by omega⟩

/-- An argument can be selected with the blanks in front of it, and all other instructions are kept if
it is removed and nothing dangles. -/
theorem keepsOthers_of_argument (ht : inst.Defers t) {arg : Argument} (harg : arg ∈ t.arguments) :
    (Fix.withLeadingBlanks text arg.span).Selectable text ∧
      (¬Text.Dangles (parse text).escape text (Fix.withLeadingBlanks text arg.span) →
        KeepsOthers text inst (Text.replaceSpan text (Fix.withLeadingBlanks text arg.span) [])) :=
  ⟨selectable_withLeadingBlanks hinst (holds_argument hinst ht harg),
    keepsOthers_of_removed hinst (holds_argument hinst ht harg) (exists_keyword hinst ht harg)⟩

/-- Whatever fix is offered for a finding about a part of an instruction, all others are kept. -/
theorem keepsOthers_of_mendable {settings : Settings} (hreach : Check.Reaches inst t) {code : Code}
    {span : Span} (h : t.Mendable code span) {offer : FixOffer} (hoffer : offer ∈ Fix.offers code)
    {r : Span × Text}
    (hr : offer.fix.replacement? (analyze text settings) span offer.value = some r) :
    r.1.Selectable text ∧ ((offer.fix = .removeArgument ∨ offer.fix = .removeFlag →
        ¬Text.Dangles (parse text).escape text r.1) →
      KeepsOthers text inst (Text.replaceSpan text r.1 r.2)) := by
  cases h with
  | casing =>
      cases List.mem_singleton.mp hoffer
      cases hr
      have hholds := holds_keywordSpan hinst hreach.defers
      exact ⟨selectable_of_holds hinst hholds,
        fun _ => (exchanges_uppercase hinst hholds).keepsOthers⟩
  | maintainer hkind =>
      cases List.mem_singleton.mp hoffer
      rcases hreach with rfl | ⟨-, hother⟩
      · obtain ⟨other, hfind, rfl⟩ := Option.map_eq_some_iff.mp hr
        obtain rfl := Option.some.inj ((find?_keywordSpan hinst).symm.trans hfind)
        have hholds := holds_span hinst
        refine ⟨selectable_of_holds hinst hholds, fun _ => keepsOthers_of_written hinst hholds
          (not_break_label hinst) ⟨'L', rfl, by decide, by decide⟩ ⟨'"', ?_, by decide,
            ne_escape text (by decide) (by decide)⟩⟩
        exact Fix.getLast?_label _
      · exact absurd rfl (hother _ hkind).2.1
  | @as image as name hkind hargs =>
      cases List.mem_singleton.mp hoffer
      cases hr
      have harg : as ∈ t.arguments := t.positional_sublist.mem (by rw [hargs]; simp)
      have hholds := holds_argument hinst hreach.defers harg
      exact ⟨selectable_of_holds hinst hholds, fun _ =>
        keepsOthers_of_written hinst hholds
          (by simp [isLineBreak] : ∀ c ∈ "AS".toList, isLineBreak c = false)
          ⟨'A', rfl, by decide, by decide⟩
          ⟨'S', rfl, by decide, ne_escape text (by decide) (by decide)⟩⟩
  | @unnecessary first arg rest hkind hargs hmem =>
      cases List.mem_singleton.mp hoffer
      cases hr
      have harg : arg ∈ t.arguments := t.positional_sublist.mem (by rw [hargs]; simp [hmem])
      obtain ⟨hselectable, hkeeps⟩ := keepsOthers_of_argument hinst hreach.defers harg
      exact ⟨hselectable, fun hdangles => hkeeps (hdangles (.inl rfl))⟩
  | @further arg hmem =>
      cases List.mem_singleton.mp hoffer
      cases hr
      obtain ⟨hselectable, hkeeps⟩ := keepsOthers_of_argument hinst hreach.defers (List.mem_of_mem_drop hmem)
      exact ⟨hselectable, fun hdangles => hkeeps (hdangles (.inl rfl))⟩
  | @extra image as name arg rest hkind hargs hmem =>
      cases List.mem_singleton.mp hoffer
      cases hr
      have harg : arg ∈ t.arguments := t.positional_sublist.mem (by rw [hargs]; simp [hmem])
      obtain ⟨hselectable, hkeeps⟩ := keepsOthers_of_argument hinst hreach.defers harg
      exact ⟨hselectable, fun hdangles => hkeeps (hdangles (.inl rfl))⟩
  | @flag f k hkind hf hknown =>
      cases List.mem_singleton.mp hoffer
      obtain ⟨g, hfind, rfl⟩ := Option.map_eq_some_iff.mp hr
      obtain ⟨other, hother, hg⟩ := List.mem_flatMap.mp (List.mem_of_find?_eq_some hfind)
      have hne : f.name.chars ≠ [] := fun hnil =>
        FlagSpec.ne_nil_of_knows hknown (by rw [Excerpt.text, hnil]; rfl)
      have hsame := eq_of_flagName hinst hother hreach.defers .self hf hg hne
        (beq_iff_eq.mp (List.find?_some hfind :))
      subst hsame
      obtain ⟨arg, harg, index, hflag⟩ := Instruction.exists_argument_of_mem_flags hg
      obtain ⟨hselectable, hkeeps⟩ := keepsOthers_of_argument hinst .self harg
      rw [← Flag.span_eq hflag] at hselectable hkeeps
      exact ⟨hselectable, fun hdangles => hkeeps (hdangles (.inr rfl))⟩
  | quotes harray =>
      cases List.mem_singleton.mp hoffer
      cases hr
      have hholds := holds_array hinst hreach.defers harray
      exact ⟨selectable_of_holds hinst hholds,
        fun _ => (exchanges_doubleQuotes hinst hholds).keepsOthers⟩

end File

namespace Text.Cut

variable {text front rest : Text} {before after : List Line} {line : Line}

/-- The place of an empty line is reported as it is. -/
theorem widen_span (h : Cut text front rest before (line :: after)) :
    widen text line.span = line.span := by
  obtain ⟨rest', rfl, hclean, hbreak, -⟩ := h.exists_next
  have hsplit := h.split
  have hplaced : line.span.WellPlaced text := by
    refine .of_boundaries (Nat.le_add_right _ _) ?_ ?_
    · exact isBoundary_iff.mpr ⟨_, _, hsplit, h.start_eq.symm⟩
    · refine isBoundary_iff.mpr ⟨front ++ line.content, line.terminator ++ rest', ?_, ?_⟩
      · rw [hsplit, List.append_assoc]
      · rw [byteLength_append, ← h.start_eq]
        rfl
  cases hcontent : line.content with
  | nil =>
      have hempty : line.span = Span.empty (byteLength front) := by
        rw [← h.start_eq, Line.span, Line.stop, hcontent]
        rfl
      rw [hcontent, List.nil_append] at hsplit
      rw [hempty] at hplaced ⊢
      rw [hsplit] at hplaced ⊢
      exact widen_bare (clampSpan_of_wellPlaced hplaced) h.margin hbreak
  | cons c content =>
      refine widen_of_wellPlaced hplaced ?_
      have hpos := byteLength_pos_of_ne_nil (by rw [hcontent]; simp : line.content ≠ [])
      simp only [Span.isEmpty, Line.span, Line.stop]
      exact decide_eq_false (by omega)

/-- The place of a line is found again from its range. -/
theorem spanOf_rangeOf_span (h : Cut text front rest before (line :: after)) :
    spanOf text (rangeOf text line.span) = line.span := by
  have hfound := h.spanOf_rangeOf h (a := []) List.nil_prefix (List.prefix_refl line.content)
    (Nat.add_le_add_left (Nat.zero_le _) _)
  rwa [byteLength_nil, Nat.add_zero] at hfound

theorem apply_removed (h : Cut text front rest before (line :: after)) (hterm : line.terminator ≠ [])
    {rest' : Text} (hsplit : text = front ++ ((line.content ++ line.terminator) ++ rest')) :
    TextEdit.apply text (TextEdit.ofSpan text
      ⟨lineStart text before.length, lineStart text (before.length + 1)⟩ []) = front ++ rest' := by
  obtain ⟨_, -, -, -, ⟨-, hnil, -⟩ | ⟨-, hnext⟩⟩ := h.exists_next
  · exact absurd hnil hterm
  obtain ⟨next, after, rfl⟩ := List.exists_cons_of_ne_nil hnext.lined.ne_nil
  have hstart : lineStart text before.length = line.start := congrArg Line.start h.line_eq
  have hstop : lineStart text (before.length + 1) = next.start := by
    have hline := congrArg Line.start hnext.line_eq
    rwa [List.length_append] at hline
  have hle : line.start ≤ next.start := by
    rw [h.start_eq, hnext.start_eq, byteLength_append]
    exact Nat.le_add_right _ _
  have hfound := h.spanOf_rangeOf hnext (a := []) (v := []) List.nil_prefix List.nil_prefix hle
  rw [byteLength_nil, Nat.add_zero, Nat.add_zero] at hfound
  rw [hstart, hstop, TextEdit.apply_of_found hfound, h.start_eq, hnext.start_eq, replaceSpan]
  dsimp only
  rw [List.append_nil]
  congr 1
  · rw [hsplit, takeBytes_append_byteLength]
  · rw [hsplit, ← List.append_assoc front (line.content ++ line.terminator), dropBytes_append_byteLength]

end Text.Cut

namespace File

variable {text : Text} {inst : Instruction} (hinst : inst ∈ (parse text).instructions)
include hinst

theorem unlined_of_emptyLine {settings : Settings} {span : Span} (hspan : span ∈ inst.emptyLines)
    {value : Option String} {r : Span × Text}
    (hr : Fix.replacement? (analyze text settings)
      (Text.spanOf text (Text.rangeOf text (Text.widen text span))) value .removeEmptyLine = some r) :
    Unlined text span (TextEdit.apply text (TextEdit.ofSpan text r.1 r.2)) := by
  cases hr
  obtain ⟨taken, before, line, after, found, front, rest, hempty, rfl, hbefore, hbodied, hcut⟩ :=
    exists_body_of_emptyLine hinst hspan
  obtain ⟨rest', hsplit, hunlined⟩ := unlined_of_cut hempty hbefore hbodied hcut
  rw [hcut.widen_span, hcut.spanOf_rangeOf_span]
  show Unlined text line.span (TextEdit.apply text (TextEdit.ofSpan text
    ⟨Text.lineStart text (Text.lineOf text line.start),
      Text.lineStart text (Text.lineOf text line.start + 1)⟩ []))
  have hnumber : Text.lineOf text line.start = (taken ++ before).length :=
    hcut.lineOf_eq List.nil_prefix
  rwa [hnumber, hcut.apply_removed hempty.2 hsplit]

end File

/-! ## All fixes -/

theorem FixTarget.exists_of_edit? {a : Analysis} {fix : Fix} {t : FixTarget} {w : WorkspaceEdit}
    (h : t.edit? a fix.command = some w) :
    ∃ edit, fix.edit? a t.range t.value = some edit ∧ w = ⟨t.uri, [edit]⟩ := by
  rw [edit?, Fix.ofCommand?_command] at h
  cases hedit : fix.edit? a t.range t.value with
  | none => simp [hedit] at h
  | some edit =>
      simp only [hedit, Option.bind_eq_bind, Option.bind_some] at h
      exact ⟨edit, rfl, (Option.some.inj h).symm⟩

theorem FixTarget.edit?_of_replacement? {a : Analysis} {fix : Fix} {t : FixTarget}
    {r : Span × Text} (h : fix.replacement? a (Text.spanOf a.text t.range) t.value = some r) :
    t.edit? a fix.command = some ⟨t.uri, [TextEdit.ofSpan a.text r.1 r.2]⟩ := by
  have hedit : fix.edit? a t.range t.value = some (TextEdit.ofSpan a.text r.1 r.2) := by
    rw [Fix.edit?, h]
    rfl
  rw [edit?, Fix.ofCommand?_command, Option.bind_eq_bind, Option.bind_some, hedit]
  rfl

/-- What the edit of a command makes of the text, if the span is found again that its fix replaces. -/
theorem FixTarget.exists_edit {text : Text} {settings : Settings} {fix : Fix} {t : FixTarget}
    {span : Span} {new : Text} (hfound : Text.spanOf text (Text.rangeOf text span) = span)
    (h : fix.replacement? (analyze text settings) (Text.spanOf text t.range) t.value =
      some (span, new)) :
    ∃ edit, t.edit? (analyze text settings) fix.command = some ⟨t.uri, [edit]⟩ ∧
      TextEdit.apply text edit = Text.replaceSpan text span new :=
  ⟨_, edit?_of_replacement? h, TextEdit.apply_of_found hfound new⟩

def Instruction.Carries (inst : Instruction) (text : Text) (settings : Settings) (d : Diagnostic) :
    Prop :=
  ∃ f ∈ Check.withEmptyLines inst, Diagnostic.ofFinding? text settings f = some d

/-- The instructions other than the one that the report is about are still there, in the same order and
with the same words. -/
def Diagnostic.Spares (d : Diagnostic) (text : Text) (settings : Settings) (text' : Text) : Prop :=
  File.KeepsAll text text' ∨ ∃ inst ∈ (File.parse text).instructions,
    inst.Carries text settings d ∧ File.KeepsOthers text inst text'

/-- The report is about a directive without a value, and shows the equals sign in its place. -/
def Diagnostic.OnEqualsSign (d : Diagnostic) (text : Text) : Prop :=
  ∃ directive ∈ (File.parse text).directives, directive.value = [] ∧
    d.span = Text.widen text directive.valueSpan ∧ Text.slice text d.span = ['=']

/-- What is asked of an offered fix and its edits: nothing dangles where an argument or a flag is
removed, and setting an escape character sets the one in force, where a value stands. -/
structure FixOffer.Settled (offer : FixOffer) (text : Text) (d : Diagnostic) (edits : List TextEdit) :
    Prop where
  removal : offer.fix = .removeArgument ∨ offer.fix = .removeFlag →
    ∀ edit ∈ edits, ¬Text.Dangles (File.parse text).escape text (Text.spanOf text edit.range)
  escape : offer.fix = .escapeDirective →
    (File.parse (TextEdit.applyAll text edits)).escape = (File.parse text).escape
  value : offer.fix = .escapeDirective → ¬d.OnEqualsSign text

namespace Analysis

variable {text : Text} {settings : Settings} {d : Diagnostic} {f : Finding}

theorem spares_of_instruction {inst : Instruction} (hinst : inst ∈ (File.parse text).instructions)
    (hf : f ∈ Check.instruction inst) (hreport : Diagnostic.ofFinding? text settings f = some d)
    {offer : FixOffer} (hoffer : offer ∈ Fix.offers d.code) {edit : TextEdit}
    (hedit : offer.fix.edit? (analyze text settings) d.range offer.value = some edit)
    (hsettled : offer.Settled text d [edit]) :
    d.Spares text settings (TextEdit.apply text edit) := by
  refine .inr ⟨inst, hinst, ⟨f, List.mem_append_left _ hf, hreport⟩, ?_⟩
  obtain ⟨severity, -, rfl⟩ := Option.map_eq_some_iff.mp hreport
  obtain ⟨t, hreach, hmendable⟩ := Check.mendable_of_mem hf (List.ne_nil_of_mem hoffer)
  have hholds := File.holds_of_mendable hinst hreach.defers hmendable
  have hselectable := File.selectable_of_holds hinst hholds
  obtain ⟨r, hr, rfl⟩ := Option.map_eq_some_iff.mp hedit
  have hspan : Text.spanOf text (Text.rangeOf text (Text.widen text f.span)) = f.span := by
    rw [Text.widen_of_wellPlaced hselectable.placed hholds.isEmpty, hselectable.spanOf_rangeOf]
  dsimp only at hr
  rw [show (analyze text settings).text = text from rfl, hspan] at hr
  obtain ⟨hfound, hkeeps⟩ := File.keepsOthers_of_mendable hinst hreach hmendable hoffer hr
  show File.KeepsOthers text inst (TextEdit.apply text (TextEdit.ofSpan text r.1 r.2))
  rw [TextEdit.apply_of_found hfound.spanOf_rangeOf]
  refine hkeeps fun hremoval => ?_
  have hdangles := hsettled.removal hremoval _ List.mem_cons_self
  rwa [show Text.spanOf text (TextEdit.ofSpan (analyze text settings).text r.1 r.2).range = r.1 from
    hfound.spanOf_rangeOf] at hdangles

theorem spares_of_emptyLine {inst : Instruction} (hinst : inst ∈ (File.parse text).instructions)
    (hproblem : f.problem = .emptyContinuationLine) (hf : f.span ∈ inst.emptyLines)
    (hreport : Diagnostic.ofFinding? text settings f = some d)
    {offer : FixOffer} (hoffer : offer ∈ Fix.offers d.code) {edit : TextEdit}
    (hedit : offer.fix.edit? (analyze text settings) d.range offer.value = some edit) :
    d.Spares text settings (TextEdit.apply text edit) := by
  obtain ⟨severity, -, rfl⟩ := Option.map_eq_some_iff.mp hreport
  rw [show f.problem.code = .emptyContinuationLine from congrArg Problem.code hproblem] at hoffer
  cases List.mem_singleton.mp hoffer
  obtain ⟨r, hr, rfl⟩ := Option.map_eq_some_iff.mp hedit
  exact .inl (File.unlined_of_emptyLine hinst hf hr).keepsAll

theorem spares_of_directive {directive : Directive} (hmem : directive ∈ (File.parse text).directives)
    (hf : f ∈ Check.directive directive) (hreport : Diagnostic.ofFinding? text settings f = some d)
    {offer : FixOffer} (hoffer : offer ∈ Fix.offers d.code) {edit : TextEdit}
    (hedit : offer.fix.edit? (analyze text settings) d.range offer.value = some edit)
    (hsettled : offer.Settled text d [edit]) :
    d.Spares text settings (TextEdit.apply text edit) := by
  refine .inl ?_
  obtain ⟨severity, -, rfl⟩ := Option.map_eq_some_iff.mp hreport
  obtain ⟨r, hr, rfl⟩ := Option.map_eq_some_iff.mp hedit
  have hwithin := Directive.readAll_within hmem
  dsimp only at hr hsettled
  rw [show (analyze text settings).text = text from rfl] at hr hsettled ⊢
  unfold Check.directive at hf
  rcases List.mem_append.mp hf with hf | hf
  · split at hf
    · cases List.mem_singleton.mp hf
      cases List.mem_singleton.mp hoffer
      cases hr
      obtain ⟨hne, hfound, hkeeps⟩ := File.keepsAll_of_name hmem
      rw [show (analyze text settings).text = text from rfl,
        Text.widen_of_wellPlaced hwithin.name.span hne, hfound, TextEdit.apply_of_found hfound]
      exact hkeeps
    · cases hf
  · split at hf
    · cases List.mem_singleton.mp hf
      cases hoffer
    · split at hf
      · cases List.mem_singleton.mp hf
        obtain ⟨hfix, c, hc, hclean, hnew⟩ : offer.fix = .escapeDirective ∧
            ∃ c, isBlank c = false ∧ isLineBreak c = false ∧
              r = (Text.spanOf text (Text.rangeOf text (Text.widen text directive.valueSpan)), [c]) := by
          rcases List.mem_cons.mp hoffer with rfl | hoffer
          · cases hr
            exact ⟨rfl, '\\', rfl, rfl, rfl⟩
          · cases List.mem_singleton.mp hoffer
            cases hr
            exact ⟨rfl, '\x60', rfl, rfl, rfl⟩
        subst hnew
        have hescape := hsettled.escape hfix
        simp only [TextEdit.applyAll, List.foldr_cons, List.foldr_nil] at hescape
        by_cases hvalue : directive.value = []
        · obtain ⟨hfound, hreplaced⟩ := File.replaced_of_missing hmem hvalue
          rw [hfound, TextEdit.apply_of_found hfound] at hescape ⊢
          refine ((hreplaced hc hclean).1 fun hequals => ?_).keepsAll hescape
          exact hsettled.value hfix ⟨directive, hmem, hvalue, rfl, hequals⟩
        · obtain ⟨hne, hfound, hrevalues⟩ := File.revalues_of_value hmem hvalue
          rw [Text.widen_of_wellPlaced hwithin.value hne, hfound, TextEdit.apply_of_found hfound]
            at hescape ⊢
          exact (hrevalues hc hclean).keepsAll hescape
      · cases hf

end Analysis

/-- An offered fix leaves all instructions but the one that the report is about as they are, unless what
it removes leaves a gap that dangles, or it sets another escape character or writes one over an equals
sign. -/
theorem actions_local (text : Text) (settings : Settings) {uri : String} :
    ∀ d ∈ (analyze text settings).diagnostics, ∀ action ∈ (Report.ofDiagnostic d).actions uri,
      ∀ edit, action.target.edit? (analyze text settings) action.offer.fix.command = some edit →
        action.offer.Settled text d edit.edits →
        d.Spares text settings (TextEdit.applyAll text edit.edits) := by
  intro d hd action haction workspace hworkspace hsettled
  obtain ⟨offer, hoffer, rfl⟩ := Report.mem_actions.mp haction
  obtain ⟨edit, hedit, rfl⟩ := FixTarget.exists_of_edit? hworkspace
  obtain ⟨f, hf, hreport⟩ := Analysis.mem_diagnostics_iff.mp hd
  have hcode : Fix.offers f.problem.code ≠ [] := by
    obtain ⟨severity, -, rfl⟩ := Option.map_eq_some_iff.mp hreport
    exact List.ne_nil_of_mem hoffer
  rcases Check.offered_of_file hf hcode with ⟨directive, hmem, hf⟩ | ⟨inst, hinst, hf | ⟨hproblem, hf⟩⟩
  · exact Analysis.spares_of_directive hmem hf hreport hoffer hedit hsettled
  · exact Analysis.spares_of_instruction hinst hf hreport hoffer hedit hsettled
  · exact Analysis.spares_of_emptyLine hinst hproblem hf hreport hoffer hedit

/-- If the last instruction is another one afterwards, and the one in its place has no such findings, then
others are not spared. -/
theorem Diagnostic.not_spares {d : Diagnostic} {code : Code} {text text' : Text} {settings : Settings}
    (hcode : d.code = code)
    (hlast : ((File.parse text').instructions.map Instruction.wording).getLast? ≠
      ((File.parse text).instructions.map Instruction.wording).getLast?)
    (hothers : ∀ inst ∈ (File.parse text).instructions.getLast?, ∀ f ∈ Check.withEmptyLines inst,
      f.problem.code ≠ code) : ¬d.Spares text settings text' := by
  rintro (hkept | ⟨inst, hinst, ⟨f, hf, hreport⟩, front, middle, rest, hlines, hlines'⟩)
  · exact hlast (congrArg List.getLast? hkept)
  · by_cases hrest : rest = []
    · obtain ⟨severity, -, rfl⟩ := Option.map_eq_some_iff.mp hreport
      exact hothers inst (by rw [hlines, hrest, List.getLast?_concat]; rfl) f hf hcode
    · have hne : rest.map Instruction.wording ≠ [] := by simpa using hrest
      refine hlast ?_
      rw [hlines', hlines, List.map_append, List.map_cons, ← List.append_assoc, List.append_cons,
        List.getLast?_append_of_ne_nil _ hne, List.getLast?_append_of_ne_nil _ hne]

namespace Analysis

variable {text : Text} {settings : Settings} {uri : String}

/-- Whether an edit that is offered for a report passes a test. -/
def anyEdit (text : Text) (settings : Settings) (uri : String)
    (test : Diagnostic → CodeAction → WorkspaceEdit → Bool) : Bool :=
  ((analyze text settings).findings.filterMap (Diagnostic.ofFinding? text settings)).any fun d =>
    ((Report.ofDiagnostic d).actions uri).any fun action =>
      (action.target.edit? (analyze text settings) action.offer.fix.command).any (test d action)

theorem exists_of_anyEdit {test : Diagnostic → CodeAction → WorkspaceEdit → Bool}
    (h : anyEdit text settings uri test = true) :
    ∃ d ∈ (analyze text settings).diagnostics, ∃ action ∈ (Report.ofDiagnostic d).actions uri,
      ∃ edit, action.target.edit? (analyze text settings) action.offer.fix.command = some edit ∧
        test d action edit = true := by
  obtain ⟨d, hd, h⟩ := List.any_eq_true.mp h
  obtain ⟨action, haction, h⟩ := List.any_eq_true.mp h
  obtain ⟨edit, hedit, h⟩ := (Option.any_eq_true _ _).mp h
  exact ⟨d, (diagnostics_perm text settings).mem_iff.mpr hd, action, haction, edit, hedit, h⟩

/-- Others are not spared by an edit that changes the last instruction for a report that is not about it. -/
theorem exists_not_spares {code : Code} {test : CodeAction → WorkspaceEdit → Bool}
    (hothers : ∀ inst ∈ (File.parse text).instructions.getLast?, ∀ f ∈ Check.withEmptyLines inst,
      f.problem.code ≠ code)
    (h : anyEdit text settings uri (fun d action edit => decide (d.code = code ∧
      ((File.parse (TextEdit.applyAll text edit.edits)).instructions.map Instruction.wording).getLast? ≠
        ((File.parse text).instructions.map Instruction.wording).getLast?) &&
          test action edit) = true) :
    ∃ d ∈ (analyze text settings).diagnostics, ∃ action ∈ (Report.ofDiagnostic d).actions uri,
      ∃ edit, action.target.edit? (analyze text settings) action.offer.fix.command = some edit ∧
        test action edit = true ∧ ¬d.Spares text settings (TextEdit.applyAll text edit.edits) := by
  obtain ⟨d, hd, action, haction, edit, hedit, hpassed⟩ := exists_of_anyEdit h
  obtain ⟨hchanged, htest⟩ := Bool.and_eq_true_iff.mp hpassed
  obtain ⟨hcode, hlast⟩ := of_decide_eq_true hchanged
  exact ⟨d, hd, action, haction, edit, hedit, htest, Diagnostic.not_spares hcode hlast hothers⟩

end Analysis

/-- Without the second name for a user, the instruction in front and the one behind stay the same. -/
theorem actions_local_user :
    let text := "FROM a\nUSER b c\nRUN d".toList
    ∃ d ∈ (analyze text {}).diagnostics, ∃ action ∈ (Report.ofDiagnostic d).actions "file:///D",
      ∃ edit, action.target.edit? (analyze text {}) action.offer.fix.command = some edit ∧
        action.offer.fix = .removeArgument ∧ action.offer.Settled text d edit.edits ∧
          d.Spares text {} (TextEdit.applyAll text edit.edits) := by
  intro text
  obtain ⟨d, hd, action, haction, edit, hedit, hchecked⟩ := @Analysis.exists_of_anyEdit text {}
    "file:///D" (fun _ action edit => decide (action.offer.fix = .removeArgument) &&
      edit.edits.all fun edit =>
        decide (¬Text.Dangles (File.parse text).escape text (Text.spanOf text edit.range)))
    (by decide +kernel)
  obtain ⟨hfix, hdangles⟩ := Bool.and_eq_true_iff.mp hchecked
  have hfix := of_decide_eq_true hfix
  have hsettled : action.offer.Settled text d edit.edits :=
    ⟨fun _ e he => of_decide_eq_true (List.all_eq_true.mp hdangles e he),
      by rw [hfix]; rintro ⟨⟩, by rw [hfix]; rintro ⟨⟩⟩
  exact ⟨d, hd, action, haction, edit, hedit, hfix, hsettled,
    actions_local text {} d hd action haction edit hedit hsettled⟩

/-! Each of the conditions on an offered fix is needed. -/

/-- The fix that sets another escape character cuts the instruction in two that is continued with the
character in force. -/
theorem actions_local_escape :
    ¬∀ (text : Text) (settings : Settings) (uri : String),
      ∀ d ∈ (analyze text settings).diagnostics, ∀ action ∈ (Report.ofDiagnostic d).actions uri,
        ∀ edit, action.target.edit? (analyze text settings) action.offer.fix.command = some edit →
          d.Spares text settings (TextEdit.applyAll text edit.edits) := by
  intro h
  let text := "# escape=x\nFROM a\nRUN b \\\n c".toList
  obtain ⟨d, hd, action, haction, edit, hedit, -, hspares⟩ := @Analysis.exists_not_spares text {}
    "file:///D" .invalidEscapeDirective (fun _ _ => true) (by decide +kernel) (by decide +kernel)
  exact hspares (h text {} "file:///D" d hd action haction edit hedit)

/-- The fix that writes an escape character over the equals sign ends the directives there, and what was
a part of the next one is an instruction now. -/
theorem actions_local_value :
    let text := "# escape=\n# syntax=a\\\nFROM b".toList
    ∃ d ∈ (analyze text {}).diagnostics, ∃ action ∈ (Report.ofDiagnostic d).actions "file:///D",
      ∃ edit, action.target.edit? (analyze text {}) action.offer.fix.command = some edit ∧
        (File.parse (TextEdit.applyAll text edit.edits)).escape = (File.parse text).escape ∧
          ¬d.Spares text {} (TextEdit.applyAll text edit.edits) := by
  intro text
  obtain ⟨d, hd, action, haction, edit, hedit, hescape, hspares⟩ := @Analysis.exists_not_spares text {}
    "file:///D" .invalidEscapeDirective (fun _ edit => decide
      ((File.parse (TextEdit.applyAll text edit.edits)).escape = (File.parse text).escape))
    (by decide +kernel) (by decide +kernel)
  exact ⟨d, hd, action, haction, edit, hedit, of_decide_eq_true hescape, hspares⟩

/-- Without the second name for a user in a line of its own, that line is passed over, and the
instruction takes in the one behind. -/
theorem actions_local_removal :
    let text := "FROM a\nUSER b \\\n c\nFROM d".toList
    ∃ d ∈ (analyze text {}).diagnostics, ∃ action ∈ (Report.ofDiagnostic d).actions "file:///D",
      ∃ edit, action.target.edit? (analyze text {}) action.offer.fix.command = some edit ∧
        action.offer.fix = .removeArgument ∧
          ¬d.Spares text {} (TextEdit.applyAll text edit.edits) := by
  intro text
  obtain ⟨d, hd, action, haction, edit, hedit, hfix, hspares⟩ := @Analysis.exists_not_spares text {}
    "file:///D" .argumentRequiresOne (fun action _ => decide (action.offer.fix = .removeArgument))
    (by decide +kernel) (by decide +kernel)
  exact ⟨d, hd, action, haction, edit, hedit, of_decide_eq_true hfix, hspares⟩

end Dockerfile
