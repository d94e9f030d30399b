import Mathlib.Data.List.Basic
import Dockerfile.Proofs.Editor.Locality

/-!
# Labels in the place of `MAINTAINER`

The fix for `MAINTAINER` makes a label of it. The label says who maintains the image exactly if the
region of the instruction is `Text.Labelable` (`maintainer_labelled_iff`): a backslash is put in front
of each double quote, but the escape character may be another one, and it is not escaped itself.
-/

namespace Dockerfile

open Text Quoting

theorem Property.ofArgument_assignment {arg : Argument} {name rest : Text}
    (h : arg.text = name ++ '=' :: rest) (hname : ∀ c ∈ name, c ≠ '=') (escape : Char) :
    (ofArgument arg).name.text = name ∧
      (ofArgument arg).unquotedValue escape = some (unquote escape rest) := by
  obtain ⟨hbefore, hbehind⟩ := Excerpt.cutAtEquals_text h hname
  refine ⟨hbefore, ?_⟩
  obtain ⟨value, hvalue, htext⟩ := Option.map_eq_some_iff.mp hbehind
  rw [unquotedValue, show (ofArgument arg).value = some value from hvalue, Option.map_some, htext]

namespace Instruction

/-- The instruction is a `LABEL` that leaves no quote open and has one property, with this name and,
once its quotes are resolved, this value. -/
structure Labels (inst : Instruction) (name value : Text) : Prop where
  kind : inst.kind = some .LABEL
  quotes : Check.quotes inst = []
  property : ∃ p, inst.properties = [p] ∧ p.name.text = name ∧
    p.unquotedValue inst.escape = some value

section Labels

variable {inst : Instruction} {region blanks : Text} (hkind : inst.kind = some .LABEL)
  (hescape : inst.escape = '\\' ∨ inst.escape = '\x60')
  (hregion : inst.region.text = ' ' :: ("maintainer".toList ++ '=' :: Fix.quoteLabel (trim region)) ++
    blanks)
  (hblanks : ∀ c ∈ blanks, isBlank c = true)
include hkind hescape hregion hblanks

theorem labels_of_labelable (h : Labelable inst.escape region) :
    inst.Labels "maintainer".toList (labelValue inst.escape (trimBlanks region)) := by
  rw [Fix.quoteLabel_eq_enquote h] at hregion
  obtain ⟨arg, harg, hopen, htext⟩ :=
    Argument.split_assignment hescape (by decide +kernel) hregion hblanks
  have harg : inst.arguments = [arg] := harg
  have hdouble : inst.escape ≠ '"' := by rcases hescape with h | h <;> rw [h] <;> decide
  obtain ⟨hname, hvalue⟩ := Property.ofArgument_assignment htext (by simp) inst.escape
  refine ⟨hkind, ?_, Property.ofArgument arg, ?_, hname, ?_⟩
  · rw [Check.quotes, harg]
    simp [hopen]
  · rw [properties, harg]
    rfl
  · rw [hvalue, unquote_enquote hdouble]

theorem labelable_of_labels
    (h : inst.Labels "maintainer".toList (labelValue inst.escape (trimBlanks region))) :
    Labelable inst.escape region := by
  obtain ⟨-, -, p, hp, -, hvalue⟩ := h
  have htext : inst.region.text =
      ' ' :: ("maintainer=".toList ++ (Fix.quoteLabel (trim region) ++ blanks)) := by
    rw [hregion]
    simp
  obtain ⟨space, chars, hchars, hspace, hrest⟩ := List.map_eq_cons_iff.mp htext
  obtain ⟨name, rest, rfl, hname, hrest⟩ := List.map_eq_append_iff.mp hrest
  have hplain : ∀ c ∈ "maintainer=".toList, c ∉ quoteMarks ∧ c ≠ inst.escape ∧ isBlank c = false := by
    rcases hescape with h | h <;> simp [h, quoteMarks, isBlank]
  have hleads : Leads inst.escape bare name bare :=
    leads_plain fun p hp => hplain p.char (hname ▸ List.mem_map_of_mem hp)
  obtain ⟨arg, index, more, behind, hargs, hcontent, rfl, -⟩ :=
    @Argument.exists_split_of_leads inst.escape inst.region [space] name rest bare hchars
      (by simp [hspace, isBlank]) (by rintro rfl; cases hname) hleads
  have hargtext : arg.text = "maintainer".toList ++ '=' :: Placed.text more := by
    rw [Argument.text, Excerpt.text, hcontent, Placed.text_append, show Placed.text name = _ from hname]
    rfl
  have hargs : inst.arguments = _ := hargs
  rw [properties, hargs] at hp
  cases hbehind : Argument.splitFrom inst.escape inst.region index behind with
  | cons second others =>
      -- There would be two properties.
      have hequals : arg.text.contains '=' = true := by
        rw [hargtext]
        simp
      have hlabel : inst.isKind .LABEL = true := by
        rw [isKind, hkind]
        rfl
      simp only [hbehind, hlabel, Bool.or_true, hequals, Bool.not_true, Bool.and_false] at hp
      cases hp
  | nil =>
      simp only [hbehind, List.map_cons, List.map_nil] at hp
      cases hp
      rw [(Property.ofArgument_assignment hargtext (by simp) _).2] at hvalue
      obtain ⟨blanks', hmore, hblanks'⟩ : ∃ blanks', Placed.text more =
          Fix.quoteLabel (trim region) ++ blanks' ∧ ∀ c ∈ blanks', isBlank c = true := by
        have hblank : ∀ c ∈ Placed.text behind, isBlank c = true :=
          List.forall_mem_map.mpr (Argument.splitFrom_eq_nil_iff.mp hbehind)
        rw [List.map_append] at hrest
        rcases List.append_eq_append_iff.mp hrest with ⟨a, hlabel, ha⟩ | ⟨a, hmore, ha⟩
        · obtain rfl : a = [] := by
            have ha : Placed.text behind = a ++ blanks := ha
            refine @eq_nil_of_getLast?_append (List.map Placed.char more) a
              (fun c hc => hblank c (ha ▸ List.mem_append_left _ hc)) ?_
            rw [← hlabel, Fix.getLast?_quoteLabel]
            rintro c ⟨⟩
            rfl
          rw [List.append_nil] at hlabel
          exact ⟨[], by rw [hlabel, List.append_nil]; rfl, by simp⟩
        · exact ⟨a, hmore, fun c hc => hblanks c (ha ▸ List.mem_append_left _ hc)⟩
      rw [hmore] at hvalue
      exact Fix.labelable_of_unquote hescape hblanks' (Option.some.inj hvalue)

end Labels

end Instruction

namespace File

variable {text : Text} {inst : Instruction} (hinst : inst ∈ (parse text).instructions)
include hinst

theorem exists_ends (hargs : inst.arguments ≠ []) :
    ∃ p a q b, inst.chars.head? = some p ∧ isBlank p.char = false ∧ inst.chars = a ++ q :: b ∧
      isBlank q.char = false ∧ (∀ r ∈ b, isBlank r.char = true) ∧ p.offset ≤ q.offset ∧
      inst.span = ⟨p.offset, q.stop⟩ := by
  have hregion : ¬∀ r ∈ inst.region.chars, isBlank r.char = true :=
    fun hblank => hargs (Argument.splitFrom_eq_nil_iff.mpr hblank)
  obtain ⟨p, rest, hchars, hblank, hstart⟩ := exists_first hinst
  have hwithin := instruction_within hinst
  have hordered := (Text.pairwise_place 0 text).sublist hwithin.chars
  rcases Instruction.span_stop_eq hwithin (isNamed_of_mem hinst) with
    ⟨hnil, -⟩ | ⟨a, q, b, hsplit, hstop, hbehind, hall⟩
  · exact absurd (by simp [hnil]) hregion
  have hlast : inst.chars = inst.keyword.chars ++ a ++ q :: b := by
    rw [Instruction.chars, hsplit, List.append_assoc]
  refine ⟨p, _, q, b, by rw [hchars]; rfl, hblank, hlast, ?_, hbehind, ?_, ?_⟩
  · exact eq_false_of_ne_true fun hq => hregion (hall hq)
  · have hq : q ∈ p :: rest := hchars ▸ hlast ▸ by simp
    rw [hchars] at hordered
    rcases List.mem_cons.mp hq with rfl | hq
    · exact Nat.le_refl _
    · exact Nat.le_trans (Nat.le_of_lt p.offset_lt_stop) (List.rel_of_pairwise_cons hordered hq)
  · rw [← hstart, ← hstop]

theorem replacement?_label (settings : Settings) (value : Option String) :
    Fix.replacement? (analyze text settings) (Text.spanOf text (Text.rangeOf text inst.keywordSpan))
        value .maintainerToLabel =
      some (inst.span, "LABEL maintainer=".toList ++ Fix.quoteLabel (trim inst.region.text)) := by
  rw [(selectable_of_holds hinst (holds_keywordSpan hinst .self)).spanOf_rangeOf]
  show ((parse text).instructions.find? fun i => i.keywordSpan == inst.keywordSpan).map _ = _
  rw [find?_keywordSpan hinst]
  rfl

theorem exchanges_label (hargs : inst.arguments ≠ []) : ∃ blanks, (∀ c ∈ blanks, isBlank c = true) ∧
    Exchanges text inst
      ("LABEL maintainer=".toList ++ Fix.quoteLabel (trim inst.region.text) ++ blanks)
      (Text.replaceSpan text inst.span
        ("LABEL maintainer=".toList ++ Fix.quoteLabel (trim inst.region.text))) := by
  obtain ⟨p, a, q, b, hp, hpblank, hchars, hqblank, hb, hpq, hspan⟩ := exists_ends hinst hargs
  have hq : q ∈ inst.chars := by simp [hchars]
  obtain ⟨h⟩ := exists_stretch hinst (List.mem_of_head? hp) hq hpq
  obtain ⟨front, rest, hrest, hexchanges⟩ := h.exchanges hinst hp hpblank hq hqblank
    (not_break_label hinst) ⟨'L', rfl, by decide, by decide⟩
    ⟨'"', Fix.getLast?_label _, by decide, ne_escape text (by decide) (by decide)⟩
  refine ⟨Placed.text rest, ?_, ?_⟩
  · -- Behind the last character that is not a blank nothing else is kept.
    have hnodup := (nodup_place 0 text).sublist (instruction_within hinst).chars
    rw [hchars] at hnodup hrest
    have hapart := List.nodup_append.mp hnodup
    obtain ⟨-, -, rfl⟩ := (List.append_cons_inj_of_notMem
      (fun hmem => hapart.2.2 q hmem q List.mem_cons_self rfl)
      (List.nodup_cons.mp hapart.2.1).1).mp hrest
    exact List.forall_mem_map.mpr hb
  · rw [hspan, h.start, h.replaceSpan_eq List.prefix_rfl]
    exact hexchanges

end File

theorem Instruction.kind_region_of_label {inst : Instruction} {value blanks : Text} {lines : Nat}
    (h : inst.reading =
      lineReading inst.escape ("LABEL maintainer=".toList ++ value ++ blanks) lines) :
    inst.kind = some .LABEL ∧
      inst.region.text = ' ' :: ("maintainer".toList ++ '=' :: value) ++ blanks := by
  obtain ⟨htake, hdrop⟩ := @spanWhile (fun c => !isBlank c) "LABEL".toList
    (' ' :: ("maintainer".toList ++ '=' :: value) ++ blanks) (by simp [isBlank])
    (by rintro c ⟨⟩; rfl)
  have hkept : "LABEL maintainer=".toList ++ value ++ blanks =
      "LABEL".toList ++ (' ' :: ("maintainer".toList ++ '=' :: value) ++ blanks) := by
    simp
  rw [hkept] at h
  have hkind := congrArg Instruction.Reading.kind h
  simp only [lineReading, htake] at hkind
  exact ⟨hkind, (congrArg Instruction.Reading.region h).trans hdrop⟩

/-- The fix at the keyword of an instruction with arguments puts a `LABEL` there. Its only property is
named `maintainer`, no quote is missing, and its value is the region without the blanks around it, or
what stands in the double quotes that it consists of, if and only if that can be put in double quotes
with backslashes. -/
theorem maintainer_labelled_iff (text : Text) (settings : Settings) {k : Nat} {inst : Instruction}
    (hinst : (File.parse text).instructions[k]? = some inst) (hargs : inst.arguments ≠ [])
    (target : FixTarget) (hrange : target.range = Text.rangeOf text inst.keywordSpan) :
    ∃ edit, target.edit? (analyze text settings) Fix.maintainerToLabel.command =
        some ⟨target.uri, [edit]⟩ ∧
      ∃ inst', (File.parse (TextEdit.apply text edit)).instructions[k]? = some inst' ∧
        (inst'.Labels "maintainer".toList (labelValue inst.escape (trimBlanks inst.region.text)) ↔
          Labelable inst.escape inst.region.text) := by
  have hmem := List.mem_of_getElem? hinst
  obtain ⟨edit, hedit, happly⟩ := FixTarget.exists_edit
    (File.selectable_of_holds hmem (File.holds_span hmem)).spanOf_rangeOf
    (hrange ▸ File.replacement?_label hmem settings target.value)
  obtain ⟨blanks, hblanks, hexchanges⟩ := File.exchanges_label hmem hargs
  obtain ⟨inst', hinst', hescape, hreading⟩ := hexchanges.exists_getElem? hinst
  refine ⟨edit, hedit, inst', happly ▸ hinst', ?_⟩
  rw [← hescape] at hreading ⊢
  obtain ⟨hkind, hregion⟩ := Instruction.kind_region_of_label hreading
  have hescape : inst'.escape = '\\' ∨ inst'.escape = '\x60' := by
    rw [hescape, File.escape_of_mem hmem]
    exact File.escape_eq text
  exact ⟨Instruction.labelable_of_labels hkind hescape hregion hblanks,
    Instruction.labels_of_labelable hkind hescape hregion hblanks⟩

/-- The double quotes around a name in the value are read back. -/
theorem maintainer_labelled_name :
    let text := "FROM a\nMAINTAINER \"b\" c ".toList
    ∃ inst, (File.parse text).instructions[1]? = some inst ∧ inst.arguments ≠ [] ∧
      ∃ edit, (⟨"file:///D", Text.rangeOf text inst.keywordSpan, none⟩ : FixTarget).edit?
          (analyze text {}) Fix.maintainerToLabel.command = some ⟨"file:///D", [edit]⟩ ∧
        ∃ inst', (File.parse (TextEdit.apply text edit)).instructions[1]? = some inst' ∧
          inst'.Labels "maintainer".toList "\"b\" c".toList := by
  intro text
  have hfound : (File.parse text).instructions[1]?.any (fun inst => !inst.arguments.isEmpty &&
      decide (inst.escape = '\\' ∧ inst.region.text = " \"b\" c ".toList)) = true := by
    decide +kernel
  obtain ⟨inst, hinst, hchecked⟩ := (Option.any_eq_true _ _).mp hfound
  obtain ⟨hargs, hchecked⟩ := Bool.and_eq_true_iff.mp hchecked
  obtain ⟨hescape, hregion⟩ := of_decide_eq_true hchecked
  have hargs : inst.arguments ≠ [] := by simpa using hargs
  obtain ⟨edit, hedit, inst', hinst', hiff⟩ := maintainer_labelled_iff text {} hinst hargs
    ⟨"file:///D", Text.rangeOf text inst.keywordSpan, none⟩ rfl
  refine ⟨inst, hinst, hargs, edit, hedit, inst', hinst', ?_⟩
  rw [hescape, hregion] at hiff
  have hnone : segment? '\\' (trimBlanks " \"b\" c ".toList) = none := by decide +kernel
  have hlabelable : Labelable '\\' " \"b\" c ".toList :=
    .inr ⟨by decide +kernel, by decide +kernel, by decide +kernel, fun _ => rfl⟩
  have hlabels := hiff.mpr hlabelable
  rw [labelValue, hnone] at hlabels
  exact hlabels

/-- The backslash in the value is not escaped, and the label loses it. -/
theorem maintainer_labelled_backslash :
    let text := "FROM a\nMAINTAINER a\\b".toList
    ∃ inst, (File.parse text).instructions[1]? = some inst ∧ inst.isKind .MAINTAINER = true ∧
      inst.arguments ≠ [] ∧ labelValue inst.escape (trimBlanks inst.region.text) = "a\\b".toList ∧
      ∃ w, (⟨"file:///D", Text.rangeOf text inst.keywordSpan, none⟩ : FixTarget).edit?
          (analyze text {}) Fix.maintainerToLabel.command = some w ∧
        ∀ inst' ∈ (File.parse (TextEdit.applyAll text w.edits)).instructions[1]?,
          ¬inst'.Labels "maintainer".toList "a\\b".toList := by
  intro text
  have hfound : (File.parse text).instructions[1]?.any (fun inst => inst.isKind .MAINTAINER &&
      !inst.arguments.isEmpty &&
      decide (labelValue inst.escape (trimBlanks inst.region.text) = "a\\b".toList) &&
      ((⟨"file:///D", Text.rangeOf text inst.keywordSpan, none⟩ : FixTarget).edit? (analyze text {})
        Fix.maintainerToLabel.command).any fun w =>
          (File.parse (TextEdit.applyAll text w.edits)).instructions[1]?.all fun inst' =>
            inst'.properties.all fun p =>
              decide (p.unquotedValue inst'.escape ≠ some "a\\b".toList)) = true := by
    decide +kernel
  obtain ⟨inst, hinst, hchecked⟩ := (Option.any_eq_true _ _).mp hfound
  simp only [Bool.and_eq_true] at hchecked
  obtain ⟨⟨⟨hkind, hargs⟩, hvalue⟩, hedit⟩ := hchecked
  obtain ⟨w, hw, hlost⟩ := (Option.any_eq_true _ _).mp hedit
  refine ⟨inst, hinst, hkind, by simpa using hargs, of_decide_eq_true hvalue, w, hw,
    fun inst' hinst' hlabels => ?_⟩
  obtain ⟨p, hp, -, hunquoted⟩ := hlabels.property
  rw [Option.mem_def.mp hinst', Option.all_some, hp, List.all_cons, Bool.and_eq_true] at hlost
  exact of_decide_eq_true hlost.1 hunquoted

end Dockerfile
