import Mathlib.Algebra.Group.Nat.Defs
import Dockerfile.Proofs.Check.Mendable
import Dockerfile.Proofs.Check.Places
import Dockerfile.Proofs.Check.Spelling
import Dockerfile.Proofs.File.Ends
import Dockerfile.Proofs.File.Respelled
import Dockerfile.Protocol.Report

/-!
# Offered fixes

A fix is offered for a report, and its edit is computed from the arguments of the command alone: they
are read back as they were written (`FixTarget.ofArguments?_arguments`), and the range among them
leads back to the part of the text that the report is about. The removal of a flag looks that part up
among the flags of the instructions in the file; a flag of a deferred instruction is not found there
(`Analysis.edit?_offered`).
-/

namespace Dockerfile

/-! ## Arguments of commands -/

theorem Json.nat?_nat {bits n : Nat} (h : n < 2 ^ bits) : (Json.nat n).nat? bits = some n := by
  have hbound : (0 : Int) ≤ (n : Int) ∧ (n : Int) ≤ ((1 <<< bits : Nat) : Int) - 1 := by
    rw [Nat.one_shiftLeft]
    omega
  simp only [Json.nat?, Json.nat, Json.integer?, if_pos hbound, Option.map_some, Int.toNat_natCast]

theorem Position.ofJson?_toJson {p : Position} (hline : p.line < 2 ^ 32)
    (hcharacter : p.character < 2 ^ 32) : Position.ofJson? p.toJson = some p := by
  have hfields : p.toJson.strictRecord? ["line", "character"] =
      some [some (.nat p.line), some (.nat p.character)] := by
    simp [Position.toJson, Json.strictRecord?, Json.record?, Json.field?]
  simp [Position.ofJson?, hfields, Json.required, Json.nat?_nat hline, Json.nat?_nat hcharacter]

/-- The numbers of both ends of a range can be written with 32 bits. -/
def Range.Short (r : Range) : Prop :=
  (r.start.line < 2 ^ 32 ∧ r.start.character < 2 ^ 32) ∧
    r.stop.line < 2 ^ 32 ∧ r.stop.character < 2 ^ 32

theorem Range.ofJson?_toJson {r : Range} (h : r.Short) : Range.ofJson? r.toJson = some r := by
  have hfields : r.toJson.strictRecord? ["start", "end"] =
      some [some r.start.toJson, some r.stop.toJson] := by
    simp [Range.toJson, Json.strictRecord?, Json.record?, Json.field?]
  simp [Range.ofJson?, hfields, Json.required, Position.ofJson?_toJson h.1.1 h.1.2,
    Position.ofJson?_toJson h.2.1 h.2.2]

theorem Text.rangeOf_short {text : Text} (h : byteLength text < 2 ^ 32) (span : Span) :
    (rangeOf text span).Short := by
  have hstart := positionAt_le text span.start
  have hstop := positionAt_le text span.stop
  exact ⟨⟨Nat.lt_of_le_of_lt hstart.1 h, Nat.lt_of_le_of_lt hstart.2 h⟩,
    Nat.lt_of_le_of_lt hstop.1 h, Nat.lt_of_le_of_lt hstop.2 h⟩

/-- The arguments of a command are read back as they were written. -/
theorem FixTarget.ofArguments?_arguments {t : FixTarget} (huri : Report.uri? (.string t.uri) = some t.uri)
    (hrange : t.range.Short) : ofArguments? t.arguments = some t := by
  obtain ⟨uri, range, value⟩ := t
  have hread : Range.ofJson? range.toJson = some range := Range.ofJson?_toJson hrange
  have haddress : Report.uri? (.string uri) = some uri := huri
  cases value with
  | none => simp [ofArguments?, arguments, haddress, hread]
  | some value => simp [ofArguments?, arguments, haddress, hread, Json.string?]

/-! ## Codes and their fixes -/

namespace Fix

theorem ofCommand?_command (fix : Fix) : ofCommand? fix.command = some fix := by
  cases fix <;> decide

def offered : List (Code × FixOffer) :=
  Code.all.flatMap fun code => (offers code).map fun offer => (code, offer)

variable {code : Code} {offer : FixOffer} (h : offer ∈ offers code)
include h

theorem mem_offered : (code, offer) ∈ offered :=
  List.mem_flatMap.mpr ⟨code, code.mem_all, List.mem_map.mpr ⟨offer, h, rfl⟩⟩

theorem code_of_removeFlag (hfix : offer.fix = .removeFlag) : code = .flagDuplicate :=
  (by decide : ∀ p ∈ offered, p.2.fix = .removeFlag → p.1 = .flagDuplicate) _ (mem_offered h) hfix

theorem code_of_maintainerToLabel (hfix : offer.fix = .maintainerToLabel) :
    code = .deprecatedMaintainer :=
  (by decide : ∀ p ∈ offered, p.2.fix = .maintainerToLabel → p.1 = .deprecatedMaintainer) _
    (mem_offered h) hfix

theorem value_of_escapeDirective (hfix : offer.fix = .escapeDirective) :
    offer.value = some "\\" ∨ offer.value = some "\x60" :=
  (by decide : ∀ p ∈ offered, p.2.fix = .escapeDirective →
    p.2.value = some "\\" ∨ p.2.value = some "\x60") _ (mem_offered h) hfix

end Fix

theorem FixTarget.isSome_edit? (a : Analysis) (fix : Fix) (t : FixTarget) :
    (t.edit? a fix.command).isSome = (fix.edit? a t.range t.value).isSome := by
  rw [edit?, Fix.ofCommand?_command]
  cases h : fix.edit? a t.range t.value <;> simp [h]

theorem Code.ofName?_name (code : Code) : ofName? code.name = some code := by
  cases code <;> decide

/-- What can be done about a report of this library goes by its code. -/
theorem Report.mem_actions {uri : String} {d : Diagnostic} {action : CodeAction} :
    action ∈ (ofDiagnostic d).actions uri ↔
      ∃ offer ∈ Fix.offers d.code, action = ⟨offer, uri, ofDiagnostic d⟩ := by
  have hcode : (ofDiagnostic d).ownCode? = some d.code := by
    simp only [ofDiagnostic, ownCode?, if_true, Code.ofName?_name]
  simp only [actions, hcode, List.mem_map, eq_comm]

/-! ## What a report leads back to -/

namespace Flag

theorem name_chars {arg : Argument} {index : Nat} {f : Flag} (h : ofArgument? arg index = some f) :
    f.name.chars = (arg.content.chars.drop 2).takeWhile fun p => p.char != '=' := by
  unfold ofArgument? at h
  split at h
  · cases h
    dsimp only [Excerpt.cutAtEquals]
    split <;> rfl
  · cases h

end Flag

theorem FlagSpec.ne_nil_of_knows {k : Keyword} {name : Text} (h : (ofKeyword k).knows name = true) :
    name ≠ [] := by
  rintro rfl
  cases k <;> exact absurd h (by decide)

namespace Instruction

variable {inst t : Instruction} {f : Flag}

theorem flagName_subset (hf : f ∈ inst.flags) : f.name.chars ⊆ inst.region.chars := by
  obtain ⟨arg, harg, index, hflag⟩ := exists_argument_of_mem_flags hf
  rw [Flag.name_chars hflag]
  exact List.Subset.trans (List.takeWhile_subset _)
    (List.Subset.trans (List.drop_subset 2 _) (Argument.infix_of_mem_splitFrom harg).subset)

theorem flags_of_trigger? (h : inst.trigger? = some t) : inst.flags = [] := by
  have hbears : inst.bearsFlags = false := by
    rw [bearsFlags, Check.kind_of_trigger? h]
    rfl
  rw [flags, hbears]
  rfl

end Instruction

theorem Check.Reaches.defers {inst t : Instruction} (h : Reaches inst t) : inst.Defers t := by
  rcases h with rfl | ⟨h, -⟩
  · exact .self
  · exact .trigger .self h

namespace File

variable {text : Text} {inst t : Instruction} (hinst : inst ∈ (parse text).instructions)
include hinst

theorem flagName_subset_chars (ht : inst.Defers t) {f : Flag} (hf : f ∈ t.flags) :
    f.name.chars ⊆ inst.chars := fun _ hp =>
  (ht.inside (isNamed_of_mem hinst)).2
    (List.mem_append_right _ (Instruction.flagName_subset hf hp))

theorem selectable_flagName (ht : inst.Defers t) {f : Flag} (hf : f ∈ t.flags)
    (hne : f.name.chars ≠ []) : f.name.span.Selectable text :=
  selectable_of_chars hinst (((instruction_within hinst).defers ht).flag hf).1 hne
    (flagName_subset_chars hinst ht hf)

/-- Flags whose names stand at one place belong to one instruction of the file. -/
theorem eq_of_flagName {other t' : Instruction} (hother : other ∈ (parse text).instructions)
    (ht : inst.Defers t) (ht' : other.Defers t') {f g : Flag} (hf : f ∈ t.flags) (hg : g ∈ t'.flags)
    (hne : f.name.chars ≠ []) (hspan : g.name.span = f.name.span) : other = inst := by
  have hwithin := (((instruction_within hinst).defers ht).flag hf).1
  have hwithin' := (((instruction_within hother).defers ht').flag hg).1
  have hne' : g.name.chars ≠ [] := by
    intro hnil
    have hempty : g.name.span.isEmpty = true := by
      simp [Excerpt.span, Excerpt.start, Excerpt.stop, hnil, Placed.stopOr, Span.isEmpty]
    rw [hspan, hwithin.span_isEmpty hne] at hempty
    cases hempty
  obtain ⟨p, rest, hp⟩ := List.exists_cons_of_ne_nil hne
  obtain ⟨q, rest', hq⟩ := List.exists_cons_of_ne_nil hne'
  have hmem : p ∈ f.name.chars := hp ▸ List.mem_cons_self
  have hmem' : q ∈ g.name.chars := hq ▸ List.mem_cons_self
  have hsame : q = p := by
    refine Text.eq_of_mem_place (hwithin'.chars.mem hmem') (hwithin.chars.mem hmem) ?_
    have hstart := congrArg Span.start hspan
    simpa only [Excerpt.span, Excerpt.start, hp, hq, Placed.startOr_cons] using hstart
  exact eq_of_mem_chars (mem_logicalLines hother) (mem_logicalLines hinst)
    (flagName_subset_chars hother ht' hg hmem')
    (hsame ▸ flagName_subset_chars hinst ht hf hmem)

end File

/-! ## Edits of offered fixes -/

/-- The report is about a flag of an instruction that an `ONBUILD` defers. -/
def Diagnostic.OnDeferredFlag (file : File) (d : Diagnostic) : Prop :=
  d.code = .flagDuplicate ∧ ∃ inst ∈ file.instructions, ∃ t, inst.trigger? = some t ∧
    ∃ f ∈ t.flags, f.name.span = d.span

namespace Analysis

variable {text : Text} {settings : Settings} {d : Diagnostic}

/-- A report with an offered fix comes of a finding about a part of an instruction, unless it is
about a directive or a blank line. -/
theorem exists_mendable (hd : d ∈ (analyze text settings).diagnostics)
    (hoffer : Fix.offers d.code ≠ []) (hcode : d.code.subject ≠ .directive)
    (hline : d.code ≠ .emptyContinuationLine) :
    ∃ inst ∈ (File.parse text).instructions, ∃ t span, Check.Reaches inst t ∧
      t.Mendable d.code span ∧ d.span = Text.widen text span ∧ d.range = Text.rangeOf text d.span := by
  obtain ⟨f, hf, hreport⟩ := mem_diagnostics_iff.mp hd
  obtain ⟨severity, -, rfl⟩ := Option.map_eq_some_iff.mp hreport
  rcases Check.offered_of_file hf hoffer with ⟨directive, -, hf⟩ | ⟨inst, hinst, hf | ⟨hf, -⟩⟩
  · exact absurd (Check.directive_directive directive f hf) hcode
  · obtain ⟨t, hreach, hmendable⟩ := Check.mendable_of_mem hf hoffer
    exact ⟨inst, hinst, t, f.span, hreach, hmendable, rfl, rfl⟩
  · exact absurd (congrArg Problem.code hf) hline

theorem exists_deprecated (hd : d ∈ (analyze text settings).diagnostics)
    (hcode : d.code = .deprecatedMaintainer) :
    ∃ inst ∈ (File.parse text).instructions, inst.keywordSpan = Text.spanOf text d.range := by
  obtain ⟨inst, hinst, t, span, hreach, hmendable, hspan, hrange⟩ :=
    exists_mendable hd (by rw [hcode]; decide) (by rw [hcode]; decide) (by rw [hcode]; decide)
  rw [hcode] at hmendable
  cases hmendable with
  | maintainer hkind =>
      rcases hreach with rfl | ⟨-, hother⟩
      · refine ⟨t, hinst, ?_⟩
        rw [hrange, hspan, File.widen_keywordSpan hinst .self,
          (File.selectable_keywordSpan hinst).spanOf_rangeOf]
      · exact absurd rfl (hother _ hkind).2.1

/-- A repeated flag is found by its name, but only if its instruction is one of the file. -/
theorem exists_repeatedFlag (hd : d ∈ (analyze text settings).diagnostics)
    (hcode : d.code = .flagDuplicate) :
    Text.spanOf text d.range = d.span ∧
      ((∃ inst ∈ (File.parse text).instructions, ∃ f ∈ inst.flags, f.name.span = d.span) ↔
        ¬d.OnDeferredFlag (File.parse text)) := by
  obtain ⟨inst, hinst, t, span, hreach, hmendable, hspan, hrange⟩ :=
    exists_mendable hd (by rw [hcode]; decide) (by rw [hcode]; decide) (by rw [hcode]; decide)
  rw [hcode] at hmendable
  cases hmendable with
  | @flag f k hkind hf hknown =>
      have hne : f.name.chars ≠ [] := fun hnil =>
        FlagSpec.ne_nil_of_knows hknown (by rw [Excerpt.text, hnil]; rfl)
      have hselectable := File.selectable_flagName hinst hreach.defers hf hne
      have hwithin := (((File.instruction_within hinst).defers hreach.defers).flag hf).1
      rw [Text.widen_of_wellPlaced hselectable.placed (hwithin.span_isEmpty hne)] at hspan
      refine ⟨by rw [hrange, hspan, hselectable.spanOf_rangeOf], ?_⟩
      constructor
      · rintro ⟨own, hown, g, hg, hplace⟩ ⟨-, outer, houter, trigger, htrigger, f', hf', hplace'⟩
        -- Both would be flags of one instruction, but an `ONBUILD` has none.
        have hsame := File.eq_of_flagName hinst hown hreach.defers .self hf hg hne
          (hplace.trans hspan)
        have hsame' := File.eq_of_flagName hinst houter hreach.defers (.trigger .self htrigger) hf
          hf' hne (hplace'.trans hspan)
        rw [hsame, ← hsame', Instruction.flags_of_trigger? htrigger] at hg
        cases hg
      · intro hown
        rcases hreach with rfl | ⟨htrigger, -⟩
        · exact ⟨t, hinst, f, hf, hspan.symm⟩
        · exact absurd ⟨hcode, inst, hinst, t, htrigger, f, hf, hspan.symm⟩ hown

/-- An offered fix makes an edit, unless it is to remove a flag of a deferred instruction. -/
theorem edit?_offered (hd : d ∈ (analyze text settings).diagnostics) {offer : FixOffer}
    (hoffer : offer ∈ Fix.offers d.code) :
    (offer.fix.edit? (analyze text settings) d.range offer.value).isSome = true ↔
      ¬d.OnDeferredFlag (File.parse text) := by
  have hall : offer.fix ≠ .removeFlag → ¬d.OnDeferredFlag (File.parse text) := by
    rintro hfix ⟨hcode, -⟩
    rw [hcode] at hoffer
    rw [List.mem_singleton.mp hoffer] at hfix
    exact hfix rfl
  rw [Fix.edit?, Option.isSome_map]
  cases hfix : offer.fix with
  | uppercaseInstruction | lowercaseDirective | convertToAs | removeEmptyLine | removeArgument
    | convertToDoubleQuotes =>
      exact iff_of_true rfl (hall (by rw [hfix]; decide))
  | escapeDirective =>
      refine iff_of_true ?_ (hall (by rw [hfix]; decide))
      rcases Fix.value_of_escapeDirective hoffer hfix with h | h <;> rw [h] <;> rfl
  | maintainerToLabel =>
      refine iff_of_true ?_ (hall (by rw [hfix]; decide))
      obtain ⟨inst, hinst, hspan⟩ :=
        exists_deprecated hd (Fix.code_of_maintainerToLabel hoffer hfix)
      rw [Fix.replacement?, Option.isSome_map, List.find?_isSome]
      exact ⟨inst, hinst, beq_iff_eq.mpr hspan⟩
  | removeFlag =>
      obtain ⟨hspan, hfound⟩ := exists_repeatedFlag hd (Fix.code_of_removeFlag hoffer hfix)
      rw [← hfound, Fix.replacement?, Option.isSome_map, List.find?_isSome]
      show (∃ f ∈ (File.parse text).instructions.flatMap Instruction.flags, _) ↔ _
      simp only [List.mem_flatMap, show (analyze text settings).text = text from rfl, hspan,
        beq_iff_eq]
      exact ⟨fun ⟨f, ⟨inst, hinst, hf⟩, h⟩ => ⟨inst, hinst, f, hf, h⟩,
        fun ⟨inst, hinst, f, hf, h⟩ => ⟨f, ⟨inst, hinst, hf⟩, h⟩⟩

end Analysis

/-- Whatever is offered for a report of a text, its arguments are read back, and its command makes an
edit unless it is to remove a flag of a deferred instruction. -/
theorem actions_mend (text : Text) (settings : Settings) {uri : String}
    (huri : Report.uri? (.string uri) = some uri) (hsize : Text.byteLength text < 2 ^ 32) :
    ∀ d ∈ (analyze text settings).diagnostics, ∀ action ∈ (Report.ofDiagnostic d).actions uri,
      FixTarget.ofArguments? action.target.arguments = some action.target ∧
        ((action.target.edit? (analyze text settings) action.offer.fix.command).isSome = true ↔
          ¬d.OnDeferredFlag (analyze text settings).file) := by
  intro d hd action haction
  obtain ⟨offer, hoffer, rfl⟩ := Report.mem_actions.mp haction
  have hrange : d.range = Text.rangeOf text d.span := (Analysis.wellPlaced_of_mem hd).range
  refine ⟨FixTarget.ofArguments?_arguments huri ?_, ?_⟩
  · show d.range.Short
    rw [hrange]
    exact Text.rangeOf_short hsize _
  · have hedit := Analysis.edit?_offered hd hoffer
    rwa [FixTarget.isSome_edit?]

/-- Both removals of a repeated flag are offered, and each makes an edit. -/
theorem actions_mend_run :
    let text := "FROM a\nCOPY --link --link b c".toList
    (Report.uri? (.string "file:///D") = some "file:///D" ∧ Text.byteLength text < 2 ^ 32) ∧
      ∃ d ∈ (analyze text {}).diagnostics, d.code = .flagDuplicate ∧
        ∀ action ∈ (Report.ofDiagnostic d).actions "file:///D",
          FixTarget.ofArguments? action.target.arguments = some action.target ∧
            (action.target.edit? (analyze text {}) action.offer.fix.command).isSome = true := by
  intro text
  have huri : Report.uri? (.string "file:///D") = some "file:///D" := by decide +kernel
  have hsize : Text.byteLength text < 2 ^ 32 := by decide
  have hreported : ((analyze text {}).findings.filterMap (Diagnostic.ofFinding? text {})).any
      (fun d => d.code = .flagDuplicate) = true := by decide +kernel
  have hundeferred : ∀ inst ∈ (File.parse text).instructions, inst.trigger? = none := by
    decide +kernel
  obtain ⟨d, hd, hcode⟩ := List.any_eq_true.mp hreported
  have hd := (Analysis.diagnostics_perm text {}).mem_iff.mpr hd
  refine ⟨⟨huri, hsize⟩, d, hd, of_decide_eq_true hcode, fun action haction => ?_⟩
  obtain ⟨hread, hedit⟩ := actions_mend text {} huri hsize d hd action haction
  refine ⟨hread, hedit.mpr ?_⟩
  rintro ⟨-, inst, hinst, t, ht, -⟩
  rw [hundeferred inst hinst] at ht
  cases ht

/-- In a deferred `COPY` a repeated flag is reported, and its removal is offered, but the command does
not find the flag. -/
theorem actions_mend_deferred :
    ¬∀ (text : Text) (settings : Settings) (uri : String), Report.uri? (.string uri) = some uri →
      Text.byteLength text < 2 ^ 32 →
        ∀ d ∈ (analyze text settings).diagnostics, ∀ action ∈ (Report.ofDiagnostic d).actions uri,
          FixTarget.ofArguments? action.target.arguments = some action.target ∧
            (action.target.edit? (analyze text settings)
              action.offer.fix.command).isSome = true := by
  intro h
  let text := "FROM a\nONBUILD COPY --from=a --from=b x y".toList
  have hnone : ((analyze text {}).findings.filterMap (Diagnostic.ofFinding? text {})).any
      (fun d => ((Report.ofDiagnostic d).actions "file:///D").any fun action =>
        !(action.target.edit? (analyze text {}) action.offer.fix.command).isSome) = true := by
    decide +kernel
  obtain ⟨d, hd, hnone⟩ := List.any_eq_true.mp hnone
  obtain ⟨action, haction, hedit⟩ := List.any_eq_true.mp hnone
  have hd := (Analysis.diagnostics_perm text {}).mem_iff.mpr hd
  rw [(h text {} "file:///D" (by decide +kernel) (by decide) d hd action haction).2] at hedit
  cases hedit

end Dockerfile
