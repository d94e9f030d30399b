import Dockerfile.Proofs.Editor.Locality

/-!
# Double quotes in arrays

The fix for an array in single quotes puts double quotes in their place. The instruction then has the
same strings as before exactly if the array is `StringArray.requotable` (`requoted_strings_iff`): the
fix counts quotes in the text of the file, comments included, and does not heed the escape character.
-/

namespace Dockerfile

theorem StringArray.Written.isSpace_of_outside {quote escape : Char} {chars : List Placed}
    {array : StringArray} (h : Written quote escape chars array)
    (hordered : chars.Pairwise fun p q => p.stop ≤ q.offset) {p : Placed} (hp : p ∈ chars)
    (hout : ¬(array.span.start ≤ p.offset ∧ p.offset < array.span.stop)) : isSpace p.char = true := by
  obtain ⟨front, opening, middle, closing, back, rfl, hfront, hback, hspan⟩ : ∃ front opening middle
      closing back, chars = front ++ opening :: (middle ++ closing :: back) ∧ IsSpace front ∧
        IsSpace back ∧ array.span = opening.spanTo closing := by
    cases h with
    | empty front_space _ _ _ back_space => exact ⟨_, _, _, _, _, rfl, front_space, back_space, rfl⟩
    | @strings front inner further space back opening closing first others front_space _ _ _ _ _
        back_space =>
        exact ⟨front, opening, inner ++ (first.chars ++ (further ++ space)), closing, back,
          by simp only [List.append_assoc], front_space, back_space, rfl⟩
  rcases List.mem_append.mp hp with hp | hp
  · exact (isSpace_iff _).mpr (hfront p hp)
  obtain ⟨-, hordered, -⟩ := List.pairwise_append.mp hordered
  obtain ⟨hopening, hordered⟩ := List.pairwise_cons.mp hordered
  have hstart : ∀ q ∈ middle ++ closing :: back, opening.offset ≤ q.offset := fun q hq =>
    Nat.le_trans (Nat.le_of_lt opening.offset_lt_stop) (hopening q hq)
  have hclosing := closing.offset_lt_stop
  have hspan' : array.span.start = opening.offset ∧ closing.stop ≤ array.span.stop := by
    rw [hspan]
    exact ⟨rfl, Nat.le_max_left _ _⟩
  rcases List.mem_cons.mp hp with rfl | hp
  · have := hstart closing (by simp)
    omega
  rcases List.mem_append.mp hp with hmiddle | hp
  · have := (List.pairwise_append.mp hordered).2.2 p hmiddle closing List.mem_cons_self
    have := hstart p hp
    have := p.offset_lt_stop
    omega
  rcases List.mem_cons.mp hp with rfl | hp
  · have := hstart p (by simp)
    omega
  · exact (isSpace_iff _).mpr (hback p hp)

namespace Instruction

def part? (inst : Instruction) (deferred : Bool) : Option Instruction :=
  if deferred then inst.trigger? else some inst

def strings? (quote : Char) (inst : Instruction) : Option (List Text) :=
  (StringArray.parse quote inst.escape inst.region).toOption.map fun array =>
    array.strings.map StringArray.Literal.value

structure Styled {escape : Char} {span : Span} (style : Style escape span) (inst inst' : Instruction) :
    Prop where
  keyword : inst'.keyword.text = style.text inst.keyword.chars
  region : inst'.region.text = style.text inst.region.chars
  escape : inst'.escape = inst.escape

variable {inst inst' t : Instruction} {deferred : Bool}

theorem strings?_eq_some_iff {quote : Char} {strings : List Text} :
    inst.strings? quote = some strings ↔
      ∃ array, StringArray.parse quote inst.escape inst.region = .ok array ∧
        array.strings.map StringArray.Literal.value = strings := by
  unfold strings?
  cases StringArray.parse quote inst.escape inst.region <;> simp [Except.toOption]

theorem defers_of_part? (h : inst.part? deferred = some t) : inst.Defers t := by
  cases deferred with
  | false => exact Option.some.inj h ▸ .self
  | true => exact .trigger .self h

theorem escape_of_part? (h : inst.part? deferred = some t) : t.escape = inst.escape := by
  cases deferred with
  | false => rw [← Option.some.inj h]
  | true =>
      have h : inst.trigger? = some t := h
      unfold trigger? at h
      split at h
      · split at h
        · cases h
        · cases h
          rfl
      · cases h

theorem region_subset_of_part? (h : inst.part? deferred = some t) :
    t.region.chars ⊆ inst.region.chars := by
  cases deferred with
  | false => exact Option.some.inj h ▸ List.Subset.refl _
  | true => exact List.Subset.trans (List.subset_append_right _ _) (trigger?_chars h).2.subset

theorem text_keyword {text : Text} (h : inst.Within text) {escape : Char} {span : Span}
    (style : Style escape span) {p : Placed} (hp : p ∈ inst.region.chars)
    (hstart : span.start = p.offset) : style.text inst.keyword.chars = inst.keyword.text := by
  refine style.text_of_outside fun q hq hinside => ?_
  have := (List.pairwise_append.mp ((Text.pairwise_place 0 text).sublist h.chars)).2.2 q hq p hp
  have := q.offset_lt_stop
  omega

namespace Styled

variable {escape : Char} {span : Span} {style : Style escape span}

theorem kind_eq (h : inst.Styled style inst')
    (hkeyword : style.text inst.keyword.chars = inst.keyword.text) : inst'.kind = inst.kind := by
  rw [kind, kind, h.keyword, hkeyword]

theorem trigger? (h : inst.Styled style inst') (hkind : inst'.kind = inst.kind)
    (ht : inst.trigger? = some t) : ∃ t', inst'.trigger? = some t' ∧ t.Styled style t' := by
  unfold Instruction.trigger? at ht ⊢
  split at ht
  · rename_i honbuild
    have honbuild' : inst'.isKind .ONBUILD = true := by
      rw [isKind, hkind]
      exact honbuild
    split at ht
    · cases ht
    · rename_i first rest hdrop
      cases ht
      have htext : Placed.text (inst'.region.chars.dropWhile fun p => isBlank p.char) =
          style.text (first :: rest) := by
        rw [Placed.text_dropWhile, show Placed.text inst'.region.chars = _ from h.region,
          style.dropWhile_text fun _ _ => style.isBlank_of_mem_write, hdrop]
      rw [if_pos honbuild']
      cases hdrop' : inst'.region.chars.dropWhile fun p => isBlank p.char with
      | nil =>
          rw [hdrop'] at htext
          have hempty := style.isEmpty_text (first :: rest)
          rw [← htext] at hempty
          cases hempty
      | cons first' rest' =>
          rw [hdrop'] at htext
          refine ⟨_, rfl, ?_, ?_, h.escape⟩
          · show Placed.text ((first' :: rest').takeWhile fun p => !isBlank p.char) = _
            rw [Placed.text_takeWhile (fun c => !isBlank c), htext,
              style.takeWhile_text fun _ _ => style.not_isBlank_of_mem_write]
            rfl
          · show Placed.text ((first' :: rest').dropWhile fun p => !isBlank p.char) = _
            rw [Placed.text_dropWhile (fun c => !isBlank c), htext,
              style.dropWhile_text fun _ _ => style.not_isBlank_of_mem_write]
            rfl
  · cases ht

theorem part? (h : inst.Styled style inst') (hkind : inst'.kind = inst.kind)
    (ht : inst.part? deferred = some t) : ∃ t', inst'.part? deferred = some t' ∧ t.Styled style t' := by
  cases deferred with
  | false => exact ⟨inst', rfl, Option.some.inj ht ▸ h⟩
  | true => exact h.trigger? hkind ht

end Styled

end Instruction

namespace File

variable {text text' : Text} {inst t : Instruction} {deferred : Bool}

theorem parts_of_mem (hinst : inst ∈ (parse text).instructions) :
    inst.keyword.chars = inst.chars.takeWhile (fun p => !isBlank p.char) ∧
      inst.region.chars = inst.chars.dropWhile fun p => !isBlank p.char := by
  obtain ⟨start, -, hline⟩ := Body.exists_lineAt_of_mem (mem_logicalLines hinst)
  rw [hline]
  exact Body.keyword_eq start

theorem Exchanges.exists_styled {span : Span} {style : Style (parse text).escape span}
    (h : Exchanges text inst (style.text inst.chars) text') {k : Nat}
    (hk : (parse text).instructions[k]? = some inst) :
    ∃ inst', (parse text').instructions[k]? = some inst' ∧ inst.Styled style inst' := by
  obtain ⟨inst', hinst', hescape, hreading⟩ := h.exists_getElem? hk
  obtain ⟨hkeyword, hregion⟩ := parts_of_mem (List.mem_of_getElem? hk)
  refine ⟨inst', hinst', ?_, ?_, hescape⟩
  · rw [hkeyword, ← style.takeWhile_text fun _ _ => style.not_isBlank_of_mem_write]
    exact congrArg Instruction.Reading.keyword hreading
  · rw [hregion, ← style.dropWhile_text fun _ _ => style.not_isBlank_of_mem_write]
    exact congrArg Instruction.Reading.region hreading

theorem escape_part (hinst : inst ∈ (parse text).instructions) (ht : inst.part? deferred = some t) :
    t.escape = '\\' ∨ t.escape = '\x60' := by
  rw [Instruction.escape_of_part? ht, escape_of_mem hinst]
  exact escape_eq text

theorem text_region_requoted (hinst : inst ∈ (parse text).instructions)
    (ht : inst.part? deferred = some t) {array : StringArray}
    (harray : StringArray.parse '\x27' t.escape t.region = .ok array) :
    (Style.doubleQuotes (escape_eq text) text array.span).text t.region.chars =
      StringArray.requote (Fix.takenInside text array.span.start) t.region.chars := by
  have hdefers := Instruction.defers_of_part? ht
  have hwithin := (instruction_within hinst).defers hdefers
  rw [Style.doubleQuotes, Style.text_within]
  · rfl
  · intro p hp hout
    have hwritten := StringArray.written_of_parse (StringArray.delimits (.inr rfl)
      (escape_part hinst ht)) harray
    have hspace := hwritten.isSpace_of_outside
      ((Text.pairwise_place 0 text).sublist hwithin.region.chars) hp hout
    refine Fix.requoted_of_ne ?_ ?_ _ <;>
    · intro heq
      rw [heq] at hspace
      cases hspace

end File

namespace Analysis

/-- An array in single quotes that is reported is the region of an instruction of the file, or of one
that such an instruction defers. -/
theorem exists_singleQuotedArray {text : Text} {settings : Settings} {d : Diagnostic}
    (hd : d ∈ (analyze text settings).diagnostics) (hcode : d.code = .singleQuotedArray) :
    ∃ (k : Nat) (inst t : Instruction) (deferred : Bool) (array : StringArray),
      (File.parse text).instructions[k]? = some inst ∧ inst.part? deferred = some t ∧
      StringArray.parse '\x27' t.escape t.region = .ok array ∧
      d.range = Text.rangeOf text array.span := by
  obtain ⟨inst, hinst, t, span, hreach, hmendable, hspan, hrange⟩ :=
    exists_mendable hd (by rw [hcode]; decide) (by rw [hcode]; decide) (by rw [hcode]; decide)
  rw [hcode] at hmendable
  cases hmendable with
  | @quotes array harray =>
      obtain ⟨k, hk⟩ := List.getElem?_of_mem hinst
      have hholds := File.holds_array hinst hreach.defers harray
      rw [hspan, Text.widen_of_wellPlaced (File.selectable_of_holds hinst hholds).placed
        hholds.isEmpty] at hrange
      rcases hreach with rfl | ⟨htrigger, -⟩
      · exact ⟨k, t, t, false, array, hk, rfl, harray, hrange⟩
      · exact ⟨k, inst, t, true, array, hk, htrigger, harray, hrange⟩

end Analysis

/-- Where an array in single quotes is reported, the fix leaves an instruction of the same kind in the
same place. It is an array in double quotes with the same strings if and only if the quotes can be
replaced as the fix does. -/
theorem requoted_strings_iff (text : Text) (settings : Settings) {d : Diagnostic}
    (hd : d ∈ (analyze text settings).diagnostics) (hcode : d.code = .singleQuotedArray)
    (target : FixTarget) (hrange : target.range = d.range) :
    ∃ (k : Nat) (inst t : Instruction) (deferred : Bool) (array : StringArray),
      (File.parse text).instructions[k]? = some inst ∧ inst.part? deferred = some t ∧
      StringArray.parse '\x27' t.escape t.region = .ok array ∧ d.range = Text.rangeOf text array.span ∧
      ∃ edit, target.edit? (analyze text settings) Fix.convertToDoubleQuotes.command =
          some ⟨target.uri, [edit]⟩ ∧
        ∃ inst' t' : Instruction,
          (File.parse (TextEdit.apply text edit)).instructions[k]? = some inst' ∧
          inst'.part? deferred = some t' ∧ t'.kind = t.kind ∧ t'.escape = t.escape ∧
          (t'.strings? '"' = t.strings? '\x27' ↔
            StringArray.requotable t.escape (Fix.takenInside text array.span.start) false
              t.region.chars = true) := by
  obtain ⟨k, inst, t, deferred, array, hk, ht, harray, hd⟩ :=
    Analysis.exists_singleQuotedArray hd hcode
  refine ⟨k, inst, t, deferred, array, hk, ht, harray, hd, ?_⟩
  have hinst := List.mem_of_getElem? hk
  have hdefers := Instruction.defers_of_part? ht
  have hholds := File.holds_array hinst hdefers harray
  have hfound := (File.selectable_of_holds hinst hholds).spanOf_rangeOf
  have hreplacement : Fix.replacement? (analyze text settings)
      (Text.spanOf text target.range) target.value .convertToDoubleQuotes =
        some (array.span, Fix.doubleQuotes false (Text.slice text array.span)) := by
    rw [hrange, hd, hfound]
    rfl
  obtain ⟨edit, hedit, happly⟩ := FixTarget.exists_edit hfound hreplacement
  refine ⟨edit, hedit, ?_⟩
  rw [happly]
  obtain ⟨inst', hinst', hstyled⟩ := (File.exchanges_doubleQuotes hinst hholds).exists_styled hk
  obtain ⟨p, rest, q, hsuffix, -, hspan⟩ := StringArray.exists_ends harray
  have hp : p ∈ t.region.chars := hsuffix.mem List.mem_cons_self
  have hstart : array.span.start = p.offset := by rw [hspan]; rfl
  have hwithin := File.instruction_within hinst
  have hkind := hstyled.kind_eq (Instruction.text_keyword hwithin _
    (Instruction.region_subset_of_part? ht hp) hstart)
  obtain ⟨t', ht', hstyled'⟩ := hstyled.part? hkind ht
  refine ⟨inst', t', hinst', ht', hstyled'.kind_eq
    (Instruction.text_keyword (hwithin.defers hdefers) _ hp hstart), hstyled'.escape, ?_⟩
  have hregion := hstyled'.region
  rw [File.text_region_requoted hinst ht harray] at hregion
  rw [← StringArray.strings_requoted_iff (File.escape_part hinst ht) harray hregion,
    Instruction.strings?_eq_some_iff.mpr ⟨array, harray, rfl⟩, Instruction.strings?_eq_some_iff,
    hstyled'.escape]

/-- Double quotes in a string are escaped, and read back. -/
theorem requoted_strings_double :
    let text := "FROM a\nCMD ['say \"b\"', 'c']".toList
    ∃ d ∈ (analyze text {}).diagnostics, d.code = .singleQuotedArray ∧
      ∃ edit, (⟨"file:///D", d.range, none⟩ : FixTarget).edit? (analyze text {})
          Fix.convertToDoubleQuotes.command = some ⟨"file:///D", [edit]⟩ ∧
        ∃ inst ∈ (File.parse (TextEdit.apply text edit)).instructions,
          inst.strings? '"' = some ["say \"b\"".toList, "c".toList] := by
  intro text
  have hreported : ((analyze text {}).findings.filterMap (Diagnostic.ofFinding? text {})).any
      (fun d => decide (d.code = .singleQuotedArray)) = true := by
    decide +kernel
  have hchecked : (File.parse text).instructions.all (fun inst => inst.trigger?.isNone &&
      (StringArray.parse '\x27' inst.escape inst.region).toOption.all fun array =>
        decide (inst.strings? '\x27' = some ["say \"b\"".toList, "c".toList]) &&
          StringArray.requotable inst.escape (Fix.takenInside text array.span.start) false
            inst.region.chars) = true := by
    decide +kernel
  obtain ⟨d, hd, hcode⟩ := List.any_eq_true.mp hreported
  have hd := (Analysis.diagnostics_perm text {}).mem_iff.mpr hd
  have hcode := of_decide_eq_true hcode
  obtain ⟨k, inst, t, deferred, array, hk, ht, harray, -, edit, hedit, inst', t', hinst', ht', -, -,
    hiff⟩ := requoted_strings_iff text {} hd hcode ⟨"file:///D", d.range, none⟩ rfl
  obtain ⟨hnone, hchecked⟩ := Bool.and_eq_true_iff.mp
    (List.all_eq_true.mp hchecked inst (List.mem_of_getElem? hk))
  cases deferred with
  | true =>
      rw [show inst.trigger? = some t from ht] at hnone
      cases hnone
  | false =>
      obtain rfl := Option.some.inj ht
      obtain rfl := Option.some.inj ht'
      rw [harray] at hchecked
      obtain ⟨hstrings, hrequotable⟩ := Bool.and_eq_true_iff.mp hchecked
      exact ⟨d, hd, hcode, edit, hedit, inst', List.mem_of_getElem? hinst',
        (hiff.mpr hrequotable).trans (of_decide_eq_true hstrings)⟩

/-- An escaped single quote becomes an escaped double quote, and the string is another one. -/
theorem requoted_strings_escaped :
    let text := "FROM a\nCMD ['a\\'b']".toList
    ∃ d ∈ (analyze text {}).diagnostics, d.code = .singleQuotedArray ∧
      ∃ inst, (File.parse text).instructions[1]? = some inst ∧
        inst.strings? '\x27' = some ["a'b".toList] ∧
        ∃ w, (⟨"file:///D", d.range, none⟩ : FixTarget).edit? (analyze text {})
            Fix.convertToDoubleQuotes.command = some w ∧
          ∀ inst' ∈ (File.parse (TextEdit.applyAll text w.edits)).instructions[1]?,
            inst'.strings? '"' = some ["a\"b".toList] := by
  intro text
  have hreported : ((analyze text {}).findings.filterMap (Diagnostic.ofFinding? text {})).any
      (fun d => decide (d.code = .singleQuotedArray) &&
        ((⟨"file:///D", d.range, none⟩ : FixTarget).edit? (analyze text {})
          Fix.convertToDoubleQuotes.command).any fun w =>
            (File.parse (TextEdit.applyAll text w.edits)).instructions[1]?.all fun inst' =>
              decide (inst'.strings? '"' = some ["a\"b".toList])) = true := by
    decide +kernel
  have hfound : (File.parse text).instructions[1]?.any (fun inst =>
      decide (inst.strings? '\x27' = some ["a'b".toList])) = true := by
    decide +kernel
  obtain ⟨d, hd, hreported⟩ := List.any_eq_true.mp hreported
  have hd := (Analysis.diagnostics_perm text {}).mem_iff.mpr hd
  obtain ⟨hcode, hedit⟩ := Bool.and_eq_true_iff.mp hreported
  obtain ⟨w, hw, hlost⟩ := (Option.any_eq_true _ _).mp hedit
  obtain ⟨inst, hinst, hstrings⟩ := (Option.any_eq_true _ _).mp hfound
  refine ⟨d, hd, of_decide_eq_true hcode, inst, hinst, of_decide_eq_true hstrings, w, hw,
    fun inst' hinst' => ?_⟩
  rw [Option.mem_def.mp hinst', Option.all_some] at hlost
  exact of_decide_eq_true hlost

end Dockerfile
