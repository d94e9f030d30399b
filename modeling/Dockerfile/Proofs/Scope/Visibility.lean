import Dockerfile.Proofs.File.Ends
import Dockerfile.Proofs.Scope.StageTables
import Dockerfile.Proofs.Scope.Values
import Dockerfile.Proofs.Text.RoundTrip

/-!
# What is visible at a reference

Completion asks which declarations are visible at an offset, and finds the instruction there by its
place; resolution asks for one name and knows the instruction by its number. Both agree: at every
offset of a reference, of the declarations of its name exactly the one it refers to is visible
(`ScopeTable.visible_reference`). This rests on the place of a reference inside its instruction
(`File.inside_of_mem_uses`) and on the gaps between instructions.
-/

namespace Dockerfile

/-! ## References inside their instruction -/

namespace Instruction

theorem span_start_le_stop (inst : Instruction) : inst.span.start ≤ inst.span.stop := by
  have hkeyword : inst.keywordSpan.start ≤ inst.keywordSpan.stop := Nat.le_max_right _ _
  exact Nat.le_trans hkeyword (Nat.le_max_right _ _)

theorem isName_of_mem_uses {inst : Instruction} {s : Substitution} (h : s ∈ inst.uses) :
    Substitution.isName (Placed.text s.name) = true := by
  obtain ⟨piece, -, hs⟩ := List.mem_flatMap.mp h
  exact (Substitution.scanFrom_found inst.effective.escape false piece).isName_of_mem hs

end Instruction

theorem File.inside_of_mem_uses {text : Text} {inst : Instruction}
    (h : inst ∈ (parse text).instructions) {s : Substitution} (hs : s ∈ inst.uses) :
    inst.span.start < s.nameSpan.start ∧ s.nameSpan.stop ≤ inst.span.stop := by
  have hwithin := instruction_within h
  obtain ⟨hne, hplace⟩ := Instruction.infix_of_mem_uses hs
  have hregion : ∀ p ∈ s.name, p ∈ inst.region.chars := fun p hp =>
    inst.effective_region_suffix.mem (hplace.mem hp)
  have hbound : ∀ p ∈ s.name, p.stop ≤ inst.span.stop := by
    intro p hp
    refine Instruction.stop_le_span_stop hwithin (isNamed_of_mem h) (hregion p hp) ?_
    refine Substitution.isBlank_of_isNameChar (Substitution.isNameChar_of_isName
      (Instruction.isName_of_mem_uses hs) _ ?_)
    exact List.mem_map_of_mem hp
  constructor
  · obtain ⟨p, hp, hstart⟩ := Placed.exists_reach hne
    obtain ⟨q, hq, hkeyword⟩ := Instruction.keywordSpan_start (isNamed_of_mem h)
    have hordered := (Text.pairwise_place 0 text).sublist hwithin.chars
    have hbefore := (List.pairwise_append.mp hordered).2.2 q hq p (hregion p hp)
    have hlt := q.offset_lt_stop
    have hname : s.nameSpan.start = p.offset := hstart
    have hspan : inst.span.start = q.offset := hkeyword
    omega
  · obtain ⟨p, hp, hstop⟩ := Placed.exists_reach_stop hne
    exact Nat.le_trans hstop (hbound p hp)

/-! ## The instruction at an offset -/

theorem getLast?_takeWhile_of_separated {α : Type} {f : α → Span} {xs : List α}
    (h : xs.Pairwise fun a b => (f a).stop < (f b).start) (hordered : ∀ x, (f x).start ≤ (f x).stop)
    {x : α} (hx : x ∈ xs) {offset : Nat} (hstart : (f x).start < offset)
    (hstop : offset ≤ (f x).stop) :
    (xs.takeWhile fun a => (f a).start < offset).getLast? = some x := by
  obtain ⟨before, after, rfl⟩ := List.append_of_mem hx
  obtain ⟨-, hafter, hbefore⟩ := List.pairwise_append.mp h
  have hfront : ∀ a ∈ before, decide ((f a).start < offset) = true := by
    intro a ha
    have := hbefore a ha x List.mem_cons_self
    have := hordered a
    exact decide_eq_true (by omega)
  have hrest : after.takeWhile (fun a => (f a).start < offset) = [] := by
    cases after with
    | nil => rfl
    | cons a after =>
        have := (List.pairwise_cons.mp hafter).1 a List.mem_cons_self
        rw [List.takeWhile_cons, if_neg]
        simp only [decide_eq_true_eq]
        omega
  rw [List.takeWhile_append_of_pos hfront, List.takeWhile_cons, if_pos (decide_eq_true hstart), hrest,
    List.getLast?_append, List.getLast?_singleton, Option.some_or]

theorem File.sites_separated (text : Text) :
    (Site.ofInstructions 0 .global (parse text).instructions).Pairwise fun a b =>
      a.instruction.span.stop < b.instruction.span.start := by
  have h := parse_separated text
  rw [← Site.map_instruction 0 .global (parse text).instructions] at h
  exact List.pairwise_map.mp h

/-! ## Declarations by name -/

namespace ScopeTable

theorem filter_firstOfEachName (seen : List Text) (bindings : List Binding) (name : Text) :
    (firstOfEachName seen bindings).filter (fun b => b.name == name) =
      if seen.contains name then [] else (bindings.find? fun b => b.name == name).toList := by
  induction bindings generalizing seen with
  | nil => cases seen.contains name <;> rfl
  | cons b bindings ih =>
      rw [firstOfEachName]
      by_cases hseen : seen.contains b.name = true
      · rw [if_pos hseen, ih]
        by_cases hname : b.name = name
        · rw [← hname, if_pos hseen, if_pos hseen]
        · rw [List.find?_cons_of_neg (by simpa using hname)]
      · rw [if_neg hseen]
        by_cases hname : b.name = name
        · subst hname
          rw [List.filter_cons_of_pos (by simp), ih, if_pos (by simp), if_neg hseen,
            List.find?_cons_of_pos (by simp)]
          rfl
        · have hcontains : (b.name :: seen).contains name = seen.contains name := by
            rw [List.contains_cons, beq_eq_false_iff_ne.mpr fun h => hname h.symm, Bool.false_or]
          rw [List.filter_cons_of_neg (by simpa using hname), ih, hcontains,
            List.find?_cons_of_neg (by simpa using hname)]

theorem nodup_firstOfEachName (seen : List Text) (bindings : List Binding) :
    ((firstOfEachName seen bindings).map Binding.name).Nodup ∧
      ∀ b ∈ firstOfEachName seen bindings, b.name ∉ seen := by
  induction bindings generalizing seen with
  | nil => exact ⟨List.nodup_nil, fun _ h => nomatch h⟩
  | cons b bindings ih =>
      rw [firstOfEachName]
      by_cases hseen : seen.contains b.name = true
      · rw [if_pos hseen]
        exact ih seen
      · rw [if_neg hseen]
        obtain ⟨hnodup, hfresh⟩ := ih (b.name :: seen)
        refine ⟨?_, ?_⟩
        · rw [List.map_cons, List.nodup_cons]
          refine ⟨fun hin => ?_, hnodup⟩
          obtain ⟨other, hother, hname⟩ := List.mem_map.mp hin
          exact hfresh other hother (by rw [hname]; exact List.mem_cons_self)
        · intro other hother
          rcases List.mem_cons.mp hother with rfl | hother
          · simpa using hseen
          · exact fun hin => hfresh other hother (List.mem_cons_of_mem _ hin)

theorem nodup_visibleAt (table : ScopeTable) (offset : Nat) :
    ((table.visibleAt offset).map Binding.name).Nodup := by
  unfold visibleAt
  split
  · exact List.nodup_nil
  · exact (nodup_firstOfEachName [] _).1

end ScopeTable

theorem Binding.bind_latest? (bindings : List Binding) (name : Text) (scope : Scope) (limit : Nat) :
    (latest? bindings name scope limit).bind (fun i => bindings[i]?) =
      bindings.reverse.find? (isSought name scope limit) := by
  rw [latest?_eq, reverse_eq_map_fst bindings, List.find?_map]
  simp only [Function.comp_def]
  cases hfind : bindings.zipIdx.reverse.find? fun b => isSought name scope limit b.1 with
  | none => rfl
  | some found =>
      exact List.mem_zipIdx_iff_getElem?.mp (List.mem_reverse.mp (List.mem_of_find?_eq_some hfind))

/-- The declaration that a name is resolved to, looked for in each scope in turn. -/
theorem Binding.bind_resolve? (bindings : List Binding) (name : Text) (limit : Nat) (scope : Scope)
    (inFrom : Bool) :
    (resolve? bindings name limit scope inFrom).bind (fun i => bindings[i]?) =
      ((if inFrom || scope == .global then [Scope.global] else [scope, .global]).flatMap fun wanted =>
        bindings.reverse.filter fun b => b.scope == wanted && b.instruction < limit).find?
          fun b => b.name == name := by
  have hlatest (wanted : Scope) : (latest? bindings name wanted limit).bind (fun i => bindings[i]?) =
      (bindings.reverse.filter fun b => b.scope == wanted && b.instruction < limit).find?
        fun b => b.name == name := by
    rw [bind_latest?, List.find?_filter]
    congr 1
    funext b
    rw [isSought, Bool.decide_and, Bool.decide_eq_true, Bool.decide_eq_true]
  unfold resolve?
  split
  · rw [hlatest]
    simp
  · simp only [List.flatMap_cons, List.flatMap_nil, List.append_nil, List.find?_append, ← hlatest]
    cases hlocal : latest? bindings name scope limit with
    | none => simp
    | some i =>
        obtain ⟨b, hb, -⟩ := exists_of_latest? hlocal
        simp [hb]

theorem Binding.exists_of_resolve? {bindings : List Binding} {name : Text} {limit index : Nat}
    {scope : Scope} {inFrom : Bool}
    (h : resolve? bindings name limit scope inFrom = some index) :
    ∃ b, bindings[index]? = some b ∧ b.name = name := by
  have hlatest : ∃ wanted, latest? bindings name wanted limit = some index := by
    unfold resolve? at h
    split at h
    · exact ⟨_, h⟩
    · rcases Option.or_eq_some_iff.mp h with h | ⟨-, h⟩
      · exact ⟨_, h⟩
      · exact ⟨_, h⟩
  obtain ⟨wanted, hlatest⟩ := hlatest
  obtain ⟨b, hb, -, hname⟩ := exists_of_latest? hlatest
  exact ⟨b, hb, hname⟩

theorem Binding.isSome_bind_resolve? (bindings : List Binding) (name : Text) (limit : Nat)
    (scope : Scope) (inFrom : Bool) :
    ((resolve? bindings name limit scope inFrom).bind fun i => bindings[i]?).isSome =
      (resolve? bindings name limit scope inFrom).isSome := by
  cases hresolve : resolve? bindings name limit scope inFrom with
  | none => rfl
  | some index =>
      obtain ⟨b, hb, -⟩ := exists_of_resolve? hresolve
      rw [Option.bind_some, hb]
      rfl

/-! ## Agreement -/

namespace ScopeTable

def IsDeferredFrom (table : ScopeTable) (r : VariableReference) : Prop :=
  ∃ site ∈ table.sites[r.instruction]?, ∃ t ∈ site.instruction.trigger?, t.isKind .FROM = true

instance (table : ScopeTable) (r : VariableReference) : Decidable (table.IsDeferredFrom r) :=
  inferInstanceAs (Decidable (∃ site ∈ table.sites[r.instruction]?,
    ∃ t ∈ site.instruction.trigger?, t.isKind .FROM = true))

theorem filter_visibleAt {text : Text} {site : Site}
    (hsite : site ∈ Site.ofInstructions 0 .global (File.parse text).instructions) {offset : Nat}
    (hstart : site.instruction.span.start < offset) (hstop : offset ≤ site.instruction.span.stop)
    (name : Text) :
    ((ofFile (File.parse text)).visibleAt offset).filter (fun b => b.name == name) =
      ((Binding.resolve? (ofFile (File.parse text)).bindings name site.index site.scope
        site.isFrom).bind fun i => (ofFile (File.parse text)).bindings[i]?).toList := by
  have hcurrent := getLast?_takeWhile_of_separated (File.sites_separated text)
    (fun s => s.instruction.span_start_le_stop) hsite hstart hstop
  have hinside : site.instruction.span.contains offset = true := by
    simp only [Span.contains, Bool.and_eq_true, decide_eq_true_eq]
    omega
  have hsites : (ofFile (File.parse text)).sites =
      Site.ofInstructions 0 .global (File.parse text).instructions := rfl
  unfold visibleAt
  rw [hsites, hcurrent]
  simp only [hinside, Bool.true_and, Bool.not_true, Bool.and_false, Bool.or_false]
  rw [filter_firstOfEachName, if_neg (by simp), Binding.bind_resolve?]

/-- At each offset of a reference, of the declarations of its name exactly the one it refers to is
visible, if any. No name is visible twice at any offset. -/
theorem visible_reference (text : Text) (offset : Nat) :
    (((ofFile (File.parse text)).visibleAt offset).map Binding.name).Nodup ∧
      ∀ r ∈ (ofFile (File.parse text)).references, ¬ (ofFile (File.parse text)).IsDeferredFrom r →
        r.span.start ≤ offset → offset ≤ r.span.stop →
          ((ofFile (File.parse text)).visibleAt offset).filter (fun b => b.name == r.name) =
              ((ofFile (File.parse text)).bindingOf? r).toList ∧
            ((ofFile (File.parse text)).bindingOf? r).isSome = r.binding.isSome := by
  refine ⟨nodup_visibleAt _ offset, fun r hr hdeferred hstart hstop => ?_⟩
  rw [ofFile, references_eq] at hr
  obtain ⟨⟨site, s⟩, hu, rfl⟩ := List.mem_map.mp hr
  obtain ⟨hsite, hs⟩ := Site.mem_uses hu
  obtain ⟨hbehind, hwithin⟩ := File.inside_of_mem_uses (Site.instruction_mem hsite) hs
  -- Only an `ONBUILD` is judged by the instruction it defers.
  have hfrom : site.isFrom = site.instruction.effective.isKind .FROM := by
    rcases site.instruction.effective_cases with h | htrigger
    · rw [h]
      rfl
    · rw [Bool.eq_iff_iff]
      constructor
      · intro hfrom
        rw [Instruction.effective_of_kind (eq_of_beq hfrom) (by decide)]
        exact hfrom
      · intro hfrom
        exact absurd ⟨site, Site.getElem?_index hsite, _, htrigger, hfrom⟩ hdeferred
  have hvisible := filter_visibleAt hsite (Nat.lt_of_lt_of_le hbehind hstart)
    (Nat.le_trans hstop hwithin) (Placed.text s.name)
  rw [hfrom] at hvisible
  exact ⟨hvisible, Binding.isSome_bind_resolve? _ _ _ _ _⟩

/-- In a stage its own declaration is visible, also behind the last character of a reference. -/
theorem visible_reference_stage :
    let table := ofFile (File.parse "ARG v=1\nFROM a\nARG v=2\nRUN $v".toList)
    ∃ r ∈ table.references, ¬ table.IsDeferredFrom r ∧ r.span = ⟨28, 29⟩ ∧
      (table.bindingOf? r).map Binding.scope = some (.stage 0) ∧
      (table.visibleAt 29).filter (fun b => b.name == r.name) = (table.bindingOf? r).toList := by
  intro table
  have hplain : ∀ r ∈ table.references, ¬ table.IsDeferredFrom r ∧ r.span = ⟨28, 29⟩ ∧
      (table.bindingOf? r).map Binding.scope = some (.stage 0) := by decide +kernel
  obtain ⟨r, hr⟩ : ∃ r, r ∈ table.references := List.exists_mem_of_length_pos (by decide +kernel)
  obtain ⟨hdeferred, hspan, hscope⟩ := hplain r hr
  refine ⟨r, hr, hdeferred, hspan, hscope, ?_⟩
  exact ((visible_reference _ 29).2 r hr hdeferred (by rw [hspan]; decide) (by rw [hspan])).1

/-- A reference in a deferred `FROM` is looked up in the file only, but what is visible there is
judged by the `ONBUILD`. -/
example :
    let table := ofFile (File.parse "FROM a\nARG v\nONBUILD FROM $v".toList)
    table.references.map (fun r => (r.span, r.binding)) = [(⟨27, 28⟩, none)] ∧
      (table.visibleAt 28).map Binding.name = ["v".toList] := by
  decide +kernel

end ScopeTable

end Dockerfile
