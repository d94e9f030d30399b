import Dockerfile.Proofs.File.Respelled
import Dockerfile.Proofs.Scope.Mentions

/-!
# Instructions with renamed variables

An instruction with other names in its region mentions what it mentioned, under the other names
(`Instruction.Respelled.declared`, `Instruction.Respelled.uses`).
-/

namespace Dockerfile

/-- The property with another name. Its value is the same unless there are names in it. -/
structure Property.Respelled (names : List (List Placed)) (new : Text) (p p' : Property) : Prop where
  isLegacy : p'.isLegacy = p.isLegacy
  name : Dockerfile.Respelled InOnePiece names new p.name.chars p'.name.chars
  value : (∀ v ∈ p.value, ∀ q ∈ v.chars, ¬ Begins names q) →
    p'.value.map Excerpt.text = p.value.map Excerpt.text

section Parts

variable {names : List (List Placed)} {new : Text} {chars out : List Placed}

theorem Respelled.isEmpty_eq (hi : Identifiers names new)
    (h : Respelled InOnePiece names new chars out) : out.isEmpty = chars.isEmpty := by
  cases chars with
  | nil => rw [h.eq_nil]
  | cons p chars =>
      obtain ⟨p', out', rfl, -, -⟩ := h.exists_cons hi
      rfl

namespace Argument.Respelled

variable {arg arg' : Argument}

/-- The name in front of an equals sign and the text behind it, with other names. -/
theorem cut (hi : Identifiers names new) (h : Argument.Respelled names new arg arg') :
    Property.Respelled names new (.ofArgument arg) (.ofArgument arg') ∧
      Dockerfile.Respelled InOnePiece names new (VariableReference.substitutedValue arg)
        (VariableReference.substitutedValue arg') := by
  obtain ⟨hname, hrest⟩ := @Dockerfile.Respelled.span _ _ _ _ (fun c => c != '=') hi
    (fun _ => Substitution.bne_of_isNameChar rfl) h
  have hvalue : Dockerfile.Respelled InOnePiece names new (VariableReference.substitutedValue arg)
      (VariableReference.substitutedValue arg') := by
    rw [Instruction.substitutedValue_eq, Instruction.substitutedValue_eq]
    refine hrest.tail ?_
    intro p hp hbegins
    have hhead := List.head?_dropWhile_not (fun p : Placed => p.char != '=') arg.content.chars
    rw [Option.mem_def.mp hp] at hhead
    have hequals : p.char = '=' := by simpa using hhead
    have hstart := hi.isNameStart_of_begins hbegins
    rw [hequals] at hstart
    exact absurd hstart (by decide)
  refine ⟨⟨rfl, ?_, ?_⟩, hvalue⟩
  · rw [Instruction.name_ofArgument, Instruction.name_ofArgument]
    exact hname
  · intro hkept
    have hchars := Instruction.value_ofArgument arg
    have hchars' := Instruction.value_ofArgument arg'
    rw [hrest.isEmpty_eq hi] at hchars'
    have htext (p : Property) :
        p.value.map Excerpt.text = (p.value.map Excerpt.chars).map Placed.text := by
      rw [Option.map_map]
      rfl
    rw [htext, htext, hchars, hchars']
    split
    · rfl
    · rename_i hequals
      rw [if_neg hequals] at hchars
      obtain ⟨v, hv, hvchars⟩ := Option.map_eq_some_iff.mp hchars
      rw [Option.map_some, Option.map_some, hvalue.text_eq]
      rw [← hvchars]
      exact hkept v hv

theorem contains_equals (hi : Identifiers names new) (h : Argument.Respelled names new arg arg') :
    arg'.text.contains '=' = arg.text.contains '=' := by
  have hcontains (chars : List Placed) : (Placed.text chars).contains '=' =
      !(chars.dropWhile fun p => p.char != '=').isEmpty := by
    induction chars with
    | nil => rfl
    | cons p chars ih =>
        rw [Placed.text_cons, List.contains_cons, List.dropWhile_cons, ih]
        by_cases hp : p.char = '='
        · simp [hp]
        · simp [hp, Ne.symm hp]
  obtain ⟨-, hvalue⟩ := @Dockerfile.Respelled.span _ _ _ _ (fun c => c != '=') hi
    (fun _ => Substitution.bne_of_isNameChar rfl) h
  show (Placed.text arg'.content.chars).contains '=' = (Placed.text arg.content.chars).contains '='
  rw [hcontains, hcontains, hvalue.isEmpty_eq hi]

end Argument.Respelled

end Parts

namespace Instruction.Respelled

variable {names : List (List Placed)} {new : Text} {inst inst' : Instruction}

theorem kind (h : Respelled names new inst inst') : inst'.kind = inst.kind := by
  rw [Instruction.kind, Instruction.kind, h.keyword]

theorem isKind (h : Respelled names new inst inst') (k : Keyword) : inst'.isKind k = inst.isKind k := by
  rw [Instruction.isKind, Instruction.isKind, h.kind]

section Identifiers

variable (hi : Identifiers names new) (he : Substitution.isNameChar inst.escape = false)

include hi he

theorem arguments (h : Respelled names new inst inst') :
    List.Forall₂ (Argument.Respelled names new) inst.arguments inst'.arguments := by
  unfold Instruction.arguments Argument.split
  rw [h.escape]
  exact Argument.splitFrom_respelled he hi h.region _ _ _ _

/-- A value behind a blank is the same unless there are names in it. -/
theorem text_slice_second (h : Respelled names new inst inst') {first second first' second' : Argument}
    {rest rest' : List Argument} (hargs : inst.arguments = first :: second :: rest)
    (hargs' : inst'.arguments = first' :: second' :: rest')
    (hkept : ∀ q ∈ (inst.region.slice second.start inst.region.byteLength).trim.chars,
      ¬ Begins names q) :
    (inst'.region.slice second'.start inst'.region.byteLength).trim.text =
      (inst.region.slice second.start inst.region.byteLength).trim.text := by
  have hs := hi.spellable he
  have hbehind : Dockerfile.Respelled InOnePiece names new
      (Argument.behindFirst inst.escape inst.region.chars)
      (Argument.behindFirst inst.escape inst'.region.chars) := by
    have hword := @Argument.Word.read_respelled _ _ _ _ _ he hi
      (h.region.dropWhile hs fun _ => endsWord_of_isBlank).2 none none rfl (by simp)
    exact (hword.rest.dropWhile hs fun _ => endsWord_of_isBlank).2
  rw [Excerpt.text_trim, Excerpt.text_trim, Excerpt.text, Excerpt.text, chars_slice_second hargs,
    chars_slice_second hargs', h.escape, hbehind.text_eq]
  intro q hq hbegins
  have hblank : isBlank q.char = false :=
    Substitution.isBlank_of_isNameChar
      (Substitution.isNameChar_of_isNameStart (hi.isNameStart_of_begins hbegins))
  rw [← chars_slice_second hargs] at hq
  exact hkept q (Excerpt.mem_trim hq hblank) hbegins

theorem properties (h : Respelled names new inst inst') :
    List.Forall₂ (Property.Respelled names new) inst.properties inst'.properties := by
  have hargs := h.arguments hi he
  have hmap {args args' : List Argument}
      (hargs : List.Forall₂ (Argument.Respelled names new) args args') :
      List.Forall₂ (Property.Respelled names new) (args.map .ofArgument) (args'.map .ofArgument) :=
    forall₂_map hargs fun _ _ harg => (Argument.Respelled.cut hi harg).1
  unfold Instruction.properties
  generalize hall : inst.arguments = args at hargs
  generalize hall' : inst'.arguments = args' at hargs
  cases hargs with
  | nil => exact .nil
  | cons hfirst hrest =>
      cases hrest with
      | nil => exact hmap (.cons hfirst .nil)
      | cons hsecond hrest =>
          simp only [h.isKind, Argument.Respelled.contains_equals hi hfirst]
          split
          · refine .cons ⟨rfl, hfirst, fun hkept => ?_⟩ .nil
            exact congrArg some (h.text_slice_second hi he hall hall' (hkept _ rfl))
          · exact hmap (.cons hfirst (.cons hsecond hrest))

theorem declared (h : Respelled names new inst inst') :
    List.Forall₂ (Property.Respelled names new) inst.declared inst'.declared := by
  have hprops := h.properties hi he
  have hfilter {ps ps' : List Property} (hps : List.Forall₂ (Property.Respelled names new) ps ps') :
      List.Forall₂ (Property.Respelled names new) (ps.filter fun p => !p.name.isEmpty)
        (ps'.filter fun p => !p.name.isEmpty) := by
    refine List.rel_filter ?_ hps
    intro p p' hp
    show (!p.name.isEmpty) = true ↔ (!p'.name.isEmpty) = true
    rw [Excerpt.isEmpty, Excerpt.isEmpty, hp.name.isEmpty_eq hi]
  unfold Instruction.declared
  rw [h.kind]
  split
  · exact hfilter (List.forall₂_take 1 hprops)
  · exact hfilter hprops
  · exact .nil

theorem substituted (h : Respelled names new inst inst') :
    List.Forall₂ (Dockerfile.Respelled InOnePiece names new) (VariableReference.substituted inst)
      (VariableReference.substituted inst') := by
  have hargs := h.arguments hi he
  have hwhole {args args' : List Argument}
      (hargs : List.Forall₂ (Argument.Respelled names new) args args') :
      List.Forall₂ (Dockerfile.Respelled InOnePiece names new)
        (args.map fun arg => arg.content.chars) (args'.map fun arg => arg.content.chars) :=
    forall₂_map hargs fun _ _ harg => harg
  have hblank : VariableReference.declaresBehindBlank inst' =
      VariableReference.declaresBehindBlank inst := by
    unfold VariableReference.declaresBehindBlank
    rw [h.isKind, h.isKind]
    have hprops := h.properties hi he
    generalize inst.properties = ps at hprops
    generalize inst'.properties = ps' at hprops
    cases hprops with
    | nil => rfl
    | cons hp _ =>
        simp only [List.head?_cons, Option.any_some, hp.isLegacy]
  have hdeclares : VariableReference.declares inst' = VariableReference.declares inst := by
    simp only [VariableReference.declares, h.isKind]
  unfold VariableReference.substituted
  rw [hblank, hdeclares]
  split
  · generalize inst.arguments = args at hargs
    generalize inst'.arguments = args' at hargs
    cases hargs with
    | nil => exact .nil
    | cons hfirst hrest => exact .cons (Argument.Respelled.cut hi hfirst).2 (hwhole hrest)
  · split
    · exact forall₂_map hargs fun _ _ harg => (Argument.Respelled.cut hi harg).2
    · exact hwhole hargs

/-- What an `ONBUILD` defers, with other names, if they are not in its keyword. -/
theorem effective (h : Respelled names new inst inst')
    (hkeyword : ∀ t, inst.trigger? = some t → ∀ p ∈ t.keyword.chars, ¬ Begins names p) :
    Respelled names new inst.effective inst'.effective := by
  have hs := hi.spellable he
  have hblanks := (h.region.dropWhile hs fun _ => endsWord_of_isBlank).2
  unfold Instruction.effective
  unfold trigger? at hkeyword ⊢
  rw [h.isKind]
  by_cases hkind : inst.isKind .ONBUILD = true
  · simp only [if_pos hkind] at hkeyword ⊢
    cases hd : inst.region.chars.dropWhile fun p => isBlank p.char with
    | nil =>
        rw [hd] at hblanks
        rw [hblanks.eq_nil]
        exact h
    | cons first rest =>
        rw [hd] at hblanks
        simp only [hd, Option.some.injEq, forall_eq'] at hkeyword
        obtain ⟨first', rest', hd', -, -⟩ := hblanks.exists_cons hi
        obtain ⟨hword, hrest⟩ := hblanks.dropUntil hs (fun _ => endsWord_of_isBlank) hkeyword
        rw [hd'] at hword hrest ⊢
        exact ⟨hword, h.escape, hrest⟩
  · simp only [if_neg hkind]
    exact h

theorem uses (h : Respelled names new inst inst')
    (hkeyword : ∀ t, inst.trigger? = some t → ∀ p ∈ t.keyword.chars, ¬ Begins names p) :
    List.Forall₂ (Substitution.Respelled names new) inst.uses inst'.uses := by
  have heffective := h.effective hi he hkeyword
  have hescape := inst.effective_escape
  unfold Instruction.uses
  rw [heffective.escape, hescape]
  refine List.rel_flatMap (heffective.substituted hi (by rw [hescape]; exact he)) ?_
  exact fun _ _ hpiece => Substitution.scanFrom_respelled he hi hpiece false

end Identifiers

end Instruction.Respelled

end Dockerfile
