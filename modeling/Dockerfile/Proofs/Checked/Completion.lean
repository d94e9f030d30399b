import Dockerfile.Editor.Completion
import Dockerfile.Proofs.Checked.Navigation

/-!
# Completion, access by access

What was typed is cut out of the line in front of the cursor, or out of an argument, whose characters
need not lie side by side. An item replaces as many bytes in front of the cursor as were typed. The
characters of an argument stand in the file at offsets that grow, so there are at least as many bytes
in front of the cursor (`Excerpt.indexAt_le`).
-/

namespace Dockerfile

namespace Excerpt

theorem indexAt_go_le {chars : List Placed} (ordered : chars.Pairwise fun p q => p.stop ≤ q.offset)
    {base : Nat} (hbase : ∀ p ∈ chars, base ≤ p.offset) (offset : Nat) :
    indexAt.go offset chars ≤ offset - base := by
  induction chars generalizing base with
  | nil => exact Nat.zero_le _
  | cons p rest ih =>
      obtain ⟨hfirst, hrest⟩ := List.pairwise_cons.mp ordered
      have hp := hbase p List.mem_cons_self
      have hlater := ih hrest hfirst
      have hstop : p.stop = p.offset + p.size := rfl
      rw [indexAt.go]
      split
      · exact Nat.zero_le _
      split
      · omega
      · omega

/-- An excerpt has no more bytes in front of an offset than the file has there. -/
theorem indexAt_le {text : Text} {e : Excerpt} (h : e.Within text) (offset : Nat) :
    e.indexAt offset ≤ offset :=
  indexAt_go_le ((Text.pairwise_place 0 text).sublist h.chars) (fun _ _ => Nat.zero_le _) offset

theorem byteLength_textBefore_le {text : Text} {e : Excerpt} (h : e.Within text) (offset : Nat) :
    Text.byteLength (e.textBefore offset) ≤ offset :=
  Nat.le_trans (total_takeFit_le _ _ _) (indexAt_le h offset)

end Excerpt

namespace Checked

/-! ## Items -/

def typedSpan (typed : Text) (offset : Nat) : Checked Span := do
  span (← minus offset (Text.byteLength typed)) offset

def directiveItems (a : Analysis) (place : Span) (typed : Text) : Checked (List CompletionItem) := do
  let range ← rangeOf a.text place
  return (Directive.knownNames.filter fun name => (Text.lowercase typed).isPrefixOf name.toList).map
    fun name =>
      { label := name.toList
        kind := .directive
        detail := some "parser directive".toList
        documentation := Documentation.directive? name
        edit := ⟨range, name.toList ++ ['=']⟩ }

/-- The keywords among `allowed` that start with what stands in a span, in any case. -/
def keywordsAt (a : Analysis) (place : Span) (withBlank : Bool) (allowed : Keyword → Bool) :
    Checked (List CompletionItem) := do
  let typed := Text.uppercase (← sliceSpan a.text place)
  let range ← rangeOf a.text place
  return (Keyword.all.filter fun k => allowed k && typed.isPrefixOf k.text).map
    (Completion.keywordItem range withBlank)

def keywordItems (a : Analysis) (place : Span) (withBlank : Bool) :
    Checked (List CompletionItem) :=
  let isLeading := match a.file.instructions.find? fun inst => inst.isKind .FROM with
    | some first => place.start ≤ first.keywordSpan.start
    | none => true
  keywordsAt a place withBlank fun k => !isLeading || k == .FROM || k == .ARG

def triggerItems (a : Analysis) (place : Span) : Checked (List CompletionItem) :=
  keywordsAt a place true fun k => !(k == .FROM || k == .MAINTAINER || k == .ONBUILD)

def wordItems (a : Analysis) (words : List String) (place : Span) :
    Checked (List CompletionItem) := do
  let typed := Text.uppercase (← sliceSpan a.text place)
  let range ← rangeOf a.text place
  return (words.filter fun word => typed.isPrefixOf word.toList).map fun word =>
    { label := word.toList, kind := .keyword, edit := ⟨range, word.toList ++ [' ']⟩ }

/-- The variables that start with what stands in a span: those visible, then those always defined. -/
def variableItems (a : Analysis) (offset : Nat) (place : Span) (closeBrace : Bool) :
    Checked (List CompletionItem) := do
  let typed ← sliceSpan a.text place
  let range ← rangeOf a.text place
  let finish := fun (name : Text) => if closeBrace then name ++ ['\x7d'] else name
  let visible ← visibleAt a.scopes offset
  let declared := (visible.filter fun b => typed.isPrefixOf b.name).map fun b =>
    { label := b.name, kind := .var, detail := b.value, edit := ⟨range, finish b.name⟩ }
  let predefined := (Documentation.predefinedArguments.map String.toList).filter fun name =>
    typed.isPrefixOf name && !visible.any fun b => b.name == name
  return declared ++ predefined.map fun name =>
    { label := name
      kind := .predefined
      detail := some "predefined build argument".toList
      sortText := some ('~' :: name)
      edit := ⟨range, finish name⟩ }

def stageItems (a : Analysis) (current : Option Nat) (typed : Text) (place : Span) :
    Checked (List CompletionItem) := do
  let range ← rangeOf a.text place
  let others := a.scopes.stages.filter fun stage => some stage.index != current
  return others.filterMap fun stage =>
    match stage.name with
    | none => none
    | some name =>
        if typed.isPrefixOf name.text then
          let image := (stage.image.map Excerpt.text).getD []
          some
            { label := name.text
              kind := .stage
              detail := some ("stage ".toList ++ (toString stage.index).toList ++ " (".toList ++
                image ++ ")".toList)
              edit := ⟨range, name.text⟩ }
        else none

def flagItems (a : Analysis) (index : Nat) (inst : Instruction) (typed : Text) (place : Span) :
    Checked (List CompletionItem) := do
  let source := "--from=".toList
  if inst.isKind .COPY && source.isPrefixOf typed then
    let current := match a.scopes.scopeOf index with
      | .stage stage => some stage
      | .global => none
    let value := typed.drop source.length
    stageItems a current value (← typedSpan value place.stop)
  else if typed.contains '=' then return []
  else
    match inst.kind with
    | none => return []
    | some k =>
        let spec := FlagSpec.ofKeyword k
        let present := ((← flags inst).filter fun f => !f.span.contains place.stop).map
          fun f => f.name.text
        let range ← rangeOf a.text place
        let missing := spec.names.filter fun name => !present.contains name.toList
        return (missing.filter fun name => typed.isPrefixOf ('-' :: '-' :: name.toList)).map
          fun name =>
            let label := '-' :: '-' :: name.toList
            { label
              kind := .flag
              documentation := Documentation.flag? k name
              edit := ⟨range, if spec.isSwitch name.toList then label else label ++ ['=']⟩ }

theorem typedSpan_eq {typed : Text} {offset : Nat} (h : Text.byteLength typed ≤ offset) :
    typedSpan typed offset = .ok (Completion.typedSpan typed offset) := by
  rw [typedSpan, minus_eq h, ok_bind]
  exact span_eq (Nat.sub_le _ _)

@[simp] theorem directiveItems_eq (a : Analysis) (offset : Nat) (typed : Text) :
    directiveItems a (Completion.typedSpan typed offset) typed =
      .ok (Completion.directiveItems a offset typed) := by
  rw [directiveItems, rangeOf_eq]
  rfl

@[simp] theorem keywordsAt_eq (a : Analysis) (place : Span) (withBlank : Bool)
    (allowed : Keyword → Bool) :
    keywordsAt a place withBlank allowed =
      .ok (Completion.keywordsAt a place withBlank allowed) := by
  rw [keywordsAt, sliceSpan_eq, ok_bind, rangeOf_eq]
  rfl

@[simp] theorem keywordItems_eq (a : Analysis) (place : Span) (withBlank : Bool) :
    keywordItems a place withBlank = .ok (Completion.keywordItems a place withBlank) :=
  keywordsAt_eq a place withBlank _

@[simp] theorem triggerItems_eq (a : Analysis) (place : Span) :
    triggerItems a place = .ok (Completion.triggerItems a place) :=
  keywordsAt_eq a place true _

@[simp] theorem wordItems_eq (a : Analysis) (words : List String) (place : Span) :
    wordItems a words place = .ok (Completion.wordItems a words place) := by
  rw [wordItems, sliceSpan_eq, ok_bind, rangeOf_eq]
  rfl

theorem variableItems_eq {a : Analysis} {offset : Nat} {typed : Text}
    (h : Text.slice a.text (Completion.typedSpan typed offset) = typed) (closeBrace : Bool) :
    variableItems a offset (Completion.typedSpan typed offset) closeBrace =
      .ok (Completion.variableItems a offset typed closeBrace) := by
  rw [variableItems, sliceSpan_eq, h, ok_bind, rangeOf_eq, ok_bind, visibleAt_eq]
  rfl

@[simp] theorem stageItems_eq (a : Analysis) (current : Option Nat) (offset : Nat) (typed : Text) :
    stageItems a current typed (Completion.typedSpan typed offset) =
      .ok (Completion.stageItems a current offset typed) := by
  rw [stageItems, rangeOf_eq]
  rfl

theorem flagItems_eq (a : Analysis) (index : Nat) (inst : Instruction) {offset : Nat} {typed : Text}
    (h : Text.byteLength typed ≤ offset) :
    flagItems a index inst typed (Completion.typedSpan typed offset) =
      .ok (Completion.flagItems a index inst offset typed) := by
  have hvalue (n : Nat) : Text.byteLength (typed.drop n) ≤ offset :=
    Nat.le_trans (Text.byteLength_le_of_suffix (List.drop_suffix n typed)) h
  have hstop : (Completion.typedSpan typed offset).stop = offset := rfl
  simp only [flagItems, Completion.flagItems, hstop, typedSpan_eq (hvalue _), stageItems_eq, flags_eq,
    rangeOf_eq, ok_bind, pure_eq]
  split
  · rfl
  split
  · rfl
  · cases inst.kind <;> rfl

/-! ## Plans -/

def splitLastColon? (text : Text) : Checked (Option (Text × Text)) := do
  if text.contains ':' then
    let colon := Text.byteLength (text.reverse.dropWhile fun c => c != ':').tail.reverse
    return some (← sliceTo text colon, ← sliceFrom text (colon + 1))
  else return none

def imagePlan (a : Analysis) (index offset : Nat) (typed : Text) (place : Span) :
    Checked CompletionPlan := do
  match ← splitLastColon? typed with
  | some (repository, tag) =>
      if repository.isEmpty || repository.contains '$' then return {}
      else
        return { query := some ⟨repository, tag, ← rangeOf a.text (← typedSpan tag offset)⟩ }
  | none =>
      let current := (a.scopes.stages.find? fun s => s.instruction == index).map Stage.index
      return { items := ← stageItems a current typed place }

/-- Which of the arguments behind the flags the cursor is in, or would begin. -/
def positionalIndex (inst : Instruction) (offset : Nat) : Checked Nat := do
  let positional ← positional inst
  match positional.findIdx? fun arg => arg.span.contains offset with
  | some i => return i
  | none => return positional.countP fun arg => arg.span.stop < offset

def typedPlan (a : Analysis) (index : Nat) (inst : Instruction) (offset : Nat) (typed : Text)
    (isLeading : Bool) : Checked CompletionPlan := do
  let place ← typedSpan typed offset
  if inst.bearsFlags && typed.head? == some '-' && isLeading then
    return { items := ← flagItems a index inst typed place }
  else
    match inst.kind, ← positionalIndex inst offset with
    | some .FROM, 0 => imagePlan a index offset typed place
    | some .FROM, 1 => return { items := ← wordItems a ["AS"] place }
    | some .HEALTHCHECK, 0 => return { items := ← wordItems a ["CMD", "NONE"] place }
    | some .ONBUILD, 0 => return { items := ← triggerItems a place }
    | _, _ => return {}

def argumentPlan (a : Analysis) (index : Nat) (inst : Instruction) (offset : Nat) :
    Checked CompletionPlan := do
  let leadingFlags := (inst.arguments.takeWhile Flag.isFlag).length
  match inst.arguments.zipIdx.find? fun arg => arg.1.span.contains offset with
  | some (arg, i) =>
      typedPlan a index inst offset (← textBefore arg.content offset) (i ≤ leadingFlags)
  | none => typedPlan a index inst offset [] true

def instructionPlan (a : Analysis) (offset : Nat) (before : Text) : Checked CompletionPlan := do
  match ← instructionAround? a.file offset with
  | none =>
      let word := Text.trimBlanksStart before
      if word.all Char.isAlpha then
        return { items := ← keywordItems a (← typedSpan word offset) true }
      else return {}
  | some (index, inst) =>
      if offset ≤ inst.keywordSpan.stop then
        return { items := ← keywordItems a (← span inst.keywordSpan.start offset) false }
      else
        match Completion.substitutionTyped? before with
        | some (braced, name) =>
            let place ← typedSpan name offset
            let closes := (← sliceFrom a.text offset).head? == some '\x7d'
            return { items := ← variableItems a offset place (braced && !closes) }
        | none => argumentPlan a index inst offset

def mayBeDirective (a : Analysis) (number : Nat) : Checked Bool := do
  let lines ← (a.file.directives.take number).mapM fun d => lineOf a.text d.span.start
  return number ≤ a.file.directives.length && lines.zipIdx.all fun line => line.1 == line.2

def completion (a : Analysis) (position : Position) : Checked CompletionPlan := do
  let offset ← offsetAt a.text position
  let number ← lineOf a.text offset
  let before ← slice a.text (Text.lineStart a.text number) offset
  let directive := if ← mayBeDirective a number then Completion.directiveTyped? before else none
  match directive with
  | some typed => return { items := ← directiveItems a (← typedSpan typed offset) typed }
  | none => instructionPlan a offset before

theorem splitLastColon?_eq (text : Text) :
    splitLastColon? text = .ok (Completion.splitLastColon? text) := by
  unfold splitLastColon? Completion.splitLastColon?
  split
  · rename_i hcolon
    have happend := @List.takeWhile_append_dropWhile _ (fun c => c != ':') text.reverse
    have hhead := List.head?_dropWhile_not (fun c => c != ':') text.reverse
    cases hbefore : text.reverse.dropWhile fun c => c != ':' with
    | nil =>
        rw [hbefore, List.append_nil] at happend
        have hmem : ':' ∈ text.reverse.takeWhile fun c => c != ':' := by
          rw [happend]
          exact List.mem_reverse.mpr (List.contains_iff_mem.mp hcolon)
        exact absurd (List.mem_takeWhile_imp hmem) (by decide)
    | cons c before =>
        rw [hbefore] at happend hhead
        obtain rfl : c = ':' := by simpa using hhead
        generalize text.reverse.takeWhile (fun c => c != ':') = after at happend
        have hsplit : text = before.reverse ++ ':' :: after.reverse := by
          rw [← List.reverse_reverse text, ← happend]
          simp
        have htag : sliceFrom text (Text.byteLength before.reverse + 1) = .ok after.reverse :=
          sliceFrom_eq (a := before.reverse ++ [':']) (by rw [hsplit]; simp)
            (by rw [Text.byteLength_append]; rfl)
        have htake : text.take (text.length - after.reverse.length - 1) = before.reverse := by
          have hlen : text.length - after.reverse.length - 1 = before.reverse.length := by
            rw [hsplit, List.length_append, List.length_cons]
            omega
          rw [hlen, hsplit, List.take_left]
        simp only [List.tail_cons, sliceTo_eq hsplit rfl, htag, htake, ok_bind, pure_eq]
  · rfl

theorem suffix_of_splitLastColon? {text repository tag : Text}
    (h : Completion.splitLastColon? text = some (repository, tag)) : tag <:+ text := by
  unfold Completion.splitLastColon? at h
  split at h
  · cases h
    have := List.reverse_suffix.mpr (List.takeWhile_prefix (fun c => c != ':') (l := text.reverse))
    rwa [List.reverse_reverse] at this
  · cases h

theorem imagePlan_eq (a : Analysis) (index : Nat) {offset : Nat} {typed : Text}
    (h : Text.byteLength typed ≤ offset) :
    imagePlan a index offset typed (Completion.typedSpan typed offset) =
      .ok (Completion.imagePlan a index offset typed) := by
  rw [imagePlan, splitLastColon?_eq, ok_bind, Completion.imagePlan]
  cases hsplit : Completion.splitLastColon? typed with
  | none => simp only [stageItems_eq, ok_bind, pure_eq]
  | some parts =>
      have htag : Text.byteLength parts.2 ≤ offset :=
        Nat.le_trans (Text.byteLength_le_of_suffix (suffix_of_splitLastColon? hsplit)) h
      simp only [typedSpan_eq htag, rangeOf_eq, ok_bind, pure_eq]
      split <;> rfl

@[simp] theorem positionalIndex_eq (inst : Instruction) (offset : Nat) :
    positionalIndex inst offset = .ok (Completion.positionalIndex inst offset) := by
  rw [positionalIndex, positional_eq, ok_bind, Completion.positionalIndex]
  cases inst.positional.findIdx? fun arg => arg.span.contains offset <;> rfl

theorem typedPlan_eq (a : Analysis) (index : Nat) (inst : Instruction) {offset : Nat} {typed : Text}
    (h : Text.byteLength typed ≤ offset) (isLeading : Bool) :
    typedPlan a index inst offset typed isLeading =
      .ok (if inst.bearsFlags && typed.head? == some '-' && isLeading then
          { items := Completion.flagItems a index inst offset typed }
        else
          match inst.kind, Completion.positionalIndex inst offset with
          | some .FROM, 0 => Completion.imagePlan a index offset typed
          | some .FROM, 1 =>
              { items := Completion.wordItems a ["AS"] (Completion.typedSpan typed offset) }
          | some .HEALTHCHECK, 0 =>
              { items := Completion.wordItems a ["CMD", "NONE"] (Completion.typedSpan typed offset) }
          | some .ONBUILD, 0 =>
              { items := Completion.triggerItems a (Completion.typedSpan typed offset) }
          | _, _ => {}) := by
  simp only [typedPlan, typedSpan_eq h, flagItems_eq a index inst h, imagePlan_eq a index h,
    positionalIndex_eq, wordItems_eq, triggerItems_eq, ok_bind, pure_eq]
  split
  · rfl
  · split <;> rfl

theorem argumentPlan_eq {a : Analysis} (index : Nat) {inst : Instruction} (h : inst.Within a.text)
    (offset : Nat) :
    argumentPlan a index inst offset = .ok (Completion.argumentPlan a index inst offset) := by
  unfold argumentPlan Completion.argumentPlan
  dsimp only
  cases hfound : inst.arguments.zipIdx.find? fun arg => arg.1.span.contains offset with
  | none => exact typedPlan_eq a index inst (Nat.zero_le offset) true
  | some found =>
      have hmem := List.mem_zipIdx' (List.mem_of_find?_eq_some hfound)
      have hargument : found.1.content.Within a.text :=
        h.argument (hmem.2 ▸ List.getElem_mem hmem.1)
      dsimp only
      rw [textBefore_eq, ok_bind]
      exact typedPlan_eq a index inst (Excerpt.byteLength_textBefore_le hargument offset) _

/-- The letters behind the last dollar sign of a text are at its end. -/
theorem suffix_of_substitutionTyped? {before name : Text} {braced : Bool}
    (h : Completion.substitutionTyped? before = some (braced, name)) : name <:+ before := by
  unfold Completion.substitutionTyped? at h
  have hafter := List.reverse_suffix.mpr
    (List.takeWhile_prefix (fun c => c != '$') (l := before.reverse))
  rw [List.reverse_reverse] at hafter
  dsimp only at h
  generalize (before.reverse.takeWhile fun c => c != '$').reverse = after at h hafter
  generalize hletters : (if after.head? == some '\x7b' then after.tail else after) = letters at h
  have hsuffix : letters <:+ after := by
    rw [← hletters]
    split
    · exact List.tail_suffix after
    · exact List.suffix_refl after
  split at h
  · split at h
    · cases h
      exact hsuffix.trans hafter
    · cases h
  · cases h

theorem suffix_of_directiveTyped? {before typed : Text}
    (h : Completion.directiveTyped? before = some typed) : typed <:+ before := by
  unfold Completion.directiveTyped? at h
  split at h
  · rename_i rest hrest
    dsimp only at h
    split at h
    · cases h
      have htail : rest <:+ Text.trimBlanksStart before := hrest ▸ List.suffix_cons _ _
      exact (List.dropWhile_suffix _).trans (htail.trans (List.dropWhile_suffix _))
    · cases h
  · cases h

theorem instructionPlan_eq {a : Analysis}
    (hwithin : ∀ inst ∈ a.file.instructions, inst.Within a.text) {front before rest : Text}
    {offset : Nat} (htext : a.text = front ++ (before ++ rest))
    (hoffset : offset = Text.byteLength front + Text.byteLength before) :
    instructionPlan a offset before = .ok (Completion.instructionPlan a offset before) := by
  have hlen {typed : Text} (h : typed <:+ before) : Text.byteLength typed ≤ offset :=
    Nat.le_trans (Text.byteLength_le_of_suffix h) (hoffset ▸ Nat.le_add_left _ _)
  have hsplit : a.text = (front ++ before) ++ rest := by rw [htext, List.append_assoc]
  have hcut : Text.byteLength (front ++ before) = offset := by
    rw [Text.byteLength_append, hoffset]
  unfold instructionPlan Completion.instructionPlan
  rw [instructionAround?_eq, ok_bind]
  cases hfound : a.file.instructionAround? offset with
  | none =>
      have hword : Text.trimBlanksStart before <:+ before := List.dropWhile_suffix _
      simp only [typedSpan_eq (hlen hword), keywordItems_eq, ok_bind, pure_eq]
      split <;> rfl
  | some found =>
      obtain ⟨hmem, htouched⟩ := mem_of_instructionAround? hfound
      have hstart : found.2.keywordSpan.start ≤ offset := by
        simp only [Span.contains, Bool.and_eq_true, decide_eq_true_eq] at htouched
        exact htouched.1
      obtain ⟨index, inst⟩ := found
      simp only [span_eq hstart, keywordItems_eq, ok_bind, pure_eq]
      split
      · rfl
      cases htyped : Completion.substitutionTyped? before with
      | none => exact argumentPlan_eq index (hwithin _ hmem) offset
      | some found =>
          obtain ⟨braced, name⟩ := found
          have hname := suffix_of_substitutionTyped? htyped
          obtain ⟨lead, rfl⟩ := hname
          have hslice : Text.slice a.text (Completion.typedSpan name offset) = name := by
            have hplace : Completion.typedSpan name offset = ⟨Text.byteLength (front ++ lead),
                Text.byteLength (front ++ lead) + Text.byteLength name⟩ := by
              rw [Completion.typedSpan, hoffset, Text.byteLength_append, Text.byteLength_append,
                ← Nat.add_assoc, Nat.add_sub_cancel]
            rw [hplace, htext, List.append_assoc, ← List.append_assoc front]
            exact Text.slice_append _ _ _
          have hbehind : sliceFrom a.text offset = .ok (Text.dropBytes offset a.text) :=
            sliceFrom_boundary (Text.isBoundary_iff.mpr ⟨_, rest, hsplit, hcut⟩)
          simp only [typedSpan_eq (hlen ⟨lead, rfl⟩), hbehind, variableItems_eq hslice, ok_bind]

theorem mayBeDirective_eq (a : Analysis) (number : Nat) :
    mayBeDirective a number = .ok (Completion.mayBeDirective a number) := by
  rw [mayBeDirective, mapM_eq fun (d : Directive) _ => lineOf_eq a.text d.span.start, ok_bind,
    List.zipIdx_map, List.all_map]
  rfl

theorem completion_eq {a : Analysis} (hwithin : ∀ inst ∈ a.file.instructions, inst.Within a.text)
    (position : Position) : completion a position = .ok (a.completion position) := by
  rw [completion, offsetAt_eq, ok_bind, lineOf_eq, ok_bind, Analysis.completion]
  dsimp only
  have hboundary := isBoundary_offsetAt a.text position
  generalize Text.offsetAt a.text position = offset at hboundary
  obtain ⟨front, before, rest, htext, hstart, hoffset⟩ := exists_before hboundary
  have hcut : slice a.text (Text.lineStart a.text (Text.lineOf a.text offset)) offset = .ok before :=
    slice_eq htext hstart hoffset
  have hbefore : Text.slice a.text ⟨Text.lineStart a.text (Text.lineOf a.text offset), offset⟩ =
      before := by
    rw [hstart, hoffset]
    exact (congrArg (fun text => Text.slice text _) htext).trans (Text.slice_append _ _ _)
  rw [hcut, ok_bind, mayBeDirective_eq, ok_bind, hbefore]
  have htyped : ∀ typed ∈ (if Completion.mayBeDirective a (Text.lineOf a.text offset) then
      Completion.directiveTyped? before else none), Text.byteLength typed ≤ offset := by
    intro typed h
    split at h
    · have hsuffix := Text.byteLength_le_of_suffix (suffix_of_directiveTyped? h)
      omega
    · cases h
  generalize (if Completion.mayBeDirective a (Text.lineOf a.text offset) then
    Completion.directiveTyped? before else none) = directive at htyped
  cases directive with
  | none => exact instructionPlan_eq hwithin htext hoffset
  | some typed => simp only [typedSpan_eq (htyped typed rfl), directiveItems_eq, ok_bind, pure_eq]

end Checked

end Dockerfile
