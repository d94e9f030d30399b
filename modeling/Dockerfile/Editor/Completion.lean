import Dockerfile.Editor.Documentation
import Dockerfile.Editor.Edit

/-!
# Completion

What an editor offers at the cursor: directives, keywords, variables, flags, stages and the words
that belong to an instruction. Tags of images are not known here: in their place stands a query,
which whoever knows the registry answers.
-/

namespace Dockerfile

inductive CompletionKind where
  | directive
  | keyword
  | var
  | predefined
  | flag
  | stage
  | tag
  deriving DecidableEq, Repr

structure CompletionItem where
  label : Text
  kind : CompletionKind
  detail : Option Text := none
  documentation : Option String := none
  /-- The key by which the editor sorts, if not the label. -/
  sortText : Option Text := none
  edit : TextEdit
  deriving DecidableEq, Repr

structure ImageQuery where
  repository : Text
  /-- The part of the tag in front of the cursor. -/
  typed : Text
  /-- What the tag replaces. -/
  range : Range
  deriving DecidableEq, Repr

/-- What is offered at once, and the question that may add to it. -/
structure CompletionPlan where
  items : List CompletionItem := []
  query : Option ImageQuery := none
  deriving DecidableEq, Repr

namespace ImageQuery

/-- What the tags have to start with; nothing right behind the colon. -/
def asked (q : ImageQuery) : Option Text :=
  if q.typed.isEmpty then none else some q.typed

def fourDigits (n : Nat) : Text :=
  let digits := (toString n).toList
  List.replicate (4 - digits.length) '0' ++ digits

/-- The items for the tags that answer the question, kept in their order. -/
def items (q : ImageQuery) (tags : List Text) : List CompletionItem :=
  tags.zipIdx.map fun t =>
    { label := t.1
      kind := .tag
      detail := some (q.repository ++ ':' :: t.1)
      sortText := some (fourDigits t.2)
      edit := ⟨q.range, t.1⟩ }

end ImageQuery

namespace Completion

/-- The letters typed behind the mark of a comment, if nothing else is. -/
def directiveTyped? (before : Text) : Option Text :=
  match Text.trimBlanksStart before with
  | '#' :: rest =>
      let typed := Text.trimBlanksStart rest
      if typed.all Char.isAlpha then some typed else none
  | _ => none

def mayBeDirective (a : Analysis) (number : Nat) : Bool :=
  number ≤ a.file.directives.length &&
    (a.file.directives.take number).zipIdx.all fun d => Text.lineOf a.text d.1.span.start == d.2

def typedSpan (typed : Text) (offset : Nat) : Span :=
  ⟨offset - Text.byteLength typed, offset⟩

def directiveItems (a : Analysis) (offset : Nat) (typed : Text) : List CompletionItem :=
  let range := Text.rangeOf a.text (typedSpan typed offset)
  (Directive.knownNames.filter fun name => (Text.lowercase typed).isPrefixOf name.toList).map
    fun name =>
      { label := name.toList
        kind := .directive
        detail := some "parser directive".toList
        documentation := Documentation.directive? name
        edit := ⟨range, name.toList ++ ['=']⟩ }

/-- The item of a keyword, with a blank behind it if it begins a line. -/
def keywordItem (range : Range) (withBlank : Bool) (k : Keyword) : CompletionItem where
  label := k.text
  kind := .keyword
  documentation := some (Documentation.keyword k)
  edit := ⟨range, k.text ++ if withBlank then [' '] else []⟩

/-- The keywords among `allowed` that start with what stands in a span, in any case. -/
def keywordsAt (a : Analysis) (span : Span) (withBlank : Bool) (allowed : Keyword → Bool) :
    List CompletionItem :=
  let typed := Text.uppercase (Text.slice a.text span)
  let range := Text.rangeOf a.text span
  (Keyword.all.filter fun k => allowed k && typed.isPrefixOf k.text).map
    (keywordItem range withBlank)

def keywordItems (a : Analysis) (span : Span) (withBlank : Bool) : List CompletionItem :=
  let isLeading := match a.file.instructions.find? fun inst => inst.isKind .FROM with
    | some first => span.start ≤ first.keywordSpan.start
    | none => true
  keywordsAt a span withBlank fun k => !isLeading || k == .FROM || k == .ARG

def triggerItems (a : Analysis) (span : Span) : List CompletionItem :=
  keywordsAt a span true fun k => !(k == .FROM || k == .MAINTAINER || k == .ONBUILD)

def wordItems (a : Analysis) (words : List String) (span : Span) : List CompletionItem :=
  let typed := Text.uppercase (Text.slice a.text span)
  let range := Text.rangeOf a.text span
  (words.filter fun word => typed.isPrefixOf word.toList).map fun word =>
    { label := word.toList, kind := .keyword, edit := ⟨range, word.toList ++ [' ']⟩ }

/-- The beginning of a substitution at the end of a text: whether it has a brace, and the letters of
its name. -/
def substitutionTyped? (before : Text) : Option (Bool × Text) :=
  if before.contains '$' then
    let after := (before.reverse.takeWhile fun c => c != '$').reverse
    let braced := after.head? == some '\x7b'
    let name := if braced then after.tail else after
    if name.all Substitution.isNameChar then some (braced, name) else none
  else none

/-- The variables that start with what was typed: those visible, then those always defined. -/
def variableItems (a : Analysis) (offset : Nat) (typed : Text) (closeBrace : Bool) :
    List CompletionItem :=
  let range := Text.rangeOf a.text (typedSpan typed offset)
  let finish := fun (name : Text) => if closeBrace then name ++ ['\x7d'] else name
  let visible := a.scopes.visibleAt offset
  let declared := (visible.filter fun b => typed.isPrefixOf b.name).map fun b =>
    { label := b.name, kind := .var, detail := b.value, edit := ⟨range, finish b.name⟩ }
  let predefined := (Documentation.predefinedArguments.map String.toList).filter fun name =>
    typed.isPrefixOf name && !visible.any fun b => b.name == name
  declared ++ predefined.map fun name =>
    { label := name
      kind := .predefined
      detail := some "predefined build argument".toList
      sortText := some ('~' :: name)
      edit := ⟨range, finish name⟩ }

def stageItems (a : Analysis) (current : Option Nat) (offset : Nat) (typed : Text) :
    List CompletionItem :=
  let range := Text.rangeOf a.text (typedSpan typed offset)
  let others := a.scopes.stages.filter fun stage => some stage.index != current
  others.filterMap fun stage =>
    match stage.name with
    | none => none
    | some name =>
        if typed.isPrefixOf name.text then
          let image := (stage.image.map Excerpt.text).getD []
          some
            { label := name.text
              kind := .stage
              detail := some ("stage ".toList ++ (toString stage.index).toList ++ " (".toList ++
                image ++ ")".toList)
              edit := ⟨range, name.text⟩ }
        else none

/-- The flags of an instruction that start with what was typed and are not there yet, or the stages
to copy from. -/
def flagItems (a : Analysis) (index : Nat) (inst : Instruction) (offset : Nat) (typed : Text) :
    List CompletionItem :=
  let source := "--from=".toList
  if inst.isKind .COPY && source.isPrefixOf typed then
    let current := match a.scopes.scopeOf index with
      | .stage stage => some stage
      | .global => none
    stageItems a current offset (typed.drop source.length)
  else if typed.contains '=' then []
  else
    match inst.kind with
    | none => []
    | some k =>
        let spec := FlagSpec.ofKeyword k
        let present := (inst.flags.filter fun f => !f.span.contains offset).map fun f => f.name.text
        let range := Text.rangeOf a.text (typedSpan typed offset)
        let missing := spec.names.filter fun name => !present.contains name.toList
        (missing.filter fun name => typed.isPrefixOf ('-' :: '-' :: name.toList)).map fun name =>
          let label := '-' :: '-' :: name.toList
          { label
            kind := .flag
            documentation := Documentation.flag? k name
            edit := ⟨range, if spec.isSwitch name.toList then label else label ++ ['=']⟩ }

def splitLastColon? (text : Text) : Option (Text × Text) :=
  if text.contains ':' then
    let after := (text.reverse.takeWhile fun c => c != ':').reverse
    some (text.take (text.length - after.length - 1), after)
  else none

def imagePlan (a : Analysis) (index offset : Nat) (typed : Text) : CompletionPlan :=
  match splitLastColon? typed with
  | some (repository, tag) =>
      if repository.isEmpty || repository.contains '$' then {}
      else
        { query := some ⟨repository, tag, Text.rangeOf a.text (typedSpan tag offset)⟩ }
  | none =>
      let current := (a.scopes.stages.find? fun s => s.instruction == index).map Stage.index
      { items := stageItems a current offset typed }

/-- Which of the arguments behind the flags the cursor is in, or would begin. -/
def positionalIndex (inst : Instruction) (offset : Nat) : Nat :=
  let positional := inst.positional
  match positional.findIdx? fun arg => arg.span.contains offset with
  | some i => i
  | none => positional.countP fun arg => arg.span.stop < offset

def argumentPlan (a : Analysis) (index : Nat) (inst : Instruction) (offset : Nat) :
    CompletionPlan :=
  let argument := inst.arguments.zipIdx.find? fun arg => arg.1.span.contains offset
  let typed := match argument with
    | some (arg, _) => arg.content.textBefore offset
    | none => []
  let leadingFlags := (inst.arguments.takeWhile Flag.isFlag).length
  let mayBeFlag := inst.bearsFlags && typed.head? == some '-' &&
    (match argument with
      | some (_, i) => i ≤ leadingFlags
      | none => true)
  if mayBeFlag then { items := flagItems a index inst offset typed }
  else
    match inst.kind, positionalIndex inst offset with
    | some .FROM, 0 => imagePlan a index offset typed
    | some .FROM, 1 => { items := wordItems a ["AS"] (typedSpan typed offset) }
    | some .HEALTHCHECK, 0 => { items := wordItems a ["CMD", "NONE"] (typedSpan typed offset) }
    | some .ONBUILD, 0 => { items := triggerItems a (typedSpan typed offset) }
    | _, _ => {}

def instructionPlan (a : Analysis) (offset : Nat) (before : Text) : CompletionPlan :=
  match a.file.instructionAround? offset with
  | none =>
      let word := Text.trimBlanksStart before
      if word.all Char.isAlpha then { items := keywordItems a (typedSpan word offset) true }
      else {}
  | some (index, inst) =>
      if offset ≤ inst.keywordSpan.stop then
        { items := keywordItems a ⟨inst.keywordSpan.start, offset⟩ false }
      else
        match substitutionTyped? before with
        | some (braced, name) =>
            let closes := (Text.dropBytes offset a.text).head? == some '\x7d'
            { items := variableItems a offset name (braced && !closes) }
        | none => argumentPlan a index inst offset

end Completion

namespace Analysis

def completion (a : Analysis) (position : Position) : CompletionPlan :=
  let offset := Text.offsetAt a.text position
  let number := Text.lineOf a.text offset
  let before := Text.slice a.text ⟨Text.lineStart a.text number, offset⟩
  let directive := if Completion.mayBeDirective a number then Completion.directiveTyped? before
    else none
  match directive with
  | some typed => { items := Completion.directiveItems a offset typed }
  | none => Completion.instructionPlan a offset before

end Analysis

end Dockerfile
