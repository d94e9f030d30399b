import Dockerfile.Scope.Basic

/-!
# Computing the tables of a file

Each table is one pass over the instructions. References are resolved against all declarations, of
which only those of earlier instructions count.
-/

namespace Dockerfile

namespace Stage

def isNamed (name : Text) (stage : Stage) : Bool :=
  stage.name.any fun own => Text.sameIgnoringCase own.text name

def declaredName? (inst : Instruction) : Option Excerpt :=
  match inst.positional with
  | _ :: as :: name :: _ => if Text.sameIgnoringCase as.text "as".toList then some name.content else none
  | _ => none

/-- The stage that a `FROM` opens, and that goes on over the instructions `following` it. -/
def ofSite (site : Site) (following : List Site) : Stage where
  index := site.scope.stageIndex
  image := site.instruction.positional.head?.map Argument.content
  name := declaredName? site.instruction
  instruction := site.index
  span := following.foldl (fun span s => span.cover s.instruction.span) site.instruction.span

def ofSites : List Site → List Stage
  | [] => []
  | site :: rest =>
      if site.isFrom then ofSite site (rest.takeWhile fun s => !s.isFrom) :: ofSites rest
      else ofSites rest

end Stage

namespace Binding

/-- The declarations of one instruction: of `ARG` only the first, and none without a name. -/
def ofSite (site : Site) : List Binding :=
  let inst := site.instruction
  let make (kind : BindingKind) (p : Property) : Binding :=
    ⟨p.name.text, p.unquotedValue inst.escape, p.name.span, p.span, site.scope, kind, site.index⟩
  let named := inst.properties.filter fun p => !p.name.isEmpty
  match inst.kind with
  | some .ARG => ((inst.properties.take 1).filter fun p => !p.name.isEmpty).map (make .arg)
  | some .ENV => named.map (make .env)
  | _ => []

/-- The number of the last declaration of a name in a scope by an instruction before `limit`. -/
def latest? (bindings : List Binding) (name : Text) (scope : Scope) (limit : Nat) : Option Nat :=
  (bindings.zipIdx.reverse.find? fun b =>
    b.1.scope == scope && b.1.instruction < limit && b.1.name == name).map Prod.snd

/-- The declaration that a reference of instruction `limit` refers to. -/
def resolve? (bindings : List Binding) (name : Text) (limit : Nat) (scope : Scope)
    (inFrom : Bool) : Option Nat :=
  if inFrom || scope == .global then latest? bindings name .global limit
  else (latest? bindings name scope limit).or (latest? bindings name .global limit)

end Binding

namespace VariableReference

def declares (inst : Instruction) : Bool :=
  inst.isKind .ARG || inst.isKind .ENV || inst.isKind .LABEL

def declaresBehindBlank (inst : Instruction) : Bool :=
  (inst.isKind .ENV || inst.isKind .LABEL) && inst.properties.head?.any Property.isLegacy

/-- The characters of an argument in which variables are substituted, if only the value behind its
equals sign counts: without an equals sign there are none. -/
def substitutedValue (arg : Argument) : List Placed :=
  match arg.content.cutAtEquals.2 with
  | some value => value.chars
  | none => []

/-- The characters of each argument in which variables are substituted. In a declaration those are
the values; a value behind a blank begins with the second argument. -/
def substituted (inst : Instruction) : List (List Placed) :=
  if declaresBehindBlank inst then
    match inst.arguments with
    | [] => []
    | first :: rest => substitutedValue first :: rest.map fun arg => arg.content.chars
  else if declares inst then inst.arguments.map substitutedValue
  else inst.arguments.map fun arg => arg.content.chars

def ofSite (bindings : List Binding) (site : Site) : List VariableReference :=
  let inst := site.instruction.trigger?.getD site.instruction
  let inFrom := inst.isKind .FROM
  (substituted inst).flatMap fun chars =>
    (Substitution.scan inst.escape chars).map fun s =>
      let name := Placed.text s.name
      ⟨name, s.nameSpan, s.span, site.index, site.scope, inFrom,
        Binding.resolve? bindings name site.index site.scope inFrom⟩

end VariableReference

namespace StageReference

/-- Reads a number: decimal digits, perhaps behind a plus sign. -/
def number? (text : Text) : Option Nat :=
  let digits := if text.head? = some '+' then text.tail else text
  if digits.isEmpty || !digits.all Char.isDigit then none
  else some (digits.foldl (fun n c => n * 10 + (c.toNat - '0'.toNat)) 0)

/-- The stage that the source of a copy names: the first of that name, else the one of that
number. -/
def source? (stages : List Stage) (name : Text) : Option Nat :=
  match stages.find? (Stage.isNamed name) with
  | some stage => some stage.index
  | none => (number? name).filter fun index => index < stages.length

/-- The stages that one instruction refers to. A base image refers to an earlier stage or to none;
the source of a copy is recorded in any case. -/
def ofSite (stages : List Stage) (site : Site) : List StageReference :=
  let inst := site.instruction
  if site.isFrom then
    match inst.positional.head? with
    | none => []
    | some image =>
        match (stages.take site.scope.stageIndex).find? (Stage.isNamed image.text) with
        | none => []
        | some stage => [⟨image.text, image.span, site.index, some stage.index⟩]
  else if inst.isKind .COPY then
    inst.flags.filterMap fun flag =>
      if flag.name.text = "from".toList then
        match flag.value with
        | some value =>
            if value.isEmpty then none
            else some ⟨value.text, value.span, site.index, source? stages value.text⟩
        | none => none
      else none
  else []

end StageReference

namespace ScopeTable

def ofInstructions (instructions : List Instruction) : ScopeTable :=
  let sites := Site.ofInstructions 0 .global instructions
  let stages := Stage.ofSites sites
  let bindings := sites.flatMap Binding.ofSite
  ⟨stages, bindings, sites.flatMap (VariableReference.ofSite bindings),
    sites.flatMap (StageReference.ofSite stages), sites⟩

def ofFile (file : File) : ScopeTable :=
  ofInstructions file.instructions

/-- The scope of an instruction; behind the last one, the whole file. -/
def scopeOf (table : ScopeTable) (index : Nat) : Scope :=
  match table.sites[index]? with
  | some site => site.scope
  | none => .global

def findStage? (table : ScopeTable) (name : Text) : Option Stage :=
  table.stages.find? (Stage.isNamed name)

def stageNames (table : ScopeTable) : List Text :=
  table.stages.filterMap fun stage => stage.name.map Excerpt.text

/-- What a reference stands for: the value of its declaration or, for an `ARG` of a stage without a
value, that of the last declaration of the same name for the whole file. -/
def effectiveValue? (table : ScopeTable) (reference : VariableReference) : Option Text := do
  let binding ← table.bindings[← reference.binding]?
  match binding.value with
  | some value => some value
  | none =>
      if binding.kind == .arg && binding.scope != .global then
        let inherited ← table.bindings.reverse.find? fun b =>
          b.scope == .global && b.name == binding.name
        inherited.value
      else none

end ScopeTable

end Dockerfile
