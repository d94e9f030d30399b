import Dockerfile.Finding.Problem
import Dockerfile.Instruction
import Dockerfile.StringArray
import Dockerfile.Text.Unicode

/-!
# Arguments

What the arguments of each kind of instruction have to look like: their number, their quotes, the
names and values of properties, ports, signals and stage names, and arrays of strings.
-/

namespace Dockerfile

/-- Whether a text is a port, or two with a dash or a colon between them; a port is a run of decimal
digits of any script. -/
def isValidPort (text : Text) : Bool :=
  let first := text.takeWhile isDecimalDigit
  match text.dropWhile isDecimalDigit with
  | [] => !first.isEmpty
  | c :: second =>
      !first.isEmpty && (c == '-' || c == ':') && !second.isEmpty && second.all isDecimalDigit

def isValidProtocol (text : Text) : Bool :=
  ["tcp", "udp"].any fun name => Text.sameIgnoringCase name.toList text

/-- Whether a text is a signal: a name that starts with `SIG`, a number, or anything with a
variable. -/
def isValidSignal (text : Text) : Bool :=
  ("SIG".toList.isPrefixOf text && 3 < text.length) || text.contains '$' ||
    (!text.isEmpty && text.all Char.isDigit)

/-- Whether a text may name a stage: a letter, then letters, digits, underscores, points and
dashes. -/
def isValidStageName : Text → Bool
  | [] => false
  | c :: rest => c.isAlpha && rest.all fun d => d.isAlphanum || d == '_' || d == '.' || d == '-'

namespace Check

def quotes (inst : Instruction) : List Finding :=
  inst.arguments.filterMap fun arg =>
    arg.openQuote.map fun opened =>
      ⟨if opened.quote = '\x27' then .missingSingleQuote else .missingDoubleQuote,
        ⟨opened.offset, max arg.span.stop opened.offset⟩⟩

def singleArgument (inst : Instruction) : List Finding :=
  (inst.arguments.drop 1).map fun arg => ⟨.argumentRequiresOne inst.keyword.text, arg.span⟩

/-- An `ARG` has one argument, which does not start with the equals sign. -/
def arg (inst : Instruction) : List Finding :=
  let name :=
    match inst.arguments.head? with
    | some first =>
        if first.text.head? = some '=' then [⟨.missingNames .ARG, first.span⟩] else []
    | none => []
  name ++ singleArgument inst

/-- What is wrong with one property of an `ENV` or a `LABEL`. -/
def pair (keyword : Keyword) (p : Property) : List Finding :=
  if p.isLegacy then []
  else if p.name.isEmpty then [⟨.missingNames keyword, p.span⟩]
  else if p.value.isNone then [⟨.missingEquals p.name.text, p.span⟩]
  else []

/-- The properties of an `ENV` or a `LABEL` have names and values; a single name alone lacks an
argument. -/
def pairs (keyword : Keyword) (inst : Instruction) : List Finding :=
  match inst.properties with
  | [p] =>
      if !p.name.isEmpty && p.value.isNone then
        [⟨.argumentRequiresTwo inst.keyword.text, p.span⟩]
      else pair keyword p
  | properties => properties.flatMap (pair keyword)

/-- One argument of an `EXPOSE`: a port and perhaps a protocol behind a slash. Variables are not
looked into. -/
def exposed (arg : Argument) : List Finding :=
  let content := arg.content
  if arg.text.contains '$' then []
  else
    let before := content.chars.takeWhile fun p => p.char != '/'
    let after := content.chars.dropWhile fun p => p.char != '/'
    let port := content.part before after
    let badPort := if isValidPort port.text then [] else [⟨.invalidPort port.text, port.span⟩]
    let badProtocol :=
      match after with
      | [] => []
      | _ :: rest =>
          let protocol := content.part rest []
          if isValidProtocol protocol.text then []
          else [⟨.invalidProtocol protocol.text, protocol.span⟩]
    badPort ++ badProtocol

def stopsignal (inst : Instruction) : List Finding :=
  let signal :=
    match inst.arguments.head? with
    | some first =>
        if isValidSignal first.text then [] else [⟨.invalidSignal first.text, first.span⟩]
    | none => []
  signal ++ singleArgument inst

/-- Whether an argument is the word between an image and the name of its stage. -/
def isAs (arg : Argument) : Bool :=
  Text.sameIgnoringCase arg.text "as".toList

def fromImage (inst : Instruction) : List Finding :=
  match inst.positional with
  | [] => [⟨.argumentMissing inst.keyword.text, inst.keywordSpan⟩]
  | [_] => []
  | [_, as, name] =>
      if !isAs as then [⟨.invalidAs, as.span⟩]
      else if !isValidStageName name.text then [⟨.invalidStageName name.text, name.span⟩]
      else []
  | first :: second :: rest =>
      let oneOrThree :=
        [⟨.argumentRequiresOneOrThree, first.span.cover ((rest.getLast?.getD second).span)⟩]
      match rest with
      | name :: extra =>
          if isAs second && isValidStageName name.text then
            extra.map fun arg => ⟨.argumentExtra arg.text, arg.span⟩
          else oneOrThree
      | [] => oneOrThree

def isArrayVolume (inst : Instruction) : Bool :=
  StringArray.looksLike inst.region

def volume (inst : Instruction) : List Finding :=
  if isArrayVolume inst then
    match StringArray.parse '"' inst.escape inst.region with
    | .error (.unexpected span found) => [⟨.unexpectedToken found, span⟩]
    | _ => []
  else []

def shell (inst : Instruction) : List Finding :=
  match StringArray.parse '"' inst.escape inst.region with
  | .ok array => if array.strings.isEmpty then [⟨.shellRequiresOne, array.span⟩] else []
  | .error _ => [⟨.shellArrayForm, inst.region.trim.span⟩]

/-- A command that is an array only if single quotes are taken for double ones. -/
def command (inst : Instruction) : List Finding :=
  if StringArray.looksLike inst.region &&
      !(StringArray.parse '"' inst.escape inst.region).isOk then
    match StringArray.parse '\x27' inst.escape inst.region with
    | .ok array => [⟨.singleQuotedArray, array.span⟩]
    | .error _ => []
  else []

def copy (inst : Instruction) : List Finding :=
  let region := inst.positionalRegion
  let count :=
    match StringArray.parse '"' inst.escape region with
    | .ok array => array.strings.length
    | .error _ => inst.positional.length
  if 2 ≤ count then []
  else
    [⟨.argumentRequiresAtLeastTwo inst.keyword.text,
      if region.isEmpty then inst.keywordSpan else region.span⟩]

end Check

end Dockerfile
