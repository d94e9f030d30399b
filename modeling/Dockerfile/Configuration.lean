import Dockerfile.Finding.Settings
import Dockerfile.Json.Record

/-!
# Configuration

The settings that an editor holds for this server: the levels of the checks, how to format, and how
eagerly to work. A section that does not have this form is ignored as a whole.
-/

namespace Dockerfile

structure FormatterSettings where
  /-- Leave the indentation of continued lines as it is. -/
  ignoreMultilineInstructions : Bool := false
  deriving DecidableEq, Repr, Inhabited

structure Performance where
  maxConcurrent : Option Nat := none
  debounceMs : Option Nat := none
  deriving DecidableEq, Repr, Inhabited

structure Configuration where
  diagnostics : Settings := {}
  formatter : FormatterSettings := {}
  performance : Performance := {}
  deriving DecidableEq, Repr, Inhabited

namespace Level

/-- A level is written as its name, or as an object with the name as its only key. -/
def ofJson? : Json → Option Level
  | .string name => ofName? name
  | .object [(name, .null)] => ofName? name
  | _ => none

end Level

namespace Settings

def fieldNames : List String :=
  ["deprecatedMaintainer", "directiveCasing", "emptyContinuationLine", "instructionCasing",
   "instructionCmdMultiple", "instructionEntrypointMultiple", "instructionHealthcheckMultiple",
   "instructionJSONInSingleQuotes"]

def levels (s : Settings) : List Level :=
  [s.deprecatedMaintainer, s.directiveCasing, s.emptyContinuationLine, s.instructionCasing,
   s.multipleCmd, s.multipleEntrypoint, s.multipleHealthcheck, s.singleQuotedArray]

def ofJson? (json : Json) : Option Settings := do
  let fields ← json.record? fieldNames
  let levels ← fields.mapM (Json.orDefault Level.ofJson? .warning)
  match levels with
  | [a, b, c, d, e, f, g, h] => return ⟨a, b, c, d, e, f, g, h⟩
  | _ => none

def toJson (s : Settings) : Json :=
  .object (fieldNames.zip (s.levels.map fun level => .string level.name))

end Settings

namespace FormatterSettings

def ofJson? (json : Json) : Option FormatterSettings := do
  match ← json.record? ["ignoreMultilineInstructions"] with
  | [ignore] => return ⟨← Json.orDefault Json.bool? false ignore⟩
  | _ => none

def toJson (s : FormatterSettings) : Json :=
  .object [("ignoreMultilineInstructions", .bool s.ignoreMultilineInstructions)]

end FormatterSettings

namespace Performance

/-- Reads how eagerly to work; a missing number is not set. -/
def ofJson? (json : Json) : Option Performance := do
  match ← json.record? ["maxConcurrent", "debounceMs"] with
  | [maxConcurrent, debounceMs] =>
      return ⟨← Json.optional (Json.nat? 64) maxConcurrent, ← Json.optional (Json.nat? 64) debounceMs⟩
  | _ => none

end Performance

namespace Configuration

def sectionName : String :=
  "docker.languageserver"

/-- Reads a section. `null` stands for no section. -/
def ofJson? (json : Json) : Option Configuration := do
  match ← json.record? ["diagnostics", "formatter", "performance"] with
  | [diagnostics, formatter, performance] =>
      return ⟨← Json.orDefault Settings.ofJson? {} diagnostics,
        ← Json.orDefault FormatterSettings.ofJson? {} formatter,
        ← Json.orDefault Performance.ofJson? {} performance⟩
  | _ => none

end Configuration

end Dockerfile
