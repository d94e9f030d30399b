import Dockerfile.Finding.Problem

/-!
# Severities

Most problems are errors. Eight kinds are matters of taste or of age: the user chooses whether they
are errors, warnings or not reported at all.
-/

namespace Dockerfile

inductive Severity where
  | error
  | warning
  deriving DecidableEq, Repr

def Severity.name : Severity → String
  | error => "error"
  | warning => "warning"

/-- What a user wants to hear about. -/
inductive Level where
  | ignore
  | warning
  | error
  deriving DecidableEq, Repr

namespace Level

def name : Level → String
  | ignore => "ignore"
  | warning => "warning"
  | error => "error"

def ofName? (name : String) : Option Level :=
  [ignore, warning, error].find? fun level => level.name == name

def severity? : Level → Option Severity
  | ignore => none
  | warning => some .warning
  | error => some .error

end Level

structure Settings where
  deprecatedMaintainer : Level := .warning
  directiveCasing : Level := .warning
  emptyContinuationLine : Level := .warning
  instructionCasing : Level := .warning
  multipleCmd : Level := .warning
  multipleEntrypoint : Level := .warning
  multipleHealthcheck : Level := .warning
  singleQuotedArray : Level := .warning
  deriving DecidableEq, Repr, Inhabited

namespace Settings

def level? (settings : Settings) : Problem → Option Level
  | .deprecatedMaintainer => some settings.deprecatedMaintainer
  | .casingDirective => some settings.directiveCasing
  | .emptyContinuationLine => some settings.emptyContinuationLine
  | .casingInstruction => some settings.instructionCasing
  | .multipleInstructions .CMD => some settings.multipleCmd
  | .multipleInstructions .ENTRYPOINT => some settings.multipleEntrypoint
  | .multipleInstructions .HEALTHCHECK => some settings.multipleHealthcheck
  | .singleQuotedArray => some settings.singleQuotedArray
  | _ => none

/-- The severity of a problem that cannot be configured: an error, or a warning for a directive
that has no meaning. -/
def fixedSeverity : Problem → Severity
  | .unknownDirective _ => .warning
  | _ => .error

/-- How grave a problem is under these settings; nothing if it is to be ignored. -/
def severity? (settings : Settings) (problem : Problem) : Option Severity :=
  match settings.level? problem with
  | some level => level.severity?
  | none => some (fixedSeverity problem)

end Settings

end Dockerfile
