import Dockerfile.Duration
import Dockerfile.Finding.Problem
import Dockerfile.Instruction

/-!
# Flags

Which flags an instruction accepts, and what is wrong with those it has. The flags of a `HEALTHCHECK`
are durations of at least a millisecond, and a number of retries. Behind them stands `NONE`, or `CMD`
and a command.
-/

namespace Dockerfile

structure FlagSpec where
  values : List String
  switches : List String
  deriving DecidableEq, Repr

namespace FlagSpec

def ofKeyword : Keyword → FlagSpec
  | .ADD => ⟨["chown", "chmod", "checksum", "exclude"], ["link", "keep-git-dir"]⟩
  | .COPY => ⟨["from", "chown", "chmod", "exclude"], ["link", "parents"]⟩
  | .FROM => ⟨["platform"], []⟩
  | .HEALTHCHECK => ⟨["interval", "timeout", "start-period", "start-interval", "retries"], []⟩
  | _ => ⟨[], []⟩

def names (spec : FlagSpec) : List String :=
  spec.values ++ spec.switches

def knows (spec : FlagSpec) (name : Text) : Bool :=
  spec.names.any fun n => n.toList == name

def isSwitch (spec : FlagSpec) (name : Text) : Bool :=
  spec.switches.any fun n => n.toList == name

end FlagSpec

namespace Check

def isBoolean (text : Text) : Bool :=
  Text.sameIgnoringCase text "true".toList || Text.sameIgnoringCase text "false".toList

def flag (spec : FlagSpec) (flags : List Flag) (f : Flag) : List Finding :=
  let name := f.name.text
  if !spec.knows name then
    [⟨.flagUnknown name, if f.name.isEmpty then f.span else f.name.span⟩]
  else
    let repeated := 1 < flags.countP fun g => g.name.text == name
    let duplicate := if repeated then [⟨.flagDuplicate name, f.name.span⟩] else []
    let value :=
      match f.value with
      | none => if spec.isSwitch name then [] else [⟨.flagMissingValue name, f.name.span⟩]
      | some value =>
          if spec.isSwitch name && !isBoolean value.text then
            [⟨.flagExpectedBoolean name value.text, value.span⟩]
          else []
    duplicate ++ value

def flags (keyword : Keyword) (flags : List Flag) : List Finding :=
  flags.flatMap (flag (FlagSpec.ofKeyword keyword) flags)

/-! ## Health checks -/

def durationFlags : List String :=
  ["interval", "timeout", "start-period", "start-interval"]

def shortestDuration : Float :=
  1000000.0

def duration (name value : Text) : Option Problem :=
  match Duration.parse value with
  | .ok nanoseconds => if nanoseconds < shortestDuration then some (.durationTooShort name) else none
  | .error .invalid => some (.durationInvalid value)
  | .error .missingUnit => some (.durationMissingUnit value)
  | .error (.unknownUnit unit) => some (.durationUnknownUnit unit value)

/-- Reads an integer of 64 bits: decimal digits, perhaps behind a sign. -/
def integer? (text : Text) : Option Int :=
  let signed := Duration.splitSign text
  let digits := signed.2
  if digits.isEmpty || !digits.all Char.isDigit then none
  else
    let n : Int := Duration.digitsValue digits
    let n := if signed.1 then -n else n
    if -0x8000000000000000 ≤ n ∧ n < 0x8000000000000000 then some n else none

def retries (value : Text) : Option Problem :=
  match integer? value with
  | some n => if n < 1 then some .tooFewRetries else none
  | none => some (.malformedNumber value)

/-- What is wrong with the value of a flag; empty values are not looked at. -/
def healthcheckFlag (f : Flag) : List Finding :=
  match f.value with
  | none => []
  | some value =>
      if value.isEmpty then []
      else
        let name := f.name.text
        let problem :=
          if durationFlags.any fun n => n.toList == name then duration name value.text
          else if name = "retries".toList then retries value.text
          else none
        problem.toList.map fun p => ⟨p, value.span⟩

def healthcheckCommand (inst : Instruction) : List Finding :=
  match inst.positional with
  | [] => [⟨.healthcheckCommandMissing, inst.keywordSpan⟩]
  | first :: rest =>
      if Text.sameIgnoringCase first.text "NONE".toList then
        rest.map fun arg => ⟨.argumentUnnecessary, arg.span⟩
      else if !Text.sameIgnoringCase first.text "CMD".toList || rest.isEmpty then
        [⟨.healthcheckCommandMissing, first.span⟩]
      else []

def healthcheck (inst : Instruction) : List Finding :=
  inst.flags.flatMap healthcheckFlag ++ healthcheckCommand inst

end Check

end Dockerfile
