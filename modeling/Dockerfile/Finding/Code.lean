import Dockerfile.Text.Basic

/-!
# Codes of findings

Every finding has a code with a fixed name. Editors send the names back to ask for a fix.
-/

namespace Dockerfile

inductive Code where
  | casingInstruction
  | casingDirective
  | argumentMissing
  | argumentRequiresOne
  | argumentRequiresTwo
  | argumentRequiresAtLeastTwo
  | argumentRequiresOneOrThree
  | argumentUnnecessary
  | argumentExtra
  | unknownInstruction
  | unknownDirective
  | invalidEscapeDirective
  | invalidPort
  | invalidProtocol
  | invalidSignal
  | flagUnknown
  | flagDuplicate
  | flagMissingValue
  | flagExpectedBooleanValue
  | flagInvalidDuration
  | flagMissingDuration
  | flagUnknownUnit
  | flagTooShort
  | flagTooFewRetries
  | malformedNumber
  | healthcheckCommandMissing
  | shellArrayForm
  | shellRequiresOne
  | singleQuotedArray
  | unexpectedToken
  | onbuildTriggerDisallowed
  | onbuildChainingDisallowed
  | duplicateStageName
  | invalidStageName
  | invalidAs
  | missingEquals
  | missingNames
  | missingSingleQuote
  | missingDoubleQuote
  | deprecatedMaintainer
  | noSourceImage
  | multipleInstructions
  | emptyContinuationLine
  deriving DecidableEq, Repr

namespace Code

def name : Code → String
  | casingInstruction => "casing-instruction"
  | casingDirective => "casing-directive"
  | argumentMissing => "argument-missing"
  | argumentRequiresOne => "argument-requires-one"
  | argumentRequiresTwo => "argument-requires-two"
  | argumentRequiresAtLeastTwo => "argument-requires-at-least-two"
  | argumentRequiresOneOrThree => "argument-requires-one-or-three"
  | argumentUnnecessary => "argument-unnecessary"
  | argumentExtra => "argument-extra"
  | unknownInstruction => "unknown-instruction"
  | unknownDirective => "unknown-directive"
  | invalidEscapeDirective => "invalid-escape-directive"
  | invalidPort => "invalid-port"
  | invalidProtocol => "invalid-protocol"
  | invalidSignal => "invalid-signal"
  | flagUnknown => "flag-unknown"
  | flagDuplicate => "flag-duplicate"
  | flagMissingValue => "flag-missing-value"
  | flagExpectedBooleanValue => "flag-expected-boolean-value"
  | flagInvalidDuration => "flag-invalid-duration"
  | flagMissingDuration => "flag-missing-duration"
  | flagUnknownUnit => "flag-unknown-unit"
  | flagTooShort => "flag-less-than-1ms"
  | flagTooFewRetries => "flag-at-least-one-retry"
  | malformedNumber => "invalid-syntax"
  | healthcheckCommandMissing => "healthcheck-cmd-argument-missing"
  | shellArrayForm => "shell-json-form"
  | shellRequiresOne => "shell-requires-one"
  | singleQuotedArray => "json-in-single-quotes"
  | unexpectedToken => "unexpected-token"
  | onbuildTriggerDisallowed => "onbuild-trigger-disallowed"
  | onbuildChainingDisallowed => "onbuild-chaining-disallowed"
  | duplicateStageName => "duplicate-build-stage-name"
  | invalidStageName => "invalid-build-stage-name"
  | invalidAs => "invalid-as"
  | missingEquals => "syntax-missing-equals"
  | missingNames => "syntax-missing-names"
  | missingSingleQuote => "syntax-missing-single-quote"
  | missingDoubleQuote => "syntax-missing-double-quote"
  | deprecatedMaintainer => "deprecated-maintainer"
  | noSourceImage => "no-source-image"
  | multipleInstructions => "multiple-instructions"
  | emptyContinuationLine => "empty-continuation-line"

def all : List Code :=
  [casingInstruction, casingDirective, argumentMissing, argumentRequiresOne, argumentRequiresTwo,
   argumentRequiresAtLeastTwo, argumentRequiresOneOrThree, argumentUnnecessary, argumentExtra,
   unknownInstruction, unknownDirective, invalidEscapeDirective, invalidPort, invalidProtocol,
   invalidSignal, flagUnknown, flagDuplicate, flagMissingValue, flagExpectedBooleanValue,
   flagInvalidDuration, flagMissingDuration, flagUnknownUnit, flagTooShort, flagTooFewRetries,
   malformedNumber, healthcheckCommandMissing, shellArrayForm, shellRequiresOne,
   singleQuotedArray, unexpectedToken, onbuildTriggerDisallowed, onbuildChainingDisallowed,
   duplicateStageName, invalidStageName, invalidAs, missingEquals, missingNames,
   missingSingleQuote, missingDoubleQuote, deprecatedMaintainer, noSourceImage,
   multipleInstructions, emptyContinuationLine]

def ofName? (name : String) : Option Code :=
  all.find? fun code => code.name == name

def unknownMessage (name : String) : String :=
  "unknown diagnostic code: " ++ name

def isUnnecessary : Code → Bool
  | emptyContinuationLine | argumentUnnecessary | multipleInstructions => true
  | _ => false

def isDeprecation : Code → Bool
  | deprecatedMaintainer => true
  | _ => false

theorem mem_all (code : Code) : code ∈ all := by
  cases code <;> decide

end Code

end Dockerfile
