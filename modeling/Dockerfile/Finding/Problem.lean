import Dockerfile.Finding.Code
import Dockerfile.Keyword
import Dockerfile.Text.Span

/-!
# Problems

What can be wrong with a file, with the words of the file that each message quotes. A `Finding` is a
problem at a place; how grave it is depends on the settings and is decided later.
-/

namespace Dockerfile

inductive Problem where
  | casingInstruction
  | casingDirective
  | argumentMissing (keyword : Text)
  | argumentRequiresOne (keyword : Text)
  | argumentRequiresTwo (keyword : Text)
  | argumentRequiresAtLeastTwo (keyword : Text)
  | argumentRequiresOneOrThree
  | argumentUnnecessary
  | argumentExtra (argument : Text)
  | unknownInstruction (keyword : Text)
  | unknownDirective (name : Text)
  | invalidEscape (value : Text)
  | invalidPort (number : Text)
  | invalidProtocol (protocol : Text)
  | invalidSignal (signal : Text)
  | flagUnknown (name : Text)
  | flagDuplicate (name : Text)
  | flagMissingValue (name : Text)
  | flagExpectedBoolean (name value : Text)
  | durationInvalid (value : Text)
  | durationMissingUnit (value : Text)
  | durationUnknownUnit (unit value : Text)
  | durationTooShort (flag : Text)
  | tooFewRetries
  | malformedNumber (value : Text)
  | healthcheckCommandMissing
  | shellArrayForm
  | shellRequiresOne
  | singleQuotedArray
  | unexpectedToken (found : Option Char)
  | onbuildTrigger (keyword : Text)
  | onbuildChaining
  | duplicateStageName (name : Text)
  | invalidStageName (name : Text)
  | invalidAs
  | missingEquals (name : Text)
  | missingNames (keyword : Keyword)
  | missingSingleQuote
  | missingDoubleQuote
  | deprecatedMaintainer
  | noSourceImage
  | multipleInstructions (keyword : Keyword)
  | emptyContinuationLine
  deriving DecidableEq, Repr

namespace Problem

def code : Problem → Code
  | casingInstruction => .casingInstruction
  | casingDirective => .casingDirective
  | argumentMissing _ => .argumentMissing
  | argumentRequiresOne _ => .argumentRequiresOne
  | argumentRequiresTwo _ => .argumentRequiresTwo
  | argumentRequiresAtLeastTwo _ => .argumentRequiresAtLeastTwo
  | argumentRequiresOneOrThree => .argumentRequiresOneOrThree
  | argumentUnnecessary => .argumentUnnecessary
  | argumentExtra _ => .argumentExtra
  | unknownInstruction _ => .unknownInstruction
  | unknownDirective _ => .unknownDirective
  | invalidEscape _ => .invalidEscapeDirective
  | invalidPort _ => .invalidPort
  | invalidProtocol _ => .invalidProtocol
  | invalidSignal _ => .invalidSignal
  | flagUnknown _ => .flagUnknown
  | flagDuplicate _ => .flagDuplicate
  | flagMissingValue _ => .flagMissingValue
  | flagExpectedBoolean _ _ => .flagExpectedBooleanValue
  | durationInvalid _ => .flagInvalidDuration
  | durationMissingUnit _ => .flagMissingDuration
  | durationUnknownUnit _ _ => .flagUnknownUnit
  | durationTooShort _ => .flagTooShort
  | tooFewRetries => .flagTooFewRetries
  | malformedNumber _ => .malformedNumber
  | healthcheckCommandMissing => .healthcheckCommandMissing
  | shellArrayForm => .shellArrayForm
  | shellRequiresOne => .shellRequiresOne
  | singleQuotedArray => .singleQuotedArray
  | unexpectedToken _ => .unexpectedToken
  | onbuildTrigger _ => .onbuildTriggerDisallowed
  | onbuildChaining => .onbuildChainingDisallowed
  | duplicateStageName _ => .duplicateStageName
  | invalidStageName _ => .invalidStageName
  | invalidAs => .invalidAs
  | missingEquals _ => .missingEquals
  | missingNames _ => .missingNames
  | missingSingleQuote => .missingSingleQuote
  | missingDoubleQuote => .missingDoubleQuote
  | deprecatedMaintainer => .deprecatedMaintainer
  | noSourceImage => .noSourceImage
  | multipleInstructions _ => .multipleInstructions
  | emptyContinuationLine => .emptyContinuationLine

def quoted (text : Text) : String :=
  String.ofList text

/-- A keyword of the file in a message, in upper case. -/
def capitals (text : Text) : String :=
  String.ofList (Text.uppercase text)

def message : Problem → String
  | casingInstruction => "Instructions should be written in uppercase letters"
  | casingDirective => "Parser directives should be written in lowercase letters"
  | argumentMissing keyword => capitals keyword ++ " requires at least one argument"
  | argumentRequiresOne keyword => capitals keyword ++ " requires exactly one argument"
  | argumentRequiresTwo keyword => capitals keyword ++ " must have two arguments"
  | argumentRequiresAtLeastTwo keyword => capitals keyword ++ " requires at least two arguments"
  | argumentRequiresOneOrThree => "FROM requires either one or three arguments"
  | argumentUnnecessary => "HEALTHCHECK NONE takes no arguments"
  | argumentExtra argument => "Extra argument after the build stage name: " ++ quoted argument
  | unknownInstruction keyword => "Unknown instruction: " ++ capitals keyword
  | unknownDirective name => "Unknown directive: " ++ quoted name
  | invalidEscape value => "invalid ESCAPE '" ++ quoted value ++ "'. Must be ` or \\"
  | invalidPort number => "Invalid containerPort: " ++ quoted number
  | invalidProtocol protocol => "Invalid proto: " ++ quoted protocol
  | invalidSignal signal => "Invalid signal: " ++ quoted signal
  | flagUnknown name => "Unknown flag: " ++ quoted name
  | flagDuplicate name => "Duplicate flag specified: " ++ quoted name
  | flagMissingValue name => "Missing a value on flag: " ++ quoted name
  | flagExpectedBoolean name value =>
      "expecting boolean value for flag " ++ quoted name ++ ", not: " ++ quoted value
  | durationInvalid value => "time: invalid duration " ++ quoted value
  | durationMissingUnit value => "time: missing unit in duration " ++ quoted value
  | durationUnknownUnit unit value =>
      "time: unknown unit " ++ quoted unit ++ " in duration " ++ quoted value
  | durationTooShort flag => "Interval \"" ++ quoted flag ++ "\" cannot be less than 1ms"
  | tooFewRetries => "Maximum number of retries must be at least 1"
  | malformedNumber value => "parsing \"" ++ quoted value ++ "\": invalid syntax"
  | healthcheckCommandMissing => "Missing command after HEALTHCHECK CMD"
  | shellArrayForm => "SHELL requires the arguments to be in JSON form"
  | shellRequiresOne => "SHELL requires at least one argument"
  | singleQuotedArray => "Instruction arguments in JSON form must use double quotes"
  | unexpectedToken (some c) => "Unexpected token '" ++ String.singleton c ++ "' in JSON array"
  | unexpectedToken none => "Unexpected end of JSON array"
  | onbuildTrigger keyword => capitals keyword ++ " isn't allowed as an ONBUILD trigger"
  | onbuildChaining => "Chaining ONBUILD via `ONBUILD ONBUILD` isn't allowed"
  | duplicateStageName name => "duplicate name " ++ String.ofList (Text.lowercase name)
  | invalidStageName name =>
      "invalid name for build stage: \"" ++ quoted name ++
        "\", name can't start with a number or contain symbols"
  | invalidAs => "Second argument should be AS"
  | missingEquals name =>
      "Syntax error - can't find = in \"" ++ quoted name ++ "\". Must be of the form: name=value"
  | missingNames keyword => keyword.name ++ " names can not be blank"
  | missingSingleQuote => "missing single quote"
  | missingDoubleQuote => "missing double quote"
  | deprecatedMaintainer => "MAINTAINER has been deprecated"
  | noSourceImage => "No source image provided with `FROM`"
  | multipleInstructions keyword =>
      "There can only be one " ++ keyword.name ++
        " instruction in a Dockerfile or build stage. Only the last one will have an effect."
  | emptyContinuationLine => "Empty continuation lines will become errors in a future release"

end Problem

structure Finding where
  problem : Problem
  span : Span
  deriving DecidableEq, Repr

end Dockerfile
