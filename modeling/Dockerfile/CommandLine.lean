import Dockerfile.Protocol.Report

/-!
# Command line

With `--analyze` the program prints what it knows about one file and ends; otherwise it serves an
editor. Only files below the working directory are read.
-/

namespace Dockerfile

namespace CommandLine

inductive Command where
  | serve
  | analyze (path : String) (errorsOnly : Bool)
  deriving DecidableEq, Repr

/-- Why nothing can be printed. -/
inductive Error where
  | usage
  | unsafePath (path : String)
  | unreadable (path : String)
  deriving DecidableEq, Repr

def usageText : String :=
  "Usage: dockerls --analyze [--errors-only] <relative-file-path>\n" ++
  "  --analyze <file>     : Full analysis with JSON output\n" ++
  "  --errors-only        : Show only errors in simple format\n" ++
  "  --stdio              : Run the language server on stdio (default)"

def Error.message : Error → String
  | usage => usageText
  | unsafePath path => "Unsafe file path: " ++ path
  | unreadable path => "Failed to read file '" ++ path ++ "'"

/-- Whether a path stays below the working directory: it is relative, goes nowhere up, has no
control characters, and does not start with the name of a drive. -/
def isSafePath (path : Text) : Bool :=
  let parts := Text.parts (fun c => c == '/') path
  let isDrive := match path with
    | c :: ':' :: _ => c.toNat < 128
    | _ => false
  !path.isEmpty && path.head? != some '/' && !parts.contains ['.', '.'] &&
    !(path.any fun c => c == '\x00' || c == '\n' || c == '\r' || c == '\t') && !isDrive

def isOption (argument : String) : Bool :=
  ['-', '-'].isPrefixOf argument.toList

/-- Reads the arguments. The path is the first argument behind `--analyze` that is no option. -/
def parse (arguments : List String) : Except Error Command :=
  match arguments.dropWhile fun a => a != "--analyze" with
  | [] => .ok .serve
  | _ :: rest =>
      match rest.find? fun a => !isOption a with
      | none => .error .usage
      | some path =>
          if isSafePath path.toList then .ok (.analyze path (arguments.contains "--errors-only"))
          else .error (.unsafePath path)

def errorLines (a : Analysis) : String :=
  let errors := a.diagnostics.filter fun d => d.severity == .error
  if errors.isEmpty then "No errors found"
  else
    String.intercalate "\n" (errors.map fun d =>
      "Line " ++ d.range.start.display ++ ": " ++ d.message)

def fullOutput (a : Analysis) : String :=
  (Json.object [("diagnostics", .ofList Report.toJson a.reports),
    ("symbols", .ofList OutlineNode.toJson a.outline),
    ("semantic_tokens", .ofList (fun d => .ofList .nat d.numbers) a.tokens)]).normalize.pretty

def output (text : Text) (errorsOnly : Bool) : String :=
  let a := analyze text {}
  if errorsOnly then errorLines a else fullOutput a

/-- Does what the arguments ask for, with `read` to read files. Nothing is printed if an editor is to
be served. -/
def run (read : String → Option Text) (arguments : List String) : Except Error (Option String) :=
  match parse arguments with
  | .error e => .error e
  | .ok .serve => .ok none
  | .ok (.analyze path errorsOnly) =>
      match read path with
      | some text => .ok (some (output text errorsOnly))
      | none => .error (.unreadable path)

end CommandLine

end Dockerfile
