import Dialects.CommandLine.Options
import Dialects.Diagnostic
import Dialects.Double.Decimal
import Dialects.Expr.Climb
import Dialects.Json.Document
import Dialects.Json.Write
import Dialects.Markup.Document
import Dialects.Markup.Value

/-!
# Running the command line

The answer to a request is an exit code and what goes to the two outputs. Reading the source is left
to the caller.
-/

namespace Dialects.CommandLine

/-! ## Parsing -/

/-- The text of a source after parsing. An expression becomes its value. -/
def reformat (dialect : Dialect) (layout : Layout) (source : String) : Except Failure String :=
  match dialect with
  | .json => (Json.parse source).map (Json.Value.text layout)
  | .markup => (Markup.parse source).map (Markup.Value.text layout)
  | .expr => (Expr.evaluate source).map fun x => String.ofList x.text

/-! ## Sources -/

/-- Where a source comes from. -/
inductive Origin
  | argument (text : String)
  | standardInput
  | file (path : String)
deriving DecidableEq

namespace Origin

def ofOptions (o : Options) : Origin :=
  match o.eval, o.input with
  | some text, _ => argument text
  | none, none => standardInput
  | none, some path => if path == "-" then standardInput else file path

/-- The name that diagnostics give to a source. -/
def name : Origin → String
  | argument _ => "<eval>"
  | standardInput => "<stdin>"
  | file path => path

end Origin

/-- Why a source could not be read. -/
inductive Unreadable
  | missing
  | isDirectory
  | notInDirectory
  | nameTooLong
  | denied
  | notText
  | other (message : String)
deriving DecidableEq

def Unreadable.message : Unreadable → String
  | missing => "No such file or directory (os error 2)"
  | isDirectory => "Is a directory (os error 21)"
  | notInDirectory => "Not a directory (os error 20)"
  | nameTooLong => "File name too long (os error 36)"
  | denied => "Permission denied (os error 13)"
  | notText => "stream did not contain valid UTF-8"
  | other message => message

/-- The text of a source that was given as bytes. -/
def decodeText (bytes : ByteArray) : Except Unreadable String :=
  match String.fromUTF8? bytes with
  | some text => .ok text
  | none => .error .notText

/-! ## Answers -/

structure Answer where
  code : Nat
  output : String
  errors : String
deriving DecidableEq

/-- The line that names the program and its version. -/
def versionLine : String := "tree-parsers 0.1.0\n"

def usageLine : String := "Usage: tree-parsers [OPTIONS] <DIALECT> [INPUT]\n"

def helpText : String :=
  "Parse JSON, markup or arithmetic text\n\n" ++ usageLine ++
  "\nArguments:\n" ++
  "  <DIALECT>  Which parser to run [possible values: json, markup, expr]\n" ++
  "  [INPUT]    Input file path. Omit or use '-' to read from stdin\n" ++
  "\nOptions:\n" ++
  "  -e, --eval <text>  Parse this text instead of reading a file\n" ++
  "      --pretty       Pretty-print the parsed value\n" ++
  "  -v, --verbose      Log parser progress to stderr\n" ++
  "  -h, --help         Print help\n" ++
  "  -V, --version      Print version\n"

namespace Answer

/-- The answer to arguments that ask for nothing that can be done. -/
def misuse : Answer :=
  ⟨2, "", "error: the arguments cannot be used\n\n" ++ usageLine ++
    "\nFor more information, try '--help'.\n"⟩

/-- The answer where a source could not be read. -/
def unreadable (origin : Origin) (why : Unreadable) : Answer :=
  let place := match origin with
    | .file path => path ++ ": "
    | _ => ""
  ⟨2, "", "Error: " ++ place ++ why.message ++ "\n"⟩

/-- The answer to a source that was read. -/
def ofSource (dialect : Dialect) (layout : Layout) (source sourceName : String) : Answer :=
  match reformat dialect layout source with
  | .ok text => ⟨0, text ++ "\n", ""⟩
  | .error f => ⟨1, "", Diagnostic.render f source sourceName ++ "\n"⟩

end Answer

/-- Answers a request, with a way to read sources that are not on the command line. -/
def Request.answer {m : Type → Type} [Monad m] (r : Request)
    (read : Origin → m (Except Unreadable String)) : m Answer :=
  match r with
  | .version => return ⟨0, versionLine, ""⟩
  | .help => return ⟨0, helpText, ""⟩
  | .misuse => return Answer.misuse
  | .parse dialect o => do
    let origin := Origin.ofOptions o
    let layout := if o.pretty then Layout.indented else Layout.compact
    let source ← match origin with
      | .argument text => pure (.ok text)
      | _ => read origin
    match source with
    | .ok text => return Answer.ofSource dialect layout text origin.name
    | .error why => return Answer.unreadable origin why

end Dialects.CommandLine
