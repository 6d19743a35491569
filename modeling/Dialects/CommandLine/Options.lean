/-!
# Command line options

What a list of arguments asks for. Arguments are taken from left to right. The request for the
version or for help counts at once, and what is missing or at odds is found at the end.
-/

namespace Dialects.CommandLine

inductive Dialect
  | json
  | markup
  | expr
deriving DecidableEq

def Dialect.ofName? (name : String) : Option Dialect :=
  if name == "json" then some json
  else if name == "markup" then some markup
  else if name == "expr" then some expr
  else none

/-- The arguments taken so far. -/
structure Options where
  dialect : Option Dialect
  input : Option String
  eval : Option String
  pretty : Bool
  verbose : Bool
deriving DecidableEq

namespace Options

/-- No argument taken. -/
def initial : Options := ⟨none, none, none, false, false⟩

/-! ## Taking one argument

Each option is taken once; there is no result if it has been taken before. -/

/-- Takes a positional argument: first the dialect, then the input. -/
def positional (o : Options) (word : String) : Option Options :=
  match o.dialect, o.input with
  | none, _ => (Dialect.ofName? word).map fun d => { o with dialect := some d }
  | some _, none => some { o with input := some word }
  | some _, some _ => none

def setEval (o : Options) (text : String) : Option Options :=
  if o.eval.isSome then none else some { o with eval := some text }

def setPretty (o : Options) : Option Options :=
  if o.pretty then none else some { o with pretty := true }

def setVerbose (o : Options) : Option Options :=
  if o.verbose then none else some { o with verbose := true }

end Options

/-- What the arguments ask for. -/
inductive Request
  | parse (dialect : Dialect) (o : Options)
  | version
  | help
  | misuse

namespace Request

/-- The request of all arguments: a dialect, and a text from one place only. -/
def ofOptions (o : Options) : Request :=
  match o.dialect with
  | none => misuse
  | some dialect => if o.eval.isSome && o.input.isSome then misuse else parse dialect o

/-- What is left to do after some arguments. -/
inductive Progress
  | more (o : Options)
  /-- The text to parse has to be the next argument. -/
  | pending (o : Options)
  | done (r : Request)

/-- Goes on with options, or stops if there are none. -/
def Progress.ofOption : Option Options → Progress
  | some o => more o
  | none => done misuse

/-- Takes the letters behind a single dash. Text behind the letter of an option is its value. -/
def letters (o : Options) : List Char → Progress
  | [] => .more o
  | c :: rest =>
    if c == 'e' then
      match rest with
      | [] => .pending o
      | '=' :: text => .ofOption (o.setEval (String.ofList text))
      | text => .ofOption (o.setEval (String.ofList text))
    else if c == 'v' then
      match o.setVerbose with
      | some o => letters o rest
      | none => .done misuse
    else if c == 'V' then .done version
    else if c == 'h' then .done help
    else .done misuse

/-- Takes the word behind two dashes. Text behind an equals sign is its value. -/
def word (o : Options) (cs : List Char) : Progress :=
  let name := String.ofList (cs.takeWhile (· != '='))
  match cs.dropWhile (· != '=') with
  | _ :: text =>
    if name == "eval" then .ofOption (o.setEval (String.ofList text)) else .done misuse
  | [] =>
    if name == "eval" then .pending o
    else if name == "pretty" then .ofOption o.setPretty
    else if name == "verbose" then .ofOption o.setVerbose
    else if name == "version" then .done version
    else if name == "help" then .done help
    else .done misuse

/-- Takes arguments that are all positional. -/
def positionals (o : Options) : List String → Request
  | [] => ofOptions o
  | arg :: args =>
    match o.positional arg with
    | some o => positionals o args
    | none => misuse

/-- Whether an argument is an option or the mark behind which all are positional. -/
def isDashed (arg : String) : Bool := arg.toList.head? == some '-' && arg != "-"

/-- Takes arguments. -/
def progress (p : Progress) : List String → Request
  | [] =>
    match p with
    | .more o => ofOptions o
    | .pending _ => misuse
    | .done r => r
  | arg :: args =>
    match p with
    | .done r => r
    | .pending o =>
      if isDashed arg then misuse else progress (.ofOption (o.setEval arg)) args
    | .more o =>
      if !isDashed arg then progress (.ofOption (o.positional arg)) args
      else
        match arg.toList.drop 1 with
        | ['-'] => positionals o args
        | '-' :: name => progress (word o name) args
        | cs => progress (letters o cs) args

/-- What a list of arguments asks for. -/
def ofArguments (args : List String) : Request := progress (.more .initial) args

end Request

end Dialects.CommandLine
