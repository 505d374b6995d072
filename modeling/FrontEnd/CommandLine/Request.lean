/-! # Command lines

A command line is `COMMAND [FILE]` with options before or after the command.

* `Argument.list`: what each argument is, by itself or with the value after it.
* `Request.ofArguments?`: the request, or `none` for a bad command line. An option may be given once
  before and once after the command, the later one counting; `--version` counts at once, but only
  before the command.
-/

namespace FrontEnd
set_option autoImplicit false

/-! ## Arguments -/

inductive Argument where
  | json
  | verbose
  | version
  | grammar (file : String)
  /-- A lone `--`: only words follow. -/
  | endOfOptions
  | word (text : String)
  | unknown
deriving DecidableEq, Repr

namespace Argument

/-- A lone hyphen is a word. -/
def looksLikeOption (text : String) : Bool :=
  match text.toList with
  | '-' :: _ :: _ => true
  | _ => false

/-- A cluster of one-letter options; what follows a version request does not matter. -/
def ofLetters : List Char → Argument
  | [] => verbose
  | 'v' :: letters => ofLetters letters
  | 'V' :: _ => version
  | _ => unknown

def ofText (text : String) : Argument :=
  match text with
  | "--json" => json
  | "--verbose" => verbose
  | "--version" => version
  | _ =>
    match text.toList with
    | '-' :: '-' :: name =>
      let option := "grammar=".toList
      if option.isPrefixOf name then grammar (String.ofList (name.drop option.length)) else unknown
    | '-' :: letter :: letters => ofLetters (letter :: letters)
    | _ => word text

def list : List String → List Argument
  | [] => []
  | "--" :: rest => endOfOptions :: rest.map word
  | ["--grammar"] => [unknown]
  | "--grammar" :: file :: rest =>
    if looksLikeOption file then [unknown] else grammar file :: list rest
  | text :: rest => ofText text :: list rest

end Argument

/-! ## Requests -/

structure Options where
  json : Bool := false
  grammar : Option String := none
deriving DecidableEq, Repr

namespace Options

def setJson? (options : Options) : Option Options :=
  if options.json then none else some { options with json := true }

def setGrammar? (options : Options) (file : String) : Option Options :=
  if options.grammar.isSome || file.isEmpty then none
  else some { options with grammar := some file }

/-- Options before the command, overridden by those after it. -/
def merge (before after : Options) : Options :=
  ⟨before.json || after.json, after.grammar.or before.grammar⟩

end Options

inductive Command where
  | tokens (file : String)
  | grammar
  | parse (file : String)
  | compile (file : String)
deriving DecidableEq, Repr

def Command.ofWords? : String → List String → Option Command
  | "tokens", [file] => some (tokens file)
  | "grammar", [] => some grammar
  | "parse", [file] => some (parse file)
  | "compile", [file] => some (compile file)
  | _, _ => none

inductive Request where
  | version
  | run (command : Command) (options : Options)
deriving DecidableEq, Repr

namespace Request

/-- The options and operands after a command. -/
def operands? (options : Options) (words : List String) :
    List Argument → Option (Options × List String)
  | [] => some (options, words)
  | argument :: rest =>
    match argument with
    | .json => do operands? (← options.setJson?) words rest
    | .grammar file => do operands? (← options.setGrammar? file) words rest
    | .verbose | .endOfOptions => operands? options words rest
    | .word text => if text.isEmpty then none else operands? options (words ++ [text]) rest
    | .version | .unknown => none

def ofArguments? (options : Options) : List Argument → Option Request
  | [] => none
  | argument :: rest =>
    match argument with
    | .json => do ofArguments? (← options.setJson?) rest
    | .grammar file => do ofArguments? (← options.setGrammar? file) rest
    | .verbose => ofArguments? options rest
    | .version => some version
    | .word name => do
      let (after, words) ← operands? {} [] rest
      return run (← Command.ofWords? name words) (options.merge after)
    | .endOfOptions | .unknown => none

def ofArgs? (args : List String) : Option Request := ofArguments? {} (Argument.list args)

end Request
end FrontEnd
