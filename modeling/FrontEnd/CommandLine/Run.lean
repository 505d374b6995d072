import FrontEnd.CommandLine.Request
import FrontEnd.Report.Json
import FrontEnd.Report.Text

/-! # Running a command line

What the program prints, with files looked up by a given action.

* `Fatal`: what stops a command before it prints anything.
* `Command.run`: the standard output of a command.
* `runArgs`: exit code and output for a list of arguments. A bad command line exits with 2, a fatal
  error with 1.
-/

namespace FrontEnd
set_option autoImplicit false

inductive ReadFault where
  | missing
  | notText
deriving DecidableEq, Repr

def ReadFault.text : ReadFault → String
  | missing => "No such file or directory (os error 2)"
  | notText => "stream did not contain valid UTF-8"

inductive Fatal where
  | unreadableSource (file : String) (fault : ReadFault)
  | unreadableGrammar (file : String) (fault : ReadFault)
  | invalidGrammar (file : String) (error : GrammarError)
deriving DecidableEq, Repr

namespace Fatal

def context : Fatal → String
  | unreadableSource file _ => "can't read source file " ++ file
  | unreadableGrammar file _ => "can't read grammar file " ++ file
  | invalidGrammar file _ => "invalid grammar in " ++ file

def cause : Fatal → String
  | unreadableSource _ fault | unreadableGrammar _ fault => fault.text
  | invalidGrammar _ error => error.text

def text (fatal : Fatal) : String :=
  "Error: " ++ fatal.context ++ "\n\nCaused by:\n    " ++ fatal.cause ++ "\n"

end Fatal

/-- Reads a file; `none` if there is none. -/
abbrev FileReader (m : Type → Type) := String → m (Option ByteArray)

section
variable {m : Type → Type} [Monad m]

def readText (read : FileReader m) (file : String) : m (Except ReadFault String) := do
  match ← read file with
  | none => return .error .missing
  | some bytes =>
    match String.fromUTF8? bytes with
    | none => return .error .notText
    | some text => return .ok text

def readSource (read : FileReader m) (file : String) : ExceptT Fatal m String :=
  ExceptT.mk do return (← readText read file).mapError (.unreadableSource file)

/-- The grammar of the options, or the built-in one. -/
def loadGrammar (read : FileReader m) (options : Options) : ExceptT Fatal m PreparedGrammar := do
  match options.grammar with
  | none => return .builtin
  | some file =>
    let text ← ExceptT.mk do return (← readText read file).mapError (.unreadableGrammar file)
    ExceptT.mk <| pure <| (PreparedGrammar.ofText text).mapError (.invalidGrammar file)

end

/-! ## Commands -/

def diagnosticsJson (diagnostics : List Diagnostic) : Json := .array (diagnostics.map (·.json))

/-- One of two forms of the same result. -/
def Options.render (options : Options) (json : Json) (text : String) : String :=
  if options.json then json.pretty ++ "\n" else text

def PreparedGrammar.json (g : PreparedGrammar) : Json :=
  .object
    [("left_factored", .strings (g.factored.rules.map (·.text))),
     ("normalized", .strings (g.normalized.rules.map (·.text))),
     ("sets", g.sets.rowsJson g.normalized), ("select", g.sets.selectJson g.normalized),
     ("table", g.table.json), ("conflicts", diagnosticsJson (g.table.conflicts.map (·.report)))]

def renderTokens (options : Options) (source : String) : String :=
  let (tokens, errors) := tokenize source
  let diagnostics := errors.map (·.report)
  options.render
    (.object [("tokens", .array (tokens.map (·.json))),
      ("diagnostics", diagnosticsJson diagnostics)])
    (tokensText tokens diagnostics)

def renderParse (options : Options) (g : PreparedGrammar) (source : String) : String :=
  let (tokens, errors) := tokenize source
  let parsed := parseTokens g tokens
  let diagnostics := errors.map (·.report) ++ parsed.errors.map (·.report)
  options.render
    (.object [("tree", parsed.tree.json), ("complete", .bool parsed.complete),
      ("diagnostics", diagnosticsJson diagnostics)])
    (parseText parsed.tree diagnostics)

/-- A command that needs a grammar loads it before the source. -/
def Command.run {m : Type → Type} [Monad m] (read : FileReader m) (options : Options) :
    Command → ExceptT Fatal m String
  | tokens file => do return renderTokens options (← readSource read file)
  | grammar => do
    let g ← loadGrammar read options
    return options.render g.json g.text
  | parse file => do
    let g ← loadGrammar read options
    return renderParse options g (← readSource read file)
  | compile file => do
    let g ← loadGrammar read options
    let c := FrontEnd.compile g (← readSource read file)
    return options.render c.json c.text

/-! ## Whole runs -/

structure Exit where
  code : Nat
  out : String
  err : String
deriving DecidableEq, Repr

def usage : String :=
  "usage: llfront [--grammar FILE] [--json] [-v] COMMAND\n" ++
    "commands: tokens FILE | grammar | parse FILE | compile FILE\n"

def runArgs {m : Type → Type} [Monad m] (read : FileReader m) (args : List String) : m Exit := do
  match Request.ofArgs? args with
  | none => return ⟨2, "", usage⟩
  | some .version => return ⟨0, "llfront 0.1.0\n", ""⟩
  | some (.run command options) =>
    match ← (command.run read options).run with
    | .ok out => return ⟨0, out, ""⟩
    | .error fatal => return ⟨1, "", fatal.text⟩

end FrontEnd
