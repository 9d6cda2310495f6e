import Scriptlet.Diagnostic.Report
import Scriptlet.Grammar.Ebnf
import Scriptlet.Grammar.Validation
import Scriptlet.Json.Encoding
import Scriptlet.Recognition.Statement

/-!
# The command line

The program reads one text, given as an argument, and prints its lexing as
JSON; lexical errors are reported beside it.  On demand it also prints the
grammar, and says whether the text is a statement.  What it prints and the
code with which it ends are a value, `Outcome`, of the arguments alone.
-/

namespace Scriptlet.CommandLine

/-! ## Arguments -/

inductive Argument where
  | parse
  | grammar
  | help
  | unknown (flag : String)
  | text (text : String)
  deriving DecidableEq, Repr

namespace Argument

/-- Two hyphens begin a flag; one hyphen does so in `-h` only. -/
def ofString (arg : String) : Argument :=
  if arg = "--parse" then .parse
  else if arg = "--grammar" then .grammar
  else if arg = "-h" ∨ arg = "--help" then .help
  else if ['-', '-'].isPrefixOf arg.toList then .unknown arg
  else .text arg

end Argument

inductive UsageError where
  | help
  | unknownOption (flag : String)
  | extraInput
  deriving DecidableEq, Repr

namespace UsageError

def usage : String :=
  "usage: panda [--parse] [--grammar] [TEXT]"

def message : UsageError → String
  | .help => usage
  | .unknownOption flag => "unknown option `" ++ flag ++ "`\n" ++ usage
  | .extraInput => "more than one input given\n" ++ usage

end UsageError

structure Invocation where
  parse : Bool
  grammar : Bool
  text : Option String
  deriving DecidableEq, Repr

namespace Invocation

def empty : Invocation :=
  ⟨false, false, none⟩

def add (invocation : Invocation) : Argument → Except UsageError Invocation
  | .parse => .ok { invocation with parse := true }
  | .grammar => .ok { invocation with grammar := true }
  | .help => .error .help
  | .unknown flag => .error (.unknownOption flag)
  | .text text =>
      if invocation.text.isSome then .error .extraInput
      else .ok { invocation with text := some text }

def read (invocation : Invocation) : List Argument → Except UsageError Invocation
  | [] => .ok invocation
  | argument :: rest =>
      match invocation.add argument with
      | .ok next => next.read rest
      | .error error => .error error

def source (invocation : Invocation) : String :=
  invocation.text.getD "True == Truething"

end Invocation

/-! ## Outcomes -/

structure Outcome where
  code : Nat
  stdout : String
  stderr : String
  deriving DecidableEq, Repr

def line (text : String) : String :=
  text ++ "\n"

def report (source : String) : Report :=
  ⟨"<input>", source⟩

def grammarText : String :=
  String.join (Grammar.statement.productions.map fun p => line p.ebnf)

def lexingText (lexing : Lexing) : String :=
  line lexing.toJson.render

def lexicalReports (source : String) (lexing : Lexing) : String :=
  String.join (lexing.errors.map (report source).render)

namespace Invocation

def preface (invocation : Invocation) : String :=
  if invocation.grammar then grammarText else ""

def examine (invocation : Invocation) : Outcome :=
  let source := invocation.source
  let lexing := lex source
  let stdout := invocation.preface ++ lexingText lexing
  let reports := lexicalReports source lexing
  if invocation.parse then
    match recognize .standard lexing.tokens with
    | .ok () => ⟨0, stdout ++ line "accepted", reports⟩
    | .error diagnostic =>
        ⟨1, stdout, reports ++ line diagnostic.rejection ++ (report source).render diagnostic⟩
  else ⟨0, stdout, reports⟩

/-- A grammar that is shown is validated first. -/
def outcome (invocation : Invocation) : Outcome :=
  match if invocation.grammar then Grammar.statement.defect? else none with
  | none => invocation.examine
  | some defect => ⟨1, invocation.preface, line ("panda: " ++ defect.message)⟩

end Invocation

def run (args : List String) : Outcome :=
  match Invocation.empty.read (args.map Argument.ofString) with
  | .ok invocation => invocation.outcome
  | .error error => ⟨2, "", line error.message⟩

end Scriptlet.CommandLine
