import Scriptlet.Token

/-!
# Diagnostics

A diagnostic is one reported problem: where it is, what was found there, and
what would have been accepted instead.  Its message is derived from these
three when one of the constructors below makes it.
-/

namespace Scriptlet

inductive Found where
  | token (token : Token)
  | char (c : Char)
  | endOfInput
  deriving DecidableEq, Repr

inductive Expected where
  | kind (kind : Kind)
  | oneOf (kinds : List Kind)
  | endOfInput
  | anyToken
  deriving DecidableEq, Repr

namespace Found

def display : Found → String
  | .token t => "`" ++ t.kind.name ++ "` (`" ++ t.lexeme ++ "`)"
  | .char c => "`" ++ String.singleton c ++ "`"
  | .endOfInput => "end of input"

end Found

namespace Expected

def display : Expected → String
  | .kind k => "`" ++ k.name ++ "`"
  | .oneOf ks => "one of \x7b" ++ ", ".intercalate (ks.map Kind.name) ++ "\x7d"
  | .endOfInput => "end of input"
  | .anyToken => "a token"

def kinds : Expected → List Kind
  | .kind k => [k]
  | .oneOf ks => ks
  | .endOfInput => []
  | .anyToken => []

end Expected

structure Diagnostic where
  code : String
  message : String
  span : Span
  found : Found
  expected : Expected
  help : Option String
  deriving DecidableEq, Repr

namespace Diagnostic

def unrecognizedCharacter (c : Char) (span : Span) : Diagnostic where
  code := "E_LEX"
  message :=
    "unexpected character: `" ++ String.singleton c ++ "` at offset " ++ toString span.start
  span := span
  found := .char c
  expected := .anyToken
  help := none

/-- Input left over after a complete statement has a code of its own. -/
def mismatchCode : Expected → String
  | .endOfInput => "E_TRAILING"
  | _ => "E_SYNTAX"

def mismatch (expected : Expected) (found : Found) (span : Span) : Diagnostic where
  code := mismatchCode expected
  message :=
    "expected " ++ expected.display ++ ", found " ++ found.display
      ++ " at offset " ++ toString span.start
  span := span
  found := found
  expected := expected
  help := none

def nestingTooDeep (limit : Nat) (token : Token) : Diagnostic where
  code := "E_DEPTH"
  message :=
    "expression nesting exceeds the maximum depth of " ++ toString limit
      ++ " at offset " ++ toString token.span.start
  span := token.span
  found := .token token
  expected := .oneOf [.integer, .identifier]
  help := none

/-- A later help text replaces an earlier one. -/
def withHelp (diagnostic : Diagnostic) (text : String) : Diagnostic :=
  { diagnostic with help := some text }

def display (diagnostic : Diagnostic) : String :=
  diagnostic.message

def rejection (diagnostic : Diagnostic) : String :=
  "Sad sad panda, parsing errors detected!\n" ++ diagnostic.message

@[simp] theorem withHelp_withHelp (diagnostic : Diagnostic) (first second : String) :
    (diagnostic.withHelp first).withHelp second = diagnostic.withHelp second := rfl

end Diagnostic

end Scriptlet
