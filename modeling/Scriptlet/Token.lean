import Scriptlet.Source.Span

/-!
# Tokens

A token is a classified piece of source text.  Twelve kinds exist; the grammar
of statements uses eight of them, and the other four are classified all the
same so that a report can name them.
-/

namespace Scriptlet

inductive Kind where
  | identifier
  | integer
  | boolean
  | equivalence
  | assignment
  | addition
  | subtraction
  | multiplication
  | logicalOr
  | logicalAnd
  | lparen
  | rparen
  deriving DecidableEq, Repr

namespace Kind

def all : List Kind :=
  [.identifier, .integer, .boolean, .equivalence, .assignment, .addition,
    .subtraction, .multiplication, .logicalOr, .logicalAnd, .lparen, .rparen]

def name : Kind → String
  | .identifier => "Identifier"
  | .integer => "Integer"
  | .boolean => "Boolean"
  | .equivalence => "Equivalence"
  | .assignment => "Assignment"
  | .addition => "Addition"
  | .subtraction => "Subtraction"
  | .multiplication => "Multiplication"
  | .logicalOr => "LogicalOR"
  | .logicalAnd => "LogicalAND"
  | .lparen => "LParen"
  | .rparen => "RParen"

def ofName? (text : String) : Option Kind :=
  all.find? fun kind => kind.name == text

theorem mem_all (kind : Kind) : kind ∈ all := by
  cases kind <;> decide

@[simp] theorem ofName?_name (kind : Kind) : ofName? kind.name = some kind := by
  cases kind <;> decide

theorem name_injective {a b : Kind} (h : a.name = b.name) : a = b := by
  have hb : ofName? a.name = some b := h ▸ ofName?_name b
  exact Option.some.inj ((ofName?_name a).symm.trans hb)

end Kind

structure Token where
  kind : Kind
  lexeme : String
  span : Span
  deriving DecidableEq, Repr

namespace Token

def display (token : Token) : String :=
  token.lexeme

end Token

end Scriptlet
