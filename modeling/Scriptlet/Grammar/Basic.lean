import Scriptlet.Token

/-!
# Grammars

A grammar is a list of productions, each of which gives the alternative
right-hand sides of a rule, and a rule to start from.  A right-hand side is a
phrase: a sequence of tokens, rules and repetitions of phrases.  Phrases are
lists with three kinds of cell, so that induction on a phrase also goes into
the bodies of its repetitions.

Nothing here demands that a rule has one production, or any: what makes a
table usable is the subject of `Scriptlet.Grammar.Validation`.
-/

namespace Scriptlet

inductive Rule where
  | assignmentStatement
  | expression
  | subtExpression
  | addExpression
  | multExpression
  | atomicExpression
  deriving DecidableEq, Repr

namespace Rule

def all : List Rule :=
  [.assignmentStatement, .expression, .subtExpression, .addExpression,
    .multExpression, .atomicExpression]

def name : Rule → String
  | .assignmentStatement => "assignmentStatement"
  | .expression => "expression"
  | .subtExpression => "subtExpression"
  | .addExpression => "addExpression"
  | .multExpression => "multExpression"
  | .atomicExpression => "atomicExpression"

def ofName? (text : String) : Option Rule :=
  all.find? fun rule => rule.name == text

theorem mem_all (rule : Rule) : rule ∈ all := by
  cases rule <;> decide

@[simp] theorem ofName?_name (rule : Rule) : ofName? rule.name = some rule := by
  cases rule <;> decide

theorem name_injective {a b : Rule} (h : a.name = b.name) : a = b := by
  have hb : ofName? a.name = some b := h ▸ ofName?_name b
  exact Option.some.inj ((ofName?_name a).symm.trans hb)

end Rule

/-- A sequence of symbols; `many body rest` is any number of `body`, then `rest`. -/
inductive Phrase where
  | done
  | token (kind : Kind) (rest : Phrase)
  | rule (rule : Rule) (rest : Phrase)
  | many (body rest : Phrase)
  deriving DecidableEq, Repr

structure Production where
  rule : Rule
  alternatives : List Phrase
  deriving DecidableEq, Repr

structure Grammar where
  productions : List Production
  start : Rule
  deriving DecidableEq, Repr

namespace Grammar

/-- The production that counts for a rule, which is the first. -/
def production? (g : Grammar) (rule : Rule) : Option Production :=
  g.productions.find? fun p => p.rule == rule

def defines (g : Grammar) (rule : Rule) : Bool :=
  (g.production? rule).isSome

def alternatives (g : Grammar) (rule : Rule) : List Phrase :=
  ((g.production? rule).map Production.alternatives).getD []

theorem defines_iff {g : Grammar} {rule : Rule} :
    g.defines rule = true ↔ ∃ p ∈ g.productions, p.rule = rule := by
  simp [defines, production?]

end Grammar

end Scriptlet
