import Scriptlet.Grammar.Basic

/-!
# The grammar of statements

An assignment of an expression to a name.  Each level of the expression is a
chain of operands of the next level, joined by one operator; the level reached
first, of subtraction, binds loosest.
-/

namespace Scriptlet.Grammar

def chainPhrase (op : Kind) (operand : Rule) : Phrase :=
  .rule operand (.many (.token op (.rule operand .done)) .done)

def statement : Grammar where
  start := .assignmentStatement
  productions :=
    [⟨.assignmentStatement,
        [.token .identifier (.token .assignment (.rule .expression .done))]⟩,
      ⟨.expression, [.rule .subtExpression .done]⟩,
      ⟨.subtExpression, [chainPhrase .subtraction .addExpression]⟩,
      ⟨.addExpression, [chainPhrase .addition .multExpression]⟩,
      ⟨.multExpression, [chainPhrase .multiplication .atomicExpression]⟩,
      ⟨.atomicExpression,
        [.token .lparen (.rule .expression (.token .rparen .done)),
          .token .integer .done,
          .token .identifier .done]⟩]

theorem statement_defines (rule : Rule) : statement.defines rule = true := by
  cases rule <;> decide

end Scriptlet.Grammar
