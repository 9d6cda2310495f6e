import Scriptlet.Grammar.Leading
import Scriptlet.Grammar.Statement
import Scriptlet.Recognition.Run

/-!
# The ladder of precedence

Expressions are recognized by descent.  Each rung of the ladder is a chain of
operands of the next rung, and below the last rung is an atom: a number, a
name, or a whole expression in parentheses.  One token of lookahead decides
everything.

A group in parentheses is entered only while fewer than `limit` groups are
open.  The count of open groups belongs to the cursor; a group that fails
leaves it as it was at the failure.
-/

namespace Scriptlet

/-- A rule that can be applied wherever at most `n` tokens are ahead. -/
abbrev Routine (n : Nat) := (c : Cursor) → c.ahead.length ≤ n → Run c

namespace Ladder

def operandKinds : List Kind :=
  Grammar.statement.first .atomicExpression

theorem operandKinds_eq : operandKinds = [.lparen, .integer, .identifier] := by
  decide +kernel

def operators : List Kind :=
  [.subtraction, .addition, .multiplication]

def close (c : Cursor) : Run c :=
  if c.sees .rparen then ⟨.ok (), c.leave, c.length_ahead_advance_le⟩
  else .refuse c (c.unexpected (.kind .rparen))

def chain {n : Nat} (op : Kind) (operand : Routine n) (c : Cursor)
    (h : c.ahead.length ≤ n) : Run c :=
  (operand c h).andThen fun d hd =>
    if hop : d.sees op = true then
      have hlt := Cursor.length_ahead_advance_lt (Cursor.ne_nil_of_sees hop)
      (chain op operand d.advance (by omega)).since (Nat.le_of_lt hlt)
    else .done d
termination_by c.ahead.length

theorem chain_induct {n : Nat} {op : Kind} {operand : Routine n}
    {P : Cursor → Verdict → Cursor → Prop}
    (fail : ∀ c h diagnostic, (operand c h).verdict = .error diagnostic →
      P c (.error diagnostic) (operand c h).cursor)
    (stop : ∀ c h, (operand c h).verdict = .ok () → (operand c h).cursor.sees op = false →
      P c (.ok ()) (operand c h).cursor)
    (more : ∀ c h verdict e, (operand c h).verdict = .ok () →
      (operand c h).cursor.sees op = true → P (operand c h).cursor.advance verdict e →
      P c verdict e)
    (c : Cursor) (h : c.ahead.length ≤ n) :
    P c (chain op operand c h).verdict (chain op operand c h).cursor := by
  fun_induction chain op operand c h with
  | case1 c h ih =>
      cases hv : (operand c h).verdict with
      | error diagnostic =>
          rw [Run.andThen_of_error hv, hv]
          exact fail c h diagnostic hv
      | ok =>
          rw [Run.andThen_of_ok hv, Run.verdict_since, Run.cursor_since]
          split
          · next hop => exact more c h _ _ hv hop (ih _ (operand c h).length_le hop)
          · next hop => exact stop c h hv (Bool.eq_false_iff.mpr hop)

def atom (limit : Nat) {n : Nat} (group : (c : Cursor) → c.ahead.length < n → Run c)
    (c : Cursor) (h : c.ahead.length ≤ n) : Run c :=
  match hc : c.ahead with
  | [] => .refuse c (c.unexpected (.oneOf operandKinds))
  | token :: _ =>
      match token.kind with
      | .lparen =>
          if c.depth < limit then
            have hlt : c.enter.ahead.length < c.ahead.length :=
              Cursor.length_ahead_advance_lt (by simp [hc])
            ((group c.enter (Nat.lt_of_lt_of_le hlt h)).andThen fun d _ => close d).since
              (Nat.le_of_lt hlt)
          else .refuse c (.nestingTooDeep limit token)
      | .integer => .step c
      | .identifier => .step c
      | _ => .refuse c (c.unexpected (.oneOf operandKinds))

theorem atom_cases {limit n : Nat} {group : (c : Cursor) → c.ahead.length < n → Run c}
    {c : Cursor} {P : Verdict → Cursor → Prop}
    (enter : ∀ h, c.sees .lparen = true → c.depth < limit →
      P ((group c.enter h).andThen fun d _ => close d).verdict
        ((group c.enter h).andThen fun d _ => close d).cursor)
    (deep : ∀ token rest, c.ahead = token :: rest → token.kind = .lparen →
      limit ≤ c.depth → P (.error (.nestingTooDeep limit token)) c)
    (step : ∀ token rest, c.ahead = token :: rest →
      token.kind = .integer ∨ token.kind = .identifier → P (.ok ()) c.advance)
    (other : (∀ token rest, c.ahead = token :: rest → token.kind ∉ operandKinds) →
      P (.error (c.unexpected (.oneOf operandKinds))) c)
    (h : c.ahead.length ≤ n) : P (atom limit group c h).verdict (atom limit group c h).cursor := by
  unfold atom
  split
  · next hahead => exact other (by simp [hahead])
  · next token rest hahead =>
      split
      · next hkind =>
          split
          · next hlt =>
              have hsees : c.sees .lparen = true :=
                Cursor.sees_iff.mpr ⟨token, rest, hahead, hkind⟩
              exact enter _ hsees hlt
          · next hlt => exact deep token rest hahead hkind (Nat.not_lt.mp hlt)
      · next hkind => exact step token rest hahead (.inl hkind)
      · next hkind => exact step token rest hahead (.inr hkind)
      · next hlparen hinteger hidentifier =>
          refine other fun token' rest' hahead' => ?_
          obtain ⟨rfl, -⟩ := List.cons.inj (hahead.symm.trans hahead')
          rw [operandKinds_eq]
          simp only [List.mem_cons, List.not_mem_nil, or_false, not_or]
          exact ⟨hlparen, hinteger, hidentifier⟩

end Ladder

def expression (limit : Nat) (c : Cursor) : Run c :=
  Ladder.operators.foldr Ladder.chain
    (Ladder.atom limit fun d (_ : d.ahead.length < c.ahead.length) => expression limit d)
    c (Nat.le_refl _)
termination_by c.ahead.length

end Scriptlet
