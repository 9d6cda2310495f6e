import Mathlib.Data.Set.Subsingleton
import Scriptlet.Proofs.Recognition.Language

/-!
# The tokens that an expression takes

Of the tokens ahead of it an expression takes some and leaves the others.
Several of their prefixes may be expressions, since an operator can lead from
one to a longer one.  The prefix that is taken is the one that no operator
follows; an operator that leads nowhere is not left over, but refused, whatever
stood in front of it.
-/

namespace Scriptlet

/-- The rule derives the first `n` of the tokens, no group among them is nested more than `room`
deep, and no operator is next. -/
structure WholeFront (r : Rule) (room : Nat) (tokens : List Token) (n : Nat) : Prop where
  le_length : n ≤ tokens.length
  derives : Grammar.statement.Derives (.rule r .done) ((tokens.take n).map Token.kind)
  nested : NestedWithin room 0 ((tokens.take n).map Token.kind)
  not_operator : ∀ token ∈ tokens[n]?, token.kind ∉ Ladder.operators

namespace Stage

private theorem next?_operator_zero_eq_none_iff {limit : Nat} {kind : Kind} :
    (operator 0).next? limit kind = none ↔ kind ∉ Ladder.operators := by
  cases kind <;> simp [next?, Ladder.operators]

private theorem stuck_operator_zero_iff {limit : Nat} {tokens : List Token} :
    (operator 0).Stuck limit tokens ↔ ∀ token ∈ tokens.head?, token.kind ∉ Ladder.operators := by
  simp only [Stuck, next?_operator_zero_eq_none_iff]

end Stage

theorem wholeFront_iff_scan {r : Rule} {stage : Stage} {limit : Nat}
    (hstage : ∀ word, stage.after? limit word = some (.operator 0) ↔
      Grammar.statement.Derives (.rule r .done) word ∧ NestedWithin limit 0 word)
    (behind tokens : List Token) (n : Nat) :
    WholeFront r limit tokens n ↔ (scan limit stage behind tokens).stage = .operator 0 ∧
      (scan limit stage behind tokens).behind.length = behind.length + n := by
  constructor
  · rintro ⟨hlength, hderives, hnested, hnext⟩
    have hafter := (hstage _).mpr ⟨hderives, hnested⟩
    have hstuck : (Stage.operator 0).Stuck limit (tokens.drop n) := by
      rw [Stage.stuck_operator_zero_iff, List.head?_drop]
      exact hnext
    have hscan := scan_eq_of_after? hafter hstuck behind
    rw [List.take_append_drop] at hscan
    rw [hscan]
    refine ⟨rfl, ?_⟩
    rw [List.length_append, List.length_reverse, List.length_take_of_le hlength, Nat.add_comm]
  · rintro ⟨hoperator, hlength⟩
    obtain ⟨front, htokens, hbehind, hafter, hstuck⟩ := scan_split limit stage behind tokens
    rw [hoperator] at hafter hstuck
    generalize (scan limit stage behind tokens).ahead = ahead at htokens hstuck
    obtain rfl : front.length = n := by
      rw [hbehind, List.length_append, List.length_reverse] at hlength
      omega
    obtain ⟨hderives, hnested⟩ := (hstage _).mp hafter
    subst htokens
    constructor
    case le_length => simp
    case derives => rwa [List.take_left]
    case nested => rwa [List.take_left]
    case not_operator =>
      rw [← List.head?_drop, List.drop_left]
      exact Stage.stuck_operator_zero_iff.mp hstuck

theorem Run.EndsAs.verdict_eq_ok_iff {c : Cursor} {run : Run c} {limit : Nat} {stop : Stop}
    (h : run.EndsAs limit stop) : run.verdict = .ok () ↔ stop.stage = .operator 0 := by
  rw [h.verdict_eq, Stop.outcome]
  by_cases hstage : stop.stage = .operator 0 <;> simp [hstage]

/-- An expression succeeds at any cursor just by taking a whole front of the tokens ahead, of which
there is one at most.  So a statement that tokens may follow is accepted if and only if some front
of the tokens is a whole one. -/
theorem expression_takes_wholeFront (limit : Nat) (c : Cursor) :
    (∀ n, (expression limit c).verdict = .ok () ∧
        (expression limit c).cursor.position = c.position + n ↔
      WholeFront .expression (limit - c.depth) c.ahead n) ∧
    {n | WholeFront .expression (limit - c.depth) c.ahead n}.Subsingleton ∧
    ∀ tokens, recognize ⟨limit, true⟩ tokens = .ok () ↔
      ∃ n, WholeFront .assignmentStatement limit tokens n := by
  have htaken : ∀ n, (expression limit c).verdict = .ok () ∧
      (expression limit c).cursor.position = c.position + n ↔
        WholeFront .expression (limit - c.depth) c.ahead n := by
    intro n
    have hends := expression_endsAs limit c
    rw [hends.verdict_eq_ok_iff, hends.cursor_eq,
      wholeFront_iff_scan (fun _ => Stage.after?_operand_iff) c.behind]
    rfl
  refine ⟨htaken, ?_, fun tokens => ?_⟩
  · intro m hm n hn
    have hposition := ((htaken m).mpr hm).2
    rw [((htaken n).mpr hn).2] at hposition
    exact (Nat.add_left_cancel hposition).symm
  · simp only [wholeFront_iff_scan (fun _ => Stage.after?_target_iff) [],
      recognize_eq_ok_iff_accepted]
    constructor
    · rintro ⟨hstage, -⟩
      exact ⟨_, hstage, (Nat.zero_add _).symm⟩
    · rintro ⟨_, hstage, -⟩
      exact ⟨hstage, .inr rfl⟩

end Scriptlet
