import Scriptlet.Proofs.Recognition.Limits

/-!
# Levels of recursion

An expression is recognized by recursion, once more for each group that is
open.  A group is entered only below the limit, so the limit bounds the levels
of the recursion, however many tokens there are: an expression that may be
entered on no more levels than groups may be open, and one more, never notices
(`expressionWithin`).  On each level the rungs of the ladder are loops, and they
end because every round of a loop leaves two tokens behind at least, those of an
operand and an operator.
-/

namespace Scriptlet

/-! ## Tokens that a rule takes -/

namespace Run

def Consumes {c : Cursor} (run : Run c) : Prop :=
  run.verdict = .ok () → run.cursor.ahead.length < c.ahead.length

private theorem consumes_refuse (c : Cursor) (diagnostic : Diagnostic) :
    (refuse c diagnostic).Consumes :=
  nofun

private theorem consumes_step {c : Cursor} (h : c.ahead ≠ []) : (step c).Consumes :=
  fun _ => Cursor.length_ahead_advance_lt h

private theorem consumes_since {c d : Cursor} (h : d.ahead.length < c.ahead.length) (run : Run d) :
    (run.since (Nat.le_of_lt h)).Consumes :=
  fun _ => Nat.lt_of_le_of_lt run.length_le h

theorem Consumes.andThen {c : Cursor} {run : Run c} (h : run.Consumes)
    (next : (d : Cursor) → d.ahead.length ≤ c.ahead.length → Run d) :
    (run.andThen next).Consumes := by
  cases hv : run.verdict with
  | error diagnostic => rwa [andThen_of_error hv]
  | ok =>
      rw [andThen_of_ok hv]
      exact consumes_since (h hv) _

theorem consumes_expect (kind : Kind) (c : Cursor) : (expect kind c).Consumes := by
  unfold expect
  split
  · next hsees => exact consumes_step (Cursor.ne_nil_of_sees hsees)
  · exact consumes_refuse c _

end Run

namespace Ladder

theorem consumes_atom (limit : Nat) {n : Nat}
    (group : (c : Cursor) → c.ahead.length < n → Run c) (c : Cursor) (h : c.ahead.length ≤ n) :
    (atom limit group c h).Consumes := by
  refine atom_cases
    (P := fun verdict d => verdict = .ok () → d.ahead.length < c.ahead.length)
    ?enter ?deep ?step ?other h
  case enter =>
    intro h hsees _ _
    have hparen := Cursor.length_ahead_advance_lt (Cursor.ne_nil_of_sees hsees)
    exact Nat.lt_of_le_of_lt (Run.length_le _) hparen
  case deep => exact fun _ _ _ _ _ => nofun
  case step =>
    intro token rest hahead _ _
    exact Cursor.length_ahead_advance_lt (by simp [hahead])
  case other => exact fun _ => nofun

theorem consumes_chain {n : Nat} (op : Kind) {operand : Routine n}
    (hoperand : ∀ c h, (operand c h).Consumes) (c : Cursor) (h : c.ahead.length ≤ n) :
    (chain op operand c h).Consumes := by
  unfold chain
  exact (hoperand c h).andThen _

theorem consumes_foldr {n : Nat} {lowest : Routine n} (hlowest : ∀ c h, (lowest c h).Consumes)
    (rungs : List Kind) (c : Cursor) (h : c.ahead.length ≤ n) :
    (rungs.foldr chain lowest c h).Consumes := by
  induction rungs generalizing c with
  | nil => exact hlowest c h
  | cons op rungs ih => exact consumes_chain op ih c h

/-! ## Rounds of a loop -/

/-- From `c` the loop of a rung goes on for so many rounds and ends at `d`. -/
inductive Loop {n : Nat} (op : Kind) (operand : Routine n) :
    Nat → Cursor → Verdict → Cursor → Prop
  | fail {c h diagnostic} : (operand c h).verdict = .error diagnostic →
      Loop op operand 0 c (.error diagnostic) (operand c h).cursor
  | stop {c h} : (operand c h).verdict = .ok () → (operand c h).cursor.sees op = false →
      Loop op operand 0 c (.ok ()) (operand c h).cursor
  | round {rounds c h verdict d} : (operand c h).verdict = .ok () →
      (operand c h).cursor.sees op = true →
      Loop op operand rounds (operand c h).cursor.advance verdict d →
      Loop op operand (rounds + 1) c verdict d

theorem exists_loop {n : Nat} (op : Kind) (operand : Routine n) (c : Cursor)
    (h : c.ahead.length ≤ n) : ∃ rounds, Loop op operand rounds c
      (chain op operand c h).verdict (chain op operand c h).cursor := by
  refine chain_induct (P := fun c verdict d => ∃ rounds, Loop op operand rounds c verdict d)
    ?fail ?stop ?more c h
  case fail => exact fun c h diagnostic hv => ⟨0, .fail hv⟩
  case stop => exact fun c h hv hsees => ⟨0, .stop hv hsees⟩
  case more =>
    rintro c h verdict d hv hsees ⟨rounds, hloop⟩
    exact ⟨rounds + 1, .round hv hsees hloop⟩

theorem Loop.two_mul_le {n : Nat} {op : Kind} {operand : Routine n}
    (hoperand : ∀ c h, (operand c h).Consumes) {rounds : Nat} {c d : Cursor} {verdict : Verdict}
    (h : Loop op operand rounds c verdict d) : 2 * rounds ≤ c.ahead.length := by
  induction h with
  | fail | stop => exact Nat.zero_le _
  | @round rounds c h verdict d hv hsees _ ih =>
      have htaken := hoperand c h hv
      have hpassed := Cursor.length_ahead_advance_lt (Cursor.ne_nil_of_sees hsees)
      omega

/-! ## The rules of an expression -/

def rule (limit n : Nat) (rungs : List Kind) : Routine n :=
  rungs.foldr chain (atom limit fun d (_ : d.ahead.length < n) => expression limit d)

theorem rule_nil (limit n : Nat) : rule limit n [] =
    atom limit fun d (_ : d.ahead.length < n) => expression limit d := rfl

theorem expression_eq_rule (limit : Nat) (c : Cursor) :
    expression limit c = rule limit c.ahead.length operators c (Nat.le_refl _) := by
  rw [expression, rule]

theorem consumes_rule (limit n : Nat) (rungs : List Kind) (c : Cursor)
    (h : c.ahead.length ≤ n) : (rule limit n rungs c h).Consumes :=
  consumes_foldr (consumes_atom limit _) rungs c h

theorem follows_lowest (limit n : Nat) (c : Cursor) (h : c.ahead.length ≤ n) :
    Follows limit c (rule limit n [] c h).verdict (rule limit n [] c h).cursor := by
  rw [rule_nil]
  refine follows_atom ?_ ?_ c h
  · exact fun d _ => (follows_expression limit d).1
  · exact fun d _ => (follows_expression limit d).2

/-! ## Rules that agree -/

private theorem atom_congr {limit n : Nat}
    {group group' : (c : Cursor) → c.ahead.length < n → Run c} {c : Cursor}
    (hgroup : ∀ h, c.depth < limit → group' c.enter h = group c.enter h)
    (h : c.ahead.length ≤ n) : atom limit group' c h = atom limit group c h := by
  unfold atom
  split
  · rfl
  · split
    · split
      · next hlt =>
          exact congrArg (fun run => Run.since _ (Run.andThen run fun d _ => close d))
            (hgroup _ hlt)
      · rfl
    · rfl
    · rfl
    · rfl

private theorem atom_of_error {limit n : Nat} {c : Cursor} {token : Token} {rest : List Token}
    {diagnostic : Diagnostic} (hahead : c.ahead = token :: rest) (hkind : token.kind = .lparen)
    (hlt : c.depth < limit) (group : (c : Cursor) → c.ahead.length < n → Run c)
    (hgroup : ∀ h, (group c.enter h).verdict = .error diagnostic) (h : c.ahead.length ≤ n) :
    (atom limit group c h).verdict = .error diagnostic := by
  refine atom_cases (P := fun verdict _ => verdict = .error diagnostic) ?enter ?deep ?step ?other h
  case enter =>
    intro h _ _
    rw [Run.andThen_of_error (hgroup h)]
    exact hgroup h
  case deep => exact fun _ _ _ _ hle => absurd hlt (Nat.not_lt.mpr hle)
  case step =>
    intro other _ hother hinteger
    obtain ⟨rfl, -⟩ := List.cons.inj (hahead.symm.trans hother)
    simp [hkind] at hinteger
  case other =>
    intro hnot
    have hmem := hnot token rest hahead
    simp [operandKinds_eq, hkind] at hmem

private theorem chain_congr {n : Nat} {op : Kind} {operand operand' : Routine n} {depth : Nat}
    (hkeep : ∀ c h, (operand c h).verdict = .ok () → (operand c h).cursor.depth = c.depth)
    (hagree : ∀ c h, c.depth = depth → operand' c h = operand c h)
    (c : Cursor) (h : c.ahead.length ≤ n) (hc : c.depth = depth) :
    chain op operand' c h = chain op operand c h := by
  fun_induction chain op operand c h with
  | case1 c h ih =>
      rw [chain, hagree c h hc]
      cases hv : (operand c h).verdict with
      | error diagnostic => rw [Run.andThen_of_error hv, Run.andThen_of_error hv]
      | ok =>
          have hdepth := (hkeep c h hv).trans hc
          rw [Run.andThen_of_ok hv, Run.andThen_of_ok hv]
          split
          · next hop =>
              have hrest := ih _ (operand c h).length_le hop
                ((Cursor.depth_advance _).trans hdepth)
              exact congrArg (fun run => Run.since _ (Run.since _ run)) hrest
          · rfl

private theorem foldr_congr {limit n : Nat} {lowest lowest' : Routine n} {depth : Nat}
    (hlowest : ∀ c h, Follows limit c (lowest c h).verdict (lowest c h).cursor)
    (hagree : ∀ c h, c.depth = depth → lowest' c h = lowest c h) {rungs : List Kind}
    (hrungs : rungs ⊆ operators) (c : Cursor) (h : c.ahead.length ≤ n) (hc : c.depth = depth) :
    rungs.foldr chain lowest' c h = rungs.foldr chain lowest c h := by
  induction rungs generalizing c with
  | nil => exact hagree c h hc
  | cons op rungs ih =>
      have hrest : rungs ⊆ operators := fun kind hkind => hrungs (List.mem_cons_of_mem op hkind)
      refine chain_congr (fun d hd hok => ?_) (ih hrest) c h hc
      have hfollows := follows_rungs hrest hlowest d hd
      rw [hok] at hfollows
      exact (hfollows.ok (Nat.add_zero d.depth).symm).1

private theorem foldr_of_error {n : Nat} {lowest : Routine n} {c : Cursor} {h : c.ahead.length ≤ n}
    {diagnostic : Diagnostic} (hlowest : (lowest c h).verdict = .error diagnostic)
    (rungs : List Kind) : rungs.foldr chain lowest c h = lowest c h := by
  induction rungs with
  | nil => rfl
  | cons op rungs ih =>
      rw [← ih] at hlowest
      rw [List.foldr_cons, chain, Run.andThen_of_error hlowest, ih]

end Ladder

/-! ## Bounded recursion -/

def outOfLevels : Diagnostic where
  code := "E_LEVELS"
  message := "expression entered on too many levels"
  span := .point 0 1 1
  found := .endOfInput
  expected := .anyToken
  help := none

/-- An expression that may be entered on so many levels, its own included. -/
def expressionWithin (limit : Nat) : Nat → (c : Cursor) → Run c
  | 0, c => .refuse c outOfLevels
  | levels + 1, c =>
      Ladder.operators.foldr Ladder.chain
        (Ladder.atom limit fun d (_ : d.ahead.length < c.ahead.length) =>
          expressionWithin limit levels d)
        c Nat.le.refl

theorem expressionWithin_eq {limit levels : Nat} {c : Cursor} (h : limit - c.depth < levels) :
    expressionWithin limit levels c = expression limit c := by
  induction levels generalizing c with
  | zero => exact absurd h (Nat.not_lt_zero _)
  | succ levels ih =>
      have hatom : ∀ d hd, d.depth = c.depth →
          Ladder.atom limit (fun e (_ : e.ahead.length < c.ahead.length) =>
            expressionWithin limit levels e) d hd = Ladder.rule limit c.ahead.length [] d hd := by
        intro d hd hdepth
        rw [Ladder.rule_nil]
        refine Ladder.atom_congr (fun _ hlt => ih ?_) hd
        rw [Cursor.depth_enter]
        omega
      rw [expressionWithin, Ladder.expression_eq_rule]
      exact Ladder.foldr_congr (Ladder.follows_lowest limit _) hatom (List.Subset.refl _) c _ rfl

private theorem Stage.code_report_ne (limit : Nat) (stage : Stage) (c : Cursor) :
    (stage.report limit c).code ≠ outOfLevels.code := by
  by_cases hopens : stage.Opens c.ahead
  · rw [Stage.code_report_iff.mpr hopens]
    decide
  · rw [Stage.report_of_not_opens hopens, Cursor.code_unexpected]
    unfold Diagnostic.mismatchCode
    split <;> decide

private theorem expression_ne_outOfLevels (limit : Nat) (c : Cursor) :
    (expression limit c).verdict ≠ .error outOfLevels := by
  rw [(expression_endsAs limit c).verdict_eq, Stop.outcome]
  split
  · intro h
    cases h
  · intro h
    exact Stage.code_report_ne limit _ _ (congrArg Diagnostic.code (Except.error.inj h))

theorem expressionWithin_of_lparens {limit levels : Nat} {c : Cursor}
    (hahead : c.ahead = List.replicate levels (Token.ofKind .lparen))
    (hdepth : c.depth + levels ≤ limit) :
    (expressionWithin limit levels c).verdict = .error outOfLevels := by
  induction levels generalizing c with
  | zero => rfl
  | succ levels ih =>
      rw [List.replicate_succ] at hahead
      have henter : c.enter.ahead = List.replicate levels (Token.ofKind .lparen) := by
        rw [Cursor.ahead_enter, Cursor.advance_of_ahead hahead]
      have hgroup := ih henter (by rw [Cursor.depth_enter]; omega)
      have hlt : c.depth < limit := by omega
      have hatom := Ladder.atom_of_error hahead rfl hlt
        (fun d (_ : d.ahead.length < c.ahead.length) => expressionWithin limit levels d)
        (fun _ => hgroup) Nat.le.refl
      rw [expressionWithin, Ladder.foldr_of_error hatom, hatom]

/-- For an expression one level more is enough than groups may still be opened, whatever the tokens
are, and no fewer are enough for all.  The rule of a statement and each rule of an expression, that
of an atom and so of a group included, take a token if they succeed.  So the loop of each rung ends,
after at most half as many rounds as there are tokens ahead. -/
theorem expression_stays_within_levels (limit : Nat) (c : Cursor) :
    expressionWithin limit (limit - c.depth + 1) c = expression limit c ∧
    (expressionWithin limit (limit - c.depth + 1) c).verdict ≠ .error outOfLevels ∧
    (∀ levels, c.depth + levels ≤ limit → ∃ tokens,
      (expressionWithin limit levels ⟨c.behind, tokens, c.depth⟩).verdict =
        .error outOfLevels) ∧
    (assignmentStatement limit c).Consumes ∧
    (expression limit c).Consumes ∧
    ∀ n (h : c.ahead.length ≤ n) rungs, (Ladder.rule limit n rungs c h).Consumes ∧
      ∀ op, ∃ rounds, 2 * rounds ≤ c.ahead.length ∧
        Ladder.Loop op (Ladder.rule limit n rungs) rounds c
          (Ladder.rule limit n (op :: rungs) c h).verdict
          (Ladder.rule limit n (op :: rungs) c h).cursor := by
  have henough := expressionWithin_eq (Nat.lt_succ_self (limit - c.depth))
  refine ⟨henough, ?never, ?needed, ?statement, ?whole, fun n h rungs => ⟨?rule, fun op => ?loop⟩⟩
  case never =>
    rw [henough]
    exact expression_ne_outOfLevels limit c
  case needed => exact fun levels hle => ⟨_, expressionWithin_of_lparens rfl hle⟩
  case statement => exact (Run.consumes_expect .identifier c).andThen _
  case whole =>
    rw [Ladder.expression_eq_rule]
    exact Ladder.consumes_rule limit _ Ladder.operators c _
  case rule => exact Ladder.consumes_rule limit n rungs c h
  case loop =>
    obtain ⟨rounds, hloop⟩ := Ladder.exists_loop op (Ladder.rule limit n rungs) c h
    exact ⟨rounds, hloop.two_mul_le (Ladder.consumes_rule limit n rungs), hloop⟩

end Scriptlet
