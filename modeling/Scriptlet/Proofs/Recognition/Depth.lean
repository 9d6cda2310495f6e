import Mathlib.Data.List.Basic
import Scriptlet.Proofs.Recognition.Limits
import Scriptlet.Proofs.Recognition.Session

/-!
# The count of open groups

A cursor counts the groups that are open.  Whatever becomes of a rule, the
count goes up by one for each parenthesis that is opened on the way and down by
one for each that is closed.  So a rule that succeeds leaves it as it was, and a
rule that fails leaves it higher by the groups in which it failed.  A group is
refused as too deep only where an operand has to come and the count has reached
the limit.
-/

namespace Scriptlet

namespace Cursor

def passed (c d : Cursor) : List Token :=
  c.tokens.extract c.position d.position

private theorem passed_eq {c d : Cursor} {front : List Token} (hahead : c.ahead = front ++ d.ahead)
    (hbehind : d.behind = front.reverse ++ c.behind) : c.passed d = front := by
  simp [passed, List.extract, tokens, position, hahead, hbehind]

end Cursor

/-! ## Where an operand has to come -/

def Kind.precedesOperand (kind : Kind) : Bool :=
  kind == .assignment || kind == .lparen || Ladder.operators.contains kind

/-- Behind the tokens an operand has to come; if there are none, that is for `first` to say. -/
def OperandNext (first : Bool) (passed : List Token) : Prop :=
  (passed.getLast?.map Token.kind).elim first Kind.precedesOperand = true

namespace Stage

def isOperand : Stage → Bool
  | .operand _ => true
  | .target | .assignment | .operator _ => false

theorem Step.isOperand_eq {limit : Nat} {stage next : Stage} {kind : Kind}
    (h : Step limit stage kind next) : next.isOperand = kind.precedesOperand := by
  cases h with
  | target | assignment | integer | identifier | enter | leave => rfl
  | operator hop => simp [isOperand, Kind.precedesOperand, hop]

private theorem isOperand_after? {limit : Nat} {stage last : Stage} {front : List Token}
    (h : stage.after? limit (front.map Token.kind) = some last) :
    last.isOperand = true ↔ OperandNext stage.isOperand front := by
  rcases List.eq_nil_or_concat' front with rfl | ⟨init, token, rfl⟩
  · obtain rfl := Option.some.inj h
    rfl
  · rw [List.map_append, after?_append] at h
    obtain ⟨middle, -, hlast⟩ := Option.bind_eq_some_iff.mp h
    obtain ⟨next, hnext, hend⟩ := Option.bind_eq_some_iff.mp hlast
    obtain rfl := Option.some.inj hend
    rw [(next?_eq_some_iff.mp hnext).isOperand_eq]
    simp [OperandNext]

private theorem opens_iff {stage : Stage} {c : Cursor} :
    stage.Opens c.ahead ↔ c.sees .lparen = true ∧ stage.isOperand = true := by
  constructor
  · rintro ⟨opened, token, rfl, hhead, hkind⟩
    obtain ⟨rest, hahead⟩ := List.head?_eq_some_iff.mp hhead
    exact ⟨Cursor.sees_iff.mpr ⟨token, rest, hahead, hkind⟩, rfl⟩
  · rintro ⟨hsees, hoperand⟩
    obtain ⟨token, rest, hahead, hkind⟩ := Cursor.sees_iff.mp hsees
    cases stage with
    | operand opened => exact ⟨opened, token, rfl, by simp [hahead], hkind⟩
    | target | assignment | operator => contradiction

theorem Stuck.opened_eq {limit : Nat} {stage : Stage} {ahead : List Token}
    (h : stage.Stuck limit ahead) (hopens : stage.Opens ahead) (hle : stage.opened ≤ limit) :
    stage.opened = limit := by
  obtain ⟨opened, token, rfl, hhead, hkind⟩ := hopens
  have hnone := h token hhead
  simp only [hkind, next?, ite_eq_right_iff, reduceCtorEq, imp_false] at hnone
  exact Nat.le_antisymm hle (Nat.not_lt.mp hnone)

end Stage

/-! ## The count at the end of a rule -/

/-- How a rule leaves the count of open groups, and when it is that it fails because of it. -/
structure Run.Counts {c : Cursor} (run : Run c) (limit : Nat) (first : Bool) : Prop where
  depth_eq : run.cursor.depth + ((c.passed run.cursor).map Token.kind).count .rparen =
    c.depth + ((c.passed run.cursor).map Token.kind).count .lparen
  le_depth : c.depth ≤ run.cursor.depth
  depth_of_ok : run.verdict = .ok () → run.cursor.depth = c.depth
  tooDeep_iff : (∃ diagnostic, run.verdict = .error diagnostic ∧ diagnostic.code = "E_DEPTH") ↔
    run.cursor.sees .lparen = true ∧ OperandNext first (c.passed run.cursor) ∧
      run.cursor.depth = limit

namespace Run.EndsAs

variable {c : Cursor} {run : Run c} {limit : Nat}

theorem depth_of_ok {stop : Stop} (h : run.EndsAs limit stop) (hok : run.verdict = .ok ()) :
    run.cursor.depth = c.depth := by
  have hverdict := h.verdict_eq
  rw [hok, Stop.outcome] at hverdict
  split at hverdict
  · next hend => rw [h.cursor_eq, Stop.cursor, hend, Stage.opened, Nat.add_zero]
  · contradiction

theorem tooDeep_iff {stop : Stop} (h : run.EndsAs limit stop) :
    (∃ diagnostic, run.verdict = .error diagnostic ∧ diagnostic.code = "E_DEPTH") ↔
      stop.stage.Opens stop.ahead := by
  have hcode : (stop.stage.report limit (stop.cursor c.depth)).code = "E_DEPTH" ↔
      stop.stage.Opens stop.ahead := Stage.code_report_iff
  rw [h.verdict_eq, Stop.outcome, ← hcode]
  split
  · next hend =>
      rw [hcode, hend]
      simp [Stage.Opens]
  · simp

theorem counts {stage : Stage} (h : run.EndsAs limit (c.scan (limit - c.depth) stage))
    (hstage : stage.opened = 0) (hdepth : c.depth ≤ limit) :
    run.Counts limit stage.isOperand := by
  obtain ⟨front, hahead, hbehind, hafter, hstuck⟩ :=
    scan_split (limit - c.depth) stage c.behind c.ahead
  have hok := h.depth_of_ok
  have hdeep := h.tooDeep_iff
  have hcursor := h.cursor_eq
  rw [Cursor.scan] at hdeep hcursor
  generalize scan (limit - c.depth) stage c.behind c.ahead = stop at *
  have hpassed : c.passed run.cursor = front := by
    rw [hcursor]
    exact Cursor.passed_eq hahead hbehind
  have hcount := Stage.opened_after? hafter
  have hopened : stop.stage.opened ≤ limit - c.depth :=
    Stage.opened_le_of_after? hafter (by omega)
  have hnow : run.cursor.depth = c.depth + stop.stage.opened := by rw [hcursor, Stop.cursor]
  have hopens : stop.stage.Opens stop.ahead ↔
      run.cursor.sees .lparen = true ∧ OperandNext stage.isOperand front := by
    rw [hcursor, ← Stage.isOperand_after? hafter, ← Stage.opens_iff]
    rfl
  constructor
  case depth_eq =>
    rw [hpassed]
    omega
  case le_depth => omega
  case depth_of_ok => exact hok
  case tooDeep_iff =>
    rw [hdeep, hpassed, hopens, ← and_assoc]
    refine ⟨fun hnext => ⟨hnext, ?_⟩, And.left⟩
    have hfull := hstuck.opened_eq (hopens.mpr hnext) hopened
    omega

end Run.EndsAs

/-- In every session an expression and a statement keep count of the open groups; and where a group
is left, it is counted, so that taking it off leaves the count as it was before the group. -/
theorem groups_counted (options : Options) (tokens : List Token) (requests : List Request) :
    (expression options.maxDepth ((Cursor.start tokens).after options requests)).Counts
      options.maxDepth true ∧
    (assignmentStatement options.maxDepth ((Cursor.start tokens).after options requests)).Counts
      options.maxDepth false ∧
    ∀ c : Cursor, (expression options.maxDepth c.enter).verdict = .ok () →
      0 < (expression options.maxDepth c.enter).cursor.depth ∧
      (expression options.maxDepth c.enter).cursor.leave.depth = c.depth := by
  have hdepth : ((Cursor.start tokens).after options requests).depth ≤ options.maxDepth :=
    Cursor.depth_after_le (Nat.zero_le _) requests
  refine ⟨?_, ?_, fun c hok => ?_⟩
  · exact (expression_endsAs options.maxDepth _).counts rfl hdepth
  · exact (assignmentStatement_endsAs options.maxDepth _).counts rfl hdepth
  · have hkept := (expression_endsAs options.maxDepth c.enter).depth_of_ok hok
    rw [Cursor.depth_leave, hkept, Cursor.depth_enter]
    exact ⟨Nat.succ_pos _, Nat.add_sub_cancel _ _⟩

end Scriptlet
