import Scriptlet.Recognition.Statement

/-!
# The scan

A statement can be recognized without descent, in one pass over the tokens
that keeps a stage: which part of the statement comes next and, inside the
expression, how many groups are open.  A scan goes on as long as the tokens
fit.  The stage in which it stops and the token that did not fit make the
verdict.
-/

namespace Scriptlet

/-! ## Stages -/

inductive Stage where
  | target
  | assignment
  | operand (opened : Nat)
  | operator (opened : Nat)
  deriving DecidableEq, Repr

namespace Stage

def opened : Stage → Nat
  | .target | .assignment => 0
  | .operand opened | .operator opened => opened

/-- The stage after a token of the kind; `none` if such a token does not fit. -/
def next? (limit : Nat) : Stage → Kind → Option Stage
  | .target, .identifier => some .assignment
  | .assignment, .assignment => some (.operand 0)
  | .operand opened, .integer => some (.operator opened)
  | .operand opened, .identifier => some (.operator opened)
  | .operand opened, .lparen =>
      if opened < limit then some (.operand (opened + 1)) else none
  | .operator opened, .addition => some (.operand opened)
  | .operator opened, .subtraction => some (.operand opened)
  | .operator opened, .multiplication => some (.operand opened)
  | .operator (opened + 1), .rparen => some (.operator opened)
  | _, _ => none

inductive Step (limit : Nat) : Stage → Kind → Stage → Prop
  | target : Step limit .target .identifier .assignment
  | assignment : Step limit .assignment .assignment (.operand 0)
  | integer {opened} : Step limit (.operand opened) .integer (.operator opened)
  | identifier {opened} : Step limit (.operand opened) .identifier (.operator opened)
  | enter {opened} : opened < limit →
      Step limit (.operand opened) .lparen (.operand (opened + 1))
  | operator {opened op} : op ∈ Ladder.operators →
      Step limit (.operator opened) op (.operand opened)
  | leave {opened} : Step limit (.operator (opened + 1)) .rparen (.operator opened)

theorem next?_eq_some_iff {limit : Nat} {stage next : Stage} {kind : Kind} :
    stage.next? limit kind = some next ↔ Step limit stage kind next := by
  constructor
  · intro h
    unfold next? at h
    split at h
    case h_5 =>
      split at h
      · next hlt =>
          obtain rfl := Option.some.inj h
          exact .enter hlt
      · contradiction
    case h_10 => contradiction
    all_goals
      obtain rfl := Option.some.inj h
      constructor
    all_goals decide
  · intro h
    cases h with
    | target | assignment | integer | identifier | leave => rfl
    | enter hlt => exact if_pos hlt
    | operator hop =>
        simp only [Ladder.operators, List.mem_cons, List.not_mem_nil, or_false] at hop
        rcases hop with rfl | rfl | rfl <;> rfl

theorem Step.opened_eq {limit : Nat} {stage next : Stage} {kind : Kind}
    (h : Step limit stage kind next) :
    next.opened + [kind].count .rparen = stage.opened + [kind].count .lparen := by
  cases h with
  | target | assignment | integer | identifier | enter | leave => rfl
  | operator hop =>
      simp only [Ladder.operators, List.mem_cons, List.not_mem_nil, or_false] at hop
      rcases hop with rfl | rfl | rfl <;> rfl

theorem Step.of_opened_lt {limit limit' : Nat} {stage next : Stage} {kind : Kind}
    (h : Step limit stage kind next) (hopen : kind = .lparen → stage.opened < limit') :
    Step limit' stage kind next := by
  cases h with
  | target => exact .target
  | assignment => exact .assignment
  | integer => exact .integer
  | identifier => exact .identifier
  | enter => exact .enter (hopen rfl)
  | operator hop => exact .operator hop
  | leave => exact .leave

theorem Step.opened_lt {limit : Nat} {stage next : Stage}
    (h : Step limit stage .lparen next) : stage.opened < limit := by
  cases h with
  | enter hlt => exact hlt
  | operator hop => exact absurd hop (by decide)

theorem Step.opened_le {limit : Nat} {stage next : Stage} {kind : Kind}
    (h : Step limit stage kind next) (hopened : stage.opened ≤ limit) : next.opened ≤ limit := by
  cases h with
  | target | assignment | integer | identifier | operator => exact hopened
  | enter hlt => exact hlt
  | leave => exact Nat.le_of_succ_le hopened

theorem next?_operand_eq_none {limit opened : Nat} {kind : Kind} (hinteger : kind ≠ .integer)
    (hidentifier : kind ≠ .identifier) (hopen : kind = .lparen → limit ≤ opened) :
    (operand opened).next? limit kind = none := by
  cases hnext : (operand opened).next? limit kind with
  | none => rfl
  | some next =>
      cases next?_eq_some_iff.mp hnext with
      | integer => contradiction
      | identifier => contradiction
      | enter hlt => exact absurd hlt (Nat.not_lt.mpr (hopen rfl))

/-! ## Words -/

def after? (limit : Nat) (stage : Stage) (word : List Kind) : Option Stage :=
  word.foldlM (next? limit) stage

@[simp] theorem after?_nil (limit : Nat) (stage : Stage) :
    stage.after? limit [] = some stage := rfl

@[simp] theorem after?_cons (limit : Nat) (stage : Stage) (kind : Kind) (word : List Kind) :
    stage.after? limit (kind :: word) =
      (stage.next? limit kind).bind fun next => next.after? limit word := rfl

theorem after?_append (limit : Nat) (stage : Stage) (front word : List Kind) :
    stage.after? limit (front ++ word) =
      (stage.after? limit front).bind fun next => next.after? limit word :=
  List.foldlM_append

theorem opened_after? {limit : Nat} {stage last : Stage} {word : List Kind}
    (h : stage.after? limit word = some last) :
    last.opened + word.count .rparen = stage.opened + word.count .lparen := by
  induction word generalizing stage with
  | nil =>
      obtain rfl := Option.some.inj h
      rfl
  | cons kind word ih =>
      obtain ⟨next, hnext, hword⟩ := Option.bind_eq_some_iff.mp h
      have hstep := (next?_eq_some_iff.mp hnext).opened_eq
      have hrest := ih hword
      rw [List.count_cons, List.count_cons]
      simp only [List.count_cons, List.count_nil, Nat.zero_add] at hstep
      omega

theorem opened_le_of_after? {limit : Nat} {stage last : Stage} {word : List Kind}
    (h : stage.after? limit word = some last) (hopened : stage.opened ≤ limit) :
    last.opened ≤ limit := by
  induction word generalizing stage with
  | nil =>
      obtain rfl := Option.some.inj h
      exact hopened
  | cons kind word ih =>
      obtain ⟨next, hnext, hword⟩ := Option.bind_eq_some_iff.mp h
      exact ih hword ((next?_eq_some_iff.mp hnext).opened_le hopened)

end Stage

/-! ## Scanning tokens -/

structure Stop where
  stage : Stage
  behind : List Token
  ahead : List Token
  deriving DecidableEq, Repr

def scan (limit : Nat) (stage : Stage) (behind : List Token) : List Token → Stop
  | [] => ⟨stage, behind, []⟩
  | token :: rest =>
      match stage.next? limit token.kind with
      | some next => scan limit next (token :: behind) rest
      | none => ⟨stage, behind, token :: rest⟩

/-- The first of the tokens, if there is one, does not fit the stage. -/
def Stage.Stuck (limit : Nat) (stage : Stage) (ahead : List Token) : Prop :=
  ∀ token ∈ ahead.head?, stage.next? limit token.kind = none

theorem Stage.stuck_nil (limit : Nat) (stage : Stage) : stage.Stuck limit [] := by
  simp [Stuck]

theorem Stage.stuck_operand {limit opened : Nat} {token : Token} {rest : List Token}
    (hinteger : token.kind ≠ .integer) (hidentifier : token.kind ≠ .identifier)
    (hopen : token.kind = .lparen → limit ≤ opened) :
    (operand opened).Stuck limit (token :: rest) := by
  intro other hother
  obtain rfl := Option.some.inj hother
  exact next?_operand_eq_none hinteger hidentifier hopen

@[simp] theorem scan_nil (limit : Nat) (stage : Stage) (behind : List Token) :
    scan limit stage behind [] = ⟨stage, behind, []⟩ := rfl

theorem scan_cons {limit : Nat} {stage next : Stage} {token : Token}
    (h : stage.next? limit token.kind = some next) (behind rest : List Token) :
    scan limit stage behind (token :: rest) = scan limit next (token :: behind) rest := by
  rw [scan, h]

theorem scan_of_stuck {limit : Nat} {stage : Stage} {ahead : List Token}
    (h : stage.Stuck limit ahead) (behind : List Token) :
    scan limit stage behind ahead = ⟨stage, behind, ahead⟩ := by
  cases ahead with
  | nil => rfl
  | cons token rest => rw [scan, h token rfl]

theorem scan_append {limit : Nat} {stage next : Stage} {front : List Token}
    (h : stage.after? limit (front.map Token.kind) = some next) (behind rest : List Token) :
    scan limit stage behind (front ++ rest) =
      scan limit next (front.reverse ++ behind) rest := by
  induction front generalizing stage behind with
  | nil =>
      obtain rfl := Option.some.inj h
      rfl
  | cons token front ih =>
      obtain ⟨middle, hmiddle, hfront⟩ := Option.bind_eq_some_iff.mp h
      rw [List.cons_append, scan_cons hmiddle, ih hfront, List.reverse_cons,
        List.append_assoc, List.singleton_append]

theorem scan_split (limit : Nat) (stage : Stage) (behind tokens : List Token) :
    ∃ front, tokens = front ++ (scan limit stage behind tokens).ahead ∧
      (scan limit stage behind tokens).behind = front.reverse ++ behind ∧
      stage.after? limit (front.map Token.kind) =
        some (scan limit stage behind tokens).stage ∧
      (scan limit stage behind tokens).stage.Stuck limit
        (scan limit stage behind tokens).ahead := by
  induction tokens generalizing stage behind with
  | nil => exact ⟨[], rfl, rfl, rfl, stage.stuck_nil limit⟩
  | cons token rest ih =>
      cases hnext : stage.next? limit token.kind with
      | none =>
          have hstuck : stage.Stuck limit (token :: rest) := by
            intro other hother
            obtain rfl := Option.some.inj hother
            exact hnext
          rw [scan_of_stuck hstuck]
          exact ⟨[], rfl, rfl, rfl, hstuck⟩
      | some next =>
          obtain ⟨front, htokens, hbehind, hafter, hstuck⟩ := ih next (token :: behind)
          rw [scan_cons hnext]
          refine ⟨token :: front, ?_, ?_, ?_, hstuck⟩
          · rw [List.cons_append, ← htokens]
          · rw [hbehind, List.reverse_cons, List.append_assoc, List.singleton_append]
          · rw [List.map_cons, Stage.after?_cons, hnext]
            exact hafter

theorem scan_eq_of_after? {limit : Nat} {stage last : Stage} {front rest : List Token}
    (h : stage.after? limit (front.map Token.kind) = some last)
    (hstuck : last.Stuck limit rest) (behind : List Token) :
    scan limit stage behind (front ++ rest) = ⟨last, front.reverse ++ behind, rest⟩ := by
  rw [scan_append h, scan_of_stuck hstuck]

theorem scan_eq_of_after?_all {limit : Nat} {stage last : Stage} {tokens : List Token}
    (h : stage.after? limit (tokens.map Token.kind) = some last) (behind : List Token) :
    scan limit stage behind tokens = ⟨last, tokens.reverse ++ behind, []⟩ := by
  have hscan := scan_eq_of_after? h (Stage.stuck_nil limit last) behind
  rwa [List.append_nil] at hscan

namespace Token

def ofKind (kind : Kind) : Token :=
  ⟨kind, kind.name, .point 0 1 1⟩

@[simp] theorem map_kind_ofKind (word : List Kind) :
    (word.map ofKind).map Token.kind = word := by
  simp [Function.comp_def, ofKind]

end Token

namespace Options

def scan (options : Options) (tokens : List Token) : Stop :=
  Scriptlet.scan options.maxDepth .target [] tokens

end Options

/-! ## Verdicts -/

/-- What a diagnostic says, its place and wording left out. -/
structure Refusal where
  code : String
  expected : Expected
  found : Found
  deriving DecidableEq, Repr

namespace Diagnostic

def refusal (diagnostic : Diagnostic) : Refusal :=
  ⟨diagnostic.code, diagnostic.expected, diagnostic.found⟩

end Diagnostic

namespace Stop

def found (stop : Stop) : Found :=
  (stop.ahead.head?.map Found.token).getD .endOfInput

/-- An opening parenthesis does not fit an operand stage only if too many groups are open. -/
def verdict (options : Options) (stop : Stop) : Except Refusal Unit :=
  match stop.stage with
  | .target => .error ⟨"E_SYNTAX", .kind .identifier, stop.found⟩
  | .assignment => .error ⟨"E_SYNTAX", .kind .assignment, stop.found⟩
  | .operand _ =>
      if stop.ahead.head?.map Token.kind = some .lparen then
        .error ⟨"E_DEPTH", .oneOf [.integer, .identifier], stop.found⟩
      else .error ⟨"E_SYNTAX", .oneOf [.lparen, .integer, .identifier], stop.found⟩
  | .operator 0 =>
      if stop.ahead = [] ∨ options.allowTrailing = true then .ok ()
      else .error ⟨"E_TRAILING", .endOfInput, stop.found⟩
  | .operator (_ + 1) => .error ⟨"E_SYNTAX", .kind .rparen, stop.found⟩

end Stop

end Scriptlet
