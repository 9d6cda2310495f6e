import Scriptlet.Proofs.Recognition.Verdict

/-!
# Completions

In every stage of a scan the statement can still be completed: an operand, if
one is due, and then the parentheses that are open.  A token that does not fit
the stage, on the other hand, settles the verdict whatever follows.  So a
refusal names the earliest place at which the tokens go wrong, and tells
tokens that are wrong from tokens that are not complete.
-/

namespace Scriptlet

namespace Stage

def completion : Stage → List Kind
  | .target => [.identifier, .assignment, .integer]
  | .assignment => [.assignment, .integer]
  | .operand opened => .integer :: List.replicate opened .rparen
  | .operator opened => List.replicate opened .rparen

private theorem after?_replicate_rparen (limit opened : Nat) :
    (operator opened).after? limit (List.replicate opened .rparen) = some (.operator 0) := by
  induction opened with
  | zero => rfl
  | succ opened ih =>
      rw [List.replicate_succ, after?_cons, next?_eq_some_iff.mpr .leave, Option.bind_some, ih]

theorem after?_completion (limit : Nat) (stage : Stage) :
    stage.after? limit stage.completion = some (.operator 0) := by
  cases stage with
  | target | assignment => rfl
  | operand opened =>
      rw [completion, after?_cons, next?_eq_some_iff.mpr .integer, Option.bind_some,
        after?_replicate_rparen]
  | operator opened => exact after?_replicate_rparen limit opened

private theorem report_cons (limit : Nat) (stage : Stage) (behind rest rest' : List Token)
    (token : Token) (depth : Nat) :
    stage.report limit ⟨behind, token :: rest, depth⟩ =
      stage.report limit ⟨behind, token :: rest', depth⟩ := by
  cases stage <;> rfl

theorem report_cases (limit : Nat) (stage : Stage) (c : Cursor) :
    (∃ token, c.peek? = some token ∧ (stage.report limit c).found = .token token ∧
      (stage.report limit c).span = token.span) ∨
    (c.peek? = none ∧ (stage.report limit c).found = .endOfInput ∧
      (stage.report limit c).span = c.endSpan) := by
  have hunexpected : ∀ expected,
      (∃ token, c.peek? = some token ∧ (c.unexpected expected).found = .token token ∧
        (c.unexpected expected).span = token.span) ∨
      (c.peek? = none ∧ (c.unexpected expected).found = .endOfInput ∧
        (c.unexpected expected).span = c.endSpan) := by
    intro expected
    unfold Cursor.unexpected
    cases c.peek? with
    | some token => exact .inl ⟨token, rfl, rfl, rfl⟩
    | none => exact .inr ⟨rfl, rfl, rfl⟩
  unfold report
  split
  · next token hpeek =>
      split
      · exact .inl ⟨token, hpeek, rfl, rfl⟩
      · exact hunexpected _
  · exact hunexpected _

theorem found_report (limit : Nat) (stage : Stage) (c : Cursor) :
    (stage.report limit c).found = (c.peek?.map Found.token).getD .endOfInput := by
  rcases report_cases limit stage c with ⟨token, hpeek, hfound, -⟩ | ⟨hpeek, hfound, -⟩
  · rw [hfound, hpeek]
    rfl
  · rw [hfound, hpeek]
    rfl

end Stage

theorem recognize_completed {options : Options} {front : List Token} {stage : Stage}
    (h : Stage.target.after? options.maxDepth (front.map Token.kind) = some stage) :
    recognize options (front ++ stage.completion.map Token.ofKind) = .ok () := by
  refine recognize_eq_ok_iff_exists.mpr
    ⟨_, [], (List.append_nil _).symm, ?_, Stage.stuck_nil _ _, .inl rfl⟩
  rw [List.map_append, Token.map_kind_ofKind, Stage.after?_append, h, Option.bind_some]
  exact Stage.after?_completion options.maxDepth stage

/-- Once a token does not fit, what follows it does not count. -/
theorem recognize_stuck {options : Options} {front : List Token} {stage : Stage}
    {token : Token}
    (h : Stage.target.after? options.maxDepth (front.map Token.kind) = some stage)
    (hstuck : stage.next? options.maxDepth token.kind = none) (rest rest' : List Token) :
    recognize options (front ++ token :: rest) =
      recognize options (front ++ token :: rest') := by
  have hscan : ∀ rest, options.scan (front ++ token :: rest) =
      ⟨stage, front.reverse ++ [], token :: rest⟩ := by
    intro rest
    refine scan_eq_of_after? h (fun other hother => ?_) []
    obtain rfl := Option.some.inj hother
    exact hstuck
  have hdiagnostic : ∀ rest rest', Stop.diagnostic options
      ⟨stage, front.reverse ++ [], token :: rest⟩ =
        Stop.diagnostic options ⟨stage, front.reverse ++ [], token :: rest'⟩ :=
    fun rest rest' => Stage.report_cons options.maxDepth stage _ rest rest' token _
  rw [recognize_eq_scan, recognize_eq_scan, hscan rest, hscan rest', hdiagnostic rest rest']
  simp [Stop.Accepted]

/-- Either the tokens run out and more of them would be accepted, or the refusal is at a token: up
to it the tokens can be completed, and with it they are refused in the same way whatever
follows. -/
def EarliestRefusal (options : Options) (tokens : List Token) (diagnostic : Diagnostic) : Prop :=
  (diagnostic.found = .endOfInput ∧ ∃ more, recognize options (tokens ++ more) = .ok ()) ∨
  ∃ token, diagnostic.found = .token token ∧
    let place := (recognition options (.start tokens)).cursor.position
    tokens[place]? = some token ∧
    (∃ more, recognize options (tokens.take place ++ more) = .ok ()) ∧
    ∀ more, recognize options (tokens.take (place + 1) ++ more) = .error diagnostic

theorem earliestRefusal_of_recognize {options : Options} {tokens : List Token}
    {diagnostic : Diagnostic} (h : recognize options tokens = .error diagnostic) :
    EarliestRefusal options tokens diagnostic := by
  obtain ⟨front, htokens, hbehind, hafter, hstuck⟩ :=
    scan_split options.maxDepth .target [] tokens
  have hfound := Stage.found_report options.maxDepth (options.scan tokens).stage
    ((options.scan tokens).cursor 0)
  rw [← Stop.diagnostic, recognize_eq_error h] at hfound
  change diagnostic.found =
    ((options.scan tokens).ahead.head?.map Found.token).getD .endOfInput at hfound
  cases hahead : (options.scan tokens).ahead with
  | nil =>
      rw [hahead] at hfound
      rw [← Options.scan, hahead, List.append_nil] at htokens
      have hcompleted := recognize_completed hafter
      rw [← htokens] at hcompleted
      exact .inl ⟨hfound, _, hcompleted⟩
  | cons token rest =>
      rw [hahead] at hfound
      rw [← Options.scan, hahead] at htokens
      have hplace : (recognition options (.start tokens)).cursor.position = front.length := by
        rw [position_recognition, Options.scan, hbehind, List.append_nil, List.length_reverse]
      have hnone : (options.scan tokens).stage.next? options.maxDepth token.kind = none := by
        refine hstuck token ?_
        rw [← Options.scan, hahead]
        rfl
      refine .inr ⟨token, hfound, ?_⟩
      rw [hplace]
      refine ⟨?_, ?_, ?_⟩
      · rw [htokens, List.getElem?_append_right (Nat.le_refl _), Nat.sub_self]
        rfl
      · rw [htokens, List.take_left]
        exact ⟨_, recognize_completed hafter⟩
      · intro more
        have htake : tokens.take (front.length + 1) = front ++ [token] := by
          rw [htokens, List.take_length_add_append]
          rfl
        have hrefused := recognize_stuck hafter hnone more rest
        rw [htake, List.append_assoc, List.singleton_append, hrefused, ← htokens, h]

theorem earliestRefusal_in_group :
    ∃ diagnostic, recognize ⟨1, false⟩
        (List.map Token.ofKind [.identifier, .assignment, .lparen, .integer, .integer]) =
          .error diagnostic ∧
      diagnostic.refusal = ⟨"E_SYNTAX", .kind .rparen, .token (.ofKind .integer)⟩ ∧
      EarliestRefusal ⟨1, false⟩
        (List.map Token.ofKind [.identifier, .assignment, .lparen, .integer, .integer])
        diagnostic := by
  have h := recognize_eq_scan ⟨1, false⟩
    (List.map Token.ofKind [.identifier, .assignment, .lparen, .integer, .integer])
  rw [if_neg (by decide)] at h
  exact ⟨_, h, rfl, earliestRefusal_of_recognize h⟩

end Scriptlet
