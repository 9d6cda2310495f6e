import Scriptlet.Proofs.Recognition.Simulation

/-!
# Verdicts by scanning

Recognizing a list of tokens amounts to one scan from the first token on.  The
tokens are accepted if the scan stops behind a whole statement and, unless the
options allow it, nothing is left.  Otherwise the stop says what the refusal
says.
-/

namespace Scriptlet

namespace Stop

/-- A whole statement has been passed, and what is left of the tokens is allowed to follow. -/
def Accepted (options : Options) (stop : Stop) : Prop :=
  stop.stage = .operator 0 ∧ (stop.ahead = [] ∨ options.allowTrailing = true)

instance decidableAccepted (options : Options) (stop : Stop) :
    Decidable (stop.Accepted options) :=
  inferInstanceAs (Decidable (_ ∧ (_ ∨ _)))

def diagnostic (options : Options) (stop : Stop) : Diagnostic :=
  stop.stage.report options.maxDepth (stop.cursor 0)

end Stop

theorem recognition_eq_scan (options : Options) (c : Cursor) :
    (recognition options c).cursor = (options.scan c.tokens).cursor 0 ∧
      (recognition options c).verdict =
        if (options.scan c.tokens).Accepted options then .ok ()
        else .error ((options.scan c.tokens).diagnostic options) := by
  generalize hstop : options.scan c.tokens = stop
  obtain ⟨hcursor, hverdict⟩ :
      (assignmentStatement options.maxDepth c.rewind).EndsAs options.maxDepth stop :=
    hstop ▸ assignmentStatement_endsAs options.maxDepth c.rewind
  change (assignmentStatement options.maxDepth c.rewind).cursor = stop.cursor 0 at hcursor
  change _ = stop.outcome options.maxDepth 0 at hverdict
  unfold recognition
  by_cases hstage : stop.stage = .operator 0
  · rw [Stop.outcome, if_pos hstage] at hverdict
    rw [Run.andThen_of_ok hverdict, Run.cursor_since, Run.verdict_since]
    split
    · next htrailing =>
        have haccepted : stop.Accepted options := ⟨hstage, .inr htrailing⟩
        rw [if_pos haccepted]
        exact ⟨hcursor, rfl⟩
    · next htrailing =>
        unfold Run.expectEnd
        rw [hcursor]
        split
        · next hend =>
            have haccepted : stop.Accepted options := ⟨hstage, .inl (List.isEmpty_iff.mp hend)⟩
            rw [if_pos haccepted]
            exact ⟨rfl, rfl⟩
        · next hend =>
            have hrefused : ¬ stop.Accepted options := by
              rintro ⟨-, hahead | hallowed⟩
              · exact hend (List.isEmpty_iff.mpr hahead)
              · exact htrailing hallowed
            rw [if_neg hrefused, Stop.diagnostic, hstage]
            exact ⟨rfl, rfl⟩
  · rw [Stop.outcome, if_neg hstage] at hverdict
    have hrefused : ¬ stop.Accepted options := fun h => hstage h.1
    rw [Run.andThen_of_error hverdict, if_neg hrefused]
    exact ⟨hcursor, hverdict⟩

theorem recognize_eq_scan (options : Options) (tokens : List Token) :
    recognize options tokens =
      if (options.scan tokens).Accepted options then .ok ()
      else .error ((options.scan tokens).diagnostic options) := by
  have h := (recognition_eq_scan options (.start tokens)).2
  rwa [Cursor.tokens_start] at h

theorem recognize_eq_error {options : Options} {tokens : List Token} {diagnostic : Diagnostic}
    (h : recognize options tokens = .error diagnostic) :
    (options.scan tokens).diagnostic options = diagnostic := by
  rw [recognize_eq_scan] at h
  split at h
  · contradiction
  · exact Except.error.inj h

theorem recognize_eq_ok_iff_accepted {options : Options} {tokens : List Token} :
    recognize options tokens = .ok () ↔ (options.scan tokens).Accepted options := by
  rw [recognize_eq_scan]
  split
  · next h => exact ⟨fun _ => h, fun _ => rfl⟩
  · next h => exact ⟨nofun, fun haccepted => absurd haccepted h⟩

theorem recognize_eq_ok_iff_exists {options : Options} {tokens : List Token} :
    recognize options tokens = .ok () ↔ ∃ front rest, tokens = front ++ rest ∧
      Stage.target.after? options.maxDepth (front.map Token.kind) = some (.operator 0) ∧
      (Stage.operator 0).Stuck options.maxDepth rest ∧
      (rest = [] ∨ options.allowTrailing = true) := by
  rw [recognize_eq_ok_iff_accepted]
  constructor
  · rintro ⟨hstage, hrest⟩
    obtain ⟨front, htokens, -, hafter, hstuck⟩ :=
      scan_split options.maxDepth .target [] tokens
    refine ⟨front, (options.scan tokens).ahead, htokens, ?_, ?_, hrest⟩
    · rw [hafter]
      exact congrArg some hstage
    · rw [← hstage]
      exact hstuck
  · rintro ⟨front, rest, rfl, hafter, hstuck, hrest⟩
    rw [Options.scan, scan_eq_of_after? hafter hstuck]
    exact ⟨rfl, hrest⟩

theorem position_recognition (options : Options) (tokens : List Token) :
    (recognition options (.start tokens)).cursor.position =
      (options.scan tokens).behind.length := by
  have h := (recognition_eq_scan options (.start tokens)).1
  rw [Cursor.tokens_start] at h
  rw [h]
  rfl

theorem exists_front_of_recognition (options : Options) (tokens : List Token) :
    ∃ front, tokens = front ++ (options.scan tokens).ahead ∧
      Stage.target.after? options.maxDepth (front.map Token.kind) =
        some (options.scan tokens).stage ∧
      (recognition options (.start tokens)).cursor =
        ⟨front.reverse, (options.scan tokens).ahead, (options.scan tokens).stage.opened⟩ := by
  obtain ⟨front, htokens, hbehind, hafter, -⟩ := scan_split options.maxDepth .target [] tokens
  refine ⟨front, htokens, hafter, ?_⟩
  rw [(recognition_eq_scan options _).1, Cursor.tokens_start, Stop.cursor, Options.scan, hbehind,
    List.append_nil, Nat.zero_add]

namespace Stop

private theorem refusal_diagnostic_of_lparen (options : Options) (opened : Nat)
    (behind rest : List Token) (token : Token) :
    ((⟨.operand opened, behind, token :: rest⟩ : Stop).diagnostic options).refusal =
      if token.kind = .lparen then ⟨"E_DEPTH", .oneOf [.integer, .identifier], .token token⟩
      else ⟨"E_SYNTAX", .oneOf [.lparen, .integer, .identifier], .token token⟩ := by
  unfold diagnostic Stage.report
  simp only [Stop.cursor, Cursor.peek?, List.head?_cons]
  split <;> rfl

theorem verdict_eq (options : Options) (stop : Stop) :
    stop.verdict options =
      if stop.Accepted options then .ok ()
      else .error (stop.diagnostic options).refusal := by
  obtain ⟨stage, behind, ahead⟩ := stop
  match stage, ahead with
  | .target, [] | .target, _ :: _ => rfl
  | .assignment, [] | .assignment, _ :: _ => rfl
  | .operand _, [] => rfl
  | .operand opened, token :: rest =>
      have hrefused : ¬ (⟨.operand opened, behind, token :: rest⟩ : Stop).Accepted options :=
        fun h => nomatch h.1
      rw [if_neg hrefused, refusal_diagnostic_of_lparen]
      simp only [verdict, List.head?_cons, Option.map_some, Option.some.injEq]
      split <;> rfl
  | .operator 0, [] => rfl
  | .operator 0, _ :: _ =>
      simp only [verdict, Accepted, true_and]
      split <;> rfl
  | .operator (_ + 1), [] | .operator (_ + 1), _ :: _ => rfl

end Stop

/-- Descent and scan agree on the verdict, on what a refusal says, and on where they stop. -/
theorem recognize_agrees_with_scan (options : Options) (tokens : List Token) :
    (recognize options tokens).mapError Diagnostic.refusal =
        (options.scan tokens).verdict options ∧
      (recognition options (.start tokens)).cursor.position =
        (options.scan tokens).behind.length := by
  refine ⟨?_, position_recognition options tokens⟩
  rw [recognize_eq_scan, Stop.verdict_eq]
  split <;> rfl

end Scriptlet
