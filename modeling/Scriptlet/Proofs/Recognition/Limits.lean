import Scriptlet.Proofs.Recognition.Verdict

/-!
# More permissive options

A scan looks at its limit only where a group opens.  So a verdict stays the
same under a higher limit, unless a group was nested too deeply, and then the
recognition goes on behind the parenthesis at which it had to stop.  Whether
tokens may follow a statement matters only once the statement is complete:
tokens that were left over are then refused, and nothing else changes.
-/

namespace Scriptlet

/-! ## Scans under two limits -/

namespace Stage

def Opens (stage : Stage) (ahead : List Token) : Prop :=
  ∃ opened token, stage = .operand opened ∧ ahead.head? = some token ∧ token.kind = .lparen

theorem next?_of_le {limit limit' : Nat} (hle : limit ≤ limit') {stage next : Stage}
    {kind : Kind} (h : stage.next? limit kind = some next) :
    stage.next? limit' kind = some next := by
  have hstep := next?_eq_some_iff.mp h
  refine next?_eq_some_iff.mpr (hstep.of_opened_lt ?_)
  rintro rfl
  exact Nat.lt_of_lt_of_le hstep.opened_lt hle

theorem after?_of_le {limit limit' : Nat} (hle : limit ≤ limit') {stage last : Stage}
    {word : List Kind} (h : stage.after? limit word = some last) :
    stage.after? limit' word = some last := by
  induction word generalizing stage with
  | nil => exact h
  | cons kind word ih =>
      obtain ⟨next, hnext, hword⟩ := Option.bind_eq_some_iff.mp h
      rw [after?_cons, next?_of_le hle hnext, Option.bind_some]
      exact ih hword

theorem Stuck.of_not_opens {limit : Nat} {stage : Stage} {ahead : List Token}
    (h : stage.Stuck limit ahead) (hopens : ¬ stage.Opens ahead) (limit' : Nat) :
    stage.Stuck limit' ahead := by
  intro token htoken
  cases hnext : stage.next? limit' token.kind with
  | none => rfl
  | some next =>
      have hstep := next?_eq_some_iff.mp hnext
      have hfits : stage.next? limit token.kind = some next := by
        refine next?_eq_some_iff.mpr (hstep.of_opened_lt fun hkind => ?_)
        rw [hkind] at hstep
        cases hstep with
        | enter => exact absurd ⟨_, token, rfl, htoken, hkind⟩ hopens
        | operator hop => exact absurd hop (by decide)
      rw [h token htoken] at hfits
      contradiction

theorem report_of_not_opens {stage : Stage} {c : Cursor} (h : ¬ stage.Opens c.ahead)
    (limit : Nat) : stage.report limit c = c.unexpected stage.wanted := by
  unfold report
  split
  · next opened token hpeek =>
      split
      · next hkind => exact absurd ⟨opened, token, rfl, hpeek, hkind⟩ h
      · rfl
  · rfl

private theorem report_operator_zero (limit : Nat) (behind rest : List Token) (token : Token)
    (depth : Nat) :
    (operator 0).report limit ⟨behind, token :: rest, depth⟩ =
      .mismatch .endOfInput (.token token) token.span := rfl

theorem code_report_iff {limit : Nat} {stage : Stage} {c : Cursor} :
    (stage.report limit c).code = "E_DEPTH" ↔ stage.Opens c.ahead := by
  constructor
  · intro hcode
    by_cases hopens : stage.Opens c.ahead
    · exact hopens
    · rw [report_of_not_opens hopens, Cursor.code_unexpected] at hcode
      unfold Diagnostic.mismatchCode at hcode
      split at hcode <;> contradiction
  · rintro ⟨opened, token, rfl, hpeek, hkind⟩
    simp [report, Cursor.peek?, hpeek, hkind, Diagnostic.nestingTooDeep]

end Stage

theorem length_le_scan {limit : Nat} {stage next : Stage} {front : List Token}
    (h : stage.after? limit (front.map Token.kind) = some next) (behind rest : List Token) :
    front.length + behind.length ≤
      (scan limit stage behind (front ++ rest)).behind.length := by
  obtain ⟨further, -, hbehind, -⟩ := scan_split limit next (front.reverse ++ behind) rest
  rw [scan_append h, hbehind]
  simp

theorem scan_of_le {limit limit' : Nat} (hle : limit ≤ limit') {stage : Stage}
    {behind tokens : List Token}
    (hopens : ¬ (scan limit stage behind tokens).stage.Opens
      (scan limit stage behind tokens).ahead) :
    scan limit' stage behind tokens = scan limit stage behind tokens := by
  obtain ⟨front, htokens, hbehind, hafter, hstuck⟩ := scan_split limit stage behind tokens
  have hscan := scan_eq_of_after? (Stage.after?_of_le hle hafter)
    (hstuck.of_not_opens hopens limit') behind
  rw [← htokens, ← hbehind] at hscan
  exact hscan

theorem length_scan_lt {limit limit' : Nat} (hlt : limit < limit') {stage : Stage}
    (hstage : stage.opened ≤ limit) {behind tokens : List Token}
    (hopens : (scan limit stage behind tokens).stage.Opens
      (scan limit stage behind tokens).ahead) :
    (scan limit stage behind tokens).behind.length <
      (scan limit' stage behind tokens).behind.length := by
  obtain ⟨front, htokens, hbehind, hafter, -⟩ := scan_split limit stage behind tokens
  obtain ⟨opened, token, hoperand, hhead, hkind⟩ := hopens
  obtain ⟨rest, hahead⟩ := List.head?_eq_some_iff.mp hhead
  rw [hoperand] at hafter
  have hopened : opened < limit' :=
    Nat.lt_of_le_of_lt (Stage.opened_le_of_after? hafter hstage) hlt
  have hfurther : stage.after? limit' ((front ++ [token]).map Token.kind) =
      some (.operand (opened + 1)) := by
    rw [List.map_append, Stage.after?_append, Stage.after?_of_le (Nat.le_of_lt hlt) hafter,
      Option.bind_some]
    simp [hkind, Stage.next?, hopened]
  have hlength := length_le_scan hfurther behind rest
  rw [List.append_assoc, List.singleton_append, ← hahead, ← htokens] at hlength
  rw [hbehind]
  simp only [List.length_append, List.length_reverse, List.length_singleton] at hlength ⊢
  omega

/-! ## Verdicts under two options -/

def TooDeep (options : Options) (tokens : List Token) : Prop :=
  ∃ diagnostic, recognize options tokens = .error diagnostic ∧ diagnostic.code = "E_DEPTH"

theorem tooDeep_iff {options : Options} {tokens : List Token} :
    TooDeep options tokens ↔ (options.scan tokens).stage.Opens (options.scan tokens).ahead := by
  constructor
  · rintro ⟨diagnostic, hrefused, hcode⟩
    rw [← recognize_eq_error hrefused] at hcode
    exact Stage.code_report_iff.mp hcode
  · intro hopens
    have hrefused : ¬ (options.scan tokens).Accepted options := by
      obtain ⟨opened, -, hoperand, -⟩ := hopens
      rintro ⟨hoperator, -⟩
      rw [hoperand] at hoperator
      contradiction
    refine ⟨(options.scan tokens).diagnostic options, ?_, Stage.code_report_iff.mpr hopens⟩
    rw [recognize_eq_scan, if_neg hrefused]

def stopPosition (options : Options) (tokens : List Token) : Nat :=
  (recognition options (.start tokens)).cursor.position

section

variable {limit limit' : Nat} {tokens : List Token}

private theorem recognize_of_not_tooDeep (hle : limit ≤ limit') {trailing : Bool}
    (h : ¬ TooDeep ⟨limit, trailing⟩ tokens) :
    recognize ⟨limit', trailing⟩ tokens = recognize ⟨limit, trailing⟩ tokens := by
  have hopens := mt tooDeep_iff.mpr h
  have hscan : Options.scan ⟨limit', trailing⟩ tokens = Options.scan ⟨limit, trailing⟩ tokens :=
    scan_of_le hle hopens
  rw [recognize_eq_scan, recognize_eq_scan, hscan]
  generalize Options.scan ⟨limit, trailing⟩ tokens = stop at hopens ⊢
  have haccepted : stop.Accepted ⟨limit', trailing⟩ ↔ stop.Accepted ⟨limit, trailing⟩ := Iff.rfl
  have hdiagnostic :
      stop.diagnostic ⟨limit', trailing⟩ = stop.diagnostic ⟨limit, trailing⟩ := by
    have hcursor : ¬ stop.stage.Opens (stop.cursor 0).ahead := hopens
    rw [Stop.diagnostic, Stop.diagnostic, Stage.report_of_not_opens hcursor,
      Stage.report_of_not_opens hcursor]
  simp only [haccepted, hdiagnostic]

private theorem stopPosition_lt_of_tooDeep (hlt : limit < limit') {trailing : Bool}
    (h : TooDeep ⟨limit, trailing⟩ tokens) :
    stopPosition ⟨limit, trailing⟩ tokens < stopPosition ⟨limit', trailing⟩ tokens := by
  have hopened : Stage.target.opened ≤ limit := Nat.zero_le limit
  rw [stopPosition, stopPosition, position_recognition, position_recognition]
  exact length_scan_lt hlt hopened (tooDeep_iff.mp h)

private theorem recognize_of_refused {diagnostic : Diagnostic}
    (h : recognize ⟨limit, true⟩ tokens = .error diagnostic) :
    recognize ⟨limit, false⟩ tokens = .error diagnostic := by
  have hrefused : ¬ (Options.scan ⟨limit, false⟩ tokens).Accepted ⟨limit, false⟩ := by
    rintro ⟨hstage, -⟩
    have hok : recognize ⟨limit, true⟩ tokens = .ok () :=
      recognize_eq_ok_iff_accepted.mpr ⟨hstage, .inr rfl⟩
    rw [h] at hok
    contradiction
  rw [recognize_eq_scan, if_neg hrefused, ← recognize_eq_error h]
  rfl

/-- If no tokens may follow, the tokens are accepted if there are `n` of them, and otherwise the one
behind the first `n` is refused as left over. -/
def EndsOrTrails (limit : Nat) (tokens : List Token) (n : Nat) : Prop :=
  (n = tokens.length ∧ recognize ⟨limit, false⟩ tokens = .ok ()) ∨
  ∃ token diagnostic, tokens[n]? = some token ∧
    recognize ⟨limit, false⟩ tokens = .error diagnostic ∧
    diagnostic.code = "E_TRAILING" ∧ diagnostic.found = .token token

private theorem endsOrTrails_of_accepted (h : recognize ⟨limit, true⟩ tokens = .ok ()) :
    EndsOrTrails limit tokens (stopPosition ⟨limit, true⟩ tokens) := by
  obtain ⟨hstage, -⟩ := recognize_eq_ok_iff_accepted.mp h
  obtain ⟨front, htokens, -, hcursor⟩ := exists_front_of_recognition ⟨limit, true⟩ tokens
  have hposition : stopPosition ⟨limit, true⟩ tokens = front.length := by
    rw [stopPosition, hcursor, Cursor.position, List.length_reverse]
  rw [hposition]
  change (Options.scan ⟨limit, false⟩ tokens).stage = _ at hstage
  change tokens = front ++ (Options.scan ⟨limit, false⟩ tokens).ahead at htokens
  cases hahead : (Options.scan ⟨limit, false⟩ tokens).ahead with
  | nil =>
      rw [hahead, List.append_nil] at htokens
      exact .inl ⟨htokens ▸ rfl, recognize_eq_ok_iff_accepted.mpr ⟨hstage, .inl hahead⟩⟩
  | cons token rest =>
      have hrefused : ¬ (Options.scan ⟨limit, false⟩ tokens).Accepted ⟨limit, false⟩ := by
        rintro ⟨-, hnil | hallowed⟩
        · rw [hahead] at hnil
          contradiction
        · contradiction
      have hverdict : recognize ⟨limit, false⟩ tokens =
          .error (.mismatch .endOfInput (.token token) token.span) := by
        rw [recognize_eq_scan, if_neg hrefused, Stop.diagnostic, Stop.cursor, hstage, hahead,
          Stage.report_operator_zero]
      refine .inr ⟨token, _, ?_, hverdict, rfl, rfl⟩
      rw [htokens, hahead, List.getElem?_append_right (Nat.le_refl _), Nat.sub_self]
      rfl

/-- A higher limit on nesting changes no verdict but that a group is too deep, and this one to a
verdict further on.  Allowing no tokens to follow the statement changes no refusal, and an
acceptance only by refusing the first token that is left over. -/
theorem recognize_monotone (hle : limit ≤ limit') (tokens : List Token) :
    (∀ trailing, ¬ TooDeep ⟨limit, trailing⟩ tokens →
      recognize ⟨limit', trailing⟩ tokens = recognize ⟨limit, trailing⟩ tokens) ∧
    (∀ trailing, TooDeep ⟨limit, trailing⟩ tokens → limit < limit' →
      stopPosition ⟨limit, trailing⟩ tokens < stopPosition ⟨limit', trailing⟩ tokens) ∧
    (∀ diagnostic, recognize ⟨limit, true⟩ tokens = .error diagnostic →
      recognize ⟨limit, false⟩ tokens = .error diagnostic) ∧
    (recognize ⟨limit, true⟩ tokens = .ok () →
      EndsOrTrails limit tokens (stopPosition ⟨limit, true⟩ tokens)) := by
  refine ⟨?sameVerdict, ?furtherOn, ?sameRefusal, endsOrTrails_of_accepted⟩
  case sameVerdict => exact fun _ hnot => recognize_of_not_tooDeep hle hnot
  case furtherOn => exact fun _ hdeep hlt => stopPosition_lt_of_tooDeep hlt hdeep
  case sameRefusal => exact fun _ hrefused => recognize_of_refused hrefused

end

def nestedGroups : List Token :=
  [⟨.identifier, "x", ⟨0, 1, 1, 1⟩⟩, ⟨.assignment, "=", ⟨2, 3, 1, 3⟩⟩,
    ⟨.lparen, "(", ⟨4, 5, 1, 5⟩⟩, ⟨.lparen, "(", ⟨5, 6, 1, 6⟩⟩, ⟨.integer, "1", ⟨6, 7, 1, 7⟩⟩]

theorem recognize_monotone_in_nestedGroups :
    1 ≤ 2 ∧ TooDeep ⟨1, false⟩ nestedGroups ∧ stopPosition ⟨1, false⟩ nestedGroups = 3 ∧
      3 < stopPosition ⟨2, false⟩ nestedGroups := by
  have hdeep : TooDeep ⟨1, false⟩ nestedGroups := tooDeep_iff.mpr ⟨1, _, rfl, rfl, rfl⟩
  have hposition : stopPosition ⟨1, false⟩ nestedGroups = 3 :=
    position_recognition ⟨1, false⟩ nestedGroups
  obtain ⟨-, hfurther, -⟩ := recognize_monotone (show 1 ≤ 2 by decide) nestedGroups
  exact ⟨by decide, hdeep, hposition, hposition ▸ hfurther false hdeep (by decide)⟩

end Scriptlet
