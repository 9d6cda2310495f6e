import Scriptlet.Proofs.Recognition.Completion

/-!
# What a refusal expects

A refusal names what was expected where the tokens went wrong.  A token of a
kind that is named does fit there, and the tokens up to it can be completed to
a statement, with one exception: where an operand is missing, an opening
parenthesis is named even if no further group may be opened.
-/

namespace Scriptlet

/-- With some tokens behind them, these are accepted. -/
def Completable (options : Options) (front : List Token) : Prop :=
  ∃ more, recognize options (front ++ more) = .ok ()

/-! ## Tokens that fit -/

theorem completable_snoc_iff {options : Options} {front : List Token} {stage : Stage}
    (h : Stage.target.after? options.maxDepth (front.map Token.kind) = some stage)
    (hstage : stage ≠ .operator 0) (token : Token) :
    Completable options (front ++ [token]) ↔
      (stage.next? options.maxDepth token.kind).isSome = true := by
  cases hnext : stage.next? options.maxDepth token.kind with
  | none =>
      refine iff_of_false ?_ (by simp)
      rintro ⟨more, hok⟩
      have hstuck : stage.Stuck options.maxDepth (token :: more) := by
        intro other hother
        obtain rfl := Option.some.inj hother
        exact hnext
      rw [List.append_assoc, List.singleton_append, recognize_eq_ok_iff_accepted, Options.scan,
        scan_eq_of_after? h hstuck] at hok
      exact hstage hok.1
  | some next =>
      have hafter : Stage.target.after? options.maxDepth ((front ++ [token]).map Token.kind) =
          some next := by
        rw [List.map_append, Stage.after?_append, h, Option.bind_some]
        simp [hnext]
      exact iff_of_true ⟨_, recognize_completed hafter⟩ rfl

namespace Stage

private theorem isSome_next?_of_wanted {limit : Nat} {stage : Stage} {kind : Kind}
    (h : kind ∈ stage.wanted.kinds) :
    (stage.next? limit kind).isSome = true ↔ (kind = .lparen → stage.opened < limit) := by
  match stage with
  | .target | .assignment | .operator (_ + 1) =>
      obtain rfl := List.mem_singleton.mp h
      simp [next?]
  | .operator 0 => contradiction
  | .operand opened =>
      simp only [wanted, Expected.kinds, List.mem_cons, List.not_mem_nil, or_false] at h
      rcases h with rfl | rfl | rfl <;> simp [next?, Stage.opened]

private theorem expected_report_cases (limit : Nat) (stage : Stage) (c : Cursor) :
    (stage.report limit c).expected = stage.wanted ∨
      ∃ opened, stage = .operand opened ∧
        (stage.report limit c).expected = .oneOf [.integer, .identifier] := by
  unfold report
  split
  · split
    · exact .inr ⟨_, rfl, rfl⟩
    · exact .inl (c.expected_unexpected _)
  · exact .inl (c.expected_unexpected _)

private theorem kinds_report_subset (limit : Nat) (stage : Stage) (c : Cursor) :
    (stage.report limit c).expected.kinds ⊆ stage.wanted.kinds := by
  rcases expected_report_cases limit stage c with hwanted | ⟨opened, rfl, hexpected⟩
  · rw [hwanted]
    exact List.Subset.refl _
  · rw [hexpected]
    exact List.subset_cons_self _ _

private theorem eq_operator_zero_of_expected {limit : Nat} {stage : Stage} {c : Cursor}
    (h : (stage.report limit c).expected = .endOfInput) : stage = .operator 0 := by
  rcases expected_report_cases limit stage c with hwanted | ⟨_, -, hexpected⟩
  · rw [hwanted] at h
    match stage with
    | .operator 0 => rfl
    | .target | .assignment | .operand _ | .operator (_ + 1) => contradiction
  · rw [hexpected] at h
    contradiction

end Stage

/-! ## Refusals -/

theorem exists_report_of_recognize {options : Options} {tokens : List Token}
    {diagnostic : Diagnostic} (h : recognize options tokens = .error diagnostic) :
    ∃ front rest stage, tokens = front ++ rest ∧
      Stage.target.after? options.maxDepth (front.map Token.kind) = some stage ∧
      (recognition options (.start tokens)).cursor = ⟨front.reverse, rest, stage.opened⟩ ∧
      diagnostic = stage.report options.maxDepth ⟨front.reverse, rest, stage.opened⟩ := by
  obtain ⟨front, htokens, hafter, hcursor⟩ := exists_front_of_recognition options tokens
  refine ⟨front, _, _, htokens, hafter, hcursor, ?_⟩
  have hstop := (recognition_eq_scan options (.start tokens)).1
  rw [Cursor.tokens_start, hcursor] at hstop
  rw [hstop]
  exact (recognize_eq_error h).symm

/-- A token of an expected kind can be next if and only if it does not open one group too many.  If
nothing more is expected, the tokens in front are accepted as they are. -/
theorem completable_iff_of_expected {options : Options} {tokens : List Token}
    {diagnostic : Diagnostic} (h : recognize options tokens = .error diagnostic) :
    let stop := (recognition options (.start tokens)).cursor
    (∀ token, token.kind ∈ diagnostic.expected.kinds →
      (Completable options (tokens.take stop.position ++ [token]) ↔
        (token.kind = .lparen → stop.depth < options.maxDepth))) ∧
    (diagnostic.expected = .endOfInput →
      recognize options (tokens.take stop.position) = .ok ()) := by
  obtain ⟨front, rest, stage, rfl, hafter, hcursor, rfl⟩ := exists_report_of_recognize h
  have htake : (front ++ rest).take front.reverse.length = front := by
    rw [List.length_reverse, List.take_left]
  simp only [hcursor, Cursor.position, htake]
  constructor
  · intro token hkind
    have hwanted := Stage.kinds_report_subset _ _ _ hkind
    have hstage : stage ≠ .operator 0 := by
      rintro rfl
      contradiction
    rw [completable_snoc_iff hafter hstage, Stage.isSome_next?_of_wanted hwanted]
  · intro hexpected
    obtain rfl := Stage.eq_operator_zero_of_expected hexpected
    refine recognize_eq_ok_iff_exists.mpr ⟨front, [], (List.append_nil front).symm, hafter, ?_, ?_⟩
    · exact Stage.stuck_nil _ _
    · exact .inl rfl

def openedGroup : List Token :=
  [⟨.identifier, "x", ⟨0, 1, 1, 1⟩⟩, ⟨.assignment, "=", ⟨2, 3, 1, 3⟩⟩,
    ⟨.lparen, "(", ⟨4, 5, 1, 5⟩⟩]

theorem completable_iff_of_expected_in_group :
    ∃ diagnostic, recognize ⟨1, false⟩ openedGroup = .error diagnostic ∧
      diagnostic.expected.kinds = [.lparen, .integer, .identifier] ∧
      ∀ token, token.kind ∈ diagnostic.expected.kinds →
        (Completable ⟨1, false⟩ (openedGroup ++ [token]) ↔ token.kind ≠ .lparen) := by
  have h := recognize_eq_scan ⟨1, false⟩ openedGroup
  rw [if_neg (by decide)] at h
  have hcursor : (recognition ⟨1, false⟩ (.start openedGroup)).cursor =
      ⟨openedGroup.reverse, [], 1⟩ := (recognition_eq_scan ⟨1, false⟩ (.start openedGroup)).1
  obtain ⟨hfits, -⟩ := completable_iff_of_expected h
  simp only [hcursor] at hfits
  refine ⟨_, h, rfl, fun token hkind => (hfits token hkind).trans ?_⟩
  simp

def missingOperand : List Token :=
  [⟨.identifier, "x", ⟨0, 1, 1, 1⟩⟩, ⟨.assignment, "=", ⟨2, 3, 1, 3⟩⟩]

theorem missingOperand_expects_lparen_and_refuses_it :
    ∃ diagnostic, recognize ⟨0, false⟩ missingOperand = .error diagnostic ∧
      ∃ kind ∈ diagnostic.expected.kinds, ∀ token, token.kind = kind →
        ¬ Completable ⟨0, false⟩
          (missingOperand.take (recognition ⟨0, false⟩ (.start missingOperand)).cursor.position
            ++ [token]) := by
  have h := recognize_eq_scan ⟨0, false⟩ missingOperand
  rw [if_neg (by decide)] at h
  refine ⟨_, h, .lparen, by decide, fun token hkind => ?_⟩
  have hposition : (recognition ⟨0, false⟩ (.start missingOperand)).cursor.position = 2 :=
    position_recognition ⟨0, false⟩ missingOperand
  have hstage : Stage.operand 0 ≠ .operator 0 := nofun
  have hfits : Completable ⟨0, false⟩ (missingOperand ++ [token]) ↔
      ((Stage.operand 0).next? 0 token.kind).isSome = true :=
    completable_snoc_iff rfl hstage token
  rw [hposition, show missingOperand.take 2 = missingOperand from rfl, hfits, hkind]
  decide

end Scriptlet
