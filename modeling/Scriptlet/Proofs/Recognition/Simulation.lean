import Scriptlet.Proofs.Recognition.Scan

/-!
# The ladder and the scan

The descent through the ladder of precedence ends exactly where a scan ends,
with the same verdict.  What carries the induction is `Follows`: a rule that
succeeds has passed over one operand of the scan, operators included, and a
rule that fails has stopped where the scan stops.  The scan may start in the
middle of a session, so it counts the groups above a ground depth `base`.
-/

namespace Scriptlet

namespace Stage

def wanted : Stage → Expected
  | .target => .kind .identifier
  | .assignment => .kind .assignment
  | .operand _ => .oneOf [.lparen, .integer, .identifier]
  | .operator 0 => .endOfInput
  | .operator (_ + 1) => .kind .rparen

def report (limit : Nat) (stage : Stage) (c : Cursor) : Diagnostic :=
  match stage, c.peek? with
  | .operand opened, some token =>
      if token.kind = .lparen then .nestingTooDeep limit token
      else c.unexpected (operand opened).wanted
  | stage, _ => c.unexpected stage.wanted

end Stage

namespace Cursor

theorem advance_of_ahead {c : Cursor} {token : Token} {rest : List Token}
    (h : c.ahead = token :: rest) :
    c.advance = ⟨token :: c.behind, rest, c.depth⟩ := by
  unfold advance
  rw [h]

theorem sees_of_ahead {c : Cursor} {token : Token} {rest : List Token}
    (h : c.ahead = token :: rest) (kind : Kind) : c.sees kind = (token.kind == kind) := by
  simp [sees, peek?, h]

@[simp] theorem depth_advance (c : Cursor) : c.advance.depth = c.depth := by
  unfold advance
  split <;> rfl

@[simp] theorem depth_start (tokens : List Token) : (start tokens).depth = 0 := rfl

@[simp] theorem depth_enter (c : Cursor) : c.enter.depth = c.depth + 1 := rfl

@[simp] theorem depth_leave (c : Cursor) : c.leave.depth = c.depth - 1 := rfl

def scan (limit : Nat) (stage : Stage) (c : Cursor) : Stop :=
  Scriptlet.scan limit stage c.behind c.ahead

theorem scan_of_sees {limit : Nat} {stage next : Stage} {kind : Kind} {c : Cursor}
    (hsees : c.sees kind = true) (h : stage.next? limit kind = some next) :
    c.scan limit stage = c.advance.scan limit next := by
  obtain ⟨token, rest, hahead, rfl⟩ := sees_iff.mp hsees
  rw [scan, scan, hahead, scan_cons h, advance_of_ahead hahead]

theorem scan_of_stuck {limit : Nat} {stage : Stage} {c : Cursor}
    (h : stage.Stuck limit c.ahead) : c.scan limit stage = ⟨stage, c.behind, c.ahead⟩ :=
  Scriptlet.scan_of_stuck h c.behind

def PastOperators (c : Cursor) : Prop :=
  ∀ op ∈ Ladder.operators, c.sees op = false

theorem PastOperators.stuck {c : Cursor} (h : c.PastOperators) {opened : Nat}
    (hclose : opened = 0 ∨ c.sees .rparen = false) (limit : Nat) :
    (Stage.operator opened).Stuck limit c.ahead := by
  intro token htoken
  obtain ⟨rest, hahead⟩ := List.head?_eq_some_iff.mp htoken
  cases hnext : (Stage.operator opened).next? limit token.kind with
  | none => rfl
  | some next =>
      generalize hkind : token.kind = kind at hnext
      cases Stage.next?_eq_some_iff.mp hnext with
      | operator hop =>
          have := h _ hop
          simp [sees_of_ahead hahead, hkind] at this
      | leave => simp [sees_of_ahead hahead, hkind] at hclose

end Cursor

/-- The outcome of a rule that was applied at `c` is that of the scan for an operand at `c`, with
any number of the open groups counted as groups of the scan. -/
def Follows (limit : Nat) (c : Cursor) (verdict : Verdict) (d : Cursor) : Prop :=
  ∀ base opened, c.depth = base + opened →
    (verdict = .ok () → d.depth = c.depth ∧
      c.scan (limit - base) (.operand opened) = d.scan (limit - base) (.operator opened)) ∧
    (∀ diagnostic, verdict = .error diagnostic → ∃ stage, stage ≠ .operator 0 ∧
      d.depth = base + stage.opened ∧ diagnostic = stage.report limit d ∧
      c.scan (limit - base) (.operand opened) = ⟨stage, d.behind, d.ahead⟩)

namespace Follows

theorem of_ok {limit : Nat} {c d : Cursor}
    (h : ∀ base opened, c.depth = base + opened → d.depth = c.depth ∧
      c.scan (limit - base) (.operand opened) = d.scan (limit - base) (.operator opened)) :
    Follows limit c (.ok ()) d := by
  intro base opened hdepth
  refine ⟨fun _ => h base opened hdepth, ?_⟩
  intro diagnostic hother
  contradiction

theorem of_error {limit : Nat} {c d : Cursor} {diagnostic : Diagnostic}
    (h : ∀ base opened, c.depth = base + opened → ∃ stage, stage ≠ .operator 0 ∧
      d.depth = base + stage.opened ∧ diagnostic = stage.report limit d ∧
      c.scan (limit - base) (.operand opened) = ⟨stage, d.behind, d.ahead⟩) :
    Follows limit c (.error diagnostic) d := by
  refine fun base opened hdepth => ⟨nofun, fun other hother => ?_⟩
  obtain rfl := Except.error.inj hother
  exact h base opened hdepth

theorem ok {limit : Nat} {c d : Cursor} (h : Follows limit c (.ok ()) d) {base opened : Nat}
    (hdepth : c.depth = base + opened) : d.depth = c.depth ∧
      c.scan (limit - base) (.operand opened) = d.scan (limit - base) (.operator opened) :=
  (h base opened hdepth).1 rfl

theorem error {limit : Nat} {c d : Cursor} {diagnostic : Diagnostic}
    (h : Follows limit c (.error diagnostic) d) {base opened : Nat}
    (hdepth : c.depth = base + opened) : ∃ stage, stage ≠ .operator 0 ∧
      d.depth = base + stage.opened ∧ diagnostic = stage.report limit d ∧
      c.scan (limit - base) (.operand opened) = ⟨stage, d.behind, d.ahead⟩ :=
  (h base opened hdepth).2 diagnostic rfl

private theorem after_operator {limit : Nat} {c d e : Cursor} {op : Kind} {verdict : Verdict}
    (hfirst : Follows limit c (.ok ()) d) (hop : op ∈ Ladder.operators)
    (hsees : d.sees op = true) (hrest : Follows limit d.advance verdict e) :
    Follows limit c verdict e := by
  intro base opened hdepth
  obtain ⟨hd, hscan⟩ := hfirst.ok hdepth
  have hfits : (Stage.operator opened).next? (limit - base) op = some (.operand opened) :=
    Stage.next?_eq_some_iff.mpr (.operator hop)
  have hadvance : d.advance.depth = c.depth := by rw [Cursor.depth_advance, hd]
  rw [hscan, Cursor.scan_of_sees hsees hfits, ← hadvance]
  exact hrest base opened (by rw [hadvance, hdepth])

theorem refuse {limit : Nat} {c : Cursor} {diagnostic : Diagnostic}
    (hstuck : ∀ base opened, c.depth = base + opened →
      (Stage.operand opened).Stuck (limit - base) c.ahead)
    (hreport : ∀ opened, diagnostic = (Stage.operand opened).report limit c) :
    Follows limit c (.error diagnostic) c := by
  refine of_error fun base opened hdepth => ⟨.operand opened, nofun, hdepth, ?_, ?_⟩
  · exact hreport opened
  · exact Cursor.scan_of_stuck (hstuck base opened hdepth)

theorem step {limit : Nat} {c : Cursor} {kind : Kind} (hsees : c.sees kind = true)
    (hkind : kind = .integer ∨ kind = .identifier) : Follows limit c (.ok ()) c.advance := by
  refine of_ok fun base opened _ => ⟨c.depth_advance, ?_⟩
  have hfits : (Stage.operand opened).next? (limit - base) kind = some (.operator opened) := by
    rcases hkind with rfl | rfl <;> rfl
  exact Cursor.scan_of_sees hsees hfits

/-! A group is one operand more deeply nested, between two parentheses. -/

theorem scan_enter {limit base opened : Nat} {c : Cursor} (hsees : c.sees .lparen = true)
    (hlt : c.depth < limit) (hdepth : c.depth = base + opened) :
    c.scan (limit - base) (.operand opened) =
      c.enter.scan (limit - base) (.operand (opened + 1)) := by
  have hopened : opened < limit - base := by omega
  exact Cursor.scan_of_sees hsees (Stage.next?_eq_some_iff.mpr (.enter hopened))

private theorem group_error {limit : Nat} {c d : Cursor} {diagnostic : Diagnostic}
    (hsees : c.sees .lparen = true) (hlt : c.depth < limit)
    (hinner : Follows limit c.enter (.error diagnostic) d) :
    Follows limit c (.error diagnostic) d := by
  apply of_error
  intro base opened hdepth
  have henter : c.enter.depth = base + (opened + 1) := congrArg (· + 1) hdepth
  rw [scan_enter hsees hlt hdepth]
  exact hinner.error henter

private theorem group_closed {limit : Nat} {c d : Cursor}
    (hsees : c.sees .lparen = true) (hlt : c.depth < limit)
    (hinner : Follows limit c.enter (.ok ()) d) (hclose : d.sees .rparen = true) :
    Follows limit c (.ok ()) d.leave := by
  apply of_ok
  intro base opened hdepth
  have henter : c.enter.depth = base + (opened + 1) := congrArg (· + 1) hdepth
  obtain ⟨hd, hscan⟩ := hinner.ok henter
  refine ⟨?_, ?_⟩
  · rw [Cursor.depth_leave, hd, Cursor.depth_enter, Nat.add_sub_cancel]
  · rw [scan_enter hsees hlt hdepth, hscan]
    exact Cursor.scan_of_sees hclose (Stage.next?_eq_some_iff.mpr .leave)

private theorem group_unclosed {limit : Nat} {c d : Cursor}
    (hsees : c.sees .lparen = true) (hlt : c.depth < limit)
    (hinner : Follows limit c.enter (.ok ()) d) (hpast : d.PastOperators)
    (hclose : d.sees .rparen = false) :
    Follows limit c (.error (d.unexpected (.kind .rparen))) d := by
  refine of_error fun base opened hdepth => ⟨.operator (opened + 1), nofun, ?_, rfl, ?_⟩
  all_goals
    have henter : c.enter.depth = base + (opened + 1) := congrArg (· + 1) hdepth
    obtain ⟨hd, hscan⟩ := hinner.ok henter
  · rw [hd, henter, Stage.opened]
  · rw [scan_enter hsees hlt hdepth, hscan]
    exact Cursor.scan_of_stuck (hpast.stuck (.inr hclose) (limit - base))

end Follows

/-! ## The rungs of the ladder -/

namespace Ladder

private theorem follows_chain {limit n : Nat} {op : Kind} {operand : Routine n}
    (hop : op ∈ operators)
    (hoperand : ∀ c h, Follows limit c (operand c h).verdict (operand c h).cursor)
    (c : Cursor) (h : c.ahead.length ≤ n) :
    Follows limit c (chain op operand c h).verdict (chain op operand c h).cursor := by
  refine chain_induct (P := Follows limit) ?fail ?stop ?more c h
  case fail =>
    intro c h diagnostic hv
    rw [← hv]
    exact hoperand c h
  case stop =>
    intro c h hv _
    rw [← hv]
    exact hoperand c h
  case more =>
    intro c h verdict e hv hsees hrest
    have hfirst := hoperand c h
    rw [hv] at hfirst
    exact hfirst.after_operator hop hsees hrest

private theorem sees_chain {n : Nat} {op : Kind} {operand : Routine n} {past : List Kind}
    (hoperand : ∀ c h, (operand c h).verdict = .ok () →
      ∀ kind ∈ past, (operand c h).cursor.sees kind = false)
    (c : Cursor) (h : c.ahead.length ≤ n) (hok : (chain op operand c h).verdict = .ok ()) :
    ∀ kind ∈ op :: past, (chain op operand c h).cursor.sees kind = false := by
  revert hok
  refine chain_induct
    (P := fun _ verdict d => verdict = .ok () → ∀ kind ∈ op :: past, d.sees kind = false)
    ?fail ?stop ?more c h
  case fail => exact fun _ _ _ _ hok => nomatch hok
  case stop =>
    intro c h hv hsees _ kind hkind
    rcases List.mem_cons.mp hkind with rfl | hkind
    · exact hsees
    · exact hoperand c h hv kind hkind
  case more => exact fun _ _ _ _ _ _ hrest hok => hrest hok

theorem follows_rungs {limit n : Nat} {lowest : Routine n} {rungs : List Kind}
    (hrungs : rungs ⊆ operators)
    (hlowest : ∀ c h, Follows limit c (lowest c h).verdict (lowest c h).cursor)
    (c : Cursor) (h : c.ahead.length ≤ n) :
    Follows limit c (rungs.foldr chain lowest c h).verdict
      (rungs.foldr chain lowest c h).cursor := by
  induction rungs generalizing c with
  | nil => exact hlowest c h
  | cons op rungs ih =>
      have hrest := fun c h => ih (fun kind hkind => hrungs (List.mem_cons_of_mem op hkind)) c h
      exact follows_chain (hrungs List.mem_cons_self) hrest c h

theorem sees_rungs {n : Nat} {lowest : Routine n} (rungs : List Kind)
    (c : Cursor) (h : c.ahead.length ≤ n)
    (hok : (rungs.foldr chain lowest c h).verdict = .ok ()) :
    ∀ kind ∈ rungs, (rungs.foldr chain lowest c h).cursor.sees kind = false := by
  induction rungs generalizing c with
  | nil => simp
  | cons op rungs ih => exact sees_chain ih c h hok

private theorem follows_group {limit n : Nat} {group : (c : Cursor) → c.ahead.length < n → Run c}
    (hgroup : ∀ c h, Follows limit c (group c h).verdict (group c h).cursor)
    (hpast : ∀ c h, (group c h).verdict = .ok () → (group c h).cursor.PastOperators)
    {c : Cursor} (hsees : c.sees .lparen = true) (hlt : c.depth < limit)
    (h : c.enter.ahead.length < n) :
    Follows limit c ((group c.enter h).andThen fun d _ => close d).verdict
      ((group c.enter h).andThen fun d _ => close d).cursor := by
  have hinner := hgroup c.enter h
  cases hv : (group c.enter h).verdict with
  | error diagnostic =>
      rw [hv] at hinner
      rw [Run.andThen_of_error hv, hv]
      exact hinner.group_error hsees hlt
  | ok =>
      rw [hv] at hinner
      rw [Run.andThen_of_ok hv, Run.verdict_since, Run.cursor_since]
      unfold close
      split
      · next hclose => exact hinner.group_closed hsees hlt hclose
      · next hclose =>
          exact hinner.group_unclosed hsees hlt (hpast c.enter h hv)
            (Bool.eq_false_iff.mpr hclose)

theorem follows_atom {limit n : Nat} {group : (c : Cursor) → c.ahead.length < n → Run c}
    (hgroup : ∀ c h, Follows limit c (group c h).verdict (group c h).cursor)
    (hpast : ∀ c h, (group c h).verdict = .ok () → (group c h).cursor.PastOperators)
    (c : Cursor) (h : c.ahead.length ≤ n) :
    Follows limit c (atom limit group c h).verdict (atom limit group c h).cursor := by
  refine atom_cases (P := Follows limit c) ?enter ?deep ?step ?other h
  case enter => exact fun h hsees hlt => follows_group hgroup hpast hsees hlt h
  case step =>
    intro token rest hahead hkind
    exact Follows.step (Cursor.sees_iff.mpr ⟨token, rest, hahead, rfl⟩) hkind
  case deep =>
    intro token rest hahead hkind hle
    refine Follows.refuse (fun base opened hdepth => ?_) (fun _ => ?_)
    · rw [hahead]
      exact Stage.stuck_operand (by simp [hkind]) (by simp [hkind]) fun _ => by omega
    · simp [Stage.report, Cursor.peek?, hahead, hkind]
  case other =>
    intro hother
    cases hahead : c.ahead with
    | nil =>
        refine Follows.refuse (fun _ _ _ => ?_) (fun _ => ?_)
        · simp [Stage.Stuck, hahead]
        · simp [Stage.report, Stage.wanted, Cursor.peek?, hahead, operandKinds_eq]
    | cons token rest =>
        obtain ⟨hlparen, hinteger, hidentifier⟩ :
            token.kind ≠ .lparen ∧ token.kind ≠ .integer ∧ token.kind ≠ .identifier := by
          simpa [operandKinds_eq] using hother token rest hahead
        refine Follows.refuse (fun _ _ _ => ?_) (fun _ => ?_)
        · rw [hahead]
          exact Stage.stuck_operand hinteger hidentifier (absurd · hlparen)
        · simp [Stage.report, Stage.wanted, Cursor.peek?, hahead, operandKinds_eq, hlparen]

end Ladder

/-! ## Whole rules -/

namespace Stop

def cursor (base : Nat) (stop : Stop) : Cursor :=
  ⟨stop.behind, stop.ahead, base + stop.stage.opened⟩

def outcome (limit base : Nat) (stop : Stop) : Verdict :=
  if stop.stage = .operator 0 then .ok ()
  else .error (stop.stage.report limit (stop.cursor base))

end Stop

/-- The run leaves the cursor where the scan stops, with the verdict that the stop gives. -/
structure Run.EndsAs {c : Cursor} (run : Run c) (limit : Nat) (stop : Stop) : Prop where
  cursor_eq : run.cursor = stop.cursor c.depth
  verdict_eq : run.verdict = stop.outcome limit c.depth

theorem follows_expression (limit : Nat) (c : Cursor) :
    Follows limit c (expression limit c).verdict (expression limit c).cursor ∧
      ((expression limit c).verdict = .ok () →
        (expression limit c).cursor.PastOperators) := by
  induction c using expression.induct with
  | case1 c ih =>
      -- The rungs are climbed at one cursor; only the group of an atom goes back to the
      -- expression, where `ih` has fewer tokens ahead.
      rw [expression]
      constructor
      · refine Ladder.follows_rungs (List.Subset.refl _) (Ladder.follows_atom ?_ ?_) c _
        · exact fun d hd => (ih d hd).1
        · exact fun d hd => (ih d hd).2
      · exact Ladder.sees_rungs Ladder.operators c _

theorem expression_endsAs (limit : Nat) (c : Cursor) :
    (expression limit c).EndsAs limit (c.scan (limit - c.depth) (.operand 0)) := by
  obtain ⟨hfollows, hpast⟩ := follows_expression limit c
  cases hv : (expression limit c).verdict with
  | error diagnostic =>
      rw [hv] at hfollows
      obtain ⟨stage, hstage, hdepth, rfl, hscan⟩ := hfollows.error (Nat.add_zero c.depth).symm
      have hcursor : (expression limit c).cursor =
          (⟨stage, (expression limit c).cursor.behind, (expression limit c).cursor.ahead⟩ :
            Stop).cursor c.depth := by
        rw [Stop.cursor, ← hdepth]
      rw [hscan]
      refine ⟨hcursor, ?_⟩
      rw [hv, Stop.outcome, if_neg hstage, ← hcursor]
  | ok =>
      rw [hv] at hfollows
      obtain ⟨hdepth, hscan⟩ := hfollows.ok (Nat.add_zero c.depth).symm
      have hstuck := (hpast hv).stuck (.inl rfl) (limit - c.depth)
      rw [hscan, Cursor.scan_of_stuck hstuck]
      refine ⟨?_, hv⟩
      rw [Stop.cursor, Stage.opened, Nat.add_zero, ← hdepth]

private theorem expect_endsAs {limit : Nat} {stage next : Stage} {kind : Kind}
    (hfits : ∀ limit other, stage.next? limit other = if other = kind then some next else none)
    (hreport : ∀ c, stage.report limit c = c.unexpected (.kind kind))
    (hopened : stage.opened = 0) (hstage : stage ≠ .operator 0) {c : Cursor}
    {rest : (d : Cursor) → d.ahead.length ≤ c.ahead.length → Run d}
    (hrest : ∀ d h, (rest d h).EndsAs limit (d.scan (limit - d.depth) next)) :
    ((Run.expect kind c).andThen rest).EndsAs limit (c.scan (limit - c.depth) stage) := by
  unfold Run.expect
  split
  · next hsees =>
      have hscan : c.scan (limit - c.depth) stage = c.advance.scan (limit - c.depth) next :=
        Cursor.scan_of_sees hsees ((hfits _ kind).trans (if_pos rfl))
      obtain ⟨hcursor, hverdict⟩ := hrest c.advance c.length_ahead_advance_le
      rw [Cursor.depth_advance] at hcursor hverdict
      rw [Run.andThen_of_ok rfl, hscan]
      exact ⟨hcursor, hverdict⟩
  · next hsees =>
      have hstuck : stage.Stuck (limit - c.depth) c.ahead := by
        intro token htoken
        obtain ⟨ahead, hahead⟩ := List.head?_eq_some_iff.mp htoken
        rw [Cursor.sees_of_ahead hahead] at hsees
        rw [hfits, if_neg (by simpa using hsees)]
      rw [Run.andThen_of_error rfl, Cursor.scan_of_stuck hstuck]
      constructor
      · rw [Stop.cursor, hopened]
        rfl
      · rw [Stop.outcome, if_neg hstage, hreport]
        rfl

theorem assignmentStatement_endsAs (limit : Nat) (c : Cursor) :
    (assignmentStatement limit c).EndsAs limit (c.scan (limit - c.depth) .target) := by
  have htarget : ∀ limit other, Stage.target.next? limit other =
      if other = .identifier then some .assignment else none := by
    intro limit other
    cases other <;> rfl
  have hassignment : ∀ limit other, Stage.assignment.next? limit other =
      if other = .assignment then some (.operand 0) else none := by
    intro limit other
    cases other <;> rfl
  refine expect_endsAs htarget (fun _ => rfl) rfl nofun fun d _ => ?_
  refine expect_endsAs hassignment (fun _ => rfl) rfl nofun fun e _ => ?_
  exact expression_endsAs limit e

end Scriptlet
