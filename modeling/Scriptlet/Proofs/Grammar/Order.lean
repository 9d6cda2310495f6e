import Scriptlet.Proofs.Grammar.Validation

/-!
# The order of the checks

Six checks are announced in an order, but three of them are made in one pass
over the symbols of the productions: the first symbol that is wrong in any of
the three ways decides.  So the defect reported is one of the earliest pass in
which there is any, and it is one of the earliest check as well, but for one
case: a repetition that can vanish is reported although an undefined rule is
used further on.
-/

namespace Scriptlet

namespace Defect

/-- The place of the check among those announced. -/
def check : Defect → Nat
  | .duplicateRule _ => 0
  | .undefinedRule _ _ => 1
  | .unknownTerminal _ _ => 2
  | .vanishingRepetition _ => 3
  | .leftRecursion _ => 4
  | .ambiguousAlternatives _ _ => 5

/-- The pass over the table in which the check is made. -/
def pass : Defect → Nat
  | .duplicateRule _ => 0
  | .undefinedRule _ none => 1
  | .undefinedRule _ (some _) => 2
  | .unknownTerminal _ _ => 2
  | .vanishingRepetition _ => 2
  | .leftRecursion _ => 3
  | .ambiguousAlternatives _ _ => 4

private theorem check_bounds (defect : Defect) : (defect.pass = 0 ∧ defect.check = 0) ∨
    (defect.pass = 1 ∧ defect.check = 1) ∨
    (defect.pass = 2 ∧ 1 ≤ defect.check ∧ defect.check ≤ 3) ∨
    (defect.pass = 3 ∧ defect.check = 4) ∨ (defect.pass = 4 ∧ defect.check = 5) := by
  match defect with
  | .undefinedRule r none | .undefinedRule r (some user) => simp [pass, check]
  | .duplicateRule r | .unknownTerminal k r | .vanishingRepetition r | .leftRecursion r
  | .ambiguousAlternatives r k => simp [pass, check]

private theorem check_le_of_pass_le {a b : Defect} (h : a.pass ≤ b.pass)
    (hsymbols : a.pass = 2 → b.pass = 2 → a.check ≤ b.check) : a.check ≤ b.check := by
  have ha := a.check_bounds
  have hb := b.check_bounds
  omega

end Defect

namespace Grammar

variable {g : Grammar} {defect other : Defect}

/-! ## The passes -/

def passDefects (g : Grammar) : Nat → List Defect
  | 0 => (repeatedRules [] g.productions).map .duplicateRule
  | 1 => g.startDefects
  | 2 => g.occurrences.flatMap fun use => g.defectsAt use.1 use.2
  | 3 => ((g.productions.map Production.rule).filter g.isLeftRecursive).map .leftRecursion
  | 4 => g.productions.flatMap fun p => (g.clashes p).map (.ambiguousAlternatives p.rule)
  | _ => []

theorem defects_eq (g : Grammar) : g.defects = (List.range 5).flatMap g.passDefects := by
  simp [List.range_succ, defects, passDefects, flatMap_symbolDefects]

private theorem pass_of_mem_passDefects {n : Nat} (h : defect ∈ g.passDefects n) :
    defect.pass = n := by
  match n, h with
  | 0, h =>
      obtain ⟨r, -, rfl⟩ := List.mem_map.mp h
      rfl
  | 1, h =>
      rw [passDefects, startDefects] at h
      split at h
      · contradiction
      · obtain rfl := List.mem_singleton.mp h
        rfl
  | 2, h =>
      obtain ⟨⟨user, symbol⟩, -, hdefect⟩ := List.mem_flatMap.mp h
      cases mem_defectsAt_iff.mp hdefect <;> rfl
  | 3, h =>
      obtain ⟨r, -, rfl⟩ := List.mem_map.mp h
      rfl
  | 4, h =>
      obtain ⟨p, -, hdefect⟩ := List.mem_flatMap.mp h
      obtain ⟨k, -, rfl⟩ := List.mem_map.mp hdefect
      rfl
  | _ + 5, h => contradiction

theorem report_of_defect? (h : g.defect? = some defect) :
    (g.passDefects defect.pass).head? = some defect ∧
      ∀ n < defect.pass, g.passDefects n = [] := by
  rw [defect?, defects_eq, List.head?_flatMap] at h
  obtain ⟨front, n, back, hrange, hhead, hfront⟩ := List.findSome?_eq_some_iff.mp h
  obtain rfl := pass_of_mem_passDefects (List.mem_of_mem_head? hhead)
  refine ⟨hhead, fun m hm => ?_⟩
  have hsorted : (front ++ defect.pass :: back).Pairwise (· < ·) := hrange ▸ List.pairwise_lt_range
  have hbehind := (List.pairwise_cons.mp (List.pairwise_append.mp hsorted).2.1).1
  have hlast : defect.pass ∈ List.range 5 := by
    simp [hrange]
  have hmem : m ∈ front ++ defect.pass :: back := by
    rw [← hrange, List.mem_range]
    exact Nat.lt_trans hm (List.mem_range.mp hlast)
  rcases List.mem_append.mp hmem with hearlier | hlater
  · exact List.head?_eq_none_iff.mp (hfront m hearlier)
  · rcases List.mem_cons.mp hlater with rfl | hlater
    · exact absurd hm (Nat.lt_irrefl _)
    · exact absurd hm (Nat.lt_asymm (hbehind m hlater))

theorem passDefects_ne_nil (hother : other.HoldsIn g) (hdistinct : other.pass = 0 ∨ g.Distinct) :
    g.passDefects other.pass ≠ [] := by
  have hsymbol : ∀ {user symbol}, g.Uses user symbol → g.Spoils user symbol other →
      g.passDefects 2 ≠ [] := fun huses hspoils =>
    List.ne_nil_of_mem (List.mem_flatMap.mpr
      ⟨_, mem_occurrences_iff.mpr huses, mem_defectsAt_iff.mpr hspoils⟩)
  match other, hother, hdistinct with
  | .duplicateRule r, hother, _ =>
      have hr : r ∈ repeatedRules [] g.productions := mem_repeatedRules_iff.mpr (.inr hother)
      exact List.ne_nil_of_mem (List.mem_map_of_mem hr)
  | .undefinedRule r none, hother, _ =>
      obtain ⟨rfl, hundefined⟩ := hother
      simp [Defect.pass, passDefects, startDefects, not_defines_iff.mpr hundefined]
  | .undefinedRule r (some user), hother, _ => exact hsymbol hother.1 (.undefined hother.2)
  | .unknownTerminal k user, hother, _ => exact hsymbol hother.1 (.unknown hother.2)
  | .vanishingRepetition user, hother, _ =>
      obtain ⟨body, huses, hderives⟩ := hother
      exact hsymbol huses (.vanishing hderives)
  | .leftRecursion r, hother, hdistinct =>
      have hrules : g.Distinct := hdistinct.resolve_left (by simp [Defect.pass])
      exact List.ne_nil_of_mem (List.mem_map_of_mem (hrules.mem_filter_isLeftRecursive hother))
  | .ambiguousAlternatives r k, hother, hdistinct =>
      have hrules : g.Distinct := hdistinct.resolve_left (by simp [Defect.pass])
      obtain ⟨p, hp, rfl, a, b, hab, hbegin⟩ := hother
      have hclash : g.clashes p ≠ [] := fun hnone =>
        List.pairwise_iff_forall_sublist.mp
          (beginnings_differ_of_clashes_eq_nil hrules hnone) hab k hbegin
      obtain ⟨kind, hkind⟩ := List.exists_mem_of_ne_nil _ hclash
      exact List.ne_nil_of_mem (List.mem_flatMap.mpr ⟨p, hp, List.mem_map_of_mem hkind⟩)

theorem pass_le_of_defect? (h : g.defect? = some defect) (hother : other.HoldsIn g) :
    defect.pass ≤ other.pass := by
  obtain ⟨-, hearlier⟩ := report_of_defect? h
  by_contra hlt
  have hlt : other.pass < defect.pass := Nat.not_le.mp hlt
  have hdistinct : g.Distinct :=
    distinct_of_repeatedRules_eq_nil (List.map_eq_nil_iff.mp (hearlier 0 (by omega)))
  exact passDefects_ne_nil hother (.inr hdistinct) (hearlier other.pass hlt)

/-! ## The order announced -/

def UsesUndefined (g : Grammar) : Prop :=
  ∃ user r, g.Uses user (.rule r) ∧ ¬ ∃ p ∈ g.productions, p.rule = r

private theorem symbol_defect_cases (h : defect.HoldsIn g) (hpass : defect.pass = 2) :
    (defect.check = 1 ∧ g.UsesUndefined) ∨ ∃ user, defect = .vanishingRepetition user := by
  cases defect with
  | undefinedRule r user =>
      cases user with
      | none => simp [Defect.pass] at hpass
      | some user => exact .inl ⟨rfl, user, r, h⟩
  | unknownTerminal k user => exact absurd h not_holdsIn_unknownTerminal
  | vanishingRepetition user => exact .inr ⟨user, rfl⟩
  | duplicateRule | leftRecursion | ambiguousAlternatives => simp [Defect.pass] at hpass

private theorem check_le_of_symbols (hdefect : defect.HoldsIn g) (hother : other.HoldsIn g)
    (hnone : ¬ ((∃ user, defect = .vanishingRepetition user) ∧ g.UsesUndefined))
    (hpass : defect.pass = 2) (hpass' : other.pass = 2) : defect.check ≤ other.check := by
  rcases symbol_defect_cases hdefect hpass with ⟨hcheck, -⟩ | hrepetition
  · have hbounds := other.check_bounds
    omega
  · rcases symbol_defect_cases hother hpass' with ⟨-, hundefined⟩ | ⟨user', rfl⟩
    · exact absurd ⟨hrepetition, hundefined⟩ hnone
    · obtain ⟨user, rfl⟩ := hrepetition
      exact Nat.le_refl _

private theorem check_le_iff_of_pass_le (hholds : defect.HoldsIn g)
    (hpass : ∀ other : Defect, other.HoldsIn g → defect.pass ≤ other.pass) :
    (∀ other : Defect, other.HoldsIn g → defect.check ≤ other.check) ↔
      ¬ ((∃ user, defect = .vanishingRepetition user) ∧ g.UsesUndefined) := by
  constructor
  · rintro hcheck ⟨⟨user, rfl⟩, other, r, huses, hundefined⟩
    have hle := hcheck (.undefinedRule r (some other)) ⟨huses, hundefined⟩
    simp [Defect.check] at hle
  · intro hnone other hother
    exact Defect.check_le_of_pass_le (hpass other hother) (check_le_of_symbols hholds hother hnone)

private theorem exists_first_use (h : (g.passDefects 2).head? = some defect) :
    ∃ front use back, g.occurrences = front ++ use :: back ∧ g.Spoils use.1 use.2 defect ∧
      ∀ earlier ∈ front, ∀ other, ¬ g.Spoils earlier.1 earlier.2 other := by
  rw [passDefects, List.head?_flatMap] at h
  obtain ⟨front, use, back, huses, hhead, hfront⟩ := List.findSome?_eq_some_iff.mp h
  refine ⟨front, use, back, huses, mem_defectsAt_iff.mp (List.mem_of_mem_head? hhead), ?_⟩
  intro earlier hearlier other hspoils
  have hnone := List.head?_eq_none_iff.mp (hfront earlier hearlier)
  have hmem := mem_defectsAt_iff.mpr hspoils
  rw [hnone] at hmem
  contradiction

/-- How the defect that is reported stands to the others that the grammar has. -/
structure ReportedInOrder (g : Grammar) (defect : Defect) : Prop where
  holds : defect.HoldsIn g
  pass_le : ∀ other : Defect, other.HoldsIn g → defect.pass ≤ other.pass
  first_use : defect.pass = 2 → ∃ front use back, g.occurrences = front ++ use :: back ∧
    g.Spoils use.1 use.2 defect ∧ ∀ earlier ∈ front, ∀ other, ¬ g.Spoils earlier.1 earlier.2 other
  check_le_iff : (∀ other : Defect, other.HoldsIn g → defect.check ≤ other.check) ↔
    ¬ ((∃ user, defect = .vanishingRepetition user) ∧ g.UsesUndefined)

/-- The defect reported is of the earliest pass, where it is that of the first symbol that has one,
and it is of the earliest check unless it is a repetition and an undefined rule is used. -/
theorem reportedInOrder_of_defect? (h : g.defect? = some defect) : g.ReportedInOrder defect where
  holds := holdsIn_of_mem_defects (List.mem_of_mem_head? h)
  pass_le _ hother := pass_le_of_defect? h hother
  first_use hpass := exists_first_use (hpass ▸ (report_of_defect? h).1)
  check_le_iff := check_le_iff_of_pass_le (holdsIn_of_mem_defects (List.mem_of_mem_head? h))
    fun _ hother => pass_le_of_defect? h hother

def unfinished : Grammar where
  start := .expression
  productions :=
    [⟨.expression,
      [.many (.many (.token .addition .done) .done) (.rule .subtExpression .done)]⟩]

private theorem unfinished_holdsIn :
    (Defect.undefinedRule .subtExpression (some .expression)).HoldsIn unfinished := by
  refine ⟨⟨_, ⟨_, List.mem_cons_self, rfl, List.mem_cons_self⟩, ?_⟩, ?_⟩
  · decide
  · decide

theorem reportedInOrder_in_unfinished :
    unfinished.defect? = some (.vanishingRepetition .expression) ∧
      unfinished.ReportedInOrder (.vanishingRepetition .expression) := by
  have hreport : unfinished.defect? = some (.vanishingRepetition .expression) := by
    decide +kernel
  exact ⟨hreport, reportedInOrder_of_defect? hreport⟩

theorem unfinished_reported_out_of_order : ∃ reported other : Defect,
    unfinished.defect? = some reported ∧ other.HoldsIn unfinished ∧
      other.check < reported.check := by
  refine ⟨.vanishingRepetition .expression, _, ?_, unfinished_holdsIn, ?_⟩
  · decide +kernel
  · decide

end Grammar

end Scriptlet
