import Scriptlet.Proofs.Grammar.Vanishing
import Scriptlet.Proofs.Halting

/-!
# Sweeping the table

The vanishing rules need not be collected in rounds.  A sweep takes the
productions in the order of the table, and a rule that it adds counts at once
for the productions behind.  The table is swept until a sweep has added
nothing.  This ends on every table, since there are only so many rules to add,
and the order of the productions makes no difference to the rules that are
found: each of them derives the empty word, and after a sweep that has added
nothing the known rules are saturated.
-/

namespace Scriptlet

/-! ## Steps of a sweep -/

/-- A sweep under way: the productions that it has still to take, the rules that are known, and
whether it has added one. -/
structure Sweep where
  pending : List Production
  known : List Rule
  changed : Bool

def Production.vanishes (known : List Rule) (p : Production) : Bool :=
  p.alternatives.any (Phrase.vanishes known)

namespace Grammar

variable {g : Grammar}

def sweep? (g : Grammar) : Sweep → Option Sweep
  | ⟨p :: pending, known, changed⟩ =>
      if p.rule ∈ known then some ⟨pending, known, changed⟩
      else if p.vanishes known then some ⟨pending, p.rule :: known, true⟩
      else some ⟨pending, known, changed⟩
  | ⟨[], known, true⟩ => some ⟨g.productions, known, false⟩
  | ⟨[], _, false⟩ => none

/-- The sweeps over the table end with the rules. -/
def Collects (g : Grammar) (known : List Rule) : Prop :=
  HaltsAt g.sweep? ⟨g.productions, [], false⟩ ⟨[], known, false⟩

inductive Sweeps (g : Grammar) : Sweep → Sweep → Prop
  | pass {p pending known changed} : p.rule ∈ known ∨ p.vanishes known = false →
      Sweeps g ⟨p :: pending, known, changed⟩ ⟨pending, known, changed⟩
  | add {p pending known changed} : p.rule ∉ known → p.vanishes known = true →
      Sweeps g ⟨p :: pending, known, changed⟩ ⟨pending, p.rule :: known, true⟩
  | again {known} : Sweeps g ⟨[], known, true⟩ ⟨g.productions, known, false⟩

theorem sweeps_of_sweep? {s t : Sweep} (h : g.sweep? s = some t) : g.Sweeps s t := by
  match s, h with
  | ⟨p :: pending, known, changed⟩, h =>
      simp only [sweep?] at h
      split at h
      · next hknown =>
          obtain rfl := Option.some.inj h
          exact .pass (.inl hknown)
      · next hnew =>
          split at h
          · next hvanishes =>
              obtain rfl := Option.some.inj h
              exact .add hnew hvanishes
          · next hstays =>
              obtain rfl := Option.some.inj h
              exact .pass (.inr (Bool.eq_false_iff.mpr hstays))
  | ⟨[], known, true⟩, h =>
      obtain rfl := Option.some.inj h
      exact .again

theorem eq_of_sweep?_eq_none {s : Sweep} (h : g.sweep? s = none) : s = ⟨[], s.known, false⟩ := by
  match s, h with
  | ⟨[], _, false⟩, _ => rfl
  | ⟨[], _, true⟩, h => contradiction
  | ⟨p :: pending, known, changed⟩, h =>
      simp only [sweep?] at h
      split at h
      · contradiction
      · split at h <;> contradiction

/-! ## Sweeps end -/

def unknown (known : List Rule) : List Rule :=
  Rule.all.filter fun rule => !known.contains rule

private theorem length_unknown_lt {known : List Rule} {rule : Rule} (h : rule ∉ known) :
    (unknown (rule :: known)).length < (unknown known).length := by
  have hfilter : unknown (rule :: known) = (unknown known).filter (· ≠ rule) := by
    rw [unknown, unknown, List.filter_filter]
    refine List.filter_congr fun other _ => ?_
    simp
  rw [hfilter, List.length_filter_lt_length_iff_exists]
  exact ⟨rule, List.mem_filter.mpr ⟨rule.mem_all, by simpa using h⟩, by simp⟩

def sweepWork (g : Grammar) (s : Sweep) : Nat :=
  s.pending.length + (g.productions.length + 1) * ((unknown s.known).length + s.changed.toNat)

private theorem sweepWork_of_sweeps {s t : Sweep} (h : g.Sweeps s t) :
    g.sweepWork t < g.sweepWork s := by
  cases h with
  | pass _ => simp [sweepWork]
  | @add p pending known changed hnew _ =>
      have hfewer := length_unknown_lt hnew
      have hsweeps : (g.productions.length + 1) * ((unknown (p.rule :: known)).length + 1) ≤
          (g.productions.length + 1) * ((unknown known).length + changed.toNat) :=
        Nat.mul_le_mul_left _ (by omega)
      simp only [sweepWork, List.length_cons, Bool.toNat_true]
      omega
  | again =>
      simp only [sweepWork, List.length_nil, Bool.toNat_true, Bool.toNat_false, Nat.mul_add]
      omega

theorem exists_collects (g : Grammar) : ∃ known, g.Collects known := by
  obtain ⟨last, hrun, hlast⟩ := exists_haltsAt g.sweepWork
    (fun s t (hstep : g.sweep? s = some t) => sweepWork_of_sweeps (sweeps_of_sweep? hstep))
    ⟨g.productions, [], false⟩
  rw [eq_of_sweep?_eq_none hlast] at hrun
  exact ⟨last.known, hrun, rfl⟩

/-! ## What sweeps collect -/

/-- What is known derives the empty word.  As long as the sweep has added nothing, the productions
that it has taken add nothing to what is known. -/
structure Swept (g : Grammar) (s : Sweep) : Prop where
  pending_subset : s.pending ⊆ g.productions
  derives : ∀ rule ∈ s.known, g.Derives (.rule rule .done) []
  taken : s.changed = false → ∀ p ∈ g.productions,
    p ∈ s.pending ∨ p.rule ∈ s.known ∨ p.vanishes s.known = false

private theorem swept_start (g : Grammar) : g.Swept ⟨g.productions, [], false⟩ where
  pending_subset := List.Subset.refl _
  derives := List.forall_mem_nil _
  taken _ _ hp := .inl hp

section Swept

variable {p : Production} {pending : List Production} {known : List Rule} {changed : Bool}

private theorem Swept.pass (h : g.Swept ⟨p :: pending, known, changed⟩)
    (hp : p.rule ∈ known ∨ p.vanishes known = false) : g.Swept ⟨pending, known, changed⟩ where
  pending_subset := List.subset_of_cons_subset h.pending_subset
  derives := h.derives
  taken hsame q hq := by
    rcases h.taken hsame q hq with hpending | hsettled
    · rcases List.mem_cons.mp hpending with rfl | hpending
      · exact .inr hp
      · exact .inl hpending
    · exact .inr hsettled

private theorem Swept.add (h : g.Swept ⟨p :: pending, known, changed⟩)
    (hp : p.vanishes known = true) : g.Swept ⟨pending, p.rule :: known, true⟩ where
  pending_subset := List.subset_of_cons_subset h.pending_subset
  derives := by
    obtain ⟨phrase, hphrase, hvanishes⟩ := List.any_eq_true.mp hp
    have hoffers : g.Offers p.rule phrase := ⟨p, h.pending_subset List.mem_cons_self, rfl, hphrase⟩
    have hrule := derives_nil_of_vanishesBy h.derives (vanishesBy_iff.mpr ⟨_, hoffers, hvanishes⟩)
    exact List.forall_mem_cons.mpr ⟨hrule, h.derives⟩
  taken := nofun

private theorem Swept.again (h : g.Swept ⟨[], known, true⟩) :
    g.Swept ⟨g.productions, known, false⟩ where
  pending_subset := List.Subset.refl _
  derives := h.derives
  taken _ _ hp := .inl hp

theorem Swept.step {s t : Sweep} (h : g.Swept s) (hstep : g.Sweeps s t) : g.Swept t := by
  cases hstep with
  | pass hp => exact h.pass hp
  | add _ hp => exact h.add hp
  | again => exact h.again

theorem Collects.swept (h : g.Collects known) : g.Swept ⟨[], known, false⟩ :=
  h.holds_last g.swept_start fun _ _ hswept hstep => hswept.step (sweeps_of_sweep? hstep)

theorem Swept.saturated (h : g.Swept ⟨[], known, false⟩) : g.Saturated known := by
  intro rule hrule
  obtain ⟨phrase, ⟨p, hp, rfl, hphrase⟩, hvanishes⟩ := vanishesBy_iff.mp hrule
  have hpvanishes : p.vanishes known = true := List.any_eq_true.mpr ⟨phrase, hphrase, hvanishes⟩
  rcases h.taken rfl p hp with hpending | hknown | hstays
  · contradiction
  · exact hknown
  · rw [hpvanishes] at hstays
    contradiction

end Swept

/-! ## The order of the table -/

/-- The known rules are those that derive the empty word, and tell of every phrase whether it
does. -/
structure AreVanishing (g : Grammar) (known : List Rule) : Prop where
  mem_iff : ∀ rule, rule ∈ known ↔ g.Derives (.rule rule .done) []
  vanishes_iff : ∀ phrase : Phrase, phrase.vanishes known = true ↔ g.Derives phrase []
  not_mem_of_not_defines : ∀ rule, g.defines rule = false → rule ∉ known
  many_vanishes : ∀ body, (Phrase.many body .done).vanishes known = true

theorem Saturated.areVanishing {known : List Rule} (h : g.Saturated known)
    (hknown : ∀ rule ∈ known, g.Derives (.rule rule .done) []) : g.AreVanishing known where
  mem_iff _ := h.mem_iff hknown
  vanishes_iff _ := h.vanishes_iff hknown
  not_mem_of_not_defines rule hundefined hrule := by
    obtain ⟨_, _, _, -, ⟨p, hp, hprule, -⟩, -⟩ := derives_rule_iff.mp (hknown rule hrule)
    rw [defines_iff.mpr ⟨p, hp, hprule⟩] at hundefined
    contradiction
  many_vanishes _ := rfl

theorem Offers.of_perm {g' : Grammar} (hperm : g.productions.Perm g'.productions) {rule : Rule}
    {phrase : Phrase} (h : g.Offers rule phrase) : g'.Offers rule phrase := by
  obtain ⟨p, hp, hphrase⟩ := h
  exact ⟨p, hperm.mem_iff.mp hp, hphrase⟩

theorem Derives.of_perm {g' : Grammar} (hperm : g.productions.Perm g'.productions) {phrase : Phrase}
    {word : List Kind} (h : g.Derives phrase word) : g'.Derives phrase word := by
  induction h with
  | done => exact .done
  | token _ ih => exact .token ih
  | rule ho _ _ ihphrase ihrest => exact .rule (ho.of_perm hperm) ihphrase ihrest
  | stop _ ih => exact .stop ih
  | again _ _ ihbody ihmany => exact .again ihbody ihmany

theorem AreVanishing.of_perm {g' : Grammar} (hperm : g.productions.Perm g'.productions)
    {known : List Rule} (h : g.AreVanishing known) : g'.AreVanishing known := by
  have hderives : ∀ phrase word, g.Derives phrase word ↔ g'.Derives phrase word :=
    fun _ _ => ⟨.of_perm hperm, .of_perm hperm.symm⟩
  constructor
  case mem_iff => exact fun rule => (h.mem_iff rule).trans (hderives _ _)
  case vanishes_iff => exact fun phrase => (h.vanishes_iff phrase).trans (hderives _ _)
  case not_mem_of_not_defines =>
    intro rule hundefined
    refine h.not_mem_of_not_defines rule (Bool.eq_false_iff.mpr fun hdefines => ?_)
    obtain ⟨p, hp, hrule⟩ := defines_iff.mp hdefines
    rw [defines_iff.mpr ⟨p, hperm.mem_iff.mp hp, hrule⟩] at hundefined
    contradiction
  case many_vanishes => exact h.many_vanishes

theorem areVanishing_vanishing (g : Grammar) : g.AreVanishing g.vanishing :=
  g.saturated_vanishing.areVanishing g.derives_nil_of_mem_vanishing

/-- In whatever order the productions of a table stand, the sweeps over it end.  What they collect,
and what is collected in rounds, are the rules that derive the empty word. -/
theorem vanishing_exact {g' : Grammar} (hperm : g'.productions.Perm g.productions) :
    (∃ known, g'.Collects known) ∧ (∀ known, g'.Collects known → g.AreVanishing known) ∧
      g.AreVanishing g'.vanishing := by
  refine ⟨g'.exists_collects, fun known hknown => ?_, g'.areVanishing_vanishing.of_perm hperm⟩
  have hswept := hknown.swept
  exact (hswept.saturated.areVanishing hswept.derives).of_perm hperm

def descending : Grammar where
  start := .expression
  productions :=
    [⟨.expression, [.rule .subtExpression (.rule .addExpression .done)]⟩,
      ⟨.subtExpression, [.rule .multExpression .done, .rule .addExpression .done]⟩,
      ⟨.addExpression, [.rule .expression (.token .integer .done)]⟩,
      ⟨.addExpression, [.many (.token .addition .done) .done]⟩,
      ⟨.multExpression, [.rule .atomicExpression .done]⟩]

def ascending : Grammar where
  start := .expression
  productions := descending.productions.reverse

theorem vanishing_exact_in_descending : ascending.productions.Perm descending.productions ∧
    (∃ known, ascending.Collects known ∧
      ∀ rule, rule ∈ known ↔ rule ∈ [.addExpression, .subtExpression, .expression]) ∧
    descending.Derives (.rule .expression .done) [] ∧
      ¬ descending.Derives (.rule .multExpression .done) [] := by
  have hperm : ascending.productions.Perm descending.productions := List.reverse_perm _
  obtain ⟨⟨known, hcollects⟩, hsweeps, hrounds⟩ := vanishing_exact hperm
  have hrules : ascending.vanishing = [.addExpression, .subtExpression, .expression] := by
    decide +kernel
  rw [hrules] at hrounds
  refine ⟨hperm, ⟨known, hcollects, fun rule => ?_⟩, ?_, ?_⟩
  · exact ((hsweeps known hcollects).mem_iff rule).trans (hrounds.mem_iff rule).symm
  · exact (hrounds.mem_iff .expression).mp (by decide)
  · exact fun h => absurd ((hrounds.mem_iff .multExpression).mpr h) (by decide)

end Grammar

end Scriptlet
