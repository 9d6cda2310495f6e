import Mathlib.Data.Fintype.OfMap
import Mathlib.Data.Fintype.Pigeonhole
import Mathlib.Order.Monotone.Basic
import Scriptlet.Grammar.Statement
import Scriptlet.Proofs.Grammar.Traversal

/-!
# Searching for left recursion

The search for a rule below itself works off a stack of rules.  It looks at
what each can begin with, stops where this is the rule sought for, and puts
every other rule on the stack when it meets it first.  It ends on every table.
Once the stack is empty, the rules met are closed under what they can begin
with, so that the rule is not below itself.  In a grammar without left
recursion no chain of rules that begin one another goes on for ever: there are
only so many rules, and the chain would come back to one of them.
-/

namespace Scriptlet

/-! ## Steps of the search -/

def Leader.rule? : Leader → Option Rule
  | .token _ => none
  | .rule r => some r

structure Search where
  leading : List Rule
  stack : List Rule
  fresh : List Rule

namespace Search

def finds (s : Search) (target : Rule) : Bool :=
  s.leading.head? == some target

end Search

namespace Grammar

variable {g : Grammar}

def leadingRules (g : Grammar) (r : Rule) : List Rule :=
  (g.expansion r).filterMap Leader.rule?

def seek? (g : Grammar) (target : Rule) : Search → Option Search
  | ⟨[], [], _⟩ => none
  | ⟨[], current :: stack, fresh⟩ => some ⟨g.leadingRules current, stack, fresh⟩
  | ⟨r :: leading, stack, fresh⟩ =>
      if r = target then none
      else if r ∈ fresh then some ⟨leading, r :: stack, fresh.erase r⟩
      else some ⟨leading, stack, fresh⟩

/-- The search for the rule below itself ends with the verdict. -/
def Decides (g : Grammar) (r : Rule) (verdict : Bool) : Prop :=
  ∃ last, HaltsAt (g.seek? r) ⟨[], [r], Rule.all⟩ last ∧ last.finds r = verdict

def work (g : Grammar) (s : Search) : Nat :=
  s.leading.length + ((s.stack ++ s.fresh).flatMap fun r => r :: g.leadingRules r).length

theorem work_of_seek? {target : Rule} {s t : Search} (h : g.seek? target s = some t) :
    g.work t < g.work s := by
  match s, h with
  | ⟨[], current :: stack, fresh⟩, h =>
      obtain rfl := Option.some.inj h
      simp [work]
  | ⟨r :: leading, stack, fresh⟩, h =>
      simp only [seek?] at h
      split at h
      · contradiction
      · split at h
        · next hr =>
            obtain rfl := Option.some.inj h
            have hperm : (r :: fresh.erase r).Perm fresh := (List.perm_cons_erase hr).symm
            have hlength := (hperm.flatMap_right fun r => r :: g.leadingRules r).length_eq
            simp only [work, List.flatMap_append, List.flatMap_cons, List.length_append,
              List.length_cons] at hlength ⊢
            omega
        · obtain rfl := Option.some.inj h
          simp [work]

/-! ## What the search knows -/

def Begins (g : Grammar) (r next : Rule) : Prop :=
  .rule next ∈ g.leaders r

theorem mem_leadingRules_iff {r next : Rule} : next ∈ g.leadingRules r ↔ g.Begins r next := by
  rw [Begins, leaders, List.mem_eraseDups, leadingRules, expansion, List.mem_filterMap]
  constructor
  · rintro ⟨leader, hleader, hrule⟩
    cases leader with
    | token k => contradiction
    | rule r => exact Option.some.inj hrule ▸ hleader
  · exact fun h => ⟨_, h, rfl⟩

/-- Whatever is met lies below the rule sought for.  What that rule and the rules met begin with was
met as well and is not the rule sought for, unless it is still to be looked at. -/
structure Sought (g : Grammar) (target : Rule) (s : Search) : Prop where
  nodup_fresh : s.fresh.Nodup
  leading_below : ∀ next ∈ s.leading, Relation.TransGen g.Begins target next
  stack_below : ∀ r ∈ s.stack, Relation.ReflTransGen g.Begins target r
  looked_at : ∀ r, r = target ∨ r ∉ s.fresh → r ∈ s.stack ∨
    ∀ next, g.Begins r next → (next ≠ target ∧ next ∉ s.fresh) ∨ next ∈ s.leading

private theorem sought_start (g : Grammar) (target : Rule) :
    g.Sought target ⟨[], [target], Rule.all⟩ where
  nodup_fresh := nodup_all
  leading_below := by simp
  stack_below := by simp [Relation.ReflTransGen.refl]
  looked_at r hr := .inl (by simpa [r.mem_all] using hr)

section Sought

variable {target r current : Rule} {leading stack fresh : List Rule}

private theorem Sought.pop (h : g.Sought target ⟨[], current :: stack, fresh⟩) :
    g.Sought target ⟨g.leadingRules current, stack, fresh⟩ where
  nodup_fresh := h.nodup_fresh
  leading_below next hnext :=
    .tail' (h.stack_below current List.mem_cons_self) (mem_leadingRules_iff.mp hnext)
  stack_below r hr := h.stack_below r (List.mem_cons_of_mem _ hr)
  looked_at r hr := by
    rcases h.looked_at r hr with hstack | hlooked
    · rcases List.mem_cons.mp hstack with rfl | hstack
      · exact .inr fun next hnext => .inr (mem_leadingRules_iff.mpr hnext)
      · exact .inl hstack
    · refine .inr fun next hnext => .inl ?_
      simpa using hlooked next hnext

private theorem Sought.look {higher later : List Rule}
    (h : g.Sought target ⟨r :: leading, stack, fresh⟩) (hne : r ≠ target) (hmet : r ∉ later)
    (hlater : later.Sublist fresh) (hkept : stack ⊆ higher)
    (hnew : ∀ a ∈ fresh, a ∉ later → a ∈ higher)
    (hbelow : ∀ a ∈ higher, Relation.ReflTransGen g.Begins target a) :
    g.Sought target ⟨leading, higher, later⟩ where
  nodup_fresh := hlater.nodup h.nodup_fresh
  leading_below next hnext := h.leading_below next (List.mem_cons_of_mem _ hnext)
  stack_below := hbelow
  looked_at a ha := by
    by_cases hfresh : a ∈ fresh ∧ a ∉ later
    · exact .inl (hnew a hfresh.1 hfresh.2)
    · have hold : a = target ∨ a ∉ fresh := ha.imp_right fun hmem hold => hfresh ⟨hold, hmem⟩
      refine (h.looked_at a hold).imp (@hkept a) fun hlooked next hnext => ?_
      rcases hlooked next hnext with ⟨hother, hnew⟩ | hleading
      · exact .inl ⟨hother, fun hmem => hnew (hlater.subset hmem)⟩
      · rcases List.mem_cons.mp hleading with rfl | hleading
        · exact .inl ⟨hne, hmet⟩
        · exact .inr hleading

private theorem Sought.push (h : g.Sought target ⟨r :: leading, stack, fresh⟩) (hne : r ≠ target) :
    g.Sought target ⟨leading, r :: stack, fresh.erase r⟩ := by
  refine h.look hne h.nodup_fresh.not_mem_erase List.erase_sublist (List.subset_cons_self r stack)
    (fun a ha hgone => ?_) (List.forall_mem_cons.mpr ⟨?_, h.stack_below⟩)
  · by_contra hother
    exact hgone ((List.mem_erase_of_ne (List.ne_of_not_mem_cons hother)).mpr ha)
  · exact (h.leading_below r List.mem_cons_self).to_reflTransGen

private theorem Sought.skip (h : g.Sought target ⟨r :: leading, stack, fresh⟩) (hne : r ≠ target)
    (hr : r ∉ fresh) : g.Sought target ⟨leading, stack, fresh⟩ :=
  h.look hne hr (.refl _) (List.Subset.refl _) (fun _ ha hgone => absurd ha hgone) h.stack_below

theorem Sought.step {s t : Search} (h : g.Sought target s) (hstep : g.seek? target s = some t) :
    g.Sought target t := by
  match s, h, hstep with
  | ⟨[], current :: stack, fresh⟩, h, hstep =>
      obtain rfl := Option.some.inj hstep
      exact h.pop
  | ⟨r :: leading, stack, fresh⟩, h, hstep =>
      simp only [seek?] at hstep
      split at hstep
      · contradiction
      · next hne =>
          split at hstep
          · obtain rfl := Option.some.inj hstep
            exact h.push hne
          · next hr =>
              obtain rfl := Option.some.inj hstep
              exact h.skip hne hr

private theorem Sought.not_below (h : g.Sought target ⟨[], [], fresh⟩) :
    ¬ Relation.TransGen g.Begins target target := by
  have hclosed : ∀ r, r = target ∨ r ∉ fresh → ∀ next, g.Begins r next →
      next ≠ target ∧ next ∉ fresh := by
    intro r hr next hnext
    simpa using (h.looked_at r hr).resolve_left List.not_mem_nil next hnext
  have hbelow : ∀ r, Relation.TransGen g.Begins target r → r ≠ target ∧ r ∉ fresh := by
    intro r hr
    induction hr with
    | single hbegins => exact hclosed target (.inl rfl) _ hbegins
    | tail _ hbegins ih => exact hclosed _ (.inr ih.2) _ hbegins
  exact fun hcycle => (hbelow target hcycle).1 rfl

theorem Sought.finds_iff {s : Search} (h : g.Sought target s) (hlast : g.seek? target s = none) :
    s.finds target = true ↔ Relation.TransGen g.Begins target target := by
  match s, h, hlast with
  | ⟨[], [], fresh⟩, h, _ => simpa [Search.finds] using h.not_below
  | ⟨[], current :: stack, fresh⟩, _, hlast => contradiction
  | ⟨r :: leading, stack, fresh⟩, h, hlast =>
      have hr : r = target := by
        by_contra hne
        simp only [seek?, if_neg hne] at hlast
        split at hlast <;> contradiction
      refine iff_of_true (by simp [Search.finds, hr]) ?_
      exact hr ▸ h.leading_below r List.mem_cons_self

end Sought

private theorem meets_rule_iff {r next : Rule} :
    g.Meets Rule.all r (.rule next) ↔ Relation.TransGen g.Begins r next := by
  constructor
  · intro h
    generalize hleader : Leader.rule next = leader at h
    induction h with
    | direct _ hnext =>
        subst hleader
        exact .single hnext
    | deeper _ hmiddle _ ih => exact .head hmiddle (ih hleader)
  · intro h
    induction h using Relation.TransGen.head_induction_on with
    | single hbegins => exact .direct (Rule.mem_all _) hbegins
    | head hbegins _ ih => exact .deeper (Rule.mem_all _) hbegins ih

theorem isLeftRecursive_iff {r : Rule} :
    g.isLeftRecursive r = true ↔ Relation.TransGen g.Begins r r := by
  rw [isLeftRecursive, List.contains_iff_mem, mem_descend_iff nodup_all, meets_rule_iff]

theorem decides_isLeftRecursive (g : Grammar) (r : Rule) : g.Decides r (g.isLeftRecursive r) := by
  obtain ⟨last, hlast⟩ := exists_haltsAt g.work
    (fun s t (hstep : g.seek? r s = some t) => work_of_seek? hstep) ⟨[], [r], Rule.all⟩
  have hsought := hlast.holds_last (g.sought_start r) fun _ _ => Sought.step
  refine ⟨last, hlast, ?_⟩
  rw [Bool.eq_iff_iff, hsought.finds_iff hlast.2, isLeftRecursive_iff]

/-! ## Chains of rules -/

/-- Some alternative of the rule can begin with the other rule, as it stands or rewritten. -/
def Leads (g : Grammar) (r next : Rule) : Prop :=
  ∃ phrase, g.Offers r phrase ∧ g.BeginsWith phrase (.rule next)

theorem leads_iff {r next : Rule} :
    g.Leads r next ↔ Relation.TransGen g.Exposes (.rule r) (.rule next) := by
  constructor
  · rintro ⟨phrase, ho, hbegins⟩
    obtain ⟨first, hfirst, hchain⟩ := beginsWith_iff.mp hbegins
    exact .head' (.alternative ho hfirst) hchain
  · intro h
    obtain ⟨first, hexposes, hchain⟩ := Relation.TransGen.head'_iff.mp h
    cases hexposes with
    | alternative ho hfirst => exact ⟨_, ho, beginsWith_iff.mpr ⟨first, hfirst, hchain⟩⟩

theorem leads_self_iff {r : Rule} : g.Leads r r ↔ g.LeftRecursive r :=
  leads_iff.trans transGen_exposes_iff

private theorem leads_of_transGen {r next : Rule} (h : Relation.TransGen g.Leads r next) :
    g.Leads r next := by
  induction h with
  | single hleads => exact hleads
  | tail _ hleads ih => exact leads_iff.mpr ((leads_iff.mp ih).trans (leads_iff.mp hleads))

def Endless {α : Type} (relation : α → α → Prop) : Prop :=
  ∃ chain : Nat → α, ∀ n, relation (chain n) (chain (n + 1))

theorem exists_transGen_of_endless {α : Type} [Finite α] {relation : α → α → Prop}
    (h : Endless relation) : ∃ a, Relation.TransGen relation a a := by
  obtain ⟨chain, hchain⟩ := h
  have : IsTrans α (Relation.TransGen relation) := ⟨fun _ _ _ => Relation.TransGen.trans⟩
  have hlater : ∀ m n, m < n → Relation.TransGen relation (chain m) (chain n) :=
    Nat.rel_of_forall_rel_succ_of_lt (Relation.TransGen relation) fun n => .single (hchain n)
  obtain ⟨m, n, hne, hsame⟩ := Finite.exists_ne_map_eq_of_infinite chain
  rcases Nat.lt_or_gt_of_ne hne with hlt | hlt
  · exact ⟨chain m, hsame ▸ hlater m n hlt⟩
  · exact ⟨chain n, hsame ▸ hlater n m hlt⟩

instance : Finite Rule :=
  @Finite.of_fintype _ (Fintype.ofList Rule.all Rule.mem_all)

private theorem leftRecursive_of_transGen_leads {r : Rule} (h : Relation.TransGen g.Leads r r) :
    g.LeftRecursive r :=
  leads_self_iff.mp (leads_of_transGen h)

/-- The search ends on every table.  Where no rule is repeated, it finds exactly the left-recursive
rules, and if it finds none, there is no endless chain of rules that lead to one another. -/
theorem leftRecursion_exact (g : Grammar) : (∀ r, g.Decides r (g.isLeftRecursive r)) ∧
    (g.Distinct → (∀ r, g.isLeftRecursive r = true ↔ g.LeftRecursive r) ∧
      ((∀ r, g.defines r = true → g.isLeftRecursive r = false) →
        ¬ Endless g.Leads ∧ ¬ Endless (Function.swap g.Leads))) := by
  refine ⟨g.decides_isLeftRecursive, fun hdistinct => ⟨fun r => ?exact, fun hnone => ?chains⟩⟩
  case exact => exact ⟨leftRecursive_of_isLeftRecursive, hdistinct.isLeftRecursive⟩
  case chains =>
    have hcycle : ∀ r, ¬ Relation.TransGen g.Leads r r := by
      intro r hcycle
      have hrecursive := leftRecursive_of_transGen_leads hcycle
      have hfound := hdistinct.isLeftRecursive hrecursive
      rw [hnone r (defines_of_leftRecursive hrecursive)] at hfound
      contradiction
    constructor
    · intro hendless
      obtain ⟨r, hr⟩ := exists_transGen_of_endless hendless
      exact hcycle r hr
    · intro hendless
      obtain ⟨r, hr⟩ := exists_transGen_of_endless hendless
      exact hcycle r (Relation.transGen_swap.mp hr)

def circling : Grammar where
  start := .addExpression
  productions :=
    [⟨.addExpression, [.rule .expression .done]⟩,
      ⟨.expression, [.rule .subtExpression (.token .integer .done)]⟩,
      ⟨.subtExpression,
        [.many (.token .addition .done) (.rule .expression .done), .token .identifier .done]⟩]

theorem leftRecursion_exact_in_circling : circling.Distinct ∧ circling.LeftRecursive .expression ∧
    circling.LeftRecursive .subtExpression ∧ ¬ circling.LeftRecursive .addExpression ∧
      statement.Distinct ∧ (∀ r, statement.defines r = true → statement.isLeftRecursive r = false) ∧
        ¬ Endless statement.Leads := by
  have hcircling : circling.Distinct := by unfold Distinct; decide
  have hstatement : statement.Distinct := by unfold Distinct; decide
  have hnone : ∀ r, statement.defines r = true → statement.isLeftRecursive r = false := by
    intro r _
    cases r <;> decide +kernel
  have hexact := ((leftRecursion_exact circling).2 hcircling).1
  refine ⟨hcircling, ?_, ?_, ?_, hstatement, hnone, ?_⟩
  · exact (hexact .expression).mp (by decide +kernel)
  · exact (hexact .subtExpression).mp (by decide +kernel)
  · exact fun h => absurd ((hexact .addExpression).mpr h) (by decide +kernel)
  · exact (((leftRecursion_exact statement).2 hstatement).2 hnone).1

end Grammar

end Scriptlet
