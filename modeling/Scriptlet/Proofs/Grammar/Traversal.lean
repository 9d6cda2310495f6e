import Scriptlet.Proofs.Grammar.Leading
import Scriptlet.Proofs.Halting
import Scriptlet.Proofs.Lists

/-!
# Traversing the rules once

The descent through the rules keeps its path, and meets again what several
paths lead to.  A traversal in one go only remembers which rules it has
entered: it follows what is pending from the left, and passes over a rule that
it has entered before.  It ends on every table, and lists the kinds in the same
order.  For whatever a second entry of a rule would meet has been met already,
unless it leads through a rule of the path, and this the descent does not enter
either.
-/

namespace Scriptlet

/-! ## Steps of a traversal -/

structure Traversal where
  pending : List Leader
  fresh : List Rule
  kinds : List Kind

namespace Grammar

variable {g : Grammar}

def expansion (g : Grammar) (r : Rule) : List Leader :=
  (g.alternatives r).flatMap (Phrase.leaders g.vanishing)

def next? (g : Grammar) : Traversal → Option Traversal
  | ⟨[], _, _⟩ => none
  | ⟨.token k :: pending, fresh, kinds⟩ =>
      some ⟨pending, fresh, if k ∈ kinds then kinds else kinds ++ [k]⟩
  | ⟨.rule r :: pending, fresh, kinds⟩ =>
      if r ∈ fresh then some ⟨g.expansion r ++ pending, fresh.erase r, kinds⟩
      else some ⟨pending, fresh, kinds⟩

/-- The traversal from the leaders ends with the kinds. -/
def Lists (g : Grammar) (pending : List Leader) (kinds : List Kind) : Prop :=
  ∃ fresh, HaltsAt g.next? ⟨pending, Rule.all, []⟩ ⟨[], fresh, kinds⟩

/-! ## What the descent meets from a leader -/

/-- The kinds met from the leader, where only the rules in `path` may be entered. -/
def kindsFrom (g : Grammar) (path : List Rule) : Leader → List Kind
  | .token k => [k]
  | .rule r => (g.descend path r).filterMap Leader.kind?

private theorem filterMap_reach (g : Grammar) (leader : Leader) :
    (g.reach leader).filterMap Leader.kind? = g.kindsFrom Rule.all leader := by
  cases leader <;> rfl

theorem first_eq (g : Grammar) (r : Rule) :
    g.first r = (g.kindsFrom Rule.all (.rule r)).eraseDups :=
  rfl

theorem firstOfPhrase_eq (g : Grammar) (phrase : Phrase) : g.firstOfPhrase phrase =
    ((phrase.leaders g.vanishing).flatMap (g.kindsFrom Rule.all)).eraseDups := by
  simp only [firstOfPhrase, List.filterMap_flatMap, filterMap_reach]

theorem kindsFrom_of_mem {path : List Rule} {r : Rule} (h : r ∈ path) :
    g.kindsFrom path (.rule r) = (g.leaders r).flatMap (g.kindsFrom (path.erase r)) := by
  rw [kindsFrom, descend, if_pos h, List.filterMap_flatMap]
  refine List.flatMap_congr fun leader _ => ?_
  cases leader <;> rfl

/-! ## What is settled on the way -/

def Known (fresh : List Rule) (met : List Kind) : Leader → Prop
  | .token k => k ∈ met
  | .rule r => r ∉ fresh

theorem Known.mono {fresh fewer : List Rule} {met more : List Kind} {leader : Leader}
    (h : Known fresh met leader) (hfewer : fewer ⊆ fresh) (hmore : met ⊆ more) :
    Known fewer more leader := by
  cases leader with
  | token k => exact hmore h
  | rule r => exact fun hr => h (hfewer hr)

/-- Of the rules that the descent may enter, those that the traversal has entered lead to known
leaders only. -/
structure Settled (g : Grammar) (path fresh : List Rule) (met : List Kind) : Prop where
  nodup_path : path.Nodup
  nodup_fresh : fresh.Nodup
  fresh_subset : fresh ⊆ path
  known : ∀ r ∈ path, r ∉ fresh → ∀ next ∈ g.leaders r, Known fresh met next

section Settled

variable {path fresh later : List Rule} {met more : List Kind} {r : Rule}

theorem settled_all (g : Grammar) : g.Settled Rule.all Rule.all [] :=
  ⟨nodup_all, nodup_all, List.Subset.refl _, fun r _ hr => absurd r.mem_all hr⟩

theorem Settled.mono (h : g.Settled path fresh met) (hmore : met ⊆ more) :
    g.Settled path fresh more where
  nodup_path := h.nodup_path
  nodup_fresh := h.nodup_fresh
  fresh_subset := h.fresh_subset
  known r hr hold next hnext := (h.known r hr hold next hnext).mono (List.Subset.refl _) hmore

theorem Settled.enter (h : g.Settled path fresh met) (r : Rule) :
    g.Settled (path.erase r) (fresh.erase r) met where
  nodup_path := h.nodup_path.erase r
  nodup_fresh := h.nodup_fresh.erase r
  fresh_subset a ha := by
    obtain ⟨hne, ha⟩ := h.nodup_fresh.mem_erase_iff.mp ha
    exact h.nodup_path.mem_erase_iff.mpr ⟨hne, h.fresh_subset ha⟩
  known a ha hold next hnext := by
    obtain ⟨hne, ha⟩ := h.nodup_path.mem_erase_iff.mp ha
    have hold : a ∉ fresh := fun hfresh => hold ((List.mem_erase_of_ne hne).mpr hfresh)
    exact (h.known a ha hold next hnext).mono List.erase_subset (List.Subset.refl _)

theorem Settled.leave (h : g.Settled path fresh met) (hinner : g.Settled (path.erase r) later more)
    (hleaders : ∀ next ∈ g.leaders r, Known later more next) : g.Settled path later more where
  nodup_path := h.nodup_path
  nodup_fresh := hinner.nodup_fresh
  fresh_subset := List.Subset.trans hinner.fresh_subset List.erase_subset
  known a ha hold := by
    by_cases heq : a = r
    · exact heq ▸ hleaders
    · exact hinner.known a ((List.mem_erase_of_ne heq).mpr ha) hold

theorem Settled.known_of_meets (h : g.Settled path fresh met) {leader : Leader}
    (hmeets : g.Meets path r leader) (hold : r ∉ fresh) : Known fresh met leader := by
  induction hmeets with
  | direct hr hleader => exact h.known _ hr hold _ hleader
  | deeper hr hnext _ ih => exact ih (h.known _ hr hold _ hnext)

theorem Settled.kindsFrom_subset (h : g.Settled path fresh met) (hold : r ∉ fresh) :
    g.kindsFrom path (.rule r) ⊆ met := by
  intro k hk
  obtain ⟨leader, hleader, hkind⟩ := List.mem_filterMap.mp hk
  obtain rfl := Leader.kind?_eq_some_iff.mp hkind
  exact h.known_of_meets ((mem_descend_iff h.nodup_path).mp hleader) hold

end Settled

/-! ## The run of a traversal -/

abbrev Runs (g : Grammar) : Traversal → Traversal → Prop :=
  Relation.ReflTransGen fun s t => g.next? s = some t

def metAfter (g : Grammar) (path : List Rule) (met : List Kind) (leaders : List Leader) :
    List Kind :=
  met ++ leaders.flatMap (g.kindsFrom path)

private theorem metAfter_cons (path : List Rule) (met : List Kind) (leader : Leader)
    (leaders : List Leader) : g.metAfter path met (leader :: leaders) =
      g.metAfter path (met ++ g.kindsFrom path leader) leaders := by
  simp [metAfter]

private theorem subset_metAfter (g : Grammar) (path : List Rule) (met : List Kind)
    (leaders : List Leader) : met ⊆ g.metAfter path met leaders :=
  List.subset_append_left _ _

private theorem eraseDups_metAfter_expansion {path : List Rule} {met : List Kind} {r : Rule}
    (hr : r ∈ path) : (g.metAfter (path.erase r) met (g.expansion r)).eraseDups =
      (met ++ g.kindsFrom path (.rule r)).eraseDups := by
  have h := eraseDups_flatMap_eraseDups (g.kindsFrom (path.erase r)) (g.expansion r) met []
  simpa [metAfter, kindsFrom_of_mem hr, leaders, expansion] using h.symm

/-- The traversal has followed the leaders, below one path of the descent. -/
structure Followed (g : Grammar) (path fresh later : List Rule) (met : List Kind)
    (leaders rest : List Leader) : Prop where
  sublist : later.Sublist fresh
  run : g.Runs ⟨leaders ++ rest, fresh, met.eraseDups⟩
    ⟨rest, later, (g.metAfter path met leaders).eraseDups⟩
  settled : g.Settled path later (g.metAfter path met leaders)
  known : ∀ leader ∈ leaders, Known later (g.metAfter path met leaders) leader

section Followed

variable {path fresh inner later : List Rule} {met : List Kind} {r : Rule}
variable {leaders rest : List Leader}

private theorem Settled.followed_nil (h : g.Settled path fresh met) (rest : List Leader) :
    g.Followed path fresh fresh met [] rest where
  sublist := .refl _
  run := by simpa [metAfter] using Relation.ReflTransGen.refl
  settled := by simpa [metAfter] using h
  known := by simp

private theorem Followed.cons {leader : Leader} (hinner : inner.Sublist fresh)
    (hrun : g.Runs ⟨leader :: (leaders ++ rest), fresh, met.eraseDups⟩
      ⟨leaders ++ rest, inner, (met ++ g.kindsFrom path leader).eraseDups⟩)
    (hknown : Known inner (met ++ g.kindsFrom path leader) leader)
    (h : g.Followed path inner later (met ++ g.kindsFrom path leader) leaders rest) :
    g.Followed path fresh later met (leader :: leaders) rest := by
  have hleader := hknown.mono h.sublist.subset (subset_metAfter g path _ leaders)
  constructor
  case sublist => exact h.sublist.trans hinner
  case run =>
    rw [metAfter_cons]
    exact hrun.trans h.run
  case settled =>
    rw [metAfter_cons]
    exact h.settled
  case known =>
    rw [metAfter_cons]
    exact List.forall_mem_cons.mpr ⟨hleader, h.known⟩

private theorem runs_token (path : List Rule) (k : Kind) (pending : List Leader) :
    g.Runs ⟨.token k :: pending, fresh, met.eraseDups⟩
      ⟨pending, fresh, (met ++ g.kindsFrom path (.token k)).eraseDups⟩ := by
  refine .single ?_
  simp [next?, kindsFrom, eraseDups_append_singleton]

private theorem Settled.runs_entered (h : g.Settled path fresh met) (hr : r ∉ fresh)
    (pending : List Leader) : g.Runs ⟨.rule r :: pending, fresh, met.eraseDups⟩
      ⟨pending, fresh, (met ++ g.kindsFrom path (.rule r)).eraseDups⟩ := by
  have hmet : (met ++ g.kindsFrom path (.rule r)).eraseDups = met.eraseDups := by
    simpa using eraseDups_append_append (h.kindsFrom_subset hr) []
  refine .single ?_
  simp [next?, hr, hmet]

private theorem Followed.runs_fresh (hsettled : g.Settled path fresh met) (hr : r ∈ fresh)
    (h : g.Followed (path.erase r) (fresh.erase r) inner met (g.expansion r) rest) :
    g.Runs ⟨.rule r :: rest, fresh, met.eraseDups⟩
      ⟨rest, inner, (met ++ g.kindsFrom path (.rule r)).eraseDups⟩ := by
  have hrun := h.run
  rw [eraseDups_metAfter_expansion (hsettled.fresh_subset hr)] at hrun
  refine .head ?_ hrun
  simp [next?, hr]

private theorem Followed.leave (hsettled : g.Settled path fresh met) (hr : r ∈ fresh)
    (h : g.Followed (path.erase r) (fresh.erase r) inner met (g.expansion r) rest) :
    g.Settled path inner (met ++ g.kindsFrom path (.rule r)) := by
  have hsubset : g.metAfter (path.erase r) met (g.expansion r) ⊆
      met ++ g.kindsFrom path (.rule r) := by
    intro k hk
    rw [← List.mem_eraseDups, ← eraseDups_metAfter_expansion (hsettled.fresh_subset hr)]
    exact List.mem_eraseDups.mpr hk
  refine hsettled.leave (h.settled.mono hsubset) fun next hnext => ?_
  exact (h.known next (List.mem_eraseDups.mp hnext)).mono (List.Subset.refl _) hsubset

end Followed

/-- Followed in one go, leaders that the descent follows below one path yield the same kinds. -/
theorem exists_followed {path fresh : List Rule} {met : List Kind}
    (h : g.Settled path fresh met) (leaders rest : List Leader) :
    ∃ later, g.Followed path fresh later met leaders rest := by
  match leaders with
  | [] => exact ⟨fresh, h.followed_nil rest⟩
  | .token k :: leaders =>
      have hmore := h.mono (List.subset_append_left met (g.kindsFrom path (.token k)))
      obtain ⟨later, hlater⟩ := exists_followed hmore leaders rest
      exact ⟨later, .cons (.refl _) (runs_token path k _) (by simp [Known, kindsFrom]) hlater⟩
  | .rule r :: leaders =>
      by_cases hr : r ∈ fresh
      · have hshorter : (fresh.erase r).length < fresh.length := by
          have hpos := List.length_pos_of_mem hr
          rw [List.length_erase_of_mem hr]
          omega
        obtain ⟨inner, hinner⟩ := exists_followed (h.enter r) (g.expansion r) (leaders ++ rest)
        have hlength : inner.length < fresh.length :=
          Nat.lt_of_le_of_lt hinner.sublist.length_le hshorter
        obtain ⟨later, hlater⟩ := exists_followed (hinner.leave h hr) leaders rest
        have hentered : r ∉ inner := fun hmem =>
          h.nodup_fresh.not_mem_erase (hinner.sublist.subset hmem)
        exact ⟨later, .cons (hinner.sublist.trans List.erase_sublist) (hinner.runs_fresh h hr)
          hentered hlater⟩
      · have hmore := h.mono (List.subset_append_left met (g.kindsFrom path (.rule r)))
        obtain ⟨later, hlater⟩ := exists_followed hmore leaders rest
        exact ⟨later, .cons (.refl _) (h.runs_entered hr _) hr hlater⟩
termination_by (fresh.length, leaders.length)

/-! ## First kinds -/

theorem lists_firstOfPhrase (g : Grammar) (phrase : Phrase) :
    g.Lists (phrase.leaders g.vanishing) (g.firstOfPhrase phrase) := by
  obtain ⟨later, hlater⟩ := exists_followed g.settled_all (phrase.leaders g.vanishing) []
  have hrun := hlater.run
  rw [List.append_nil, metAfter, List.nil_append, ← firstOfPhrase_eq] at hrun
  exact ⟨later, hrun, rfl⟩

theorem first_eq_firstOfPhrase (g : Grammar) (r : Rule) :
    g.first r = g.firstOfPhrase (.rule r .done) := by
  simp [first_eq, firstOfPhrase_eq, Phrase.leaders]

theorem lists_first (g : Grammar) (r : Rule) : g.Lists [.rule r] (g.first r) := by
  have h := g.lists_firstOfPhrase (.rule r .done)
  rw [← first_eq_firstOfPhrase] at h
  simpa [Phrase.leaders] using h

/-- The kinds are those with which the phrase can begin, each once. -/
structure AreFirst (g : Grammar) (phrase : Phrase) (kinds : List Kind) : Prop where
  nodup : kinds.Nodup
  mem_iff : ∀ k, k ∈ kinds ↔ g.BeginsWith phrase (.token k)

theorem Distinct.areFirst_firstOfPhrase (hdistinct : g.Distinct) (phrase : Phrase) :
    g.AreFirst phrase (g.firstOfPhrase phrase) where
  nodup := nodup_eraseDups _
  mem_iff _ := ⟨beginsWith_of_mem_firstOfPhrase, hdistinct.mem_firstOfPhrase⟩

/-- Where no rule is repeated, a rule and a phrase are given exactly the kinds with which they can
begin, and the traversal from either ends with these. -/
theorem first_exact (hdistinct : g.Distinct) :
    (∀ r, g.AreFirst (.rule r .done) (g.first r) ∧ g.Lists [.rule r] (g.first r)) ∧
      ∀ phrase, g.AreFirst phrase (g.firstOfPhrase phrase) ∧
        g.Lists (phrase.leaders g.vanishing) (g.firstOfPhrase phrase) := by
  constructor
  · intro r
    refine ⟨?_, g.lists_first r⟩
    rw [first_eq_firstOfPhrase]
    exact hdistinct.areFirst_firstOfPhrase _
  · exact fun phrase => ⟨hdistinct.areFirst_firstOfPhrase phrase, g.lists_firstOfPhrase phrase⟩

def looping : Grammar where
  start := .expression
  productions :=
    [⟨.expression,
        [.rule .subtExpression (.token .integer .done),
          .many (.token .addition .done) (.rule .expression .done)]⟩,
      ⟨.subtExpression,
        [.rule .expression (.token .rparen .done), .rule .multExpression .done, .done]⟩]

theorem first_exact_in_looping : looping.Distinct ∧
    (∀ k, looping.BeginsWith (.rule .expression .done) (.token k) ↔ k ∈ [.integer, .addition]) ∧
      looping.Lists [.rule .expression] [.integer, .addition] := by
  have hdistinct : looping.Distinct := by unfold Distinct; decide
  have hfirst : looping.first .expression = [.integer, .addition] := by decide +kernel
  obtain ⟨hexact, hlists⟩ := (first_exact hdistinct).1 .expression
  rw [hfirst] at hexact hlists
  exact ⟨hdistinct, fun k => (hexact.mem_iff k).symm, hlists⟩

end Grammar

end Scriptlet
