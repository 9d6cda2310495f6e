import Mathlib.Data.List.Nodup
import Scriptlet.Grammar.Leading
import Scriptlet.Proofs.Grammar.Rewriting
import Scriptlet.Proofs.Grammar.Vanishing

/-!
# Leaders and rewriting

A phrase can be rewritten to begin with a token or rule if and only if a chain
of leaders goes there: from a leader of the phrase to a leader of one of its
alternatives, and so on.  The descent through the rules finds the ends of all
such chains.  It never enters a rule twice on the way, and need not: what is
met below a rule that is entered again is met below its last entry.
-/

namespace Scriptlet

namespace Leader

def before : Leader → Phrase → Phrase
  | .token k, rest => .token k rest
  | .rule r, rest => .rule r rest

theorem before_append (leader : Leader) (p q : Phrase) :
    leader.before p ++ q = leader.before (p ++ q) := by
  cases leader <;> rfl

private theorem mem_leaders_before (leader : Leader) (vanishing : List Rule) (rest : Phrase) :
    leader ∈ (leader.before rest).leaders vanishing := by
  cases leader <;> exact List.mem_cons_self

theorem kind?_eq_some_iff {leader : Leader} {k : Kind} :
    leader.kind? = some k ↔ leader = .token k := by
  cases leader <;> simp [kind?]

end Leader

namespace Phrase

theorem leaders_append (vanishing : List Rule) (p q : Phrase) :
    (p ++ q).leaders vanishing = p.leaders vanishing ++
      if p.vanishes vanishing then q.leaders vanishing else [] := by
  induction p with
  | done => rfl
  | token k rest => rfl
  | rule r rest ih =>
      rw [rule_append, leaders, leaders, vanishes, ih]
      cases vanishing.contains r <;> rfl
  | many body rest _ ih =>
      rw [many_append, leaders, leaders, vanishes, ih, List.append_assoc]

end Phrase

namespace Grammar

variable {g : Grammar}

/-! ## Chains of leaders -/

/-- The phrase can be rewritten to begin with the leader. -/
def BeginsWith (g : Grammar) (phrase : Phrase) (leader : Leader) : Prop :=
  ∃ rest, g.Rewrites phrase (leader.before rest)

inductive Exposes (g : Grammar) : Leader → Leader → Prop
  | alternative {r phrase next} : g.Offers r phrase → next ∈ phrase.leaders g.vanishing →
      Exposes g (.rule r) next

theorem beginsWith_of_mem_leaders {phrase : Phrase} {leader : Leader}
    (h : leader ∈ phrase.leaders g.vanishing) : g.BeginsWith phrase leader := by
  induction phrase with
  | done => contradiction
  | token k rest =>
      obtain rfl := List.mem_singleton.mp h
      exact ⟨rest, .refl⟩
  | rule r rest ih =>
      rcases List.mem_cons.mp h with rfl | h
      · exact ⟨rest, .refl⟩
      · split at h
        · next hr =>
            have hvanishes := mem_vanishing_iff.mp (List.contains_iff_mem.mp hr)
            obtain ⟨tail, htail⟩ := ih h
            exact ⟨tail, (rewrites_append_of_derives_nil hvanishes rest).trans htail⟩
        · contradiction
  | many body rest ihbody ihrest =>
      rcases List.mem_append.mp h with h | h
      · obtain ⟨tail, htail⟩ := ihbody h
        refine ⟨tail ++ .many body rest, .head .again ?_⟩
        rw [← Leader.before_append]
        exact htail.append_right _
      · obtain ⟨tail, htail⟩ := ihrest h
        exact ⟨tail, .head .stop htail⟩

private theorem transGen_produces_of_exposes {first last : Leader}
    (h : Relation.TransGen g.Exposes first last) (rest : Phrase) :
    ∃ tail, Relation.TransGen g.Produces (first.before rest) (last.before tail) := by
  have hstep : ∀ {leader next}, g.Exposes leader next → ∀ rest, ∃ tail,
      Relation.TransGen g.Produces (leader.before rest) (next.before tail) := by
    rintro _ next ⟨ho, hnext⟩ rest
    obtain ⟨tail, htail⟩ := beginsWith_of_mem_leaders hnext
    refine ⟨tail ++ rest, .head' (.rule ho) ?_⟩
    rw [← Leader.before_append]
    exact htail.append_right rest
  induction h with
  | single hexposes => exact hstep hexposes rest
  | tail _ hexposes ih =>
      obtain ⟨middle, hmiddle⟩ := ih
      obtain ⟨tail, htail⟩ := hstep hexposes middle
      exact ⟨tail, hmiddle.trans htail⟩

private theorem exists_leader_of_produces {p q : Phrase} (h : g.Produces p q) {next : Leader}
    (hnext : next ∈ q.leaders g.vanishing) :
    ∃ first ∈ p.leaders g.vanishing, Relation.ReflTransGen g.Exposes first next := by
  induction h with
  | @rule r rest phrase ho =>
      rw [Phrase.leaders_append] at hnext
      rcases List.mem_append.mp hnext with hnext | hnext
      · exact ⟨.rule r, List.mem_cons_self, .single (.alternative ho hnext)⟩
      · split at hnext
        · next hphrase =>
            have hr : r ∈ g.vanishing :=
              mem_vanishing_iff.mpr (.rule ho (vanishes_iff.mp hphrase) .done)
            refine ⟨next, List.mem_cons_of_mem _ ?_, .refl⟩
            rwa [if_pos (List.contains_iff_mem.mpr hr)]
        · contradiction
  | stop => exact ⟨next, List.mem_append_right _ hnext, .refl⟩
  | @again body rest =>
      rw [Phrase.leaders_append] at hnext
      rcases List.mem_append.mp hnext with hnext | hnext
      · exact ⟨next, List.mem_append_left _ hnext, .refl⟩
      · split at hnext
        · exact ⟨next, hnext, .refl⟩
        · contradiction
  | afterToken => exact ⟨next, hnext, .refl⟩
  | @afterRule r p q _ ih =>
      rcases List.mem_cons.mp hnext with rfl | hnext
      · exact ⟨.rule r, List.mem_cons_self, .refl⟩
      · split at hnext
        · next hr =>
            obtain ⟨first, hfirst, hchain⟩ := ih hnext
            refine ⟨first, List.mem_cons_of_mem _ ?_, hchain⟩
            rwa [if_pos hr]
        · contradiction
  | afterMany _ ih =>
      rcases List.mem_append.mp hnext with hnext | hnext
      · exact ⟨next, List.mem_append_left _ hnext, .refl⟩
      · obtain ⟨first, hfirst, hchain⟩ := ih hnext
        exact ⟨first, List.mem_append_right _ hfirst, hchain⟩

theorem beginsWith_iff {phrase : Phrase} {leader : Leader} : g.BeginsWith phrase leader ↔
    ∃ first ∈ phrase.leaders g.vanishing, Relation.ReflTransGen g.Exposes first leader := by
  constructor
  · rintro ⟨rest, h⟩
    induction h using Relation.ReflTransGen.head_induction_on with
    | refl => exact ⟨leader, leader.mem_leaders_before _ rest, .refl⟩
    | head hstep _ ih =>
        obtain ⟨middle, hmiddle, hchain⟩ := ih
        obtain ⟨first, hfirst, hfront⟩ := exists_leader_of_produces hstep hmiddle
        exact ⟨first, hfirst, hfront.trans hchain⟩
  · rintro ⟨first, hfirst, hchain⟩
    obtain ⟨rest, hrest⟩ := beginsWith_of_mem_leaders hfirst
    rcases Relation.reflTransGen_iff_eq_or_transGen.mp hchain with rfl | hchain
    · exact ⟨rest, hrest⟩
    · obtain ⟨tail, htail⟩ := transGen_produces_of_exposes hchain rest
      exact ⟨tail, hrest.trans htail.to_reflTransGen⟩

theorem transGen_exposes_iff {r : Rule} {leader : Leader} :
    Relation.TransGen g.Exposes (.rule r) leader ↔
      ∃ rest, Relation.TransGen g.Produces (.rule r .done) (leader.before rest) := by
  constructor
  · exact fun h => transGen_produces_of_exposes h .done
  · rintro ⟨rest, h⟩
    obtain ⟨phrase, hstep, hrest⟩ := Relation.TransGen.head'_iff.mp h
    obtain ⟨first, hfirst, hchain⟩ := beginsWith_iff.mp ⟨rest, hrest⟩
    cases hstep with
    | rule ho =>
        rw [Phrase.append_done] at hfirst
        exact .head' (.alternative ho hfirst) hchain
    | afterRule hnone => cases hnone

/-! ## What the descent meets -/

/-- Following the rule meets the leader, only rules in `fresh` being entered. -/
inductive Meets (g : Grammar) (fresh : List Rule) : Rule → Leader → Prop
  | direct {r leader} : r ∈ fresh → leader ∈ g.leaders r → Meets g fresh r leader
  | deeper {r next leader} : r ∈ fresh → .rule next ∈ g.leaders r → Meets g fresh next leader →
      Meets g fresh r leader

def MeetsBelow (g : Grammar) (fresh : List Rule) (r : Rule) (leader : Leader) : Prop :=
  leader ∈ g.leaders r ∨ ∃ next, .rule next ∈ g.leaders r ∧ g.Meets (fresh.erase r) next leader

section Descent

variable {fresh : List Rule} {r : Rule} {leader : Leader}

theorem Meets.mem (h : g.Meets fresh r leader) : r ∈ fresh := by
  cases h with
  | direct hr _ => exact hr
  | deeper hr _ _ => exact hr

private theorem Meets.of_subset {wider : List Rule} (h : g.Meets fresh r leader)
    (hsubset : fresh ⊆ wider) : g.Meets wider r leader := by
  induction h with
  | direct hr hleader => exact .direct (hsubset hr) hleader
  | deeper hr hnext _ ih => exact .deeper (hsubset hr) hnext ih

/-- Either `r` need not be entered, or what is met is met below the last entry of `r`. -/
private theorem Meets.avoid {start : Rule} (h : g.Meets fresh start leader) (r : Rule) :
    g.Meets (fresh.erase r) start leader ∨ g.MeetsBelow fresh r leader := by
  induction h with
  | @direct start leader hstart hleader =>
      by_cases heq : start = r
      · exact .inr (.inl (heq ▸ hleader))
      · exact .inl (.direct ((List.mem_erase_of_ne heq).mpr hstart) hleader)
  | @deeper start next leader hstart hnext _ ih =>
      rcases ih with ih | ih
      · by_cases heq : start = r
        · exact .inr (.inr ⟨next, heq ▸ hnext, ih⟩)
        · exact .inl (.deeper ((List.mem_erase_of_ne heq).mpr hstart) hnext ih)
      · exact .inr ih

theorem meets_iff (hfresh : fresh.Nodup) :
    g.Meets fresh r leader ↔ r ∈ fresh ∧ g.MeetsBelow fresh r leader := by
  constructor
  · intro h
    refine ⟨h.mem, (h.avoid r).resolve_left fun hagain => ?_⟩
    exact hfresh.not_mem_erase hagain.mem
  · rintro ⟨hr, hleader | ⟨next, hnext, hleader⟩⟩
    · exact .direct hr hleader
    · exact .deeper hr hnext (hleader.of_subset List.erase_subset)

theorem mem_descend_iff (hfresh : fresh.Nodup) :
    leader ∈ g.descend fresh r ↔ g.Meets fresh r leader := by
  fun_induction descend g fresh r with
  | case1 fresh r hr ih =>
      rw [meets_iff hfresh, List.mem_flatMap, MeetsBelow]
      constructor
      · rintro ⟨first, hfirst, hleader⟩
        refine ⟨hr, ?_⟩
        cases first with
        | token k =>
            obtain rfl := List.mem_singleton.mp hleader
            exact .inl hfirst
        | rule next =>
            rcases List.mem_cons.mp hleader with rfl | hleader
            · exact .inl hfirst
            · exact .inr ⟨next, hfirst, (ih next (hfresh.erase r)).mp hleader⟩
      · rintro ⟨-, hleader | ⟨next, hnext, hleader⟩⟩
        · refine ⟨leader, hleader, ?_⟩
          cases leader <;> exact List.mem_cons_self
        · refine ⟨.rule next, hnext, List.mem_cons_of_mem _ ?_⟩
          exact (ih next (hfresh.erase r)).mpr hleader
  | case2 fresh r hr => exact iff_of_false List.not_mem_nil fun h => hr h.mem

end Descent

/-! ## The alternatives of a rule -/

def Distinct (g : Grammar) : Prop :=
  (g.productions.map Production.rule).Nodup

theorem rule_of_production? {r : Rule} {p : Production} (h : g.production? r = some p) :
    p ∈ g.productions ∧ p.rule = r := by
  unfold production? at h
  exact ⟨List.mem_of_find?_eq_some h, by simpa using List.find?_some h⟩

theorem offers_of_mem_alternatives {r : Rule} {phrase : Phrase}
    (h : phrase ∈ g.alternatives r) : g.Offers r phrase := by
  unfold alternatives at h
  cases hfound : g.production? r with
  | none =>
      rw [hfound] at h
      contradiction
  | some p =>
      rw [hfound] at h
      obtain ⟨hp, hrule⟩ := rule_of_production? hfound
      exact ⟨p, hp, hrule, h⟩

theorem Distinct.mem_alternatives (hdistinct : g.Distinct) {r : Rule} {phrase : Phrase}
    (h : g.Offers r phrase) : phrase ∈ g.alternatives r := by
  obtain ⟨p, hp, rfl, hphrase⟩ := h
  obtain ⟨q, hq⟩ := Option.isSome_iff_exists.mp (defines_iff.mpr ⟨p, hp, rfl⟩)
  obtain ⟨hmem, hrule⟩ := rule_of_production? hq
  obtain rfl := List.inj_on_of_nodup_map hdistinct hmem hp hrule
  rw [alternatives, hq]
  exact hphrase

theorem mem_leaders_iff {r : Rule} {leader : Leader} : leader ∈ g.leaders r ↔
    ∃ phrase ∈ g.alternatives r, leader ∈ phrase.leaders g.vanishing := by
  rw [leaders, List.mem_eraseDups, List.mem_flatMap]

theorem exposes_of_mem_leaders {r : Rule} {leader : Leader} (h : leader ∈ g.leaders r) :
    g.Exposes (.rule r) leader := by
  obtain ⟨phrase, hphrase, hleader⟩ := mem_leaders_iff.mp h
  exact .alternative (offers_of_mem_alternatives hphrase) hleader

theorem Distinct.mem_leaders (hdistinct : g.Distinct) {r : Rule} {leader : Leader}
    (h : g.Exposes (.rule r) leader) : leader ∈ g.leaders r := by
  cases h with
  | alternative ho hleader =>
      exact mem_leaders_iff.mpr ⟨_, hdistinct.mem_alternatives ho, hleader⟩

theorem Meets.transGen_exposes {fresh : List Rule} {r : Rule} {leader : Leader}
    (h : g.Meets fresh r leader) : Relation.TransGen g.Exposes (.rule r) leader := by
  induction h with
  | direct _ hleader => exact .single (exposes_of_mem_leaders hleader)
  | deeper _ hnext _ ih => exact .head (exposes_of_mem_leaders hnext) ih

private theorem Distinct.meets (hdistinct : g.Distinct) {first leader : Leader}
    (h : Relation.TransGen g.Exposes first leader) :
    ∀ r, first = .rule r → g.Meets Rule.all r leader := by
  induction h using Relation.TransGen.head_induction_on with
  | single hexposes =>
      rintro r rfl
      exact .direct r.mem_all (hdistinct.mem_leaders hexposes)
  | @head first next hexposes hchain ih =>
      rintro r rfl
      cases next with
      | token k =>
          obtain ⟨_, hnone, -⟩ := Relation.TransGen.head'_iff.mp hchain
          cases hnone
      | rule next => exact .deeper r.mem_all (hdistinct.mem_leaders hexposes) (ih next rfl)

/-! ## First tokens and left recursion -/

theorem nodup_all : Rule.all.Nodup := by
  decide

theorem transGen_exposes_of_mem_descend {r : Rule} {leader : Leader}
    (h : leader ∈ g.descend Rule.all r) : Relation.TransGen g.Exposes (.rule r) leader :=
  ((mem_descend_iff nodup_all).mp h).transGen_exposes

theorem Distinct.mem_descend_iff (hdistinct : g.Distinct) {r : Rule} {leader : Leader} :
    leader ∈ g.descend Rule.all r ↔ Relation.TransGen g.Exposes (.rule r) leader :=
  ⟨transGen_exposes_of_mem_descend,
    fun h => (Grammar.mem_descend_iff nodup_all).mpr (hdistinct.meets h r rfl)⟩

private theorem reflTransGen_exposes_of_mem_reach {first leader : Leader}
    (h : leader ∈ g.reach first) : Relation.ReflTransGen g.Exposes first leader := by
  cases first with
  | token k =>
      obtain rfl := List.mem_singleton.mp h
      exact .refl
  | rule r =>
      rcases List.mem_cons.mp h with rfl | h
      · exact .refl
      · exact (transGen_exposes_of_mem_descend h).to_reflTransGen

private theorem Distinct.mem_reach (hdistinct : g.Distinct) {first leader : Leader}
    (h : Relation.ReflTransGen g.Exposes first leader) : leader ∈ g.reach first := by
  rcases Relation.reflTransGen_iff_eq_or_transGen.mp h with rfl | h
  · cases leader <;> exact List.mem_cons_self
  · cases first with
    | token k =>
        obtain ⟨_, hnone, -⟩ := Relation.TransGen.head'_iff.mp h
        cases hnone
    | rule r => exact List.mem_cons_of_mem _ (hdistinct.mem_descend_iff.mpr h)

private theorem mem_firstOfPhrase_iff_reach {phrase : Phrase} {k : Kind} :
    k ∈ g.firstOfPhrase phrase ↔
      ∃ first ∈ phrase.leaders g.vanishing, .token k ∈ g.reach first := by
  simp only [firstOfPhrase, List.mem_eraseDups, List.mem_filterMap, List.mem_flatMap,
    Leader.kind?_eq_some_iff, exists_eq_right]

theorem beginsWith_of_mem_firstOfPhrase {phrase : Phrase} {k : Kind}
    (h : k ∈ g.firstOfPhrase phrase) : g.BeginsWith phrase (.token k) := by
  obtain ⟨first, hfirst, hreach⟩ := mem_firstOfPhrase_iff_reach.mp h
  exact beginsWith_iff.mpr ⟨first, hfirst, reflTransGen_exposes_of_mem_reach hreach⟩

theorem Distinct.mem_firstOfPhrase (hdistinct : g.Distinct) {phrase : Phrase} {k : Kind}
    (h : g.BeginsWith phrase (.token k)) : k ∈ g.firstOfPhrase phrase := by
  obtain ⟨first, hfirst, hchain⟩ := beginsWith_iff.mp h
  exact mem_firstOfPhrase_iff_reach.mpr ⟨first, hfirst, hdistinct.mem_reach hchain⟩

/-- The rule derives, in one or more steps, a phrase that begins with itself. -/
def LeftRecursive (g : Grammar) (r : Rule) : Prop :=
  ∃ rest, Relation.TransGen g.Produces (.rule r .done) (.rule r rest)

theorem leftRecursive_of_isLeftRecursive {r : Rule} (h : g.isLeftRecursive r = true) :
    g.LeftRecursive r :=
  transGen_exposes_iff.mp (transGen_exposes_of_mem_descend (List.contains_iff_mem.mp h))

theorem Distinct.isLeftRecursive (hdistinct : g.Distinct) {r : Rule} (h : g.LeftRecursive r) :
    g.isLeftRecursive r = true :=
  List.contains_iff_mem.mpr (hdistinct.mem_descend_iff.mpr (transGen_exposes_iff.mpr h))

theorem defines_of_leftRecursive {r : Rule} (h : g.LeftRecursive r) : g.defines r = true := by
  have hchain : Relation.TransGen g.Exposes (.rule r) (.rule r) := transGen_exposes_iff.mpr h
  obtain ⟨_, hexposes, -⟩ := Relation.TransGen.head'_iff.mp hchain
  cases hexposes with
  | alternative ho _ =>
      obtain ⟨p, hp, hrule, -⟩ := ho
      exact defines_iff.mpr ⟨p, hp, hrule⟩

end Grammar

end Scriptlet
