import Mathlib.Data.List.Duplicate
import Scriptlet.Grammar.Validation
import Scriptlet.Proofs.Grammar.Leading

/-!
# What validation says

Each defect says something about what the grammar derives, and every defect
that is listed holds in this sense.  A grammar with none is well-formed: the
conditions are stated on derivations, without reference to how defects are
found.  What the conditions leave open is whether two alternatives of a rule
both derive the empty word.
-/

namespace Scriptlet

/-! ## The symbols of a phrase -/

inductive Symbol where
  | token (kind : Kind)
  | rule (rule : Rule)
  | many (body : Phrase)
  deriving DecidableEq, Repr

/-- All symbols at any depth, a repetition before those of its body. -/
def Phrase.symbols : Phrase → List Symbol
  | .done => []
  | .token k rest => .token k :: rest.symbols
  | .rule r rest => .rule r :: rest.symbols
  | .many body rest => .many body :: (body.symbols ++ rest.symbols)

namespace Grammar

variable {g : Grammar}

def Uses (g : Grammar) (user : Rule) (symbol : Symbol) : Prop :=
  ∃ phrase, g.Offers user phrase ∧ symbol ∈ phrase.symbols

def occurrences (g : Grammar) : List (Rule × Symbol) :=
  g.productions.flatMap fun p => p.alternatives.flatMap fun phrase => phrase.symbols.map (p.rule, ·)

theorem mem_occurrences_iff {user : Rule} {symbol : Symbol} :
    (user, symbol) ∈ g.occurrences ↔ g.Uses user symbol := by
  simp only [occurrences, Uses, Offers, List.mem_flatMap, List.mem_map, Prod.mk.injEq]
  constructor
  · rintro ⟨p, hp, phrase, hphrase, _, hsymbol, rfl, rfl⟩
    exact ⟨phrase, ⟨p, hp, rfl, hphrase⟩, hsymbol⟩
  · rintro ⟨phrase, ⟨p, hp, rfl, hphrase⟩, hsymbol⟩
    exact ⟨p, hp, phrase, hphrase, symbol, hsymbol, rfl, rfl⟩

/-! ## The defects of a symbol -/

def defectsAt (g : Grammar) (user : Rule) : Symbol → List Defect
  | .token kind =>
      if (Lexicon.entryFor? kind).isSome then [] else [.unknownTerminal kind user]
  | .rule rule => if g.defines rule then [] else [.undefinedRule rule (some user)]
  | .many body => if body.vanishes g.vanishing then [.vanishingRepetition user] else []

inductive Spoils (g : Grammar) (user : Rule) : Symbol → Defect → Prop
  | undefined {r} : (¬ ∃ p ∈ g.productions, p.rule = r) →
      Spoils g user (.rule r) (.undefinedRule r (some user))
  | unknown {k} : (¬ ∃ entry ∈ Lexicon.catalog, entry.kind? = some k) →
      Spoils g user (.token k) (.unknownTerminal k user)
  | vanishing {body} : g.Derives body [] → Spoils g user (.many body) (.vanishingRepetition user)

theorem not_defines_iff {r : Rule} :
    g.defines r = false ↔ ¬ ∃ p ∈ g.productions, p.rule = r := by
  rw [← defines_iff, Bool.not_eq_true]

theorem mem_defectsAt_iff {defect : Defect} {user : Rule} {symbol : Symbol} :
    defect ∈ g.defectsAt user symbol ↔ g.Spoils user symbol defect := by
  cases symbol with
  | token k =>
      rw [defectsAt, if_pos (Lexicon.entryFor?_isSome k)]
      refine iff_of_false List.not_mem_nil ?_
      rintro ⟨⟩
      next hunknown => exact hunknown (Lexicon.exists_entry k)
  | rule r =>
      rw [defectsAt]
      cases hdefined : g.defines r with
      | true =>
          refine iff_of_false List.not_mem_nil ?_
          rintro ⟨⟩
          next hundefined => exact hundefined (defines_iff.mp hdefined)
      | false =>
          constructor
          · intro h
            obtain rfl := List.mem_singleton.mp h
            exact .undefined (not_defines_iff.mp hdefined)
          · rintro ⟨⟩
            exact List.mem_singleton_self _
  | many body =>
      rw [defectsAt]
      cases hvanishes : body.vanishes g.vanishing with
      | true =>
          constructor
          · intro h
            obtain rfl := List.mem_singleton.mp h
            exact .vanishing (vanishes_iff.mp hvanishes)
          · rintro ⟨⟩
            exact List.mem_singleton_self _
      | false =>
          refine iff_of_false List.not_mem_nil ?_
          rintro ⟨⟩
          next hderives => simp [vanishes_iff.mpr hderives] at hvanishes

private theorem symbolDefects_eq (g : Grammar) (user : Rule) (phrase : Phrase) :
    g.symbolDefects user phrase = phrase.symbols.flatMap (g.defectsAt user) := by
  induction phrase with
  | done => rfl
  | token k rest ih | rule r rest ih =>
      rw [symbolDefects, Phrase.symbols, List.flatMap_cons, ih]
      rfl
  | many body rest ihbody ihrest =>
      rw [symbolDefects, Phrase.symbols, List.flatMap_cons, List.flatMap_append, ihbody, ihrest,
        List.append_assoc]
      rfl

theorem flatMap_symbolDefects (g : Grammar) :
    g.productions.flatMap (fun p => p.alternatives.flatMap (g.symbolDefects p.rule)) =
      g.occurrences.flatMap fun use => g.defectsAt use.1 use.2 := by
  simp only [occurrences, List.flatMap_assoc, List.flatMap_map]
  refine List.flatMap_congr fun p _ => List.flatMap_congr fun phrase _ => ?_
  exact g.symbolDefects_eq p.rule phrase

theorem mem_symbolDefects_iff {defect : Defect} :
    defect ∈ g.productions.flatMap (fun p => p.alternatives.flatMap (g.symbolDefects p.rule)) ↔
      ∃ user symbol, g.Uses user symbol ∧ g.Spoils user symbol defect := by
  rw [flatMap_symbolDefects, List.mem_flatMap]
  simp only [Prod.exists, mem_occurrences_iff, mem_defectsAt_iff]

/-! ## Repetitions in lists -/

theorem mem_repeatedRules_iff {seen : List Rule} {productions : List Production} {r : Rule} :
    r ∈ repeatedRules seen productions ↔
      (r ∈ seen ∧ r ∈ productions.map Production.rule) ∨
        List.Duplicate r (productions.map Production.rule) := by
  induction productions generalizing seen with
  | nil => simp [repeatedRules]
  | cons p rest ih =>
      rw [repeatedRules, List.map_cons, List.duplicate_cons_iff, List.mem_cons]
      split
      · next hseen =>
          rw [List.mem_cons, ih]
          have hmem := List.contains_iff_mem.mp hseen
          constructor
          · rintro (rfl | ⟨hr, hrest⟩ | hrest)
            · exact .inl ⟨hmem, .inl rfl⟩
            · exact .inl ⟨hr, .inr hrest⟩
            · exact .inr (.inr hrest)
          · rintro (⟨hr, rfl | hrest⟩ | ⟨rfl, hrest⟩ | hrest)
            · exact .inl rfl
            · exact .inr (.inl ⟨hr, hrest⟩)
            · exact .inl rfl
            · exact .inr (.inr hrest)
      · next hseen =>
          rw [ih, List.mem_cons]
          have hmem : p.rule ∉ seen := fun h => hseen (List.contains_iff_mem.mpr h)
          constructor
          · rintro (⟨rfl | hr, hrest⟩ | hrest)
            · exact .inr (.inl ⟨rfl, hrest⟩)
            · exact .inl ⟨hr, .inr hrest⟩
            · exact .inr (.inr hrest)
          · rintro (⟨hr, rfl | hrest⟩ | ⟨rfl, hrest⟩ | hrest)
            · exact absurd hr hmem
            · exact .inl ⟨.inr hr, hrest⟩
            · exact .inl ⟨.inl rfl, hrest⟩
            · exact .inr hrest

theorem distinct_of_repeatedRules_eq_nil (h : repeatedRules [] g.productions = []) :
    g.Distinct := by
  refine List.nodup_iff_forall_not_duplicate.mpr fun r hr => ?_
  have hmem : r ∈ repeatedRules [] g.productions := mem_repeatedRules_iff.mpr (.inr hr)
  rw [h] at hmem
  contradiction

private theorem mem_sharedKinds_iff {lists : List (List Kind)} {k : Kind} : k ∈ sharedKinds lists ↔
    ∃ a b, [a, b].Sublist lists ∧ a.find? b.contains = some k := by
  induction lists with
  | nil => simp [sharedKinds]
  | cons kinds rest ih =>
      rw [sharedKinds, List.mem_append, List.mem_filterMap, ih]
      constructor
      · rintro (⟨other, hother, hk⟩ | ⟨a, b, hab, hk⟩)
        · exact ⟨kinds, other, (List.singleton_sublist.mpr hother).cons_cons kinds, hk⟩
        · exact ⟨a, b, hab.cons kinds, hk⟩
      · rintro ⟨a, b, hab, hk⟩
        rcases List.sublist_cons_iff.mp hab with hab | ⟨tail, heq, htail⟩
        · exact .inr ⟨a, b, hab, hk⟩
        · obtain ⟨rfl, rfl⟩ := List.cons.inj heq
          exact .inl ⟨b, List.singleton_sublist.mp htail, hk⟩

theorem mem_clashes_iff {p : Production} {k : Kind} : k ∈ g.clashes p ↔
    ∃ a b, [a, b].Sublist p.alternatives ∧
      (g.firstOfPhrase a).find? (g.firstOfPhrase b).contains = some k := by
  rw [clashes, mem_sharedKinds_iff]
  constructor
  · rintro ⟨_, _, hlists, hk⟩
    obtain ⟨phrases, hphrases, heq⟩ := List.sublist_map_iff.mp hlists
    obtain ⟨a, tail, rfl, rfl, htail⟩ := List.map_eq_cons_iff.mp heq.symm
    obtain ⟨b, rest, rfl, rfl, hrest⟩ := List.map_eq_cons_iff.mp htail
    obtain rfl := List.map_eq_nil_iff.mp hrest
    exact ⟨a, b, hphrases, hk⟩
  · rintro ⟨a, b, hab, hk⟩
    exact ⟨_, _, hab.map g.firstOfPhrase, hk⟩

end Grammar

/-! ## What a defect means -/

namespace Defect

open Grammar in
/-- The grammar has the defect, as far as its rules and what they derive are concerned. -/
def HoldsIn (g : Grammar) : Defect → Prop
  | .duplicateRule r => List.Duplicate r (g.productions.map Production.rule)
  | .undefinedRule r none => r = g.start ∧ ¬ ∃ p ∈ g.productions, p.rule = r
  | .undefinedRule r (some user) => g.Uses user (.rule r) ∧ ¬ ∃ p ∈ g.productions, p.rule = r
  | .unknownTerminal k user =>
      g.Uses user (.token k) ∧ ¬ ∃ entry ∈ Lexicon.catalog, entry.kind? = some k
  | .vanishingRepetition user => ∃ body, g.Uses user (.many body) ∧ g.Derives body []
  | .leftRecursion r => g.LeftRecursive r
  | .ambiguousAlternatives r k => ∃ p ∈ g.productions, p.rule = r ∧
      ∃ a b, [a, b].Sublist p.alternatives ∧
        g.BeginsWith a (.token k) ∧ g.BeginsWith b (.token k)

end Defect

namespace Grammar

variable {g : Grammar} {defect : Defect}

theorem Spoils.holdsIn {user : Rule} {symbol : Symbol} (h : g.Spoils user symbol defect)
    (huses : g.Uses user symbol) : defect.HoldsIn g := by
  cases h with
  | undefined hnone | unknown hnone => exact ⟨huses, hnone⟩
  | vanishing hderives => exact ⟨_, huses, hderives⟩

theorem not_holdsIn_unknownTerminal {k : Kind} {user : Rule} :
    ¬ (Defect.unknownTerminal k user).HoldsIn g :=
  fun h => h.2 (Lexicon.exists_entry k)

private theorem holdsIn_of_mem_clashes {p : Production} (hp : p ∈ g.productions) {k : Kind}
    (h : k ∈ g.clashes p) : (Defect.ambiguousAlternatives p.rule k).HoldsIn g := by
  obtain ⟨a, b, hab, hfind⟩ := mem_clashes_iff.mp h
  have ha : k ∈ g.firstOfPhrase a := List.mem_of_find?_eq_some hfind
  have hb : (g.firstOfPhrase b).contains k = true := List.find?_some hfind
  exact ⟨p, hp, rfl, a, b, hab, beginsWith_of_mem_firstOfPhrase ha,
    beginsWith_of_mem_firstOfPhrase (List.contains_iff_mem.mp hb)⟩

theorem holdsIn_of_mem_defects (h : defect ∈ g.defects) : defect.HoldsIn g := by
  simp only [defects, List.mem_append] at h
  rcases h with (((h | h) | h) | h) | h
  · obtain ⟨r, hr, rfl⟩ := List.mem_map.mp h
    rcases mem_repeatedRules_iff.mp hr with ⟨hseen, -⟩ | hr
    · contradiction
    · exact hr
  · rw [startDefects] at h
    split at h
    · contradiction
    · next hdefines =>
        obtain rfl := List.mem_singleton.mp h
        exact ⟨rfl, not_defines_iff.mp (Bool.eq_false_iff.mpr hdefines)⟩
  · obtain ⟨user, symbol, huses, hspoils⟩ := mem_symbolDefects_iff.mp h
    exact hspoils.holdsIn huses
  · obtain ⟨r, hr, rfl⟩ := List.mem_map.mp h
    exact leftRecursive_of_isLeftRecursive (List.mem_filter.mp hr).2
  · obtain ⟨p, hp, hdefect⟩ := List.mem_flatMap.mp h
    obtain ⟨k, hk, rfl⟩ := List.mem_map.mp hdefect
    exact holdsIn_of_mem_clashes hp hk

/-! ## Well-formed grammars -/

structure WellFormed (g : Grammar) : Prop where
  distinct : g.Distinct
  start_defined : ∃ p ∈ g.productions, p.rule = g.start
  rules_defined : ∀ user r, g.Uses user (.rule r) → ∃ p ∈ g.productions, p.rule = r
  bodies_consume : ∀ user body, g.Uses user (.many body) → ¬ g.Derives body []
  not_leftRecursive : ∀ r, ¬ g.LeftRecursive r
  beginnings_differ : ∀ p ∈ g.productions, p.alternatives.Pairwise fun a b =>
    ∀ k, ¬ (g.BeginsWith a (.token k) ∧ g.BeginsWith b (.token k))

theorem WellFormed.not_holdsIn (h : g.WellFormed) : ¬ defect.HoldsIn g := by
  cases defect with
  | duplicateRule r => exact fun hr => hr.not_nodup h.distinct
  | undefinedRule r user =>
      cases user with
      | none =>
          rintro ⟨rfl, hnone⟩
          exact hnone h.start_defined
      | some user =>
          rintro ⟨huses, hnone⟩
          exact hnone (h.rules_defined user r huses)
  | unknownTerminal k user => exact not_holdsIn_unknownTerminal
  | vanishingRepetition user =>
      rintro ⟨body, huses, hderives⟩
      exact h.bodies_consume user body huses hderives
  | leftRecursion r => exact h.not_leftRecursive r
  | ambiguousAlternatives r k =>
      rintro ⟨p, hp, -, a, b, hab, hbegin⟩
      exact List.pairwise_iff_forall_sublist.mp (h.beginnings_differ p hp) hab k hbegin

theorem Distinct.mem_filter_isLeftRecursive (hdistinct : g.Distinct) {r : Rule}
    (h : g.LeftRecursive r) : r ∈ (g.productions.map Production.rule).filter g.isLeftRecursive := by
  have hrule := List.mem_map.mpr (defines_iff.mp (defines_of_leftRecursive h))
  exact List.mem_filter.mpr ⟨hrule, hdistinct.isLeftRecursive h⟩

theorem beginnings_differ_of_clashes_eq_nil (hdistinct : g.Distinct) {p : Production}
    (h : g.clashes p = []) : p.alternatives.Pairwise fun a b =>
      ∀ k, ¬ (g.BeginsWith a (.token k) ∧ g.BeginsWith b (.token k)) := by
  rw [List.pairwise_iff_forall_sublist]
  rintro a b hab k ⟨ha, hb⟩
  have hshared : ((g.firstOfPhrase a).find? (g.firstOfPhrase b).contains).isSome = true :=
    List.find?_isSome.mpr ⟨k, hdistinct.mem_firstOfPhrase ha,
      List.contains_iff_mem.mpr (hdistinct.mem_firstOfPhrase hb)⟩
  obtain ⟨first, hfirst⟩ := Option.isSome_iff_exists.mp hshared
  have hclash : first ∈ g.clashes p := mem_clashes_iff.mpr ⟨a, b, hab, hfirst⟩
  rw [h] at hclash
  contradiction

private theorem wellFormed_of_defects_eq_nil (h : g.defects = []) : g.WellFormed := by
  simp only [defects, List.append_eq_nil_iff] at h
  obtain ⟨⟨⟨⟨hrepeated, hstart⟩, hsymbols⟩, hrecursive⟩, hclashes⟩ := h
  have hdistinct := distinct_of_repeatedRules_eq_nil (List.map_eq_nil_iff.mp hrepeated)
  have hnone : ∀ {user symbol defect}, g.Uses user symbol → ¬ g.Spoils user symbol defect := by
    intro user symbol defect huses hspoils
    have hmem := mem_symbolDefects_iff.mpr ⟨user, symbol, huses, hspoils⟩
    rw [hsymbols] at hmem
    contradiction
  refine ⟨hdistinct, ?start, ?rules, ?bodies, ?recursion, ?beginnings⟩
  case start =>
    by_contra hundefined
    rw [startDefects, not_defines_iff.mpr hundefined] at hstart
    contradiction
  case rules =>
    intro user r huses
    by_contra hundefined
    exact hnone huses (.undefined hundefined)
  case bodies =>
    intro user body huses hderives
    exact hnone huses (.vanishing hderives)
  case recursion =>
    intro r hr
    have hmem := hdistinct.mem_filter_isLeftRecursive hr
    rw [List.map_eq_nil_iff.mp hrecursive] at hmem
    contradiction
  case beginnings =>
    intro p hp
    have hmap := List.flatMap_eq_nil_iff.mp hclashes p hp
    exact beginnings_differ_of_clashes_eq_nil hdistinct (List.map_eq_nil_iff.mp hmap)

theorem defects_eq_nil_iff : g.defects = [] ↔ g.WellFormed := by
  constructor
  · exact wellFormed_of_defects_eq_nil
  · intro h
    refine List.eq_nil_iff_forall_not_mem.mpr fun defect hdefect => ?_
    exact h.not_holdsIn (holdsIn_of_mem_defects hdefect)

/-- No defect is reported exactly if the grammar is well-formed, and one that is reported
holds. -/
theorem defect?_exact (g : Grammar) :
    (g.defect? = none ↔ g.WellFormed) ∧ ∀ defect ∈ g.defect?, defect.HoldsIn g := by
  constructor
  · rw [defect?, List.head?_eq_none_iff]
    exact defects_eq_nil_iff
  · intro defect hdefect
    exact holdsIn_of_mem_defects (List.mem_of_mem_head? hdefect)

/-! ## One token of lookahead -/

theorem beginsWith_of_derives_cons {phrase : Phrase} {k : Kind} {word : List Kind}
    (h : g.Derives phrase (k :: word)) : g.BeginsWith phrase (.token k) :=
  ⟨Phrase.ofWord word, derives_iff_rewrites.mp h⟩

/-- The first token tells two alternatives of a valid grammar apart, unless there is none: the
empty word is the only one that both may derive. -/
theorem derives_both_iff (hvalid : g.isValid = true) {p : Production} (hp : p ∈ g.productions)
    {a b : Phrase} (hab : [a, b].Sublist p.alternatives) (word : List Kind) :
    g.Derives a word ∧ g.Derives b word ↔ word = [] ∧ g.Derives a [] ∧ g.Derives b [] := by
  have hwell : g.WellFormed := defects_eq_nil_iff.mp (List.isEmpty_iff.mp hvalid)
  have hdiffer := List.pairwise_iff_forall_sublist.mp (hwell.beginnings_differ p hp) hab
  constructor
  · rintro ⟨ha, hb⟩
    cases word with
    | nil => exact ⟨rfl, ha, hb⟩
    | cons k word =>
        exact absurd ⟨beginsWith_of_derives_cons ha, beginsWith_of_derives_cons hb⟩ (hdiffer k)
  · rintro ⟨rfl, ha, hb⟩
    exact ⟨ha, hb⟩

def signs (sign : Kind) : Phrase :=
  .many (.token sign .done) .done

def optionalSigns : Grammar where
  start := .expression
  productions := [⟨.expression, [signs .addition, signs .subtraction]⟩]

theorem derives_both_iff_in_optionalSigns : optionalSigns.isValid = true ∧
    ∀ word, optionalSigns.Derives (signs .addition) word ∧
      optionalSigns.Derives (signs .subtraction) word ↔ word = [] := by
  have hvalid : optionalSigns.isValid = true := by decide +kernel
  refine ⟨hvalid, fun word => ?_⟩
  rw [derives_both_iff hvalid List.mem_cons_self (List.Sublist.refl _)]
  exact and_iff_left ⟨.stop .done, .stop .done⟩

theorem optionalSigns_isValid_and_shares_nil :
    optionalSigns.isValid = true ∧ ∃ p ∈ optionalSigns.productions, ∃ a b,
      [a, b].Sublist p.alternatives ∧ optionalSigns.Derives a [] ∧ optionalSigns.Derives b [] := by
  refine ⟨by decide +kernel, _, List.mem_cons_self, _, _, List.Sublist.refl _, ?_, ?_⟩
  · exact .stop .done
  · exact .stop .done

end Grammar

end Scriptlet
