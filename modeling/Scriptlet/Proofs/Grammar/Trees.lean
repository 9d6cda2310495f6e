import Mathlib.Data.Set.Subsingleton
import Scriptlet.Grammar.Statement
import Scriptlet.Proofs.Grammar.Validation

/-!
# Derivation trees

A derivation tree records how a word is derived: which alternative is taken
for a rule, and how often a repetition goes round.  If the next token, or the
end of the word, always decides between the ways of going on, then two trees
of a word are the same from their roots down.  The grammar of statements is
such a grammar, so a word has one tree at most and its operators are grouped in
one way.
-/

namespace Scriptlet

/-! ## Trees -/

/-- The trees of the symbols of a phrase, one after the other.  A repetition is the list of its
rounds: `again body` for each of them, then `stop`. -/
inductive Tree where
  | done
  | token (kind : Kind) (rest : Tree)
  | rule (rule : Rule) (alternative : Phrase) (body rest : Tree)
  | stop (rest : Tree)
  | again (body rest : Tree)
  deriving DecidableEq, Repr

def Tree.word : Tree → List Kind
  | .done => []
  | .token k rest => k :: rest.word
  | .rule _ _ body rest => body.word ++ rest.word
  | .stop rest => rest.word
  | .again body rest => body.word ++ rest.word

namespace Grammar

variable {g : Grammar}

inductive Fits (g : Grammar) : Phrase → Tree → Prop
  | done : Fits g .done .done
  | token {k rest tree} : Fits g rest tree → Fits g (.token k rest) (.token k tree)
  | rule {r rest phrase body tree} : g.Offers r phrase → Fits g phrase body →
      Fits g rest tree → Fits g (.rule r rest) (.rule r phrase body tree)
  | stop {body rest tree} : Fits g rest tree → Fits g (.many body rest) (.stop tree)
  | again {body rest front tree} : Fits g body front →
      Fits g (.many body rest) tree → Fits g (.many body rest) (.again front tree)

def trees (g : Grammar) (phrase : Phrase) (word : List Kind) : Set Tree :=
  {tree | g.Fits phrase tree ∧ tree.word = word}

theorem derives_word_of_fits {phrase : Phrase} {tree : Tree} (h : g.Fits phrase tree) :
    g.Derives phrase tree.word := by
  induction h with
  | done => exact .done
  | token _ ih => exact .token ih
  | rule ho _ _ ihbody ihrest => exact .rule ho ihbody ihrest
  | stop _ ih => exact .stop ih
  | again _ _ ihbody ihrest => exact .again ihbody ihrest

private theorem trees_nonempty_of_derives {phrase : Phrase} {word : List Kind}
    (h : g.Derives phrase word) : (g.trees phrase word).Nonempty := by
  induction h with
  | done => exact ⟨.done, .done, rfl⟩
  | @token k _ _ _ ih =>
      obtain ⟨tree, htree, rfl⟩ := ih
      exact ⟨.token k tree, .token htree, rfl⟩
  | @rule r _ phrase _ _ ho _ _ ihbody ihrest =>
      obtain ⟨body, hbody, rfl⟩ := ihbody
      obtain ⟨tree, htree, rfl⟩ := ihrest
      exact ⟨.rule r phrase body tree, .rule ho hbody htree, rfl⟩
  | stop _ ih =>
      obtain ⟨tree, htree, rfl⟩ := ih
      exact ⟨.stop tree, .stop htree, rfl⟩
  | again _ _ ihbody ihrest =>
      obtain ⟨body, hbody, rfl⟩ := ihbody
      obtain ⟨tree, htree, rfl⟩ := ihrest
      exact ⟨.again body tree, .again hbody htree, rfl⟩

theorem trees_nonempty_iff {phrase : Phrase} {word : List Kind} :
    (g.trees phrase word).Nonempty ↔ g.Derives phrase word := by
  constructor
  · rintro ⟨tree, htree, rfl⟩
    exact derives_word_of_fits htree
  · exact trees_nonempty_of_derives

/-! ## The next token -/

/-- What can be next where the phrase is to be read, if `after` can be next behind it.  The end of
the word counts as `none`. -/
def nexts (g : Grammar) (after : List (Option Kind)) (phrase : Phrase) : List (Option Kind) :=
  (g.firstOfPhrase phrase).map some ++ if phrase.vanishes g.vanishing then after else []

private theorem vanishes_of_fits {phrase : Phrase} {tree : Tree} (htree : g.Fits phrase tree)
    (hword : tree.word = []) : phrase.vanishes g.vanishing = true := by
  rw [vanishes_iff, ← hword]
  exact derives_word_of_fits htree

theorem Distinct.mem_firstOfPhrase_of_fits (hdistinct : g.Distinct) {phrase : Phrase}
    {tree : Tree} (htree : g.Fits phrase tree) {k : Kind} {word : List Kind}
    (hword : tree.word = k :: word) : k ∈ g.firstOfPhrase phrase := by
  have hderives := derives_word_of_fits htree
  rw [hword] at hderives
  exact hdistinct.mem_firstOfPhrase (beginsWith_of_derives_cons hderives)

theorem Distinct.head?_mem_nexts (hdistinct : g.Distinct) {phrase : Phrase} {tree : Tree}
    (htree : g.Fits phrase tree) {after : List (Option Kind)} {behind : List Kind}
    (hbehind : behind.head? ∈ after) : (tree.word ++ behind).head? ∈ g.nexts after phrase := by
  unfold nexts
  cases hword : tree.word with
  | nil => simp [vanishes_of_fits htree hword, hbehind]
  | cons k word => simp [hdistinct.mem_firstOfPhrase_of_fits htree hword]

def Predictable (g : Grammar) (follow : Rule → List (Option Kind)) :
    List (Option Kind) → Phrase → Prop
  | _, .done => True
  | after, .token _ rest => Predictable g follow after rest
  | after, .rule r rest => (∀ k ∈ g.nexts after rest, k ∈ follow r) ∧
      Predictable g follow after rest
  | after, .many body rest => body.vanishes g.vanishing = false ∧
      (∀ k ∈ g.nexts [] body, k ∉ g.nexts after rest) ∧
      Predictable g follow (g.nexts after (.many body rest)) body ∧
      Predictable g follow after rest

instance decidablePredictable (g : Grammar) (follow : Rule → List (Option Kind)) :
    (after : List (Option Kind)) → (phrase : Phrase) →
      Decidable (g.Predictable follow after phrase)
  | _, .done => .isTrue trivial
  | after, .token _ rest => decidablePredictable g follow after rest
  | after, .rule _ rest =>
      have := decidablePredictable g follow after rest
      inferInstanceAs (Decidable (_ ∧ _))
  | after, .many body rest =>
      have := decidablePredictable g follow (g.nexts after (.many body rest)) body
      have := decidablePredictable g follow after rest
      inferInstanceAs (Decidable (_ ∧ _ ∧ _ ∧ _))

/-- The next token decides everything: the alternative of a rule, and whether a repetition goes
round once more. -/
structure Predictive (g : Grammar) (follow : Rule → List (Option Kind)) : Prop where
  distinct : g.Distinct
  predictable : ∀ r, ∀ a ∈ g.alternatives r, g.Predictable follow (follow r) a
  alternatives_differ : ∀ r, ∀ a ∈ g.alternatives r, ∀ b ∈ g.alternatives r, a ≠ b →
    ∀ k ∈ g.nexts (follow r) a, k ∉ g.nexts (follow r) b

namespace Predictive

variable {follow : Rule → List (Option Kind)}

private theorem predictable_of_offers (hg : g.Predictive follow) {r : Rule} {phrase : Phrase}
    (ho : g.Offers r phrase) : g.Predictable follow (follow r) phrase :=
  hg.predictable r phrase (hg.distinct.mem_alternatives ho)

private theorem alternative_eq (hg : g.Predictive follow) {r : Rule} {a b : Phrase} {s t : Tree}
    (ha : g.Offers r a) (hb : g.Offers r b) (hs : g.Fits a s) (ht : g.Fits b t)
    {u v : List Kind} (hu : u.head? ∈ follow r) (hv : v.head? ∈ follow r)
    (hword : s.word ++ u = t.word ++ v) : a = b := by
  by_contra hne
  have ha := hg.distinct.mem_alternatives ha
  have hb := hg.distinct.mem_alternatives hb
  have hnext := hg.distinct.head?_mem_nexts hs hu
  rw [hword] at hnext
  exact hg.alternatives_differ r a ha b hb hne _ hnext (hg.distinct.head?_mem_nexts ht hv)

private theorem append_ne (hg : g.Predictive follow) {body rest : Phrase}
    {after : List (Option Kind)} (hphrase : g.Predictable follow after (.many body rest))
    {s front t : Tree}
    (hs : g.Fits rest s) (hfront : g.Fits body front) {u v : List Kind}
    (hu : u.head? ∈ after) : s.word ++ u ≠ front.word ++ (t.word ++ v) := by
  obtain ⟨hvanishes, hdisjoint, -, -⟩ := hphrase
  intro hword
  have hnext := hg.distinct.head?_mem_nexts hs hu
  cases hround : front.word with
  | nil => simp [vanishes_of_fits hfront hround] at hvanishes
  | cons k word =>
      have hfirst := hg.distinct.mem_firstOfPhrase_of_fits hfront hround
      rw [hword, hround] at hnext
      exact hdisjoint (some k) (by simp [nexts, hfirst]) hnext

/-- Two trees of a phrase that begin the same text are the same, and leave the same text. -/
theorem eq_of_append_eq (hg : g.Predictive follow) {phrase : Phrase} {s t : Tree}
    (hs : g.Fits phrase s) (ht : g.Fits phrase t) {after : List (Option Kind)}
    (hphrase : g.Predictable follow after phrase) {u v : List Kind} (hu : u.head? ∈ after)
    (hv : v.head? ∈ after) (hword : s.word ++ u = t.word ++ v) : s = t ∧ u = v := by
  induction hs generalizing t after u v with
  | done =>
      cases ht
      exact ⟨rfl, hword⟩
  | @token k _ _ _ ih =>
      cases ht with
      | token ht =>
          obtain ⟨rfl, rfl⟩ := ih ht hphrase hu hv (List.cons.inj hword).2
          exact ⟨rfl, rfl⟩
  | @rule r rest phrase body tree ho hbody htree ihbody ihrest =>
      obtain ⟨hfollow, hrest⟩ := hphrase
      cases ht with
      | @rule _ _ phrase' body' tree' ho' hbody' htree' =>
          simp only [Tree.word, List.append_assoc] at hword
          have hnext := hfollow _ (hg.distinct.head?_mem_nexts htree hu)
          have hnext' := hfollow _ (hg.distinct.head?_mem_nexts htree' hv)
          obtain rfl := hg.alternative_eq ho ho' hbody hbody' hnext hnext' hword
          obtain ⟨rfl, htail⟩ := ihbody hbody' (hg.predictable_of_offers ho) hnext hnext' hword
          obtain ⟨rfl, rfl⟩ := ihrest htree' hrest hu hv htail
          exact ⟨rfl, rfl⟩
  | @stop body rest tree htree ih =>
      cases ht with
      | stop htree' =>
          obtain ⟨rfl, rfl⟩ := ih htree' hphrase.2.2.2 hu hv hword
          exact ⟨rfl, rfl⟩
      | again hfront htree' =>
          simp only [Tree.word, List.append_assoc] at hword
          exact absurd hword (hg.append_ne hphrase htree hfront hu)
  | @again body rest front tree hfront htree ihfront ihtree =>
      simp only [Tree.word, List.append_assoc] at hword
      cases ht with
      | stop htree' => exact absurd hword.symm (hg.append_ne hphrase htree' hfront hv)
      | @again _ _ front' tree' hfront' htree' =>
          simp only [Tree.word, List.append_assoc] at hword
          have hnext := hg.distinct.head?_mem_nexts htree hu
          have hnext' := hg.distinct.head?_mem_nexts htree' hv
          obtain ⟨rfl, htail⟩ := ihfront hfront' hphrase.2.2.1 hnext hnext' hword
          obtain ⟨rfl, rfl⟩ := ihtree htree' hphrase hu hv htail
          exact ⟨rfl, rfl⟩

theorem trees_subsingleton (hg : g.Predictive follow) {phrase : Phrase}
    (hphrase : g.Predictable follow [none] phrase) (word : List Kind) :
    (g.trees phrase word).Subsingleton := by
  rintro s ⟨hs, rfl⟩ t ⟨ht, hword⟩
  have hend : ([] : List Kind).head? ∈ [none] := List.mem_singleton_self none
  exact (hg.eq_of_append_eq hs ht hphrase hend hend (by rw [hword])).1

end Predictive

/-! ## The grammar of statements -/

def statementFollow : Rule → List (Option Kind)
  | .assignmentStatement => [none]
  | .expression | .subtExpression => [none, some .rparen]
  | .addExpression => [none, some .rparen, some .subtraction]
  | .multExpression => [none, some .rparen, some .subtraction, some .addition]
  | .atomicExpression =>
      [none, some .rparen, some .subtraction, some .addition, some .multiplication]

theorem predictive_statement : statement.Predictive statementFollow := by
  refine ⟨?distinct, fun r => ?predictable, fun r => ?alternatives⟩
  case distinct =>
    unfold Distinct
    decide
  case predictable => cases r <;> decide +kernel
  case alternatives => cases r <;> decide +kernel

/-- The rules of the grammar are unambiguous: a word that a rule derives has a tree, and no word
has two. -/
theorem trees_statement (r : Rule) (word : List Kind) :
    ((statement.trees (.rule r .done) word).Nonempty ↔
      statement.Derives (.rule r .done) word) ∧
    (statement.trees (.rule r .done) word).Subsingleton := by
  refine ⟨trees_nonempty_iff, predictive_statement.trees_subsingleton ?_ word⟩
  cases r <;> decide +kernel

end Grammar

end Scriptlet
