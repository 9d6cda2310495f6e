import Mathlib.Logic.Relation
import Scriptlet.Grammar.Derivation

/-!
# Rewriting and derivations

A phrase rewrites to another by any number of single steps.  Rewriting goes on
in front of any phrase, and behind any word.  So a phrase derives a word if and
only if it rewrites to it, and the two ways to say what a grammar means agree.
-/

namespace Scriptlet

namespace Phrase

def ofWord : List Kind → Phrase
  | [] => .done
  | k :: word => .token k (ofWord word)

@[simp] theorem ofWord_nil : ofWord [] = .done := rfl

@[simp] theorem ofWord_cons (k : Kind) (word : List Kind) :
    ofWord (k :: word) = .token k (ofWord word) := rfl

theorem ofWord_append (front word : List Kind) :
    ofWord (front ++ word) = ofWord front ++ ofWord word := by
  induction front with
  | nil => rfl
  | cons k front ih => rw [List.cons_append, ofWord_cons, ih, ofWord_cons, token_append]

end Phrase

namespace Grammar

variable {g : Grammar} {p q : Phrase}

abbrev Rewrites (g : Grammar) : Phrase → Phrase → Prop :=
  Relation.ReflTransGen g.Produces

/-! ## Rewriting inside a phrase -/

theorem Produces.append_right (h : g.Produces p q) (s : Phrase) :
    g.Produces (p ++ s) (q ++ s) := by
  induction h with
  | rule ho =>
      rw [Phrase.rule_append, Phrase.append_assoc]
      exact .rule ho
  | stop => exact .stop
  | again =>
      rw [Phrase.many_append, Phrase.append_assoc]
      exact .again
  | afterToken _ ih => exact .afterToken ih
  | afterRule _ ih => exact .afterRule ih
  | afterMany _ ih => exact .afterMany ih

theorem Rewrites.append_right (h : g.Rewrites p q) (s : Phrase) :
    g.Rewrites (p ++ s) (q ++ s) :=
  Relation.ReflTransGen.lift (· ++ s) (fun _ _ hstep => Produces.append_right hstep s) _ _ h

private theorem Rewrites.after_token (h : g.Rewrites p q) (k : Kind) :
    g.Rewrites (.token k p) (.token k q) :=
  Relation.ReflTransGen.lift (Phrase.token k) (fun _ _ => Produces.afterToken) _ _ h

private theorem Rewrites.after_word (h : g.Rewrites p q) (word : List Kind) :
    g.Rewrites (Phrase.ofWord word ++ p) (Phrase.ofWord word ++ q) := by
  induction word with
  | nil => exact h
  | cons k word ih => exact ih.after_token k

/-! ## The word that a phrase derives -/

theorem rewrites_append_of_derives {word : List Kind} (h : g.Derives p word) (s : Phrase) :
    g.Rewrites (p ++ s) (Phrase.ofWord word ++ s) := by
  induction h generalizing s with
  | done => exact .refl
  | token _ ih => exact (ih s).after_token _
  | @rule r rest phrase front word ho _ _ ihfront ihword =>
      have hstep : g.Produces (.rule r rest ++ s) (phrase ++ (rest ++ s)) := .rule ho
      rw [Phrase.ofWord_append, Phrase.append_assoc]
      exact .head hstep ((ihfront _).trans ((ihword s).after_word front))
  | stop _ ih => exact .head .stop (ih s)
  | @again body rest front word _ _ ihfront ihword =>
      have hstep : g.Produces (.many body rest ++ s) (body ++ (.many body rest ++ s)) := .again
      rw [Phrase.ofWord_append, Phrase.append_assoc]
      exact .head hstep ((ihfront _).trans ((ihword s).after_word front))

private theorem derives_ofWord (g : Grammar) (word : List Kind) :
    g.Derives (Phrase.ofWord word) word := by
  induction word with
  | nil => exact .done
  | cons k word ih => exact .token ih

private theorem derives_many_of_rest {body : Phrase} {word : List Kind}
    (h : ∀ word, g.Derives q word → g.Derives p word) (hmany : g.Derives (.many body q) word) :
    g.Derives (.many body p) word := by
  generalize hs : Phrase.many body q = s at hmany
  induction hmany with
  | done | token | rule => simp at hs
  | stop hrest =>
      obtain ⟨rfl, rfl⟩ := Phrase.many.inj hs
      exact .stop (h _ hrest)
  | again hbody _ _ ih =>
      obtain ⟨rfl, rfl⟩ := Phrase.many.inj hs
      exact .again hbody (ih rfl)

theorem derives_of_produces (h : g.Produces p q) :
    ∀ word, g.Derives q word → g.Derives p word := by
  induction h with
  | rule ho =>
      intro word hword
      obtain ⟨front, tail, rfl, hphrase, hrest⟩ := derives_append_iff.mp hword
      exact .rule ho hphrase hrest
  | stop => exact fun _ => .stop
  | again =>
      intro word hword
      obtain ⟨front, tail, rfl, hbody, hmany⟩ := derives_append_iff.mp hword
      exact .again hbody hmany
  | afterToken _ ih =>
      intro word hword
      obtain ⟨tail, rfl, hrest⟩ := derives_token_iff.mp hword
      exact .token (ih tail hrest)
  | afterRule _ ih =>
      intro word hword
      obtain ⟨phrase, front, tail, rfl, ho, hphrase, hrest⟩ := derives_rule_iff.mp hword
      exact .rule ho hphrase (ih tail hrest)
  | afterMany _ ih => exact fun _ => derives_many_of_rest ih

theorem derives_iff_rewrites {word : List Kind} :
    g.Derives p word ↔ g.Rewrites p (Phrase.ofWord word) := by
  constructor
  · intro h
    simpa using rewrites_append_of_derives h .done
  · intro h
    induction h using Relation.ReflTransGen.head_induction_on with
    | refl => exact derives_ofWord g word
    | head hstep _ ih => exact derives_of_produces hstep word ih

theorem rewrites_append_of_derives_nil (h : g.Derives p []) (s : Phrase) :
    g.Rewrites (p ++ s) s :=
  rewrites_append_of_derives h s

end Grammar

end Scriptlet
