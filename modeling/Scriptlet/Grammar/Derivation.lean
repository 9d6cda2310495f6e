import Scriptlet.Grammar.Basic

/-!
# Derivations

What a grammar means.  `Derives` relates a phrase to the sequences of kinds
that it stands for.  `Produces` is a single step on phrases, at any place
outside the bodies of repetitions: a rule is replaced by one of its
alternatives, a repetition ends or goes round once more.  Both use every
production of a rule, so that they do not depend on the order of the table.
-/

namespace Scriptlet

namespace Phrase

def append : Phrase → Phrase → Phrase
  | .done, q => q
  | .token k rest, q => .token k (rest.append q)
  | .rule r rest, q => .rule r (rest.append q)
  | .many body rest, q => .many body (rest.append q)

instance : Append Phrase where
  append := append

@[simp] theorem done_append (q : Phrase) : done ++ q = q := rfl

@[simp] theorem token_append (k : Kind) (p q : Phrase) :
    token k p ++ q = token k (p ++ q) := rfl

@[simp] theorem rule_append (r : Rule) (p q : Phrase) :
    rule r p ++ q = rule r (p ++ q) := rfl

@[simp] theorem many_append (body p q : Phrase) :
    many body p ++ q = many body (p ++ q) := rfl

@[simp] theorem append_done (p : Phrase) : p ++ done = p := by
  induction p with
  | done => rfl
  | token k rest ih => rw [token_append, ih]
  | rule r rest ih => rw [rule_append, ih]
  | many body rest _ ih => rw [many_append, ih]

theorem append_assoc (p q r : Phrase) : p ++ q ++ r = p ++ (q ++ r) := by
  induction p with
  | done => rfl
  | token k rest ih => simp only [token_append, ih]
  | rule r rest ih => simp only [rule_append, ih]
  | many body rest _ ih => simp only [many_append, ih]

end Phrase

namespace Grammar

def Offers (g : Grammar) (rule : Rule) (phrase : Phrase) : Prop :=
  ∃ p ∈ g.productions, p.rule = rule ∧ phrase ∈ p.alternatives

inductive Derives (g : Grammar) : Phrase → List Kind → Prop
  | done : Derives g .done []
  | token {k rest word} : Derives g rest word → Derives g (.token k rest) (k :: word)
  | rule {r rest phrase front word} : g.Offers r phrase → Derives g phrase front →
      Derives g rest word → Derives g (.rule r rest) (front ++ word)
  | stop {body rest word} : Derives g rest word → Derives g (.many body rest) word
  | again {body rest front word} : Derives g body front →
      Derives g (.many body rest) word → Derives g (.many body rest) (front ++ word)

inductive Produces (g : Grammar) : Phrase → Phrase → Prop
  | rule {r rest phrase} : g.Offers r phrase → Produces g (.rule r rest) (phrase ++ rest)
  | stop {body rest} : Produces g (.many body rest) rest
  | again {body rest} : Produces g (.many body rest) (body ++ .many body rest)
  | afterToken {k p q} : Produces g p q → Produces g (.token k p) (.token k q)
  | afterRule {r p q} : Produces g p q → Produces g (.rule r p) (.rule r q)
  | afterMany {body p q} : Produces g p q → Produces g (.many body p) (.many body q)

theorem derives_done_iff {g : Grammar} {word : List Kind} :
    g.Derives .done word ↔ word = [] := by
  constructor
  · rintro ⟨⟩
    rfl
  · rintro rfl
    exact .done

theorem derives_token_iff {g : Grammar} {k : Kind} {rest : Phrase} {word : List Kind} :
    g.Derives (.token k rest) word ↔ ∃ tail, word = k :: tail ∧ g.Derives rest tail := by
  constructor
  · rintro (_ | h)
    exact ⟨_, rfl, h⟩
  · rintro ⟨tail, rfl, h⟩
    exact .token h

theorem derives_rule_iff {g : Grammar} {r : Rule} {rest : Phrase} {word : List Kind} :
    g.Derives (.rule r rest) word ↔ ∃ phrase front tail, word = front ++ tail ∧
      g.Offers r phrase ∧ g.Derives phrase front ∧ g.Derives rest tail := by
  constructor
  · rintro (_ | _ | ⟨ho, hp, hr⟩)
    exact ⟨_, _, _, rfl, ho, hp, hr⟩
  · rintro ⟨phrase, front, tail, rfl, ho, hp, hr⟩
    exact .rule ho hp hr

theorem derives_append_iff {g : Grammar} {p q : Phrase} {word : List Kind} :
    g.Derives (p ++ q) word ↔
      ∃ front tail, word = front ++ tail ∧ g.Derives p front ∧ g.Derives q tail := by
  constructor
  · intro h
    generalize hs : p ++ q = s at h
    induction h generalizing p with
    | done =>
        cases p with
        | done => exact ⟨[], [], rfl, .done, by rw [show q = .done from hs]; exact .done⟩
        | token | rule | many => simp at hs
    | @token k rest word h ih =>
        cases p with
        | done => exact ⟨[], _, rfl, .done, by rw [show q = _ from hs]; exact .token h⟩
        | token k' rest' =>
            obtain ⟨rfl, hrest⟩ := Phrase.token.inj hs
            obtain ⟨front, tail, rfl, hp, hq⟩ := ih hrest
            exact ⟨_ :: front, tail, rfl, .token hp, hq⟩
        | rule | many => simp at hs
    | @rule r rest phrase front word ho hphrase hrest _ ih =>
        cases p with
        | done => exact ⟨[], _, rfl, .done, by rw [show q = _ from hs]; exact .rule ho hphrase hrest⟩
        | rule r' rest' =>
            obtain ⟨rfl, hrest'⟩ := Phrase.rule.inj hs
            obtain ⟨front', tail, rfl, hp, hq⟩ := ih hrest'
            exact ⟨front ++ front', tail, by simp, .rule ho hphrase hp, hq⟩
        | token | many => simp at hs
    | @stop body rest word h ih =>
        cases p with
        | done => exact ⟨[], _, rfl, .done, by rw [show q = _ from hs]; exact .stop h⟩
        | many body' rest' =>
            obtain ⟨rfl, hrest⟩ := Phrase.many.inj hs
            obtain ⟨front, tail, rfl, hp, hq⟩ := ih hrest
            exact ⟨front, tail, rfl, .stop hp, hq⟩
        | token | rule => simp at hs
    | @again body rest front word hbody hmany _ ih =>
        cases p with
        | done => exact ⟨[], _, rfl, .done, by rw [show q = _ from hs]; exact .again hbody hmany⟩
        | many body' rest' =>
            obtain ⟨rfl, hrest⟩ := Phrase.many.inj hs
            obtain ⟨front', tail, rfl, hp, hq⟩ := ih hs
            exact ⟨front ++ front', tail, by simp, .again hbody hp, hq⟩
        | token | rule => simp at hs
  · rintro ⟨front, tail, rfl, hp, hq⟩
    induction hp with
    | done => exact hq
    | token _ ih => exact .token ih
    | rule ho hphrase _ _ ih => rw [List.append_assoc]; exact .rule ho hphrase ih
    | stop _ ih => exact .stop ih
    | again hbody _ _ ih => rw [List.append_assoc]; exact .again hbody ih

end Grammar

end Scriptlet
