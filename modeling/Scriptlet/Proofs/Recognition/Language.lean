import Scriptlet.Grammar.Derivation
import Scriptlet.Proofs.Recognition.Verdict

/-!
# The language of statements

The tokens that are recognized are those that the grammar derives, as long as
no group is nested too deeply.  That they are derived is seen along the
ladder, rung by rung.  That all of them are recognized is seen along the scan:
each phrase of the grammar takes a scan from one stage to another, and a
derivation of the phrase gives the steps.
-/

namespace Scriptlet

/-- Each opening parenthesis stands where fewer than `limit` groups are open, `opened` of them
from before the word. -/
def NestedWithin (limit opened : Nat) (word : List Kind) : Prop :=
  ∀ front rest, word = front ++ .lparen :: rest →
    opened + front.count .lparen < limit + front.count .rparen

namespace NestedWithin

theorem left {limit opened : Nat} {front word : List Kind}
    (h : NestedWithin limit opened (front ++ word)) : NestedWithin limit opened front := by
  rintro before rest rfl
  exact h before (rest ++ word) (by simp)

theorem right {limit opened opened' : Nat} {front word : List Kind}
    (h : NestedWithin limit opened (front ++ word))
    (hopened : opened' + front.count .rparen = opened + front.count .lparen) :
    NestedWithin limit opened' word := by
  rintro before rest rfl
  have := h (front ++ before) rest (by simp)
  rw [List.count_append, List.count_append] at this
  omega

theorem opened_lt {limit opened : Nat} {word : List Kind}
    (h : NestedWithin limit opened (.lparen :: word)) : opened < limit :=
  h [] word rfl

end NestedWithin

theorem Stage.nestedWithin_of_after? {limit : Nat} {stage next : Stage} {word : List Kind}
    (h : stage.after? limit word = some next) : NestedWithin limit stage.opened word := by
  rintro front rest rfl
  rw [after?_append] at h
  obtain ⟨middle, hfront, hrest⟩ := Option.bind_eq_some_iff.mp h
  obtain ⟨after, hopen, -⟩ := Option.bind_eq_some_iff.mp hrest
  have hlt := (next?_eq_some_iff.mp hopen).opened_lt
  have hcount := opened_after? hfront
  omega

namespace Grammar

private theorem offers_statement_cases {rule : Rule} {phrase : Phrase}
    (h : statement.Offers rule phrase) :
    (rule = .assignmentStatement ∧
      phrase = .token .identifier (.token .assignment (.rule .expression .done))) ∨
    (rule = .expression ∧ phrase = .rule .subtExpression .done) ∨
    (rule = .subtExpression ∧ phrase = chainPhrase .subtraction .addExpression) ∨
    (rule = .addExpression ∧ phrase = chainPhrase .addition .multExpression) ∨
    (rule = .multExpression ∧ phrase = chainPhrase .multiplication .atomicExpression) ∨
    (rule = .atomicExpression ∧
      (phrase = .token .lparen (.rule .expression (.token .rparen .done)) ∨
        phrase = .token .integer .done ∨ phrase = .token .identifier .done)) := by
  simpa [Offers, statement, eq_comm] using h

end Grammar

/-! ## From derivations to scans -/

namespace Rule

/-- A statement takes a scan from its first stage to its last, any other rule over one operand. -/
def Spans (rule : Rule) (stage next : Stage) : Prop :=
  match rule with
  | .assignmentStatement => stage = .target ∧ next = .operator 0
  | _ => ∃ opened, stage = .operand opened ∧ next = .operator opened

end Rule

namespace Phrase

/-- The phrase takes a scan from `stage` to `next`, if groups may be nested deeply enough. -/
def Leads : Phrase → Stage → Stage → Prop
  | .done, stage, next => stage = next
  | .token kind rest, stage, next =>
      ∃ limit middle, Stage.Step limit stage kind middle ∧ rest.Leads middle next
  | .rule r rest, stage, next => ∃ middle, r.Spans stage middle ∧ rest.Leads middle next
  | .many body rest, stage, next => body.Leads stage stage ∧ rest.Leads stage next

private theorem leads_chainPhrase (op : Kind) (operand : Rule) (hop : op ∈ Ladder.operators)
    (hoperand : ∀ opened, operand.Spans (.operand opened) (.operator opened)) (opened : Nat) :
    (Grammar.chainPhrase op operand).Leads (.operand opened) (.operator opened) :=
  ⟨.operator opened, hoperand opened,
    ⟨0, .operand opened, .operator hop, .operator opened, hoperand opened, rfl⟩, rfl⟩

theorem leads_of_offers {r : Rule} {phrase : Phrase} {stage next : Stage}
    (hoffers : Grammar.statement.Offers r phrase) (hspans : r.Spans stage next) :
    phrase.Leads stage next := by
  rcases Grammar.offers_statement_cases hoffers with ⟨rfl, rfl⟩ | ⟨rfl, rfl⟩ | ⟨rfl, rfl⟩ |
    ⟨rfl, rfl⟩ | ⟨rfl, rfl⟩ | ⟨rfl, rfl | rfl | rfl⟩
  · obtain ⟨rfl, rfl⟩ := hspans
    exact ⟨0, _, .target, 0, _, .assignment, _, ⟨0, rfl, rfl⟩, rfl⟩
  all_goals obtain ⟨opened, rfl, rfl⟩ := hspans
  · exact ⟨_, ⟨opened, rfl, rfl⟩, rfl⟩
  · exact leads_chainPhrase .subtraction .addExpression (by decide) (fun n => ⟨n, rfl, rfl⟩) opened
  · exact leads_chainPhrase .addition .multExpression (by decide) (fun n => ⟨n, rfl, rfl⟩) opened
  · exact leads_chainPhrase .multiplication .atomicExpression (by decide)
      (fun n => ⟨n, rfl, rfl⟩) opened
  · exact ⟨opened + 1, _, .enter (Nat.lt_succ_self opened), _, ⟨opened + 1, rfl, rfl⟩,
      0, _, .leave, rfl⟩
  · exact ⟨0, _, .integer, rfl⟩
  · exact ⟨0, _, .identifier, rfl⟩

end Phrase

theorem Stage.after?_of_derives {limit : Nat} {phrase : Phrase} {word : List Kind}
    (h : Grammar.statement.Derives phrase word) {stage next : Stage}
    (hleads : phrase.Leads stage next) (hnested : NestedWithin limit stage.opened word) :
    stage.after? limit word = some next := by
  induction h generalizing stage next with
  | done => exact congrArg some hleads
  | @token kind _ word _ ih =>
      obtain ⟨limit', middle, hstep, hrest⟩ := hleads
      have hstep' : Stage.Step limit _ _ _ :=
        hstep.of_opened_lt fun hkind => (hkind ▸ hnested).opened_lt
      rw [after?_cons, next?_eq_some_iff.mpr hstep', Option.bind_some]
      have hcons : NestedWithin limit stage.opened ([kind] ++ word) := hnested
      exact ih hrest (hcons.right hstep.opened_eq)
  | rule hoffers _ _ ihphrase ihrest =>
      obtain ⟨middle, hspans, hrest⟩ := hleads
      have hfront := ihphrase (Phrase.leads_of_offers hoffers hspans) hnested.left
      rw [after?_append, hfront, Option.bind_some]
      exact ihrest hrest (hnested.right (opened_after? hfront))
  | stop _ ih => exact ih hleads.2 hnested
  | again _ _ ihbody ihmany =>
      have hfront := ihbody hleads.1 hnested.left
      rw [after?_append, hfront, Option.bind_some]
      exact ihmany hleads (hnested.right (opened_after? hfront))

/-! ## From the ladder to derivations -/

namespace Grammar

theorem derives_rule_done_iff {g : Grammar} {r : Rule} {word : List Kind} :
    g.Derives (.rule r .done) word ↔ ∃ phrase, g.Offers r phrase ∧ g.Derives phrase word := by
  rw [derives_rule_iff]
  constructor
  · rintro ⟨phrase, front, tail, rfl, hoffers, hphrase, htail⟩
    obtain rfl := derives_done_iff.mp htail
    exact ⟨phrase, hoffers, by rwa [List.append_nil]⟩
  · rintro ⟨phrase, hoffers, hphrase⟩
    exact ⟨phrase, word, [], (List.append_nil word).symm, hoffers, hphrase, .done⟩

theorem derives_chainPhrase_of_operand {g : Grammar} {op : Kind} {operand : Rule}
    {word : List Kind} (h : g.Derives (.rule operand .done) word) :
    g.Derives (chainPhrase op operand) word := by
  obtain ⟨phrase, hoffers, hphrase⟩ := derives_rule_done_iff.mp h
  exact derives_rule_iff.mpr
    ⟨phrase, word, [], (List.append_nil word).symm, hoffers, hphrase, .stop .done⟩

theorem derives_chainPhrase_cons {g : Grammar} {op : Kind} {operand : Rule}
    {word rest : List Kind} (h : g.Derives (.rule operand .done) word)
    (hrest : g.Derives (chainPhrase op operand) rest) :
    g.Derives (chainPhrase op operand) (word ++ op :: rest) := by
  obtain ⟨phrase, hoffers, hphrase⟩ := derives_rule_done_iff.mp h
  obtain ⟨phrase', front, tail, rfl, hoffers', hphrase', htail⟩ := derives_rule_iff.mp hrest
  have hbody : g.Derives (.token op (.rule operand .done)) (op :: front) :=
    .token (derives_rule_done_iff.mpr ⟨phrase', hoffers', hphrase'⟩)
  exact .rule hoffers hphrase (.again hbody htail)

private theorem derives_group {g : Grammar} {r : Rule} {opening closing : Kind} {word : List Kind}
    (h : g.Derives (.rule r .done) word) :
    g.Derives (.token opening (.rule r (.token closing .done)))
      (opening :: (word ++ [closing])) := by
  obtain ⟨phrase, hoffers, hphrase⟩ := derives_rule_done_iff.mp h
  exact .token (.rule hoffers hphrase (.token .done))

end Grammar

def Cursor.Passes (r : Rule) (c d : Cursor) : Prop :=
  ∃ front, c.ahead = front ++ d.ahead ∧
    Grammar.statement.Derives (.rule r .done) (front.map Token.kind)

namespace Cursor.Passes

theorem of_offers {r : Rule} {phrase : Phrase} {c d : Cursor} (front : List Token)
    (hahead : c.ahead = front ++ d.ahead) (hoffers : Grammar.statement.Offers r phrase)
    (h : Grammar.statement.Derives phrase (front.map Token.kind)) : c.Passes r d :=
  ⟨front, hahead, Grammar.derives_rule_done_iff.mpr ⟨phrase, hoffers, h⟩⟩

theorem step {r : Rule} {c : Cursor} {token : Token} {rest : List Token}
    (hahead : c.ahead = token :: rest)
    (hoffers : Grammar.statement.Offers r (.token token.kind .done)) : c.Passes r c.advance := by
  refine of_offers [token] ?_ hoffers (.token .done)
  rw [Cursor.advance_of_ahead hahead, hahead, List.singleton_append]

theorem unit {r s : Rule} {c d : Cursor} (hoffers : Grammar.statement.Offers r (.rule s .done))
    (h : c.Passes s d) : c.Passes r d := by
  obtain ⟨front, hahead, hfront⟩ := h
  exact of_offers front hahead hoffers hfront

end Cursor.Passes

namespace Ladder

private theorem offers_group : Grammar.statement.Offers .atomicExpression
    (.token .lparen (.rule .expression (.token .rparen .done))) := by
  simp [Grammar.Offers, Grammar.statement]

private theorem passes_chain {n : Nat} {op : Kind} {operand : Routine n} {r s : Rule}
    (hoffers : Grammar.statement.Offers r (Grammar.chainPhrase op s))
    (hoperand : ∀ c h, (operand c h).verdict = .ok () → c.Passes s (operand c h).cursor)
    (c : Cursor) (h : c.ahead.length ≤ n) (hok : (chain op operand c h).verdict = .ok ()) :
    c.Passes r (chain op operand c h).cursor := by
  -- A chain that goes on is a chain again, so the induction is on its phrase and not on `r`.
  suffices hchain : ∃ front, c.ahead = front ++ (chain op operand c h).cursor.ahead ∧
      Grammar.statement.Derives (Grammar.chainPhrase op s) (front.map Token.kind) by
    obtain ⟨front, hahead, hfront⟩ := hchain
    exact .of_offers front hahead hoffers hfront
  revert hok
  refine chain_induct (P := fun c verdict d => verdict = .ok () →
    ∃ front, c.ahead = front ++ d.ahead ∧
      Grammar.statement.Derives (Grammar.chainPhrase op s) (front.map Token.kind))
    ?fail ?stop ?more c h
  case fail => exact fun _ _ _ _ hok => nomatch hok
  case stop =>
    intro c h hv _ _
    obtain ⟨front, hahead, hfront⟩ := hoperand c h hv
    exact ⟨front, hahead, Grammar.derives_chainPhrase_of_operand hfront⟩
  case more =>
    intro c h verdict e hv hsees hrest hok
    obtain ⟨front, hahead, hfront⟩ := hoperand c h hv
    obtain ⟨token, rest, hnext, rfl⟩ := Cursor.sees_iff.mp hsees
    obtain ⟨tail, htail, hderives⟩ := hrest hok
    rw [Cursor.advance_of_ahead hnext] at htail
    refine ⟨front ++ token :: tail, ?_, ?_⟩
    · rw [hahead, hnext, show rest = tail ++ e.ahead from htail]
      simp
    · rw [List.map_append, List.map_cons]
      exact Grammar.derives_chainPhrase_cons hfront hderives

private theorem passes_group {n : Nat} {group : (c : Cursor) → c.ahead.length < n → Run c}
    (hgroup : ∀ c h, (group c h).verdict = .ok () → c.Passes .expression (group c h).cursor)
    {c : Cursor} (hsees : c.sees .lparen = true) (h : c.enter.ahead.length < n)
    (hok : ((group c.enter h).andThen fun d _ => close d).verdict = .ok ()) :
    c.Passes .atomicExpression ((group c.enter h).andThen fun d _ => close d).cursor := by
  cases hv : (group c.enter h).verdict with
  | error diagnostic =>
      rw [Run.andThen_of_error hv, hv] at hok
      contradiction
  | ok =>
      obtain ⟨front, hahead, hfront⟩ := hgroup c.enter h hv
      rw [Run.andThen_of_ok hv, Run.verdict_since] at hok
      rw [Run.andThen_of_ok hv, Run.cursor_since]
      unfold close at hok ⊢
      split at hok
      · next hclose =>
          rw [if_pos hclose]
          obtain ⟨opening, rest, hopening, hlparen⟩ := Cursor.sees_iff.mp hsees
          obtain ⟨closing, ahead, hclosing, hrparen⟩ := Cursor.sees_iff.mp hclose
          rw [Cursor.ahead_enter, Cursor.advance_of_ahead hopening, hclosing] at hahead
          refine .of_offers (opening :: (front ++ [closing])) ?_ offers_group ?_
          · rw [hopening, Cursor.ahead_leave, Cursor.advance_of_ahead hclosing]
            simpa using hahead
          · simpa [hlparen, hrparen] using Grammar.derives_group hfront
      · contradiction

private theorem passes_atom {limit n : Nat} {group : (c : Cursor) → c.ahead.length < n → Run c}
    (hgroup : ∀ c h, (group c h).verdict = .ok () → c.Passes .expression (group c h).cursor)
    (c : Cursor) (h : c.ahead.length ≤ n) (hok : (atom limit group c h).verdict = .ok ()) :
    c.Passes .atomicExpression (atom limit group c h).cursor := by
  revert hok
  refine atom_cases (P := fun verdict d => verdict = .ok () → c.Passes .atomicExpression d)
    ?enter ?deep ?step ?other h
  case enter => exact fun h hsees _ hok => passes_group hgroup hsees h hok
  case deep => exact fun _ _ _ _ _ hok => nomatch hok
  case other => exact fun _ hok => nomatch hok
  case step =>
    intro token rest hahead hkind _
    apply Cursor.Passes.step hahead
    rcases hkind with hkind | hkind <;> simp [Grammar.Offers, Grammar.statement, hkind]

end Ladder

theorem passes_expression (limit : Nat) (c : Cursor)
    (hok : (expression limit c).verdict = .ok ()) :
    c.Passes .expression (expression limit c).cursor := by
  have hexpression : Grammar.statement.Offers .expression (.rule .subtExpression .done) := by
    simp [Grammar.Offers, Grammar.statement]
  have hsubt : Grammar.statement.Offers .subtExpression
      (Grammar.chainPhrase .subtraction .addExpression) := by
    simp [Grammar.Offers, Grammar.statement]
  have hadd : Grammar.statement.Offers .addExpression
      (Grammar.chainPhrase .addition .multExpression) := by
    simp [Grammar.Offers, Grammar.statement]
  have hmult : Grammar.statement.Offers .multExpression
      (Grammar.chainPhrase .multiplication .atomicExpression) := by
    simp [Grammar.Offers, Grammar.statement]
  induction c using expression.induct with
  | case1 c ih =>
      rw [expression] at hok ⊢
      apply Cursor.Passes.unit hexpression
      refine Ladder.passes_chain hsubt ?_ c _ hok
      apply Ladder.passes_chain hadd
      apply Ladder.passes_chain hmult
      exact Ladder.passes_atom ih

/-! ## The language -/

namespace Stage

private theorem derives_of_after?_operand {limit : Nat} {word : List Kind}
    (h : (operand 0).after? limit word = some (.operator 0)) :
    Grammar.statement.Derives (.rule .expression .done) word := by
  rw [← Token.map_kind_ofKind word] at h ⊢
  generalize word.map Token.ofKind = tokens at h ⊢
  have hscan : (Cursor.start tokens).scan limit (.operand 0) =
      ⟨.operator 0, tokens.reverse ++ [], []⟩ := scan_eq_of_after?_all h []
  obtain ⟨hcursor, hverdict⟩ := expression_endsAs limit (.start tokens)
  rw [Cursor.depth_start, Nat.sub_zero, hscan] at hcursor hverdict
  obtain ⟨front, hahead, hfront⟩ := passes_expression limit (.start tokens) hverdict
  rw [hcursor] at hahead
  have htokens : tokens = front := hahead.trans (List.append_nil front)
  rwa [htokens]

theorem after?_operand_iff {limit : Nat} {word : List Kind} :
    (operand 0).after? limit word = some (.operator 0) ↔
      Grammar.statement.Derives (.rule .expression .done) word ∧ NestedWithin limit 0 word := by
  constructor
  · intro h
    exact ⟨derives_of_after?_operand h, nestedWithin_of_after? h⟩
  · rintro ⟨hderives, hnested⟩
    exact after?_of_derives hderives ⟨_, ⟨0, rfl, rfl⟩, rfl⟩ hnested

private theorem after?_target_cases {limit : Nat} {word : List Kind}
    (h : target.after? limit word = some (.operator 0)) :
    ∃ rest, word = .identifier :: .assignment :: rest ∧
      (operand 0).after? limit rest = some (.operator 0) := by
  match word, h with
  | first :: word, h =>
      obtain ⟨next, hfirst, hword⟩ := Option.bind_eq_some_iff.mp h
      cases next?_eq_some_iff.mp hfirst
      match word, hword with
      | second :: rest, hword =>
          obtain ⟨next, hsecond, hrest⟩ := Option.bind_eq_some_iff.mp hword
          cases next?_eq_some_iff.mp hsecond
          exact ⟨rest, rfl, hrest⟩

theorem after?_target_iff {limit : Nat} {word : List Kind} :
    target.after? limit word = some (.operator 0) ↔
      Grammar.statement.Derives (.rule .assignmentStatement .done) word ∧
        NestedWithin limit 0 word := by
  constructor
  · intro h
    refine ⟨?_, nestedWithin_of_after? h⟩
    obtain ⟨rest, rfl, hrest⟩ := after?_target_cases h
    have hoffers : Grammar.statement.Offers .assignmentStatement
        (.token .identifier (.token .assignment (.rule .expression .done))) := by
      simp [Grammar.Offers, Grammar.statement]
    have hexpression := derives_of_after?_operand hrest
    exact Grammar.derives_rule_done_iff.mpr ⟨_, hoffers, .token (.token hexpression)⟩
  · rintro ⟨hderives, hnested⟩
    exact after?_of_derives hderives ⟨_, ⟨rfl, rfl⟩, rfl⟩ hnested

end Stage

theorem recognize_iff_derives (limit : Nat) (tokens : List Token) :
    recognize ⟨limit, false⟩ tokens = .ok () ↔
      Grammar.statement.Derives (.rule .assignmentStatement .done) (tokens.map Token.kind) ∧
        NestedWithin limit 0 (tokens.map Token.kind) := by
  rw [recognize_eq_ok_iff_exists, ← Stage.after?_target_iff]
  constructor
  · rintro ⟨front, rest, rfl, hafter, -, rfl | hallowed⟩
    · rwa [List.append_nil]
    · contradiction
  · intro hafter
    exact ⟨tokens, [], (List.append_nil tokens).symm, hafter, Stage.stuck_nil limit _, .inl rfl⟩

end Scriptlet
