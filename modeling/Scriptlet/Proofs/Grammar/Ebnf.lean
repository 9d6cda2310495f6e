import Mathlib.Data.List.Basic
import Scriptlet.Grammar.Derivation
import Scriptlet.Grammar.Ebnf
import Scriptlet.Grammar.Statement

/-!
# Reading EBNF back

The text of a production is a row of marks with one blank between them: names,
brackets, bars, and an empty mark where a body or an alternative has no
symbols.  No mark contains a blank, so the text can be cut back into its row.
The row is then read from its end, on a stack of phrases: a bar or a closing
bracket begins a phrase, a name is put in front of the topmost one, and an
opening bracket makes the topmost one the body of a repetition in front of the
next.  What is left on the stack are the alternatives.
-/

namespace Scriptlet

inductive Mark where
  | token (kind : Kind)
  | rule (rule : Rule)
  | opening
  | closing
  | empty
  | becomes
  | bar
  deriving DecidableEq, Repr

namespace Mark

def text : Mark → String
  | .token k => k.name
  | .rule r => r.name
  | .opening => "("
  | .closing => ")*"
  | .empty => ""
  | .becomes => ":="
  | .bar => "|"

def all : List Mark :=
  [.opening, .closing, .empty, .becomes, .bar] ++ Kind.all.map .token ++ Rule.all.map .rule

def ofText? (text : String) : Option Mark :=
  all.find? fun mark => mark.text == text

@[simp] theorem ofText?_text (mark : Mark) : ofText? mark.text = some mark := by
  cases mark with
  | token k => cases k <;> decide
  | rule r => cases r <;> decide
  | opening | closing | empty | becomes | bar => decide

private theorem blank_not_mem_text (mark : Mark) : ' ' ∉ mark.text.toList := by
  cases mark with
  | token k => cases k <;> decide
  | rule r => cases r <;> decide
  | opening | closing | empty | becomes | bar => decide

/-! ## Rows of marks -/

def line (row : List Mark) : String :=
  " ".intercalate (row.map text)

theorem line_cons {mark : Mark} {back : List Mark} (hback : back ≠ []) :
    line (mark :: back) = mark.text ++ " " ++ line back := by
  simp [line, String.intercalate_cons_of_ne_nil, hback]

theorem line_append {front back : List Mark} (hfront : front ≠ []) (hback : back ≠ []) :
    line (front ++ back) = line front ++ " " ++ line back := by
  simp [line, String.intercalate_append_of_ne_nil, hfront, hback]

def ofLine? (line : String) : Option (List Mark) :=
  (line.toList.splitOn ' ').mapM fun word => ofText? (String.ofList word)

theorem ofLine?_line {row : List Mark} (hrow : row ≠ []) : ofLine? (line row) = some row := by
  have hsplit : (line row).toList.splitOn ' ' = row.map (String.toList ∘ text) := by
    rw [line, String.toList_intercalate, List.map_map]
    refine List.splitOn_intercalate ' ' ?_ (by simpa using hrow)
    simp [blank_not_mem_text]
  have hread : (fun word => ofText? (String.ofList word)) ∘ String.toList ∘ text = some := by
    funext mark
    simp
  rw [ofLine?, hsplit, List.mapM_map, hread]
  simpa using List.mapM_pure (m := Option) (f := @id Mark) (l := row)

def shown (row : List Mark) : List Mark :=
  if row = [] then [.empty] else row

theorem shown_ne_nil (row : List Mark) : shown row ≠ [] := by
  unfold shown
  split
  · simp
  · assumption

theorem line_shown (row : List Mark) : line (shown row) = line row := by
  unfold shown
  split
  · next h => rw [h]; rfl
  · rfl

private theorem intercalate_bar_ne_nil {rows : List (List Mark)} (hrows : rows ≠ [])
    (h : ∀ row ∈ rows, row ≠ []) : [bar].intercalate rows ≠ [] := by
  match rows with
  | [row] => simpa using h
  | row :: next :: rows => simp

private theorem line_intercalate_bar {rows : List (List Mark)} (h : ∀ row ∈ rows, row ≠ []) :
    line ([bar].intercalate rows) = " | ".intercalate (rows.map line) := by
  induction rows with
  | nil => rfl
  | cons row rows ih =>
      obtain ⟨hrow, hrest⟩ := List.forall_mem_cons.mp h
      cases rows with
      | nil => simp
      | cons next rows =>
          have hback := intercalate_bar_ne_nil (List.cons_ne_nil next rows) hrest
          calc line ([bar].intercalate (row :: next :: rows))
              = line row ++ " " ++ ("|" ++ " " ++ line ([bar].intercalate (next :: rows))) := by
                rw [List.intercalate_cons_cons, List.append_assoc, line_append hrow (by simp),
                  List.singleton_append, line_cons hback, text]
            _ = line row ++ " | " ++ " | ".intercalate ((next :: rows).map line) := by
                rw [ih hrest, show (" | " : String) = " " ++ ("|" ++ " ") from rfl]
                simp only [String.append_assoc]
            _ = " | ".intercalate ((row :: next :: rows).map line) := by
                simp

/-! ## Reading a row from its end -/

def push : Mark → List Phrase → List Phrase
  | .token k, phrase :: stack => .token k phrase :: stack
  | .rule r, phrase :: stack => .rule r phrase :: stack
  | .opening, body :: rest :: stack => .many body rest :: stack
  | .closing, stack => .done :: stack
  | .bar, stack => .done :: stack
  | _, stack => stack

end Mark

open Mark

namespace Phrase

def marks : Phrase → List Mark
  | .done => []
  | .token k rest => .token k :: rest.marks
  | .rule r rest => .rule r :: rest.marks
  | .many body rest => .opening :: (shown body.marks ++ .closing :: rest.marks)

private theorem intercalate_cons_words {word : String} {front : List Mark} {rest : Phrase}
    (hfront : front ≠ []) (hword : line front = word) (hrest : rest.ebnf = line rest.marks) :
    " ".intercalate (word :: rest.words) = line (front ++ rest.marks) := by
  by_cases hdone : rest = .done
  · simp [hdone, marks, words, hword]
  · have hwords : rest.words ≠ [] := by
      cases rest <;> simp_all [words]
    have hmarks : rest.marks ≠ [] := by
      cases rest <;> simp_all [marks]
    rw [String.intercalate_cons_of_ne_nil hwords, line_append hfront hmarks, hword, ← hrest, ebnf]

theorem ebnf_eq_line (phrase : Phrase) : phrase.ebnf = line phrase.marks := by
  induction phrase with
  | done => rfl
  | token k rest ih => exact intercalate_cons_words (List.cons_ne_nil (.token k) []) rfl ih
  | rule r rest ih => exact intercalate_cons_words (List.cons_ne_nil (.rule r) []) rfl ih
  | many body rest ihbody ihrest =>
      have hfront : line (.opening :: (shown body.marks ++ [.closing])) =
          "( " ++ " ".intercalate body.words ++ " )*" := by
        rw [line_cons (by simp), line_append (shown_ne_nil _) (by simp), line_shown, ← ihbody,
          ebnf, show ("( " : String) = "(" ++ " " from rfl,
          show (" )*" : String) = " " ++ ")*" from rfl]
        simp [line, text, String.append_assoc]
      simpa [ebnf, words, marks] using intercalate_cons_words (by simp) hfront ihrest

private theorem foldr_push_shown {row : List Mark} {stack : List Phrase} :
    (shown row).foldr push stack = row.foldr push stack := by
  unfold shown
  split
  · next h => rw [h]; rfl
  · rfl

theorem foldr_push_marks (phrase rest : Phrase) (stack : List Phrase) :
    phrase.marks.foldr push (rest :: stack) = (phrase ++ rest) :: stack := by
  induction phrase generalizing rest stack with
  | done => rfl
  | token k tail ih | rule r tail ih => simp [marks, ih, push]
  | many body tail ihbody ihtail =>
      simp [marks, foldr_push_shown, ihbody, ihtail, push]

end Phrase

namespace Production

/-- The alternatives as far as the text shows them: to have none looks like having an empty one. -/
def written (p : Production) : List Phrase :=
  if p.alternatives = [] then [.done] else p.alternatives

theorem written_of_ne_nil {p : Production} (h : p.alternatives ≠ []) :
    p.written = p.alternatives :=
  if_neg h

private theorem written_ne_nil (p : Production) : p.written ≠ [] := by
  unfold written
  split
  · simp
  · assumption

def rows (phrases : List Phrase) : List Mark :=
  [bar].intercalate (phrases.map fun phrase => shown phrase.marks)

def marks (p : Production) : List Mark :=
  .rule p.rule :: .becomes :: rows p.written

private theorem rows_ne_nil {phrases : List Phrase} (h : phrases ≠ []) : rows phrases ≠ [] :=
  intercalate_bar_ne_nil (by simpa using h) (by simp [shown_ne_nil])

theorem ebnf_eq_line (p : Production) : p.ebnf = line p.marks := by
  have hrows : " | ".intercalate (p.alternatives.map Phrase.ebnf) = line (rows p.written) := by
    rw [rows, line_intercalate_bar (by simp [shown_ne_nil]), List.map_map]
    by_cases hnone : p.alternatives = []
    · simp [written, hnone]
      rfl
    · rw [written_of_ne_nil hnone]
      refine congrArg _ (List.map_congr_left fun phrase _ => ?_)
      exact phrase.ebnf_eq_line.trans (line_shown _).symm
  rw [ebnf, hrows, marks, line_cons (by simp), line_cons (rows_ne_nil p.written_ne_nil)]
  rw [show (" := " : String) = " " ++ (":=" ++ " ") from rfl]
  simp only [text, String.append_assoc]

private theorem foldr_push_rows {phrases : List Phrase} (h : phrases ≠ []) :
    (rows phrases).foldr push [.done] = phrases := by
  unfold rows
  induction phrases with
  | nil => contradiction
  | cons phrase phrases ih =>
      cases phrases with
      | nil => simp [Phrase.foldr_push_shown, Phrase.foldr_push_marks]
      | cons next phrases =>
          have ih := ih (by simp)
          simp only [List.map_cons] at ih ⊢
          rw [List.intercalate_cons_cons, List.append_assoc, List.foldr_append, List.foldr_append,
            ih, Phrase.foldr_push_shown]
          simp [push, Phrase.foldr_push_marks]

def ofEbnf? (text : String) : Option Production :=
  match ofLine? text with
  | some (.rule r :: .becomes :: row) => some ⟨r, row.foldr push [.done]⟩
  | _ => none

theorem ofEbnf?_ebnf (p : Production) : ofEbnf? p.ebnf = some ⟨p.rule, p.written⟩ := by
  rw [ebnf_eq_line, ofEbnf?, ofLine?_line (by simp [marks]), marks]
  simp [foldr_push_rows p.written_ne_nil]

theorem ebnf_eq_iff_written {p q : Production} :
    p.ebnf = q.ebnf ↔ p.rule = q.rule ∧ p.written = q.written := by
  constructor
  · intro h
    have hread := (ofEbnf?_ebnf p).symm.trans (h ▸ ofEbnf?_ebnf q)
    simpa using hread
  · rintro ⟨hrule, hwritten⟩
    rw [ebnf_eq_line, ebnf_eq_line, marks, marks, hrule, hwritten]

example : (Production.mk .expression []).ebnf = (Production.mk .expression [.done]).ebnf := by
  decide

private theorem alternatives_ne_nil_of_mem_statement {p : Production}
    (hp : p ∈ Grammar.statement.productions) : p.alternatives ≠ [] := by
  revert p
  decide

/-- Where no production is without alternatives, as in the grammar of statements, the text
determines the production. -/
theorem ebnf_determines :
    (∀ p ∈ Grammar.statement.productions, p.alternatives ≠ []) ∧
      ∀ p q : Production, p.alternatives ≠ [] → q.alternatives ≠ [] →
        (p.ebnf = q.ebnf ↔ p.rule = q.rule ∧ p.alternatives = q.alternatives) := by
  refine ⟨fun p => alternatives_ne_nil_of_mem_statement, fun p q hp hq => ?_⟩
  rw [ebnf_eq_iff_written, written_of_ne_nil hp, written_of_ne_nil hq]

theorem ebnf_determines_nesting :
    (Production.mk .expression [.many (.many .done .done) .done]).alternatives ≠ [] ∧
      (Production.mk .expression [.many .done (.many .done .done)]).alternatives ≠ [] ∧
      (Production.mk .expression [.many (.many .done .done) .done]).ebnf ≠
        (Production.mk .expression [.many .done (.many .done .done)]).ebnf := by
  refine ⟨by decide, by decide, fun h => ?_⟩
  have hsame := (ebnf_determines.2 _ _ (by decide) (by decide)).mp h
  exact absurd hsame.2 (by decide)

end Production

end Scriptlet
