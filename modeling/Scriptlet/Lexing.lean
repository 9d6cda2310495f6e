import Scriptlet.Diagnostic
import Scriptlet.Lexicon.Catalog
import Scriptlet.Source.Position

/-!
# Lexing

A text is first cut into pieces: words that are skipped, words that make
tokens, and stray characters that begin no word.  Nothing is lost, the pieces
make up the text (`text_pieces`).  The pieces are then placed, one after the
other, and sorted into tokens and errors.
-/

namespace Scriptlet

open Lexicon

/-! ## Pieces -/

inductive Piece where
  | skipped (text : List Char)
  | word (kind : Kind) (text : List Char)
  | stray (c : Char)
  deriving DecidableEq, Repr

namespace Piece

def text : Piece → List Char
  | .skipped text => text
  | .word _ text => text
  | .stray c => [c]

def ofWord (entry : Entry) (word : List Char) : Piece :=
  match entry.kind? with
  | none => .skipped word
  | some kind => .word kind word

@[simp] theorem text_ofWord (entry : Entry) (word : List Char) :
    (ofWord entry word).text = word := by
  unfold ofWord
  split <;> rfl

end Piece

def pieces : List Char → List Piece
  | [] => []
  | c :: rest =>
      match h : classify? (c :: rest) with
      | some (entry, cut) =>
          have : cut.rest.length < rest.length + 1 := length_rest_of_classify? h
          .ofWord entry cut.word :: pieces cut.rest
      | none => .stray c :: pieces rest
termination_by text => text.length

@[simp] theorem pieces_nil : pieces [] = [] := by
  rw [pieces]

theorem pieces_of_classify? {text : List Char} {entry : Entry} {cut : Cut}
    (h : classify? text = some (entry, cut)) :
    pieces text = .ofWord entry cut.word :: pieces cut.rest := by
  cases text with
  | nil => exact absurd (length_rest_of_classify? h) (by simp)
  | cons c rest =>
      rw [pieces]
      split
      · next entry' cut' h' =>
          obtain ⟨rfl, rfl⟩ := Prod.mk.inj (Option.some.inj (h'.symm.trans h))
          rfl
      · next h' => simp [h] at h'

theorem pieces_of_classify?_eq_none {c : Char} {rest : List Char}
    (h : classify? (c :: rest) = none) : pieces (c :: rest) = .stray c :: pieces rest := by
  rw [pieces]
  split
  · next h' => simp [h] at h'
  · rfl

theorem text_pieces (text : List Char) : (pieces text).flatMap Piece.text = text := by
  fun_induction pieces text with
  | case1 => rfl
  | case2 c rest entry cut h _ ih =>
      simpa [ih] using append_of_classify? h
  | case3 c rest h ih => simp [Piece.text, ih]

/-! ## Placing the pieces -/

/-- The outcome of reading a text: its tokens, and the characters that are part of none. -/
structure Lexing where
  tokens : List Token
  errors : List Diagnostic
  deriving DecidableEq, Repr

namespace Lexing

def hasErrors (lexing : Lexing) : Bool :=
  !lexing.errors.isEmpty

def cons (piece : Piece) (span : Span) (lexing : Lexing) : Lexing :=
  match piece with
  | .skipped _ => lexing
  | .word kind text => { lexing with tokens := ⟨kind, String.ofList text, span⟩ :: lexing.tokens }
  | .stray c => { lexing with errors := .unrecognizedCharacter c span :: lexing.errors }

def ofPieces (p : Position) : List Piece → Lexing
  | [] => ⟨[], []⟩
  | piece :: rest => cons piece (p.spanOf piece.text) (ofPieces (p.past piece.text) rest)

end Lexing

def lex (source : String) : Lexing :=
  .ofPieces .first (pieces source.toList)

end Scriptlet
