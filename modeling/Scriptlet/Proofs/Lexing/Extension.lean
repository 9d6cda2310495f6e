import Scriptlet.Lexing
import Scriptlet.Proofs.Lexicon.Lookahead

/-!
# Texts that go on

A word is known by itself and the one character behind it.  So when a text goes
on, what has been read of it stands, whatever follows: all tokens and errors
that end before the text does.  Only one that ends with the text may turn out to
be the beginning of something else.
-/

namespace Scriptlet

open Lexicon

namespace Lexing

/-- What ends before the offset. -/
def before (lexing : Lexing) (offset : Nat) : Lexing where
  tokens := lexing.tokens.filter fun token => token.span.stop < offset
  errors := lexing.errors.filter fun error => error.span.stop < offset

structure IsPrefix (a b : Lexing) : Prop where
  tokens : a.tokens <+: b.tokens
  errors : a.errors <+: b.errors

theorem nil_isPrefix (lexing : Lexing) : IsPrefix ⟨[], []⟩ lexing :=
  ⟨List.nil_prefix, List.nil_prefix⟩

theorem IsPrefix.cons {a b : Lexing} (h : a.IsPrefix b) (piece : Piece) (span : Span) :
    (cons piece span a).IsPrefix (cons piece span b) := by
  cases piece with
  | skipped => exact h
  | word => exact ⟨List.cons_prefix_cons.mpr ⟨rfl, h.tokens⟩, h.errors⟩
  | stray => exact ⟨h.tokens, List.cons_prefix_cons.mpr ⟨rfl, h.errors⟩⟩

section Before

variable {span : Span} {offset : Nat}

private theorem before_cons_of_lt (h : span.stop < offset) (piece : Piece) (lexing : Lexing) :
    (cons piece span lexing).before offset = cons piece span (lexing.before offset) := by
  cases piece <;> simp [cons, before, Diagnostic.unrecognizedCharacter, h]

private theorem before_cons_of_le (h : offset ≤ span.stop) (piece : Piece) (lexing : Lexing) :
    (cons piece span lexing).before offset = lexing.before offset := by
  cases piece <;> simp [cons, before, Diagnostic.unrecognizedCharacter, Nat.not_lt.mpr h]

end Before

private theorem before_cons_isPrefix {p : Position} {piece : Piece} {rest : List Char}
    {longer : List Piece} (more : List Char)
    (hlonger : rest ≠ [] → longer = piece :: pieces (rest ++ more))
    (hrest : ((ofPieces (p.past piece.text) (pieces rest)).before
        ((p.past piece.text).offset + byteSize rest)).IsPrefix
      (ofPieces (p.past piece.text) (pieces (rest ++ more)))) :
    ((ofPieces p (piece :: pieces rest)).before
        (p.offset + byteSize (piece.text ++ rest))).IsPrefix (ofPieces p longer) := by
  have hoffset : p.offset + byteSize (piece.text ++ rest) =
      (p.past piece.text).offset + byteSize rest := by
    rw [Position.offset_past, byteSize_append, Nat.add_assoc]
  have hstop : (p.spanOf piece.text).stop = (p.past piece.text).offset := rfl
  rw [hoffset, ofPieces]
  by_cases hnil : rest = []
  · subst hnil
    rw [pieces_nil, before_cons_of_le (by simp [hstop])]
    exact nil_isPrefix _
  · have hsize : byteSize rest ≠ 0 := by simpa using hnil
    rw [hlonger hnil, ofPieces, before_cons_of_lt (by omega)]
    exact hrest.cons piece _

end Lexing

theorem ofPieces_before_isPrefix (p : Position) (text more : List Char) :
    ((Lexing.ofPieces p (pieces text)).before (p.offset + byteSize text)).IsPrefix
      (Lexing.ofPieces p (pieces (text ++ more))) := by
  have hnext : ∀ rest : List Char, rest ≠ [] →
      ∀ d ∈ (rest ++ more).head?, rest.head? = some d := by
    intro rest hne d hd
    cases rest with
    | nil => contradiction
    | cons e rest => exact hd
  fun_induction pieces text generalizing p with
  | case1 => exact Lexing.nil_isPrefix _
  | case2 c rest entry cut hclassify _ ih =>
      obtain ⟨word, rest'⟩ := cut
      have hcut := append_of_classify? hclassify
      rw [← hcut] at hclassify
      have hsize : byteSize (c :: rest) =
          byteSize ((Piece.ofWord entry word).text ++ rest') := by
        rw [Piece.text_ofWord, hcut]
      rw [hsize, ← hcut, List.append_assoc]
      refine Lexing.before_cons_isPrefix more (fun hne => ?_) ?_
      · exact pieces_of_classify?
          (classify?_lookahead hclassify fun d hd => .inl (hnext rest' hne d hd))
      · exact ih _
  | case3 c rest hclassify ih =>
      refine Lexing.before_cons_isPrefix more (fun hne => ?_) (ih _)
      exact pieces_of_classify?_eq_none
        (classify?_eq_none_lookahead hclassify (hnext rest hne))

/-- The tokens and errors of a text that end before the text does come first in the lexing of every
text that goes on from it, with the same places. -/
theorem lex_isPrefix_append (a b : String) :
    ((lex a).before (byteSize a.toList)).IsPrefix (lex (a ++ b)) := by
  have hbefore := ofPieces_before_isPrefix .first a.toList b.toList
  have hfirst : Position.first.offset + byteSize a.toList = byteSize a.toList := Nat.zero_add _
  rw [hfirst] at hbefore
  rw [lex, lex, String.toList_append]
  exact hbefore

example : (lex "x =").before 3 = ⟨[⟨.identifier, "x", ⟨0, 1, 1, 1⟩⟩], []⟩ := by decide +kernel

end Scriptlet
