import Scriptlet.Proofs.Lexing.Concatenation
import Scriptlet.Proofs.Recognition.Agreement

/-!
# Blanks in place of stray characters

A character that begins no word separates words as a blank does.  With a blank
in place of each such character a text has the same words at the same lines and
columns, and no errors; only offsets change, since a blank is one byte wide.
So the verdict on the text stays as it is.
-/

namespace Scriptlet

open Lexicon

/-! ## Replacing characters -/

/-- The text, the first character of which is at `start`, with a blank for each character that is
at one of the offsets. -/
def blankAt (offsets : List Nat) (start : Nat) : List Char → List Char
  | [] => []
  | c :: text =>
      (if start ∈ offsets then ' ' else c) :: blankAt offsets (start + c.utf8Size) text

def Lexing.errorOffsets (lexing : Lexing) : List Nat :=
  lexing.errors.map fun error => error.span.start

def blanked (source : String) : String :=
  String.ofList (blankAt (lex source).errorOffsets 0 source.toList)

private theorem blankAt_append (offsets : List Nat) (start : Nat) (front text : List Char) :
    blankAt offsets start (front ++ text) =
      blankAt offsets start front ++ blankAt offsets (start + byteSize front) text := by
  induction front generalizing start with
  | nil => simp [blankAt]
  | cons c front ih => simp [blankAt, ih, Nat.add_assoc]

private theorem blankAt_of_le {offsets : List Nat} {start : Nat} {text : List Char}
    (h : ∀ offset ∈ offsets, start + byteSize text ≤ offset) :
    blankAt offsets start text = text := by
  induction text generalizing start with
  | nil => rfl
  | cons c text ih =>
      have hsize := c.utf8Size_pos
      have hstart : start ∉ offsets := by
        intro hmem
        have := h start hmem
        simp only [byteSize_cons] at this
        omega
      rw [blankAt, if_neg hstart, ih]
      intro offset hoffset
      simpa [Nat.add_assoc] using h offset hoffset

private theorem blankAt_cons_of_lt {offset start : Nat} (h : offset < start) (offsets : List Nat)
    (text : List Char) : blankAt (offset :: offsets) start text = blankAt offsets start text := by
  induction text generalizing start with
  | nil => rfl
  | cons c text ih =>
      have hne : start ≠ offset := by omega
      simp [blankAt, hne, ih (Nat.lt_add_right c.utf8Size h)]

theorem Lexing.le_of_mem_errorOffsets (pieces : List Piece) (p : Position) :
    ∀ offset ∈ (ofPieces p pieces).errorOffsets, p.offset ≤ offset := by
  induction pieces generalizing p with
  | nil => exact List.forall_mem_nil _
  | cons piece pieces ih =>
      have hrest : ∀ offset ∈ (ofPieces (p.past piece.text) pieces).errorOffsets,
          p.offset ≤ offset := by
        intro offset hoffset
        have := ih _ offset hoffset
        simp only [Position.offset_past] at this
        omega
      cases piece with
      | skipped | word => exact hrest
      | stray c => exact List.forall_mem_cons.mpr ⟨Nat.le_refl _, hrest⟩

namespace Piece

def blanked : Piece → List Char
  | .skipped text => text
  | .word _ text => text
  | .stray _ => [' ']

end Piece

private theorem blankAt_ofPieces (pieces : List Piece) (p : Position) :
    blankAt (Lexing.ofPieces p pieces).errorOffsets p.offset (pieces.flatMap Piece.text) =
      pieces.flatMap Piece.blanked := by
  induction pieces generalizing p with
  | nil => rfl
  | cons piece pieces ih =>
      have hrest := ih (p.past piece.text)
      have hbehind := Lexing.le_of_mem_errorOffsets pieces (p.past piece.text)
      rw [Position.offset_past] at hrest hbehind
      rw [List.flatMap_cons, List.flatMap_cons, blankAt_append, ← hrest]
      cases piece with
      | skipped | word =>
          congr 1
          exact blankAt_of_le hbehind
      | stray c =>
          have hsize := c.utf8Size_pos
          congr 1
          · simp [blankAt, Lexing.ofPieces, Lexing.cons, Lexing.errorOffsets, Piece.blanked,
              Piece.text, Position.spanOf]
          · refine blankAt_cons_of_lt ?_ _ _
            simp only [Piece.text, byteSize_cons, Position.spanOf,
              Diagnostic.span_unrecognizedCharacter]
            omega

theorem toList_blanked (source : String) :
    (blanked source).toList = (pieces source.toList).flatMap Piece.blanked := by
  have hblank := blankAt_ofPieces (pieces source.toList) .first
  rw [text_pieces] at hblank
  rw [blanked, String.toList_ofList]
  exact hblank

/-! ## Reading the text with blanks -/

namespace Position

structure Aligned (p q : Position) : Prop where
  line_eq : p.line = q.line
  column_eq : p.column = q.column

namespace Aligned

variable {p q : Position}

theorem past (h : p.Aligned q) (text : List Char) : (p.past text).Aligned (q.past text) := by
  induction text generalizing p q with
  | nil => exact h
  | cons c text ih =>
      refine ih ?_
      unfold step
      split
      · exact ⟨congrArg (· + 1) h.line_eq, rfl⟩
      · exact ⟨h.line_eq, congrArg (· + 1) h.column_eq⟩

theorem past_blank (h : p.Aligned q) {c : Char} (hc : c ≠ '\n') :
    (p.past [c]).Aligned (q.past [' ']) := by
  have hblank : ' ' ≠ '\n' := by decide
  simp only [past_cons, past_nil, step, if_neg hc, if_neg hblank]
  exact ⟨h.line_eq, congrArg (· + 1) h.column_eq⟩

end Aligned

end Position

private theorem head?_flatMap_blanked (text : List Char) :
    ∀ c ∈ ((pieces text).flatMap Piece.blanked).head?,
      text.head? = some c ∨ isBlank c = true := by
  have htext := text_pieces text
  have hpieces := wellFormed_of_mem_pieces text
  generalize pieces text = ps at htext hpieces
  cases ps with
  | nil => simp
  | cons piece ps =>
      obtain ⟨⟨hne, -⟩, -⟩ := List.forall_mem_cons.mp hpieces
      rw [List.flatMap_cons] at htext ⊢
      cases piece with
      | skipped word | word _ word =>
          intro c hc
          have hword : word ≠ [] := hne
          rw [Piece.blanked, List.head?_append_of_ne_nil _ hword] at hc
          rw [← htext, List.head?_append_of_ne_nil _ hne]
          exact .inl hc
      | stray c => simp [Piece.blanked, isBlank, blankRanges]

private theorem ofPieces_blanked (text : List Char) {p q : Position} (h : p.Aligned q) :
    (Lexing.ofPieces q (pieces ((pieces text).flatMap Piece.blanked))).errors = [] ∧
      TokensAgree (Lexing.ofPieces p (pieces text)).tokens
        (Lexing.ofPieces q (pieces ((pieces text).flatMap Piece.blanked))).tokens := by
  fun_induction pieces text generalizing p q with
  | case1 => simp [Lexing.ofPieces]
  | case2 c rest entry cut hclassify _ ih =>
      obtain ⟨word, rest'⟩ := cut
      have hcut := append_of_classify? hclassify
      rw [← hcut] at hclassify
      have hrest := ih (h.past word)
      rw [List.flatMap_cons]
      cases hkind : entry.kind? with
      | none =>
          obtain ⟨hentry, hword⟩ := cut?_of_classify? hclassify
          have hsort := isBlank_of_accepts hentry (Entry.accepts_of_cut? hword)
          rw [hkind] at hsort
          simp only [Piece.ofWord, hkind, Piece.blanked]
          rw [ofPieces_blanks hsort]
          exact hrest
      | some kind =>
          have hsame : classify? (word ++ (pieces rest').flatMap Piece.blanked) =
              some (entry, ⟨word, (pieces rest').flatMap Piece.blanked⟩) := by
            refine classify?_lookahead hclassify fun d hd => ?_
            rw [hkind]
            exact head?_flatMap_blanked rest' d hd
          simp only [Piece.ofWord, hkind, Piece.blanked]
          rw [pieces_of_classify? hsame, Piece.ofWord, hkind]
          exact ⟨hrest.1, .cons ⟨rfl, rfl, h.line_eq, h.column_eq⟩ hrest.2⟩
  | case3 c rest hclassify ih =>
      have hc : c ≠ '\n' := by
        rintro rfl
        have := (Piece.wellFormed_stray hclassify).isBlank_eq '\n' List.mem_cons_self
        exact absurd this (by decide)
      have hblank : ∀ d ∈ [' '], isBlank d = true := by simp [isBlank, blankRanges]
      rw [List.flatMap_cons, Piece.blanked, ofPieces_blanks hblank]
      exact ih (h.past_blank hc)

/-- With blanks in place of the characters that are errors, there are no errors, the tokens are the
same up to their offsets, and so is the verdict. -/
theorem lex_blanked_agrees (source : String) :
    (lex (blanked source)).errors = [] ∧
      TokensAgree (lex source).tokens (lex (blanked source)).tokens ∧
      ∀ options, VerdictsAgree (recognizeText options source)
        (recognizeText options (blanked source)) := by
  have haligned : Position.first.Aligned .first := ⟨rfl, rfl⟩
  obtain ⟨herrors, htokens⟩ := ofPieces_blanked source.toList haligned
  rw [← toList_blanked] at herrors htokens
  exact ⟨herrors, htokens, recognize_agrees htokens⟩

example : blanked "True|é\n|= x||" = "True  \n = x||" := by decide +kernel

end Scriptlet
