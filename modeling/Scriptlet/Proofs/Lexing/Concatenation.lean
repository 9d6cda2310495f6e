import Scriptlet.Proofs.Lexicon.Lookahead
import Scriptlet.Proofs.Lexing.Segments
import Scriptlet.Proofs.Lexing.Tiling
import Scriptlet.Proofs.Location

/-!
# Lexing of a concatenation

Where no token runs across the place at which two texts meet, the lexing of
both together is that of the first, followed by that of the second with its
places moved.  The first text is read without a look at the second, since a
word ends where its text does; blanks may run across, since they make nothing.
-/

namespace Scriptlet

open Lexicon

/-! ## Moving places behind a text -/

namespace Span

/-- The span of the same piece when the source is put behind `front`.  Only on its first line do
the columns change. -/
def behind (span : Span) (front : List Char) : Span where
  start := span.start + byteSize front
  stop := span.stop + byteSize front
  line := span.line + front.count '\n'
  column := if span.line = 1 then span.column + (lastLine front).length else span.column

end Span

namespace Diagnostic

/-- The same lexical error at another place, of which its message tells the offset. -/
def placed (diagnostic : Diagnostic) (span : Span) : Diagnostic :=
  match diagnostic.found with
  | .char c =>
      { diagnostic with span := span, message := (unrecognizedCharacter c span).message }
  | .token _ | .endOfInput => { diagnostic with span := span }

@[simp] theorem placed_unrecognizedCharacter (c : Char) (a b : Span) :
    (unrecognizedCharacter c a).placed b = unrecognizedCharacter c b := rfl

@[simp] theorem span_unrecognizedCharacter (c : Char) (span : Span) :
    (unrecognizedCharacter c span).span = span := rfl

end Diagnostic

namespace Lexing

def behind (lexing : Lexing) (front : List Char) : Lexing where
  tokens := lexing.tokens.map fun token => { token with span := token.span.behind front }
  errors := lexing.errors.map fun error => error.placed (error.span.behind front)

theorem cons_behind (piece : Piece) (span : Span) (lexing : Lexing) (front : List Char) :
    (cons piece span lexing).behind front =
      cons piece (span.behind front) (lexing.behind front) := by
  cases piece with
  | skipped | word => rfl
  | stray c => simp [cons, behind]

end Lexing

theorem Position.offset_past_append (p : Position) (a b : List Char) :
    (p.past a).offset + byteSize b = p.offset + byteSize (a ++ b) := by
  rw [offset_past, byteSize_append, Nat.add_assoc]

theorem Position.spanOf_behind (front text word : List Char) :
    (first.past (front ++ text)).spanOf word =
      ((first.past text).spanOf word).behind front := by
  have hfeeds : 1 + text.count '\n' = 1 ↔ '\n' ∉ text := by
    rw [← List.count_eq_zero]
    omega
  simp only [spanOf, Span.behind, offset_past, past_first, lastLine_append, byteSize_append,
    List.count_append, hfeeds, Span.mk.injEq]
  refine ⟨by omega, by omega, by omega, ?_⟩
  by_cases hfeed : '\n' ∈ text
  · simp [hfeed]
  · simp [hfeed, lastLine_of_not_mem hfeed]
    omega

theorem Lexing.ofPieces_behind (front text : List Char) (pieces : List Piece) :
    ofPieces (Position.first.past (front ++ text)) pieces =
      (ofPieces (Position.first.past text) pieces).behind front := by
  induction pieces generalizing text with
  | nil => rfl
  | cons piece pieces ih =>
      rw [ofPieces, ofPieces, ← Position.past_append, ← Position.past_append, List.append_assoc,
        ih, Position.spanOf_behind, cons_behind]

/-! ## Blanks in front of a text -/

theorem ofPieces_blanks {gap : List Char} (hgap : ∀ c ∈ gap, isBlank c = true) (p : Position)
    (rest : List Char) :
    Lexing.ofPieces p (pieces (gap ++ rest)) = Lexing.ofPieces (p.past gap) (pieces rest) := by
  have hrun : ∀ (run text : List Char) (q : Position), (∀ c ∈ run, isBlank c = true) →
      text.head?.any isBlank = false →
      Lexing.ofPieces q (pieces (run ++ text)) = Lexing.ofPieces (q.past run) (pieces text) := by
    intro run text q hblank htext
    cases run with
    | nil => rfl
    | cons c run =>
        rw [List.cons_append, pieces_of_isBlank hblank htext]
        rfl
  have hfront : ∀ c ∈ rest.takeWhile isBlank, isBlank c = true :=
    fun c hc => List.mem_takeWhile_imp hc
  have hback := head?_dropWhile isBlank rest
  conv_lhs => rw [← List.takeWhile_append_dropWhile (p := isBlank) (l := rest)]
  conv_rhs => rw [← List.takeWhile_append_dropWhile (p := isBlank) (l := rest)]
  rw [← List.append_assoc, hrun _ _ p (List.forall_mem_append.mpr ⟨hgap, hfront⟩) hback,
    hrun _ _ (p.past gap) hfront hback, Position.past_append]

theorem ofPieces_of_blank {text : List Char} (h : ∀ c ∈ text, isBlank c = true) (p : Position) :
    Lexing.ofPieces p (pieces text) = ⟨[], []⟩ := by
  have hblank := ofPieces_blanks h p []
  rw [List.append_nil, pieces_nil] at hblank
  exact hblank

/-! ## The place where two texts meet -/

namespace Lexing

/-- No token runs across the offset. -/
def PartsAt (lexing : Lexing) (offset : Nat) : Prop :=
  ∀ token ∈ lexing.tokens, ¬ (token.span.start < offset ∧ offset < token.span.stop)

instance decidablePartsAt (lexing : Lexing) (offset : Nat) : Decidable (lexing.PartsAt offset) :=
  inferInstanceAs (Decidable (∀ token ∈ lexing.tokens, _))

private theorem PartsAt.of_cons {piece : Piece} {span : Span} {lexing : Lexing} {offset : Nat}
    (h : (cons piece span lexing).PartsAt offset) : lexing.PartsAt offset := by
  intro token htoken
  cases piece with
  | skipped | stray => exact h token htoken
  | word => exact h token (List.mem_cons_of_mem _ htoken)

private theorem not_partsAt_cons_word {p : Position} {front more : List Char} (hfront : front ≠ [])
    (hmore : more ≠ []) (kind : Kind) (lexing : Lexing) :
    ¬ (cons (.word kind (front ++ more)) (p.spanOf (front ++ more)) lexing).PartsAt
      (p.offset + byteSize front) := by
  intro h
  have hsize : byteSize front ≠ 0 ∧ byteSize more ≠ 0 := by simp [hfront, hmore]
  refine h _ List.mem_cons_self ?_
  simp only [Position.spanOf, Position.offset_past, byteSize_append]
  omega

theorem cons_append (piece : Piece) (span : Span) (a b : Lexing) :
    (cons piece span a).append b = cons piece span (a.append b) := by
  cases piece <;> rfl

private theorem ofPieces_cons_append {p : Position} {piece : Piece} {word text : List Char}
    {a b both : List Piece} (hword : piece.text = word)
    (h : ofPieces (p.past word) both =
      (ofPieces (p.past word) a).append (ofPieces ((p.past word).past text) b)) :
    ofPieces p (piece :: both) =
      (ofPieces p (piece :: a)).append (ofPieces (p.past (word ++ text)) b) := by
  rw [ofPieces, hword, h, ofPieces, hword, cons_append, Position.past_append]

end Lexing

private theorem ofPieces_append_of_across {p : Position} {front more rest : List Char}
    {entry : Entry} (h : classify? (front ++ (more ++ rest)) = some (entry, ⟨front ++ more, rest⟩))
    (hfront : front ≠ []) (hmore : more ≠ [])
    (hparts : (Lexing.ofPieces p (pieces (front ++ (more ++ rest)))).PartsAt
      (p.offset + byteSize front)) :
    Lexing.ofPieces p (pieces (front ++ (more ++ rest))) =
      (Lexing.ofPieces p (pieces front)).append
        (Lexing.ofPieces (p.past front) (pieces (more ++ rest))) := by
  cases hkind : entry.kind? with
  | some kind =>
      rw [pieces_of_classify? h, Piece.ofWord, hkind] at hparts
      exact absurd hparts (Lexing.not_partsAt_cons_word hfront hmore kind _)
  | none =>
      obtain ⟨hentry, hcut⟩ := cut?_of_classify? h
      have hsort := isBlank_of_accepts hentry (Entry.accepts_of_cut? hcut)
      rw [hkind] at hsort
      have hblank := (List.forall_mem_append.mp hsort).1
      rw [ofPieces_blanks hblank, ofPieces_of_blank hblank]
      rfl

theorem ofPieces_pieces_append (p : Position) (a b : List Char)
    (h : (Lexing.ofPieces p (pieces (a ++ b))).PartsAt (p.offset + byteSize a)) :
    Lexing.ofPieces p (pieces (a ++ b)) =
      (Lexing.ofPieces p (pieces a)).append (Lexing.ofPieces (p.past a) (pieces b)) := by
  generalize htext : a ++ b = text at h ⊢
  fun_induction pieces text generalizing a p with
  | case1 =>
      obtain ⟨rfl, rfl⟩ := List.append_eq_nil_iff.mp htext
      rw [pieces_nil]
      rfl
  | case2 c rest entry cut hclassify _ ih =>
      have hcut := append_of_classify? hclassify
      obtain ⟨word, after⟩ := cut
      by_cases hle : word.length ≤ a.length
      · obtain ⟨more, rfl⟩ : word <+: a :=
          List.prefix_of_prefix_length_le ⟨after, hcut⟩ ⟨b, htext⟩ hle
        obtain rfl : after = more ++ b := by
          rw [← htext, List.append_assoc] at hcut
          exact List.append_cancel_left hcut
        rw [← hcut] at hclassify
        rw [pieces_of_classify? (classify?_of_append hclassify)]
        refine Lexing.ofPieces_cons_append (Piece.text_ofWord _ _) (ih _ _ rfl ?_)
        have hparts := h.of_cons
        rwa [Piece.text_ofWord, ← Position.offset_past_append] at hparts
      · obtain ⟨more, rfl⟩ : a <+: word :=
          List.prefix_of_prefix_length_le ⟨b, htext⟩ ⟨after, hcut⟩ (by omega)
        obtain rfl : b = more ++ after := by
          rw [← htext, List.append_assoc] at hcut
          exact (List.append_cancel_left hcut).symm
        rw [← pieces_of_classify? hclassify, ← htext] at h ⊢
        rw [← htext] at hclassify
        cases a with
        | nil =>
            rw [pieces_nil]
            rfl
        | cons d a =>
            have hmore : more ≠ [] := by
              rintro rfl
              simp at hle
            exact ofPieces_append_of_across hclassify (List.cons_ne_nil d a) hmore h
  | case3 c rest hclassify ih =>
      cases a with
      | nil =>
          rw [← pieces_of_classify?_eq_none hclassify, ← htext, pieces_nil]
          rfl
      | cons d more =>
          obtain ⟨rfl, rfl⟩ : d = c ∧ more ++ b = rest := List.cons.inj htext
          rw [pieces_of_classify?_eq_none (classify?_eq_none_of_append hclassify)]
          refine Lexing.ofPieces_cons_append rfl (ih _ _ rfl ?_)
          have hparts := h.of_cons
          rwa [← List.singleton_append, ← Position.offset_past_append] at hparts

/-- Where no token runs across the place at which two texts meet, the lexing of both is that of
the first, followed by that of the second as it is behind the first. -/
theorem lex_append (a b : String) (h : (lex (a ++ b)).PartsAt (byteSize a.toList)) :
    lex (a ++ b) = (lex a).append ((lex b).behind a.toList) := by
  have hmoved := Lexing.ofPieces_behind a.toList [] (pieces b.toList)
  rw [List.append_nil] at hmoved
  have hfirst : Position.first.offset + byteSize a.toList = byteSize a.toList := Nat.zero_add _
  rw [lex, String.toList_append] at h ⊢
  rw [ofPieces_pieces_append _ _ _ (by rwa [hfirst]), hmoved]
  rfl

theorem lex_append_in_blanks :
    (lex ("x =\n  " ++ " 1 #\n y")).PartsAt (byteSize "x =\n  ".toList) ∧
      lex ("x =\n  " ++ " 1 #\n y") =
        (lex "x =\n  ").append ((lex " 1 #\n y").behind "x =\n  ".toList) := by
  have hparts : (lex ("x =\n  " ++ " 1 #\n y")).PartsAt (byteSize "x =\n  ".toList) := by
    decide +kernel
  exact ⟨hparts, lex_append _ _ hparts⟩

end Scriptlet
