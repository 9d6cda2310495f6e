import Scriptlet.Proofs.Lexing.Concatenation

/-!
# Printing words

A list of words can be written as a text from which lexing gives it back: with
blanks between the words, as many as one likes.  It takes that each word read
alone is a word of its kind, all of it (`Spells`); and the tokens of a text are
all of this sort, so that they can be printed again.
-/

namespace Scriptlet

open Lexicon

/-! ## Words that read alone as they are meant -/

/-- Classified alone, the lexeme is a word of the kind, all of it. -/
def Spells (kind : Kind) (lexeme : String) : Prop :=
  (classify? lexeme.toList).map (fun found => (found.1, found.2.size)) =
    (entryFor? kind).map (fun entry => (entry, byteSize lexeme.toList))

instance decidableSpells (kind : Kind) (lexeme : String) : Decidable (Spells kind lexeme) :=
  inferInstanceAs (Decidable (_ = _))

private theorem entryFor?_of_mem_catalog :
    ∀ entry ∈ catalog, ∀ kind ∈ entry.kind?, entryFor? kind = some entry := by
  decide

private theorem kind?_of_entryFor? {kind : Kind} {entry : Entry} (h : entryFor? kind = some entry) :
    entry.kind? = some kind := by
  simpa using List.find?_some h

theorem spells_iff {kind : Kind} {lexeme : String} :
    Spells kind lexeme ↔ ∃ entry, entry.kind? = some kind ∧
      classify? lexeme.toList = some (entry, ⟨lexeme.toList, []⟩) := by
  constructor
  · intro h
    obtain ⟨entry, hentry⟩ := Option.isSome_iff_exists.mp (entryFor?_isSome kind)
    rw [Spells, hentry, Option.map_some, Option.map_eq_some_iff] at h
    obtain ⟨⟨found, cut⟩, hclassify, heq⟩ := h
    obtain ⟨rfl, hsize⟩ := Prod.mk.inj heq
    have hcut : cut = ⟨lexeme.toList, []⟩ :=
      Cut.eq_of_size_eq (append_of_classify? hclassify) (List.append_nil _) hsize
    exact ⟨found, kind?_of_entryFor? hentry, hcut ▸ hclassify⟩
  · rintro ⟨entry, hkind, hclassify⟩
    have hentry := entryFor?_of_mem_catalog entry (cut?_of_classify? hclassify).1 kind hkind
    rw [Spells, hclassify, hentry]
    rfl

/-! ## Words of a text -/

theorem Spells.pieces {kind : Kind} {lexeme : String} (h : Spells kind lexeme)
    {rest : List Char} (hrest : ∀ c ∈ rest.head?, isBlank c = true) :
    pieces (lexeme.toList ++ rest) = .word kind lexeme.toList :: pieces rest := by
  obtain ⟨entry, hkind, halone⟩ := spells_iff.mp h
  have hclassify : classify? (lexeme.toList ++ []) = some (entry, ⟨lexeme.toList, []⟩) := by
    rwa [List.append_nil]
  have hfollowed : classify? (lexeme.toList ++ rest) = some (entry, ⟨lexeme.toList, rest⟩) := by
    refine classify?_lookahead hclassify fun c hc => .inr ?_
    rw [hkind, hrest c hc]
    rfl
  rw [pieces_of_classify? hfollowed, Piece.ofWord, hkind]

theorem spells_of_mem_pieces {kind : Kind} {word : List Char} (text : List Char)
    (h : .word kind word ∈ pieces text) : Spells kind (String.ofList word) := by
  fun_induction pieces text with
  | case1 => contradiction
  | case2 c rest entry cut hclassify _ ih =>
      rcases List.mem_cons.mp h with hfront | hrest
      · cases hkind : entry.kind? with
        | none =>
            rw [Piece.ofWord, hkind] at hfront
            contradiction
        | some found =>
            rw [Piece.ofWord, hkind] at hfront
            obtain ⟨rfl, rfl⟩ := Piece.word.inj hfront
            have hcut := append_of_classify? hclassify
            rw [← hcut, ← List.nil_append cut.rest] at hclassify
            refine spells_iff.mpr ⟨entry, hkind, ?_⟩
            simpa using classify?_of_append hclassify
      · exact ih hrest
  | case3 c rest hclassify ih =>
      rcases List.mem_cons.mp h with hfront | hrest
      · contradiction
      · exact ih hrest

theorem Lexing.word_mem_of_token_mem {token : Token} (p : Position) {pieces : List Piece}
    (h : token ∈ (ofPieces p pieces).tokens) :
    .word token.kind token.lexeme.toList ∈ pieces := by
  induction pieces generalizing p with
  | nil => contradiction
  | cons piece pieces ih =>
      cases piece with
      | skipped | stray => exact List.mem_cons_of_mem _ (ih _ h)
      | word kind word =>
          rcases List.mem_cons.mp h with rfl | hrest
          · simp
          · exact List.mem_cons_of_mem _ (ih _ hrest)

/-! ## Words set with blanks -/

/-- Blanks to be set around words: some between neighbours, any in front of the first and behind
the last. -/
structure Spacing where
  lead : List Char
  gaps : List (List Char)
  tail : List Char
  lead_blank : ∀ c ∈ lead, isBlank c = true
  gaps_blank : ∀ gap ∈ gaps, gap ≠ [] ∧ ∀ c ∈ gap, isBlank c = true
  tail_blank : ∀ c ∈ tail, isBlank c = true

private theorem head?_interleave {gap : List Char} (hne : gap ≠ [])
    (gaps words : List (List Char)) :
    (interleave (gap :: gaps) words).head? = gap.head? := by
  cases words with
  | nil => rw [interleave, List.flatten_cons, List.head?_append_of_ne_nil _ hne]
  | cons word words => rw [interleave, List.head?_append_of_ne_nil _ hne]

namespace Spacing

def print (spacing : Spacing) (words : List (Kind × String)) : List Char :=
  interleave (spacing.lead :: (spacing.gaps ++ [spacing.tail]))
    (words.map fun word => word.2.toList)

private theorem isBlank_of_mem_print_nil (spacing : Spacing) (h : spacing.gaps = []) :
    ∀ c ∈ spacing.print [], isBlank c = true := by
  intro c hc
  simp only [print, h, List.map_nil, interleave, List.nil_append, List.flatten_cons,
    List.flatten_nil, List.append_nil, List.mem_append] at hc
  exact hc.elim (spacing.lead_blank c) (spacing.tail_blank c)

theorem print_cons (spacing : Spacing) (word : Kind × String) {words : List (Kind × String)}
    (h : spacing.gaps.length = words.length) :
    ∃ next : Spacing, next.gaps.length = words.length - 1 ∧
      spacing.print (word :: words) =
        spacing.lead ++ (word.2.toList ++ next.print words) ∧
      ∀ c ∈ (next.print words).head?, isBlank c = true := by
  obtain ⟨lead, gaps, tail, hlead, hgaps, htail⟩ := spacing
  cases gaps with
  | nil =>
      obtain rfl := List.eq_nil_of_length_eq_zero h.symm
      let next : Spacing := ⟨tail, [], [], htail, List.forall_mem_nil _, List.forall_mem_nil _⟩
      refine ⟨next, rfl, rfl, fun c hc => ?_⟩
      exact next.isBlank_of_mem_print_nil rfl c (List.mem_of_mem_head? hc)
  | cons gap gaps =>
      obtain ⟨⟨hne, hblank⟩, hrest⟩ := List.forall_mem_cons.mp hgaps
      let next : Spacing := ⟨gap, gaps, tail, hblank, hrest, htail⟩
      refine ⟨next, Nat.eq_sub_of_add_eq h, rfl, fun c hc => ?_⟩
      rw [print, head?_interleave hne] at hc
      exact hblank c (List.mem_of_mem_head? hc)

end Spacing

namespace Lexing

def words (lexing : Lexing) : List (Kind × String) :=
  lexing.tokens.map fun token => (token.kind, token.lexeme)

private theorem words_cons (kind : Kind) (word : List Char) (span : Span) (lexing : Lexing) :
    (cons (.word kind word) span lexing).words = (kind, String.ofList word) :: lexing.words := rfl

private theorem errors_cons (kind : Kind) (word : List Char) (span : Span) (lexing : Lexing) :
    (cons (.word kind word) span lexing).errors = lexing.errors := rfl

end Lexing

theorem ofPieces_print {words : List (Kind × String)}
    (hwords : ∀ word ∈ words, Spells word.1 word.2) (spacing : Spacing)
    (hgaps : spacing.gaps.length = words.length - 1) (p : Position) :
    (Lexing.ofPieces p (pieces (spacing.print words))).errors = [] ∧
      (Lexing.ofPieces p (pieces (spacing.print words))).words = words := by
  induction words generalizing spacing p with
  | nil =>
      have hnone := List.eq_nil_of_length_eq_zero hgaps
      rw [ofPieces_of_blank (spacing.isBlank_of_mem_print_nil hnone)]
      exact ⟨rfl, rfl⟩
  | cons word words ih =>
      obtain ⟨hword, hrest⟩ := List.forall_mem_cons.mp hwords
      obtain ⟨next, hnext, hprint, hblank⟩ := spacing.print_cons word hgaps
      obtain ⟨herrors, hread⟩ := ih hrest next hnext
        ((p.past spacing.lead).past word.2.toList)
      rw [hprint, ofPieces_blanks spacing.lead_blank, hword.pieces hblank, Lexing.ofPieces,
        Lexing.errors_cons, Lexing.words_cons, Piece.text, hread, String.ofList_toList]
      exact ⟨herrors, rfl⟩

/-- Words that read alone as they are meant are read so from every text in which they stand with
blanks between them; and the tokens of a text all are such words. -/
theorem lex_print_and_spells :
    (∀ (words : List (Kind × String)) (spacing : Spacing),
      (∀ word ∈ words, Spells word.1 word.2) → spacing.gaps.length = words.length - 1 →
      (lex (String.ofList (spacing.print words))).errors = [] ∧
      (lex (String.ofList (spacing.print words))).words = words) ∧
    ∀ source, ∀ token ∈ (lex source).tokens, Spells token.kind token.lexeme := by
  constructor
  · intro words spacing hwords hgaps
    rw [lex, String.toList_ofList]
    exact ofPieces_print hwords spacing hgaps .first
  · intro source token htoken
    have hspells := spells_of_mem_pieces _ (Lexing.word_mem_of_token_mem _ htoken)
    rwa [String.ofList_toList] at hspells

def truths : List (Kind × String) :=
  [(.assignment, "="), (.equivalence, "=="), (.boolean, "True"), (.identifier, "Truething")]

def wideSpacing : Spacing where
  lead := ['\t']
  gaps := [[' '], ['\u3000'], ['\r', '\n']]
  tail := []
  lead_blank := by simp [isBlank, blankRanges]
  gaps_blank := by simp [isBlank, blankRanges]
  tail_blank := by simp

theorem lex_print_truths :
    (∀ word ∈ truths, Spells word.1 word.2) ∧
      wideSpacing.gaps.length = truths.length - 1 ∧
      (lex (String.ofList (wideSpacing.print truths))).errors = [] ∧
      (lex (String.ofList (wideSpacing.print truths))).words = truths ∧
      ∀ token ∈ (lex "True==").tokens, Spells token.kind token.lexeme := by
  have hwords : ∀ word ∈ truths, Spells word.1 word.2 := by decide +kernel
  have hgaps : wideSpacing.gaps.length = truths.length - 1 := rfl
  obtain ⟨herrors, hread⟩ := lex_print_and_spells.1 truths wideSpacing hwords hgaps
  exact ⟨hwords, hgaps, herrors, hread, lex_print_and_spells.2 "True=="⟩

end Scriptlet
