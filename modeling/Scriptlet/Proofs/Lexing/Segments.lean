import Mathlib.Data.List.SplitBy
import Mathlib.Data.Nat.Init
import Scriptlet.Lexing
import Scriptlet.Proofs.Lexicon.Classification

/-!
# Segments

What a text reads as can be told without moving through it.  The text falls
into segments: runs of blanks, runs of identifier characters, runs of a
character that makes an operator when it is doubled, and every other character
for itself.  A segment reads as it does alone, whatever stands around it, and
the segments only have to be placed one after the other.
-/

namespace Scriptlet

open Lexicon

/-! ## Segments and their readings -/

def joins (a b : Char) : Bool :=
  (isBlank a && isBlank b) || (isIdentifierChar a && isIdentifierChar b) ||
    (a == b && (double? a).isSome)

def segments (text : List Char) : List (List Char) :=
  text.splitBy joins

namespace Piece

def single (c : Char) : Piece :=
  match single? c with
  | some kind => .word kind [c]
  | none => .stray c

def name (word : List Char) : Piece :=
  if word = ['T', 'r', 'u', 'e'] ∨ word = ['F', 'a', 'l', 's', 'e'] then .word .boolean word
  else .word .identifier word

end Piece

/-- Digits in front make an integer, and what remains a name. -/
def readWord (word : List Char) : List Piece :=
  let digits := word.takeWhile digit.contains
  let rest := word.dropWhile digit.contains
  (if digits = [] then [] else [.word .integer digits]) ++
    (if rest = [] then [] else [.name rest])

/-- A character `n` times over: as many doubled operators as there are, and what is left. -/
def readOperators (c : Char) (n : Nat) : List Piece :=
  match double? c with
  | some kind => List.replicate (n / 2) (.word kind [c, c]) ++ List.replicate (n % 2) (.single c)
  | none => [.single c]

def reading : List Char → List Piece
  | [] => []
  | c :: rest =>
      if isBlank c then []
      else if isIdentifierChar c then readWord (c :: rest)
      else readOperators c (rest.length + 1)

namespace Lexing

def append (a b : Lexing) : Lexing :=
  ⟨a.tokens ++ b.tokens, a.errors ++ b.errors⟩

theorem append_assoc (a b c : Lexing) : (a.append b).append c = a.append (b.append c) := by
  simp [append]

def ofSegments (p : Position) : List (List Char) → Lexing
  | [] => ⟨[], []⟩
  | segment :: rest =>
      (ofPieces p (reading segment)).append (ofSegments (p.past segment) rest)

theorem ofPieces_append (p : Position) (front back : List Piece) :
    ofPieces p (front ++ back) =
      (ofPieces p front).append (ofPieces (p.past (front.flatMap Piece.text)) back) := by
  induction front generalizing p with
  | nil => rfl
  | cons piece front ih =>
      rw [List.cons_append, ofPieces, ih, ofPieces, List.flatMap_cons, Position.past_append]
      cases piece <;> rfl

end Lexing

/-! ## Segments at the front of a text -/

section Front

variable {c : Char} {rest : List Char}

theorem pieces_of_isBlank {tail : List Char} (h : ∀ d ∈ c :: tail, isBlank d = true)
    (hrest : rest.head?.any isBlank = false) :
    pieces (c :: (tail ++ rest)) = .skipped (c :: tail) :: pieces rest := by
  obtain ⟨hc, htail⟩ := List.forall_mem_cons.mp h
  rw [pieces_of_classify? (classify?_of_isBlank hc _), takeWhile_append_of_all htail hrest,
    dropWhile_append_of_all htail hrest]
  rfl

private theorem pieces_of_name {name : List Char} (h : ∀ d ∈ name, isIdentifierChar d = true)
    (hdigit : name.head?.any digit.contains = false) (hrest : continues rest = false) :
    pieces (name ++ rest) = (if name = [] then [] else [.name name]) ++ pieces rest := by
  cases name with
  | nil => rfl
  | cons c tail =>
      obtain ⟨hc, htail⟩ := List.forall_mem_cons.mp h
      rw [if_neg (List.cons_ne_nil c tail), List.singleton_append]
      by_cases htruth : truthValue.pattern.Accepts (c :: tail)
      · rw [pieces_of_classify? (classify?_of_truthValue htruth hrest), Piece.name,
          if_pos (truthValue_pattern_accepts_iff.mp htruth)]
        rfl
      · have hhead := identifierHead_of_not_digit hc hdigit
        rw [List.cons_append,
          pieces_of_classify? (classify?_of_identifier hhead htail hrest htruth), Piece.name,
          if_neg (htruth ∘ truthValue_pattern_accepts_iff.mpr)]
        rfl

theorem pieces_of_word {word : List Char} (h : ∀ d ∈ word, isIdentifierChar d = true)
    (hrest : continues rest = false) :
    pieces (word ++ rest) = readWord word ++ pieces rest := by
  have hname : ∀ d ∈ word.dropWhile digit.contains, isIdentifierChar d = true :=
    fun d hd => h d (List.dropWhile_subset _ hd)
  have hread := pieces_of_name hname (head?_dropWhile _ word) hrest
  have hdigits : rest.head?.any digit.contains = false := by
    cases rest with
    | nil => rfl
    | cons d rest =>
        apply Bool.eq_false_iff.mpr
        intro hd
        exact Bool.eq_false_iff.mp hrest (isIdentifierChar_of_digit hd)
  cases word with
  | nil => exact hread
  | cons c tail =>
      unfold readWord
      by_cases hc : digit.contains c = true
      · rw [List.dropWhile_cons_of_pos hc] at hread
        rw [List.takeWhile_cons_of_pos hc, List.dropWhile_cons_of_pos hc, List.append_assoc,
          ← hread, List.cons_append, pieces_of_classify? (classify?_of_digit hc _),
          takeWhile_append_of_head? hdigits, dropWhile_append_of_head? hdigits]
        rfl
      · rw [List.dropWhile_cons_of_neg hc] at hread
        rw [List.takeWhile_cons_of_neg hc, List.dropWhile_cons_of_neg hc, hread]
        rfl

theorem pieces_of_single (hblank : isBlank c = false) (hword : isIdentifierChar c = false)
    (hrest : (double? c).isSome = true → rest.head? ≠ some c) :
    pieces (c :: rest) = .single c :: pieces rest := by
  have hclassify := classify?_of_single hblank hword hrest
  unfold Piece.single
  cases hsingle : single? c with
  | none =>
      rw [hsingle] at hclassify
      exact pieces_of_classify?_eq_none hclassify
  | some kind =>
      rw [hsingle] at hclassify
      exact pieces_of_classify? hclassify

theorem pieces_of_doubles {kind : Kind} (hdouble : double? c = some kind)
    (hrest : rest.head? ≠ some c) (n : Nat) :
    pieces (List.replicate n c ++ rest) = readOperators c n ++ pieces rest := by
  obtain ⟨hblank, hword⟩ := not_word_of_double? hdouble
  simp only [readOperators, hdouble]
  induction n using Nat.twoStepInduction with
  | zero => rfl
  | one => exact pieces_of_single hblank hword fun _ => hrest
  | more n ih _ =>
      have hhalf : (n + 2) / 2 = n / 2 + 1 := by omega
      have hparity : (n + 2) % 2 = n % 2 := by omega
      rw [hhalf, hparity, List.replicate_succ, List.replicate_succ, List.replicate_succ,
        List.cons_append, List.cons_append, pieces_of_classify? (classify?_of_double? hdouble _),
        ih]
      rfl

end Front

/-! ## What holds a segment together -/

private theorem joins_of_isBlank {a : Char} (h : isBlank a = true) (b : Char) :
    joins a b = isBlank b := by
  have hword : isIdentifierChar a = false := by
    apply Bool.eq_false_iff.mpr
    intro hword
    exact Bool.eq_false_iff.mp (isBlank_eq_false hword) h
  have hdouble : (double? a).isSome = false := by
    cases hkind : double? a with
    | none => rfl
    | some kind => exact absurd h (Bool.eq_false_iff.mp (not_word_of_double? hkind).1)
  simp [joins, h, hword, hdouble]

private theorem joins_of_isIdentifierChar {a : Char} (h : isIdentifierChar a = true) (b : Char) :
    joins a b = isIdentifierChar b := by
  have hdouble : (double? a).isSome = false := by
    cases hkind : double? a with
    | none => rfl
    | some kind => exact absurd h (Bool.eq_false_iff.mp (not_word_of_double? hkind).2)
  simp [joins, h, isBlank_eq_false h, hdouble]

private theorem joins_of_not_word {a : Char} (hblank : isBlank a = false)
    (hword : isIdentifierChar a = false) (b : Char) :
    joins a b = (a == b && (double? a).isSome) := by
  simp [joins, hblank, hword]

/-- The characters of a text that stands in front of another, the two being divided at the
right places. -/
def Divides (segment rest : List Char) : Prop :=
  segment.IsChain (fun a b => joins a b = true) ∧
    ∀ last ∈ segment.getLast?, ∀ next ∈ rest.head?, joins last next = false

theorem Divides.run {p : Char → Bool} (hp : ∀ a b, p a = true → joins a b = p b)
    {c : Char} {tail rest : List Char} (h : Divides (c :: tail) rest) (hc : p c = true) :
    (∀ d ∈ c :: tail, p d = true) ∧ rest.head?.any p = false := by
  have hall : ∀ d ∈ c :: tail, p d = true := by
    refine h.1.induction (fun d => p d = true) _ ?_ fun _ => hc
    intro a b hjoin ha
    rwa [hp a b ha] at hjoin
  refine ⟨hall, ?_⟩
  cases rest with
  | nil => rfl
  | cons next rest =>
      have hlast := List.getLast_mem (List.cons_ne_nil c tail)
      have hapart := h.2 _ (List.getLast?_eq_getLast_of_ne_nil (List.cons_ne_nil c tail)) next rfl
      rwa [hp _ next (hall _ hlast)] at hapart

theorem Divides.doubles {c : Char} {kind : Kind} (hdouble : double? c = some kind)
    {tail rest : List Char} (h : Divides (c :: tail) rest) :
    c :: tail = List.replicate (tail.length + 1) c ∧ rest.head? ≠ some c := by
  obtain ⟨hblank, hword⟩ := not_word_of_double? hdouble
  have hp : ∀ a b, (a == c) = true → joins a b = (b == c) := by
    intro a b ha
    obtain rfl := eq_of_beq ha
    rw [joins_of_not_word hblank hword, hdouble, Option.isSome_some, Bool.and_true, Bool.beq_comm]
  obtain ⟨hall, hrest⟩ := h.run hp (beq_self_eq_true c)
  refine ⟨List.eq_replicate_iff.mpr ⟨rfl, fun d hd => eq_of_beq (hall d hd)⟩, ?_⟩
  intro hhead
  rw [hhead, Option.any_some, beq_self_eq_true] at hrest
  contradiction

theorem Divides.alone {c : Char} (hblank : isBlank c = false)
    (hword : isIdentifierChar c = false) (hdouble : double? c = none)
    {tail rest : List Char} (h : Divides (c :: tail) rest) : tail = [] := by
  cases tail with
  | nil => rfl
  | cons d tail =>
      have hjoin := (List.isChain_cons_cons.mp h.1).1
      rw [joins_of_not_word hblank hword, hdouble, Option.isSome_none, Bool.and_false] at hjoin
      contradiction

theorem pieces_of_divides {segment rest : List Char} (h : Divides segment rest) :
    ∃ block, pieces (segment ++ rest) = block ++ pieces rest ∧
      ∀ p, Lexing.ofPieces p block = Lexing.ofPieces p (reading segment) := by
  cases segment with
  | nil => exact ⟨[], rfl, fun _ => rfl⟩
  | cons c tail =>
      by_cases hblank : isBlank c = true
      · obtain ⟨hall, hrest⟩ := h.run (fun _ b ha => joins_of_isBlank ha b) hblank
        refine ⟨[.skipped (c :: tail)], pieces_of_isBlank hall hrest, fun p => ?_⟩
        rw [reading, if_pos hblank]
        rfl
      · by_cases hword : isIdentifierChar c = true
        · obtain ⟨hall, hrest⟩ := h.run (fun _ b ha => joins_of_isIdentifierChar ha b) hword
          refine ⟨_, pieces_of_word hall hrest, fun p => ?_⟩
          rw [reading, if_neg hblank, if_pos hword]
        · rw [Bool.not_eq_true] at hblank hword
          have hreading : reading (c :: tail) = readOperators c (tail.length + 1) := by
            rw [reading, hblank, hword]
            rfl
          cases hdouble : double? c with
          | some kind =>
              obtain ⟨hreplicate, hrest⟩ := h.doubles hdouble
              refine ⟨_, ?_, fun p => congrArg (Lexing.ofPieces p) hreading.symm⟩
              rw [hreplicate]
              exact pieces_of_doubles hdouble hrest _
          | none =>
              obtain rfl := h.alone hblank hword hdouble
              refine ⟨[.single c], pieces_of_single hblank hword ?_, fun p => ?_⟩
              · rw [hdouble]
                exact fun hsome => absurd hsome Bool.false_ne_true
              · rw [hreading, readOperators, hdouble]

private theorem text_of_pieces_eq_append {segment rest : List Char} {block : List Piece}
    (h : pieces (segment ++ rest) = block ++ pieces rest) :
    block.flatMap Piece.text = segment := by
  have htext := congrArg (List.flatMap Piece.text) h
  rw [List.flatMap_append, text_pieces, text_pieces] at htext
  exact (List.append_cancel_right htext).symm

theorem Lexing.ofPieces_flatten {segments : List (List Char)} (hne : [] ∉ segments)
    (hchain : ∀ segment ∈ segments, segment.IsChain fun a b => joins a b = true)
    (hapart : segments.IsChain fun a b => ∃ ha hb, joins (a.getLast ha) (b.head hb) = false)
    (p : Position) :
    ofPieces p (pieces segments.flatten) = ofSegments p segments := by
  induction segments generalizing p with
  | nil =>
      rw [List.flatten_nil, pieces_nil]
      rfl
  | cons segment segments ih =>
      rw [List.mem_cons, not_or] at hne
      obtain ⟨hsegment, hsegments⟩ := List.forall_mem_cons.mp hchain
      have hdivides : Divides segment segments.flatten := by
        refine ⟨hsegment, fun last hlast next hnext => ?_⟩
        cases segments with
        | nil => contradiction
        | cons following more =>
            obtain ⟨ha, hb, hfalse⟩ := (List.isChain_cons_cons.mp hapart).1
            rw [List.flatten_cons, List.head?_append_of_ne_nil _ hb] at hnext
            rwa [List.getLast_of_mem_getLast? hlast, List.head_of_mem_head? hnext] at hfalse
      obtain ⟨block, hpieces, hblock⟩ := pieces_of_divides hdivides
      rw [List.flatten_cons, hpieces, ofPieces_append, hblock, text_of_pieces_eq_append hpieces,
        ih hne.2 hsegments hapart.tail]
      rfl

theorem lex_eq_ofSegments (source : String) :
    lex source = .ofSegments .first (segments source.toList) := by
  have hflatten := List.flatten_splitBy joins source.toList
  rw [lex]
  conv_lhs => rw [← hflatten]
  exact Lexing.ofPieces_flatten (List.nil_notMem_splitBy _ _)
    (fun _ => List.isChain_of_mem_splitBy) (List.isChain_getLast_head_splitBy _ _) _

end Scriptlet
