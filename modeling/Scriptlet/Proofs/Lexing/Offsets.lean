import Scriptlet.Proofs.Lexing.Segments
import Scriptlet.Proofs.Lexing.Tiling

/-!
# Scanning by offsets

A scanner keeps the text as it is and a cursor that counts bytes.  In each round
it cuts the text at the cursor, asks the entries of the catalog how many bytes
they take there, and moves past them, or past one character if no entry applies.
It would go wrong if it cut inside a character or out of range, or found no
character where one must be.  It never does: each round reads one piece of the
text, so that the cursor moves from one place between characters to another, and
there are at most as many rounds as characters.
-/

namespace Scriptlet

open Lexicon

/-! ## Slices -/

/-- What a scanner must not do: cut where there is no place between characters, or go on from a
character that is not there. -/
inductive Fault where
  | badSlice (start stop : Nat)
  | noCharacter
  deriving DecidableEq, Repr

@[simp] theorem ok_bind {ε α β : Type} (a : α) (next : α → Except ε β) :
    (Except.ok a >>= next) = next a := rfl

def slice (start stop : Nat) (text : List Char) : Except Fault (List Char) :=
  match Excerpt.slice? start stop text with
  | some piece => .ok piece
  | none => .error (.badSlice start stop)

theorem slice_eq_ok_iff {start stop : Nat} {text piece : List Char} :
    slice start stop text = .ok piece ↔ ∃ front rest, text = front ++ (piece ++ rest) ∧
      byteSize front = start ∧ byteSize front + byteSize piece = stop := by
  rw [← Excerpt.slice?_eq_some_iff]
  unfold slice
  cases Excerpt.slice? start stop text <;> simp

theorem slice_rest (front rest : List Char) :
    slice (byteSize front) (byteSize (front ++ rest)) (front ++ rest) = .ok rest :=
  slice_eq_ok_iff.mpr ⟨front, [], by simp⟩

theorem exists_slice_iff {start stop : Nat} {text : List Char} :
    (∃ piece, slice start stop text = .ok piece) ↔
      start ≤ stop ∧ IsBoundary text start ∧ IsBoundary text stop := by
  constructor
  · rintro ⟨piece, h⟩
    obtain ⟨front, rest, rfl, rfl, rfl⟩ := slice_eq_ok_iff.mp h
    refine ⟨Nat.le_add_right _ _, ⟨front, _, rfl, rfl⟩, front ++ piece, rest, ?_, ?_⟩
    · rw [List.append_assoc]
    · rw [byteSize_append]
  · rintro ⟨hle, ⟨front, rest, rfl, rfl⟩, longer, more, htext, rfl⟩
    obtain ⟨piece, rfl⟩ := isPrefix_of_byteSize_le ⟨rest, rfl⟩ ⟨more, htext.symm⟩ hle
    refine ⟨piece, slice_eq_ok_iff.mpr ⟨front, more, ?_, rfl, ?_⟩⟩
    · rw [htext, List.append_assoc]
    · rw [byteSize_append]

/-! ## Sizes of words -/

namespace Lexicon

/-- How many bytes the entry takes at the front of the text.  Where the word must be closed, the
text behind it is looked at. -/
def Entry.width (entry : Entry) (text : List Char) : Except Fault (Option Nat) :=
  match entry.pattern.split? text with
  | none => .ok none
  | some (word, _) =>
      if byteSize word = 0 then .ok none
      else if entry.wordBoundary then do
        let behind ← slice (byteSize word) (byteSize text) text
        .ok (if continues behind then none else some (byteSize word))
      else .ok (some (byteSize word))

theorem Entry.width_eq (entry : Entry) (text : List Char) :
    entry.width text = .ok ((entry.cut? text).map Cut.size) := by
  unfold width cut?
  cases hsplit : entry.pattern.split? text with
  | none => rfl
  | some found =>
      obtain ⟨word, rest⟩ := found
      obtain rfl := Pattern.append_of_split? hsplit
      simp only [slice_rest, ok_bind, byteSize_eq_zero_iff]
      by_cases hword : word = []
      · simp [hword]
      · cases entry.wordBoundary <;> cases continues rest <;> simp [hword, Cut.size]

def firstWidth (text : List Char) : List Entry → Except Fault (Option (Entry × Nat))
  | [] => .ok none
  | entry :: entries => do
      match ← entry.width text with
      | some size => .ok (some (entry, size))
      | none => firstWidth text entries

theorem firstWidth_eq (text : List Char) (entries : List Entry) :
    firstWidth text entries = .ok ((entries.findSome? fun entry =>
      (entry.cut? text).map fun cut => (entry, cut)).map fun found => (found.1, found.2.size)) := by
  induction entries with
  | nil => rfl
  | cons entry entries ih =>
      rw [firstWidth, entry.width_eq, ok_bind, List.findSome?_cons]
      cases entry.cut? text with
      | none => exact ih
      | some cut => rfl

end Lexicon

/-! ## The scanner -/

structure Scanner where
  position : Position
  found : Lexing
  deriving DecidableEq, Repr

namespace Scanner

def start : Scanner :=
  ⟨.first, ⟨[], []⟩⟩

def advance (text : List Char) (p : Position) (size : Nat) : Except Fault (Span × Position) := do
  let passed ← slice p.offset (p.offset + size) text
  .ok (⟨p.offset, p.offset + size, p.line, p.column⟩,
    ⟨p.offset + size, (p.past passed).line, (p.past passed).column⟩)

def round (text : List Char) (s : Scanner) : Except Fault Scanner := do
  let rest ← slice s.position.offset (byteSize text) text
  match ← firstWidth rest catalog with
  | some (entry, size) =>
      let (span, position) ← advance text s.position size
      match entry.kind? with
      | none => .ok ⟨position, s.found⟩
      | some kind =>
          let lexeme ← slice span.start span.stop text
          .ok ⟨position, s.found.append ⟨[⟨kind, String.ofList lexeme, span⟩], []⟩⟩
  | none =>
      match rest with
      | [] => .error .noCharacter
      | c :: _ =>
          let (span, position) ← advance text s.position c.utf8Size
          .ok ⟨position, s.found.append ⟨[], [.unrecognizedCharacter c span]⟩⟩

/-- The scanner can be reached in this number of rounds, each of which began before the end. -/
inductive Reaches (text : List Char) : Nat → Scanner → Prop
  | start : Reaches text 0 start
  | round {n s t} : Reaches text n s → s.position.offset < byteSize text →
      s.round text = .ok t → Reaches text (n + 1) t

/-! ## One round reads one piece -/

section Round

variable {front rest : List Char} {p : Position}

theorem advance_eq (hp : p.offset = byteSize front) (word rest : List Char) :
    advance (front ++ (word ++ rest)) p (byteSize word) = .ok (p.spanOf word, p.past word) := by
  have hslice : slice p.offset (p.offset + byteSize word) (front ++ (word ++ rest)) = .ok word :=
    slice_eq_ok_iff.mpr ⟨front, rest, rfl, hp.symm, by rw [hp]⟩
  rw [advance, hslice, ok_bind, Position.spanOf, Position.offset_past, ← Position.offset_past]

private theorem round_word (hp : p.offset = byteSize front) {entry : Entry} {cut : Cut}
    (h : classify? rest = some (entry, cut)) (found : Lexing) :
    round (front ++ rest) ⟨p, found⟩ = .ok ⟨p.past cut.word,
      found.append (.ofPieces p [.ofWord entry cut.word])⟩ := by
  have hfirst : firstWidth rest catalog = .ok (some (entry, byteSize cut.word)) := by
    rw [firstWidth_eq, ← classify?, h]
    rfl
  obtain ⟨word, rest'⟩ := cut
  obtain rfl : word ++ rest' = rest := append_of_classify? h
  have hlexeme : slice (p.spanOf word).start (p.spanOf word).stop (front ++ (word ++ rest')) =
      .ok word := by
    refine slice_eq_ok_iff.mpr ⟨front, rest', rfl, hp.symm, ?_⟩
    rw [Position.spanOf, Position.offset_past, hp]
  have hrest := slice_rest front (word ++ rest')
  rw [← hp] at hrest
  simp only [round, hrest, hfirst, advance_eq hp, ok_bind, Piece.ofWord]
  cases entry.kind? with
  | none => simp [Lexing.append, Lexing.ofPieces, Lexing.cons]
  | some kind =>
      simp only [hlexeme, ok_bind]
      rfl

private theorem round_stray (hp : p.offset = byteSize front) {c : Char}
    (h : classify? (c :: rest) = none) (found : Lexing) :
    round (front ++ c :: rest) ⟨p, found⟩ = .ok ⟨p.past [c],
      found.append (.ofPieces p [.stray c])⟩ := by
  have hfirst : firstWidth (c :: rest) catalog = .ok none := by
    rw [firstWidth_eq, ← classify?, h]
    rfl
  have hrest := slice_rest front (c :: rest)
  rw [← hp] at hrest
  have hadvance : advance (front ++ c :: rest) p c.utf8Size = .ok (p.spanOf [c], p.past [c]) :=
    advance_eq hp [c] rest
  simp only [round, hrest, hfirst, hadvance, ok_bind]
  rfl

theorem exists_round (hp : p.offset = byteSize front) (hrest : rest ≠ []) (found : Lexing) :
    ∃ piece behind, rest = piece.text ++ behind ∧ piece.text ≠ [] ∧
      pieces rest = piece :: pieces behind ∧
      round (front ++ rest) ⟨p, found⟩ =
        .ok ⟨p.past piece.text, found.append (.ofPieces p [piece])⟩ := by
  cases hclassify : classify? rest with
  | some selected =>
      obtain ⟨entry, cut⟩ := selected
      have hword := Entry.word_ne_nil_of_cut? (cut?_of_classify? hclassify).2
      refine ⟨.ofWord entry cut.word, cut.rest, ?_, ?_, pieces_of_classify? hclassify, ?_⟩
      · rw [Piece.text_ofWord, append_of_classify? hclassify]
      · rwa [Piece.text_ofWord]
      · rw [Piece.text_ofWord]
        exact round_word hp hclassify found
  | none =>
      obtain ⟨c, behind, rfl⟩ := List.exists_cons_of_ne_nil hrest
      exact ⟨.stray c, behind, rfl, List.cons_ne_nil c [],
        pieces_of_classify?_eq_none hclassify, round_stray hp hclassify found⟩

end Round

/-! ## All rounds -/

/-- After `n` rounds the scanner stands between the two parts of the text, and has found in the
first what its pieces make. -/
structure StandsAt (text front rest : List Char) (n : Nat) (s : Scanner) : Prop where
  text_eq : text = front ++ rest
  position_eq : s.position = .past .first front
  rounds_le : n ≤ front.length
  found_le : s.found.tokens.length + s.found.errors.length ≤ n
  found_append :
    s.found.append (.ofPieces s.position (pieces rest)) = .ofPieces .first (pieces text)

section StandsAt

variable {text front rest : List Char} {n : Nat} {s t : Scanner}

theorem standsAt_start (text : List Char) : StandsAt text [] text 0 start where
  text_eq := rfl
  position_eq := rfl
  rounds_le := Nat.le_refl _
  found_le := Nat.le_refl _
  found_append := rfl

theorem StandsAt.offset_eq (h : StandsAt text front rest n s) :
    s.position.offset = byteSize front := by
  rw [h.position_eq, Position.offset_past]
  exact Nat.zero_add _

theorem StandsAt.ne_nil_iff (h : StandsAt text front rest n s) :
    rest ≠ [] ↔ s.position.offset < byteSize text := by
  have hsize : rest ≠ [] ↔ byteSize rest ≠ 0 := byteSize_eq_zero_iff.not.symm
  rw [hsize, h.offset_eq, h.text_eq, byteSize_append]
  omega

private theorem length_ofPieces_singleton (p : Position) (piece : Piece) :
    (Lexing.ofPieces p [piece]).tokens.length + (Lexing.ofPieces p [piece]).errors.length ≤ 1 := by
  cases piece <;> simp [Lexing.ofPieces, Lexing.cons]

theorem StandsAt.round (h : StandsAt text front rest n s) (hrest : rest ≠ []) :
    ∃ word behind t, word ≠ [] ∧ rest = word ++ behind ∧ s.round text = .ok t ∧
      StandsAt text (front ++ word) behind (n + 1) t := by
  obtain ⟨piece, behind, rfl, hword, hpieces, hround⟩ := exists_round h.offset_eq hrest s.found
  have hlength := List.length_pos_iff.mpr hword
  have hone := length_ofPieces_singleton s.position piece
  have hrounds := h.rounds_le
  have hfound := h.found_le
  refine ⟨piece.text, behind, _, hword, rfl, h.text_eq ▸ hround, ?_⟩
  constructor
  case text_eq => rw [h.text_eq, List.append_assoc]
  case position_eq => rw [h.position_eq, Position.past_append]
  case rounds_le =>
    rw [List.length_append]
    omega
  case found_le =>
    simp only [Lexing.append, List.length_append]
    omega
  case found_append =>
    have hnext := Lexing.ofPieces_append s.position [piece] (pieces behind)
    rw [List.singleton_append, List.flatMap_singleton] at hnext
    rw [← h.found_append, hpieces, hnext, Lexing.append_assoc]

theorem Reaches.standsAt (h : Reaches text n s) : ∃ front rest, StandsAt text front rest n s := by
  induction h with
  | start => exact ⟨[], text, standsAt_start text⟩
  | @round n s t _ hbefore hround ih =>
      obtain ⟨front, rest, hs⟩ := ih
      obtain ⟨word, behind, next, -, -, hnext, ht⟩ := hs.round (hs.ne_nil_iff.mpr hbefore)
      obtain rfl : next = t := Except.ok.inj (hnext.symm.trans hround)
      exact ⟨front ++ word, behind, ht⟩

theorem StandsAt.exists_last (h : StandsAt text front rest n s) (hreached : Reaches text n s) :
    ∃ m last, Reaches text m last ∧ StandsAt text text [] m last := by
  induction hlength : rest.length using Nat.strong_induction_on generalizing front rest n s with
  | _ k ih =>
      by_cases hrest : rest = []
      · subst hrest
        obtain rfl : text = front := by simpa using h.text_eq
        exact ⟨n, s, hreached, h⟩
      · obtain ⟨word, behind, t, hword, rfl, hround, ht⟩ := h.round hrest
        have hshorter : behind.length < k := by
          have hpos := List.length_pos_iff.mpr hword
          rw [List.length_append] at hlength
          omega
        exact ih _ hshorter ht (.round hreached (h.ne_nil_iff.mp hrest) hround) rfl

end StandsAt

def MovesPast (text : List Char) (s t : Scanner) : Prop :=
  ∃ front word rest, text = front ++ (word ++ rest) ∧ word ≠ [] ∧
    s.position.offset = byteSize front ∧ t.position.offset = byteSize (front ++ word)

/-- What holds of a scanner after `n` rounds: it stands between characters, it has found no more
than one thing in a round, and if it is in front of the end, the next round moves on without a
fault. -/
structure Progresses (text : List Char) (n : Nat) (s : Scanner) : Prop where
  isBoundary : IsBoundary text s.position.offset
  offset_le : s.position.offset ≤ byteSize text
  rounds_le : n ≤ text.length
  found_le : s.found.tokens.length + s.found.errors.length ≤ n
  exists_next : s.position.offset < byteSize text → ∃ t, s.round text = .ok t ∧ MovesPast text s t

theorem StandsAt.progresses {text front rest : List Char} {n : Nat} {s : Scanner}
    (h : StandsAt text front rest n s) : Progresses text n s where
  isBoundary := ⟨front, rest, h.text_eq, h.offset_eq.symm⟩
  offset_le := by
    rw [h.offset_eq, h.text_eq, byteSize_append]
    exact Nat.le_add_right _ _
  rounds_le := by
    rw [h.text_eq, List.length_append]
    exact Nat.le_add_right_of_le h.rounds_le
  found_le := h.found_le
  exists_next hbefore := by
    obtain ⟨word, behind, t, hword, rfl, hround, ht⟩ := h.round (h.ne_nil_iff.mpr hbefore)
    exact ⟨t, hround, front, word, behind, h.text_eq, hword, h.offset_eq, ht.offset_eq⟩

/-- Slices are faults unless they are in range, in order and between characters, and no round has a
fault: each moves over one character at least, so that the end is reached in no more rounds than
there are characters, with all that the text is read as. -/
theorem scanner_progresses (source : String) :
    (∀ start stop text, (∃ piece, slice start stop text = .ok piece) ↔
      start ≤ stop ∧ IsBoundary text start ∧ IsBoundary text stop) ∧
    (∀ n s, Reaches source.toList n s → Progresses source.toList n s) ∧
    (∃ n last, Reaches source.toList n last ∧ n ≤ source.length ∧
      last.position.offset = byteSize source.toList ∧ last.found = lex source) ∧
    (lex source).tokens.length + (lex source).errors.length ≤ source.length := by
  obtain ⟨n, last, hreached, hlast⟩ := (standsAt_start source.toList).exists_last .start
  have hfound : last.found = lex source := by
    have happend := hlast.found_append
    simp only [pieces_nil, Lexing.ofPieces, Lexing.append, List.append_nil] at happend
    exact happend
  have hrounds : n ≤ source.length := source.length_toList ▸ hlast.rounds_le
  refine ⟨fun _ _ _ => exists_slice_iff, ?progress, ?finish, ?count⟩
  case progress =>
    intro m s hs
    obtain ⟨front, rest, hstands⟩ := hs.standsAt
    exact hstands.progresses
  case finish => exact ⟨n, last, hreached, hrounds, hlast.offset_eq, hfound⟩
  case count => exact hfound ▸ hlast.found_le.trans hrounds

theorem scanner_progresses_past_wide :
    ∃ s, s.position = ⟨5, 1, 3⟩ ∧ Reaches "é\u3000True".toList 2 s ∧
      Progresses "é\u3000True".toList 2 s := by
  let error := Diagnostic.unrecognizedCharacter 'é' ⟨0, 2, 1, 1⟩
  have hfirst : Reaches "é\u3000True".toList 1 ⟨⟨2, 1, 2⟩, ⟨[], [error]⟩⟩ :=
    .round .start (by decide +kernel) (by decide +kernel)
  have hsecond : Reaches "é\u3000True".toList 2 ⟨⟨5, 1, 3⟩, ⟨[], [error]⟩⟩ :=
    .round hfirst (by decide +kernel) (by decide +kernel)
  exact ⟨_, rfl, hsecond, (scanner_progresses _).2.1 2 _ hsecond⟩

end Scanner

end Scriptlet
