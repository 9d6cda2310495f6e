import Scriptlet.Lexing
import Scriptlet.Proofs.Lexicon.Classification
import Scriptlet.Source.Excerpt

/-!
# Tiling

The tokens and errors of a text lie side by side over it, in the order of the
text, and between them are only blanks.  `Tiles` says so item by item, with the
position at which each item begins; it follows from the pieces of the text,
each of which is all blank or not blank at all.  So no character is lost and
none is reported twice, and text, gaps and items can be put together again.
-/

namespace Scriptlet

open Lexicon

/-! ## Blank pieces -/

private theorem forall_of_accepts_run {P : Char → Prop} {head tail : CharClass} {word : List Char}
    (h : (Pattern.run head tail).Accepts word) (hhead : ∀ c, head.contains c = true → P c)
    (htail : ∀ c, tail.contains c = true → P c) : ∀ c ∈ word, P c := by
  cases word with
  | nil => exact List.forall_mem_nil P
  | cons c word =>
      refine List.forall_mem_cons.mpr ⟨hhead c h.1, fun d hd => ?_⟩
      exact htail d (h.2 d hd)

private theorem isBlank_of_accepts_operator {kind : Kind} {spelling word : List Char}
    (hspelling : spelling.any isBlank = false)
    (h : (operator kind spelling).pattern.Accepts word) : ∀ c ∈ word, isBlank c = false := by
  obtain rfl : word = spelling := List.mem_singleton.mp h
  intro c hc
  exact Bool.eq_false_iff.mpr (List.any_eq_false.mp hspelling c hc)

theorem isBlank_of_accepts {entry : Entry} (hentry : entry ∈ catalog) {word : List Char}
    (h : entry.pattern.Accepts word) : ∀ c ∈ word, isBlank c = entry.kind?.isNone := by
  have hnot : ∀ c, isIdentifierChar c = true → isBlank c = false := fun _ => isBlank_eq_false
  simp only [catalog, List.mem_cons, List.not_mem_nil, or_false] at hentry
  rcases hentry with rfl | rfl | rfl | rfl | hentry
  · have hblank : ∀ c, CharClass.blank.contains c = true → isBlank c = true := fun _ hc => hc
    exact forall_of_accepts_run h hblank hblank
  · exact fun c hc => hnot c (isIdentifierChar_of_truthValue h c hc)
  · refine forall_of_accepts_run h (fun c hc => ?_) hnot
    exact hnot c (isIdentifierChar_iff.mpr (.inl hc))
  · have hdigit : ∀ c, digit.contains c = true → isBlank c = false :=
      fun c hc => hnot c (isIdentifierChar_of_digit hc)
    exact forall_of_accepts_run h hdigit hdigit
  · rcases hentry with rfl | rfl | rfl | rfl | rfl | rfl | rfl | rfl | rfl
    all_goals exact isBlank_of_accepts_operator (by decide) h

namespace Piece

def isSkipped : Piece → Bool
  | .skipped _ => true
  | .word _ _ => false
  | .stray _ => false

theorem isSkipped_ofWord (entry : Entry) (word : List Char) :
    (ofWord entry word).isSkipped = entry.kind?.isNone := by
  unfold ofWord
  cases entry.kind? <;> rfl

structure WellFormed (piece : Piece) : Prop where
  ne_nil : piece.text ≠ []
  isBlank_eq : ∀ c ∈ piece.text, isBlank c = piece.isSkipped

theorem wellFormed_ofWord {text : List Char} {entry : Entry} {cut : Cut}
    (h : classify? text = some (entry, cut)) : (ofWord entry cut.word).WellFormed := by
  obtain ⟨hentry, hcut⟩ := cut?_of_classify? h
  constructor
  · rw [text_ofWord]
    exact Entry.word_ne_nil_of_cut? hcut
  · rw [text_ofWord, isSkipped_ofWord]
    exact isBlank_of_accepts hentry (Entry.accepts_of_cut? hcut)

theorem wellFormed_stray {c : Char} {rest : List Char} (h : classify? (c :: rest) = none) :
    (stray c).WellFormed := by
  refine ⟨List.cons_ne_nil c [], fun d hd => ?_⟩
  obtain rfl := List.mem_singleton.mp hd
  cases hblank : isBlank d with
  | false => rfl
  | true => simp [classify?_of_isBlank hblank] at h

end Piece

theorem wellFormed_of_mem_pieces (text : List Char) :
    ∀ piece ∈ pieces text, piece.WellFormed := by
  fun_induction pieces text with
  | case1 => exact List.forall_mem_nil _
  | case2 c rest entry cut h _ ih => exact List.forall_mem_cons.mpr ⟨Piece.wellFormed_ofWord h, ih⟩
  | case3 c rest h ih => exact List.forall_mem_cons.mpr ⟨Piece.wellFormed_stray h, ih⟩

/-! ## Tokens and errors together -/

inductive Item where
  | token (token : Token)
  | error (diagnostic : Diagnostic)
  deriving DecidableEq, Repr

namespace Item

def span : Item → Span
  | .token t => t.span
  | .error d => d.span

def text : Item → List Char
  | .token t => t.lexeme.toList
  | .error d =>
      match d.found with
      | .char c => [c]
      | .token _ | .endOfInput => []

def startsBefore (a b : Item) : Bool :=
  a.span.start ≤ b.span.start

end Item

namespace Lexing

/-- Tokens and errors, merged by the places where they start. -/
def items (lexing : Lexing) : List Item :=
  (lexing.tokens.map .token).merge (lexing.errors.map .error) Item.startsBefore

theorem token_mem_items {lexing : Lexing} {token : Token} :
    .token token ∈ lexing.items ↔ token ∈ lexing.tokens := by
  simp [items, List.mem_merge]

theorem error_mem_items {lexing : Lexing} {diagnostic : Diagnostic} :
    .error diagnostic ∈ lexing.items ↔ diagnostic ∈ lexing.errors := by
  simp [items, List.mem_merge]

end Lexing

private theorem merge_cons_left {α : Type} {le : α → α → Bool} {a : α} {xs ys : List α}
    (h : ∀ b ∈ ys, le a b = true) : (a :: xs).merge ys le = a :: xs.merge ys le := by
  cases ys with
  | nil => simp
  | cons b ys => exact List.cons_merge_cons_pos le xs ys (h b List.mem_cons_self)

private theorem merge_cons_right {α : Type} {le : α → α → Bool} {b : α} {xs ys : List α}
    (h : ∀ a ∈ xs, le a b = false) : xs.merge (b :: ys) le = b :: xs.merge ys le := by
  cases xs with
  | nil => simp
  | cons a xs =>
      rw [List.cons_merge_cons, if_neg (Bool.eq_false_iff.mp (h a List.mem_cons_self))]

private theorem sublist_merge {α : Type} (le : α → α → Bool) (xs ys : List α) :
    xs.Sublist (xs.merge ys le) ∧ ys.Sublist (xs.merge ys le) := by
  fun_induction List.merge xs ys le with
  | case1 ys => exact ⟨List.nil_sublist ys, .refl ys⟩
  | case2 xs => exact ⟨.refl xs, List.nil_sublist xs⟩
  | case3 x xs y ys _ ih => exact ⟨ih.1.cons_cons x, ih.2.cons x⟩
  | case4 x xs y ys _ ih => exact ⟨ih.1.cons y, ih.2.cons_cons y⟩

namespace Piece

def item? (p : Position) : Piece → Option Item
  | .skipped _ => none
  | .word kind text => some (.token ⟨kind, String.ofList text, p.spanOf text⟩)
  | .stray c => some (.error (.unrecognizedCharacter c (p.spanOf [c])))

theorem item?_of_isSkipped {piece : Piece} (h : piece.isSkipped = true) (p : Position) :
    piece.item? p = none := by
  cases piece with
  | skipped text => rfl
  | word | stray => contradiction

theorem item?_of_not_isSkipped {piece : Piece} (h : piece.isSkipped = false) (p : Position) :
    ∃ item, piece.item? p = some item ∧ item.text = piece.text ∧
      item.span = p.spanOf piece.text := by
  cases piece with
  | skipped text => contradiction
  | word kind text => exact ⟨_, rfl, String.toList_ofList, rfl⟩
  | stray c => exact ⟨_, rfl, rfl, rfl⟩

end Piece

theorem Lexing.items_cons {p : Position} {piece : Piece} {lexing : Lexing}
    (hfirst : ∀ item ∈ lexing.items, p.offset < item.span.start) :
    (lexing.cons piece (p.spanOf piece.text)).items =
      (piece.item? p).toList ++ lexing.items := by
  cases piece with
  | skipped text => rfl
  | word kind text =>
      refine merge_cons_left fun other hother => ?_
      obtain ⟨d, hd, rfl⟩ := List.mem_map.mp hother
      exact decide_eq_true (Nat.le_of_lt (hfirst _ (error_mem_items.mpr hd)))
  | stray c =>
      refine merge_cons_right fun other hother => ?_
      obtain ⟨t, ht, rfl⟩ := List.mem_map.mp hother
      exact decide_eq_false (Nat.not_le.mpr (hfirst _ (token_mem_items.mpr ht)))

/-! ## Items over a text -/

/-- From `p` on the text consists of blanks and items in turn, each item with the span of its own
text. -/
inductive Tiles : Position → List Char → List Item → Prop
  | blank {p gap} : (∀ c ∈ gap, isBlank c = true) → Tiles p gap []
  | item {p gap item rest items} : (∀ c ∈ gap, isBlank c = true) → item.text ≠ [] →
      (∀ c ∈ item.text, isBlank c = false) → item.span = (p.past gap).spanOf item.text →
      Tiles ((p.past gap).past item.text) rest items →
      Tiles p (gap ++ (item.text ++ rest)) (item :: items)

namespace Tiles

variable {p : Position} {text : List Char} {items : List Item}

theorem skip {gap : List Char} (hgap : ∀ c ∈ gap, isBlank c = true)
    (h : Tiles (p.past gap) text items) : Tiles p (gap ++ text) items := by
  cases h with
  | blank hmore => exact .blank (List.forall_mem_append.mpr ⟨hgap, hmore⟩)
  | item hmore hne hword hspan hrest =>
      rw [← Position.past_append p gap] at hspan hrest
      rw [← List.append_assoc]
      exact .item (List.forall_mem_append.mpr ⟨hgap, hmore⟩) hne hword hspan hrest

theorem exists_front (h : Tiles p text items) : ∀ item ∈ items, ∃ front rest,
    text = front ++ (item.text ++ rest) ∧ item.span = (p.past front).spanOf item.text ∧
      item.text ≠ [] ∧ ∀ c ∈ item.text, isBlank c = false := by
  induction h with
  | blank => exact List.forall_mem_nil _
  | @item p gap item rest items _ hne hword hspan _ ih =>
      refine List.forall_mem_cons.mpr ⟨⟨gap, rest, rfl, hspan, hne, hword⟩, ?_⟩
      intro later hlater
      obtain ⟨front, back, rfl, hlaterspan, hlaterword⟩ := ih later hlater
      refine ⟨gap ++ (item.text ++ front), back, ?_, ?_, hlaterword⟩
      · simp only [List.append_assoc]
      · rw [Position.past_append, Position.past_append]
        exact hlaterspan

theorem offset_le (h : Tiles p text items) : ∀ item ∈ items, p.offset ≤ item.span.start := by
  intro item hitem
  obtain ⟨front, rest, -, hspan, -⟩ := h.exists_front item hitem
  rw [hspan, Position.spanOf, Position.offset_past]
  exact Nat.le_add_right _ _

theorem pairwise (h : Tiles p text items) :
    items.Pairwise fun a b => a.span.stop ≤ b.span.start := by
  induction h with
  | blank => exact .nil
  | item _ _ _ hspan hrest ih =>
      refine .cons (fun later hlater => ?_) ih
      rw [hspan]
      exact hrest.offset_le later hlater

end Tiles

theorem tiles_ofPieces {pieces : List Piece} (hpieces : ∀ piece ∈ pieces, piece.WellFormed)
    (p : Position) :
    Tiles p (pieces.flatMap Piece.text) (Lexing.ofPieces p pieces).items := by
  induction pieces generalizing p with
  | nil =>
      have hnone : (Lexing.ofPieces p []).items = [] := by simp [Lexing.ofPieces, Lexing.items]
      rw [hnone]
      exact .blank (List.forall_mem_nil _)
  | cons piece pieces ih =>
      obtain ⟨⟨hne, hblank⟩, hrest⟩ := List.forall_mem_cons.mp hpieces
      have htiles := ih hrest (p.past piece.text)
      have hfirst : ∀ item ∈ (Lexing.ofPieces (p.past piece.text) pieces).items,
          p.offset < item.span.start := by
        intro item hitem
        have hle := htiles.offset_le item hitem
        have hpos : byteSize piece.text ≠ 0 := by simpa using hne
        rw [Position.offset_past] at hle
        omega
      rw [List.flatMap_cons, Lexing.ofPieces, Lexing.items_cons hfirst]
      cases hskipped : piece.isSkipped with
      | true =>
          rw [hskipped] at hblank
          rw [Piece.item?_of_isSkipped hskipped]
          exact htiles.skip hblank
      | false =>
          rw [hskipped] at hblank
          obtain ⟨item, hitem, htext, hspan⟩ := Piece.item?_of_not_isSkipped hskipped p
          rw [hitem, ← htext]
          rw [← htext] at hne hblank hspan htiles
          have hgap : ∀ c ∈ ([] : List Char), isBlank c = true := List.forall_mem_nil _
          exact Tiles.item hgap hne hblank hspan htiles

theorem tiles_lex (source : String) :
    Tiles .first source.toList (lex source).items := by
  have htiles := tiles_ofPieces (wellFormed_of_mem_pieces source.toList) .first
  rwa [text_pieces] at htiles

/-! ## Putting the text together again -/

def IsBoundary (text : List Char) (offset : Nat) : Prop :=
  ∃ front rest, text = front ++ rest ∧ byteSize front = offset

/-- Where a gap begins and ends: in front of, between and behind the items. -/
def gapBounds (start stop : Nat) : List Item → List (Nat × Nat)
  | [] => [(start, stop)]
  | item :: items => (start, item.span.start) :: gapBounds item.span.stop stop items

def interleave : List (List Char) → List (List Char) → List Char
  | gap :: gaps, word :: words => gap ++ (word ++ interleave gaps words)
  | gaps, [] => gaps.flatten
  | [], words => words.flatten

/-- The tokens and errors account for all of the text. -/
structure Lexing.Covers (lexing : Lexing) (text : List Char) : Prop where
  span_nonempty : ∀ item ∈ lexing.items, item.span.start < item.span.stop
  items_ordered : lexing.items.Pairwise fun a b => a.span.stop ≤ b.span.start
  tokens_ordered : lexing.tokens.Pairwise fun a b => a.span.stop ≤ b.span.start
  errors_ordered : lexing.errors.Pairwise fun a b => a.span.stop ≤ b.span.start
  isBoundary : ∀ item ∈ lexing.items,
    IsBoundary text item.span.start ∧ IsBoundary text item.span.stop
  slice_token : ∀ token ∈ lexing.tokens,
    Excerpt.slice? token.span.start token.span.stop text = some token.lexeme.toList
  slice_error : ∀ error ∈ lexing.errors, ∃ c, error.found = .char c ∧
    Excerpt.slice? error.span.start error.span.stop text = some [c]
  gaps_blank : ∃ gaps : List (List Char),
    (gapBounds 0 (byteSize text) lexing.items).map (fun b => Excerpt.slice? b.1 b.2 text) =
        gaps.map some ∧
      (∀ gap ∈ gaps, ∀ c ∈ gap, isBlank c = true) ∧
      interleave gaps (lexing.items.map Item.text) = text

namespace Tiles

variable {text : List Char} {items : List Item}

theorem exists_place (h : Tiles .first text items) : ∀ item ∈ items, ∃ front rest,
    text = front ++ (item.text ++ rest) ∧ item.span.start = byteSize front ∧
      item.span.stop = byteSize front + byteSize item.text ∧ item.text ≠ [] := by
  intro item hitem
  obtain ⟨front, rest, htext, hspan, hne, -⟩ := h.exists_front item hitem
  have hoffset : (Position.first.past front).offset = byteSize front := by
    rw [Position.offset_past]
    exact Nat.zero_add _
  refine ⟨front, rest, htext, ?_, ?_, hne⟩
  · rw [hspan]
    exact hoffset
  · rw [hspan, ← hoffset]
    exact Position.offset_past _ _

theorem slice? (h : Tiles .first text items) : ∀ item ∈ items,
    Excerpt.slice? item.span.start item.span.stop text = some item.text := by
  intro item hitem
  obtain ⟨front, rest, rfl, hstart, hstop, -⟩ := h.exists_place item hitem
  rw [hstart, hstop]
  exact Excerpt.slice?_append front item.text rest

private theorem exists_gaps {p : Position} (h : Tiles p text items) {front : List Char}
    (hp : p.offset = byteSize front) : ∃ gaps : List (List Char),
      (gapBounds p.offset (byteSize (front ++ text)) items).map
          (fun b => Excerpt.slice? b.1 b.2 (front ++ text)) = gaps.map some ∧
        (∀ gap ∈ gaps, ∀ c ∈ gap, isBlank c = true) ∧
        interleave gaps (items.map Item.text) = text := by
  induction h generalizing front with
  | @blank p gap hgap =>
      have hslice := Excerpt.slice?_append front gap []
      rw [List.append_nil, ← byteSize_append, ← hp] at hslice
      refine ⟨[gap], ?_, List.forall_mem_singleton.mpr hgap, List.append_nil gap⟩
      rw [gapBounds, List.map_singleton, List.map_singleton, hslice]
  | @item p gap item rest items hgap _ _ hspan _ ih =>
      have hstop : ((p.past gap).past item.text).offset =
          byteSize (front ++ (gap ++ item.text)) := by
        rw [Position.offset_past, Position.offset_past, hp]
        simp only [byteSize_append, Nat.add_assoc]
      obtain ⟨gaps, hslices, hblank, htext⟩ := ih hstop
      have hslice := Excerpt.slice?_append front gap (item.text ++ rest)
      rw [← hp, ← Position.offset_past] at hslice
      refine ⟨gap :: gaps, ?_, List.forall_mem_cons.mpr ⟨hgap, hblank⟩, ?_⟩
      · have hassoc : front ++ (gap ++ item.text) ++ rest =
            front ++ (gap ++ (item.text ++ rest)) := by
          simp only [List.append_assoc]
        rw [hassoc] at hslices
        rw [gapBounds, List.map_cons, List.map_cons, hspan]
        exact congrArg₂ List.cons hslice hslices
      · rw [List.map_cons, interleave, htext]

end Tiles

theorem Item.exists_char {error : Diagnostic} (h : (Item.error error).text ≠ []) :
    ∃ c, error.found = .char c ∧ (Item.error error).text = [c] := by
  unfold Item.text at h ⊢
  cases hfound : error.found with
  | char c => exact ⟨c, rfl, by simp only [hfound]⟩
  | token | endOfInput => simp [hfound] at h

theorem lex_covers (source : String) : (lex source).Covers source.toList := by
  have htiles := tiles_lex source
  have hordered := htiles.pairwise
  have hsublist := sublist_merge Item.startsBefore ((lex source).tokens.map .token)
    ((lex source).errors.map .error)
  constructor
  case span_nonempty =>
    intro item hitem
    obtain ⟨front, rest, -, hstart, hstop, hne⟩ := htiles.exists_place item hitem
    have hpos : byteSize item.text ≠ 0 := by simpa using hne
    omega
  case items_ordered => exact hordered
  case tokens_ordered => exact List.pairwise_map.mp (hordered.sublist hsublist.1)
  case errors_ordered => exact List.pairwise_map.mp (hordered.sublist hsublist.2)
  case isBoundary =>
    intro item hitem
    obtain ⟨front, rest, htext, hstart, hstop, -⟩ := htiles.exists_place item hitem
    refine ⟨⟨front, _, htext, hstart.symm⟩, front ++ item.text, rest, ?_, ?_⟩
    · rw [htext, List.append_assoc]
    · rw [byteSize_append, hstop]
  case slice_token =>
    exact fun token htoken => htiles.slice? _ (Lexing.token_mem_items.mpr htoken)
  case slice_error =>
    intro error herror
    have hitem := Lexing.error_mem_items.mpr herror
    obtain ⟨front, rest, -, -, -, hne⟩ := htiles.exists_place _ hitem
    obtain ⟨c, hfound, htext⟩ := Item.exists_char hne
    exact ⟨c, hfound, htext ▸ htiles.slice? _ hitem⟩
  case gaps_blank =>
    have hfirst : Position.first.offset = byteSize [] := rfl
    exact htiles.exists_gaps hfirst

end Scriptlet
