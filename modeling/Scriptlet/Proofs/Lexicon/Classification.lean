import Scriptlet.Lexicon.Catalog
import Scriptlet.Proofs.Lists

/-!
# Classification by the first character

The first character of a text leaves few entries of the catalog to be tried.
Blanks, letters and digits exclude each other, so that at a blank only blank
text applies, at a digit only integers, and at a letter only a truth value or,
if there is none, an identifier.  What follows the word matters for the truth
values, and for the operators that are spelled by one character twice.
-/

namespace Scriptlet.Lexicon

/-! ## Character classes -/

theorem CharClass.contains_ranges_iff {bounds : List (Char × Char)} {c : Char} :
    (CharClass.ranges bounds).contains c = true ↔
      ∃ range ∈ bounds, range.1.toNat ≤ c.toNat ∧ c.toNat ≤ range.2.toNat := by
  simp only [contains, List.any_eq_true, Bool.and_eq_true, decide_eq_true_eq]
  exact Iff.rfl

theorem digit_contains_iff {c : Char} :
    digit.contains c = true ↔ 48 ≤ c.toNat ∧ c.toNat ≤ 57 := by
  simp [digit, CharClass.contains_ranges_iff]

theorem identifierHead_contains_iff {c : Char} : identifierHead.contains c = true ↔
    (65 ≤ c.toNat ∧ c.toNat ≤ 90) ∨ (97 ≤ c.toNat ∧ c.toNat ≤ 122) ∨ c.toNat = 95 := by
  simp [identifierHead, letterBounds, CharClass.contains_ranges_iff]
  omega

theorem isIdentifierChar_iff {c : Char} : isIdentifierChar c = true ↔
    identifierHead.contains c = true ∨ digit.contains c = true := by
  rw [identifierHead_contains_iff, digit_contains_iff]
  simp [isIdentifierChar, identifierTail, CharClass.contains_ranges_iff]
  omega

theorem isIdentifierChar_of_digit {c : Char} (h : digit.contains c = true) :
    isIdentifierChar c = true :=
  isIdentifierChar_iff.mpr (.inr h)

theorem identifierHead_of_not_digit {c : Char} (h : isIdentifierChar c = true)
    (hdigit : digit.contains c = false) : identifierHead.contains c = true := by
  rcases isIdentifierChar_iff.mp h with hhead | htrue
  · exact hhead
  · exact absurd htrue (Bool.eq_false_iff.mp hdigit)

private theorem identifierHead_eq_false {c : Char} (h : digit.contains c = true) :
    identifierHead.contains c = false := by
  rw [digit_contains_iff] at h
  rw [Bool.eq_false_iff, Ne, identifierHead_contains_iff]
  omega

theorem isBlank_eq_false {c : Char} (h : isIdentifierChar c = true) : isBlank c = false := by
  rw [isIdentifierChar_iff, identifierHead_contains_iff, digit_contains_iff] at h
  simp only [isBlank, blankRanges, List.any_cons, List.any_nil, Bool.or_false,
    Bool.or_eq_false_iff, Bool.and_eq_false_iff, decide_eq_false_iff_not]
  omega

/-! ## Entries that may apply -/

namespace Pattern

def mayBegin : Pattern → Char → Bool
  | .spellings words, c => words.any fun word => word.head? == some c
  | .run head _, c => head.contains c

theorem mayBegin_of_accepts {pattern : Pattern} {c : Char} {word : List Char}
    (h : pattern.Accepts (c :: word)) : pattern.mayBegin c = true := by
  cases pattern with
  | spellings words => exact List.any_eq_true.mpr ⟨c :: word, h, by simp⟩
  | run head tail => exact h.1

end Pattern

namespace Entry

theorem cut?_of_split? {entry : Entry} {text word rest : List Char}
    (h : entry.pattern.split? text = some (word, rest)) (hword : word ≠ [])
    (hboundary : (entry.wordBoundary && continues rest) = false) :
    entry.cut? text = some ⟨word, rest⟩ := by
  have hkept : (word.isEmpty || (entry.wordBoundary && continues rest)) = false := by
    rw [List.isEmpty_eq_false_iff.mpr hword, hboundary, Bool.or_false]
  rw [cut?, h]
  exact if_neg (Bool.eq_false_iff.mp hkept)

theorem accepts_of_cut? {entry : Entry} {text : List Char} {cut : Cut}
    (h : entry.cut? text = some cut) : entry.pattern.Accepts cut.word := by
  unfold cut? at h
  split at h
  · contradiction
  · next hsplit =>
      split at h
      · contradiction
      · obtain rfl := Option.some.inj h
        exact Pattern.accepts_of_split? hsplit

theorem continues_of_cut? {entry : Entry} {text : List Char} {cut : Cut}
    (h : entry.cut? text = some cut) (hboundary : entry.wordBoundary = true) :
    continues cut.rest = false := by
  unfold cut? at h
  split at h
  · contradiction
  · split at h
    · contradiction
    · next hcut =>
        obtain rfl := Option.some.inj h
        simpa [hboundary] using (Bool.or_eq_false_iff.mp (Bool.eq_false_iff.mpr hcut)).2

theorem mayBegin_of_cut? {entry : Entry} {c : Char} {rest : List Char} {cut : Cut}
    (h : entry.cut? (c :: rest) = some cut) : entry.pattern.mayBegin c = true := by
  have happend := append_of_cut? h
  have haccepts := accepts_of_cut? h
  cases hword : cut.word with
  | nil => exact absurd hword (word_ne_nil_of_cut? h)
  | cons d word =>
      rw [hword, List.cons_append] at happend
      obtain ⟨rfl, -⟩ := List.cons.inj happend
      rw [hword] at haccepts
      exact Pattern.mayBegin_of_accepts haccepts

theorem cut?_eq_none {entry : Entry} {c : Char} (h : entry.pattern.mayBegin c = false)
    (rest : List Char) : entry.cut? (c :: rest) = none := by
  cases hcut : entry.cut? (c :: rest) with
  | none => rfl
  | some cut => exact absurd (mayBegin_of_cut? hcut) (Bool.eq_false_iff.mp h)

end Entry

theorem classify?_eq_none_iff {text : List Char} :
    classify? text = none ↔ ∀ entry ∈ catalog, entry.cut? text = none := by
  simp only [classify?, List.findSome?_eq_none_iff, Option.map_eq_none_iff]

theorem classify?_eq_some (front : List Entry) {back : List Entry} {entry : Entry}
    {text : List Char} {cut : Cut} (hcatalog : catalog = front ++ entry :: back)
    (hfront : ∀ earlier ∈ front, earlier.cut? text = none) (hcut : entry.cut? text = some cut) :
    classify? text = some (entry, cut) := by
  have hnone : front.findSome?
      (fun entry => (entry.cut? text).map fun cut => (entry, cut)) = none := by
    apply List.findSome?_eq_none_iff.mpr
    intro earlier hearlier
    rw [hfront earlier hearlier, Option.map_none]
  rw [classify?, hcatalog, List.findSome?_append, hnone, Option.none_or, List.findSome?_cons,
    hcut, Option.map_some]

/-! ## Blanks and integers -/

theorem split?_run {head : CharClass} {c : Char} (h : head.contains c = true)
    (tail : CharClass) (text : List Char) : (Pattern.run head tail).split? (c :: text) =
      some (c :: text.takeWhile tail.contains, text.dropWhile tail.contains) :=
  if_pos h

theorem classify?_of_isBlank {c : Char} (h : isBlank c = true) (text : List Char) :
    classify? (c :: text) =
      some (whitespace, ⟨c :: text.takeWhile isBlank, text.dropWhile isBlank⟩) := by
  have hc : CharClass.blank.contains c = true := h
  have hsplit := split?_run hc .blank text
  exact classify?_eq_some [] rfl (List.forall_mem_nil _)
    (Entry.cut?_of_split? hsplit (List.cons_ne_nil _ _) rfl)

theorem truthValue_mayBegin {c : Char} (h : truthValue.pattern.mayBegin c = true) :
    identifierHead.contains c = true := by
  simp only [truthValue, Pattern.mayBegin, List.any_cons, List.any_nil, List.head?_cons,
    Bool.or_false, Bool.or_eq_true, beq_iff_eq, Option.some.injEq] at h
  rcases h with rfl | rfl <;> decide

theorem classify?_of_digit {c : Char} (h : digit.contains c = true) (text : List Char) :
    classify? (c :: text) =
      some (integer, ⟨c :: text.takeWhile digit.contains, text.dropWhile digit.contains⟩) := by
  have hhead := identifierHead_eq_false h
  have htruth : truthValue.pattern.mayBegin c = false := by
    apply Bool.eq_false_iff.mpr
    intro hmay
    exact Bool.eq_false_iff.mp hhead (truthValue_mayBegin hmay)
  refine classify?_eq_some [whitespace, truthValue, identifier] rfl ?_
    (Entry.cut?_of_split? (split?_run h digit text) (List.cons_ne_nil _ _) rfl)
  intro earlier hearlier
  refine Entry.cut?_eq_none ?_ text
  simp only [List.mem_cons, List.not_mem_nil, or_false] at hearlier
  rcases hearlier with rfl | rfl | rfl
  · exact isBlank_eq_false (isIdentifierChar_of_digit h)
  · exact htruth
  · exact hhead

/-! ## Truth values and identifiers -/

theorem truthValue_pattern_accepts_iff {word : List Char} : truthValue.pattern.Accepts word ↔
    word = ['T', 'r', 'u', 'e'] ∨ word = ['F', 'a', 'l', 's', 'e'] := by
  simp [truthValue, Pattern.Accepts]

theorem isIdentifierChar_of_truthValue {word : List Char}
    (h : truthValue.pattern.Accepts word) : ∀ c ∈ word, isIdentifierChar c = true := by
  have hall : word.all isIdentifierChar = true := by
    rcases truthValue_pattern_accepts_iff.mp h with rfl | rfl <;> rfl
  exact List.all_eq_true.mp hall

private theorem whitespace_cut?_eq_none {c : Char} (h : isIdentifierChar c = true)
    (rest : List Char) : whitespace.cut? (c :: rest) = none := by
  have hmay : whitespace.pattern.mayBegin c = false := isBlank_eq_false h
  exact Entry.cut?_eq_none hmay rest

theorem classify?_of_truthValue {word rest : List Char} (hword : truthValue.pattern.Accepts word)
    (hrest : continues rest = false) :
    classify? (word ++ rest) = some (truthValue, ⟨word, rest⟩) := by
  have hsplit : truthValue.pattern.split? (word ++ rest) = some (word, rest) := by
    rcases truthValue_pattern_accepts_iff.mp hword with rfl | rfl <;> rfl
  have hblank : whitespace.cut? (word ++ rest) = none := by
    rcases truthValue_pattern_accepts_iff.mp hword with rfl | rfl
    · exact whitespace_cut?_eq_none (by decide) _
    · exact whitespace_cut?_eq_none (by decide) _
  have hne : word ≠ [] := by
    rcases truthValue_pattern_accepts_iff.mp hword with rfl | rfl <;> exact List.cons_ne_nil _ _
  refine classify?_eq_some [whitespace] rfl ?_ (Entry.cut?_of_split? hsplit hne hrest)
  intro earlier hearlier
  obtain rfl := List.mem_singleton.mp hearlier
  exact hblank

theorem classify?_of_identifier {c : Char} {word rest : List Char}
    (hc : identifierHead.contains c = true) (hword : ∀ d ∈ word, isIdentifierChar d = true)
    (hrest : continues rest = false) (htruth : ¬ truthValue.pattern.Accepts (c :: word)) :
    classify? (c :: (word ++ rest)) = some (identifier, ⟨c :: word, rest⟩) := by
  have hchars : ∀ d ∈ c :: word, isIdentifierChar d = true := by
    intro d hd
    rcases List.mem_cons.mp hd with rfl | hd
    · exact isIdentifierChar_iff.mpr (.inl hc)
    · exact hword d hd
  have hsplit := split?_run hc identifierTail (word ++ rest)
  have htake : (word ++ rest).takeWhile identifierTail.contains = word :=
    takeWhile_append_of_all hword hrest
  have hdrop : (word ++ rest).dropWhile identifierTail.contains = rest :=
    dropWhile_append_of_all hword hrest
  rw [htake, hdrop] at hsplit
  refine classify?_eq_some [whitespace, truthValue] rfl ?_
    (Entry.cut?_of_split? hsplit (List.cons_ne_nil _ _) rfl)
  intro earlier hearlier
  simp only [List.mem_cons, List.not_mem_nil, or_false] at hearlier
  rcases hearlier with rfl | rfl
  · exact whitespace_cut?_eq_none (hchars c List.mem_cons_self) _
  · cases hcut : truthValue.cut? (c :: (word ++ rest)) with
    | none => rfl
    | some cut =>
        have haccepts := Entry.accepts_of_cut? hcut
        have htruthful := takeWhile_append_of_all (isIdentifierChar_of_truthValue haccepts)
          (Entry.continues_of_cut? hcut rfl)
        have hwhole := takeWhile_append_of_all hchars hrest
        rw [Entry.append_of_cut? hcut] at htruthful
        rw [List.cons_append] at hwhole
        exact absurd (htruthful.symm.trans hwhole ▸ haccepts) htruth

/-! ## Operators -/

/-- The kind of the operator that the character spells alone. -/
def single? : Char → Option Kind
  | '=' => some .assignment
  | '+' => some .addition
  | '-' => some .subtraction
  | '*' => some .multiplication
  | '(' => some .lparen
  | ')' => some .rparen
  | _ => none

/-- The kind of the operator that the character spells twice. -/
def double? : Char → Option Kind
  | '=' => some .equivalence
  | '|' => some .logicalOr
  | '&' => some .logicalAnd
  | _ => none

theorem not_word_of_double? {c : Char} {kind : Kind} (h : double? c = some kind) :
    isBlank c = false ∧ isIdentifierChar c = false := by
  unfold double? at h
  split at h
  · decide
  · decide
  · decide
  · contradiction

theorem classify?_of_double? {c : Char} {kind : Kind} (h : double? c = some kind)
    (text : List Char) :
    classify? (c :: c :: text) = some (operator kind [c, c], ⟨[c, c], text⟩) := by
  unfold double? at h
  split at h
  all_goals first
    | contradiction
    | (obtain rfl := Option.some.inj h
       rfl)

private theorem operator_mem_catalog {c : Char} {kind : Kind} (h : single? c = some kind) :
    operator kind [c] ∈ catalog := by
  unfold single? at h
  split at h
  all_goals first
    | contradiction
    | (obtain rfl := Option.some.inj h
       decide)

private theorem operator_of_mayBegin {c : Char} {entry : Entry} (hblank : isBlank c = false)
    (hword : isIdentifierChar c = false) (hentry : entry ∈ catalog)
    (hmay : entry.pattern.mayBegin c = true) :
    ∃ kind, (single? c = some kind ∧ entry = operator kind [c]) ∨
      (double? c = some kind ∧ entry = operator kind [c, c]) := by
  have hhead : ¬ identifierHead.contains c = true := fun hhead =>
    Bool.eq_false_iff.mp hword (isIdentifierChar_iff.mpr (.inl hhead))
  have hdigit : ¬ digit.contains c = true := fun hdigit =>
    Bool.eq_false_iff.mp hword (isIdentifierChar_of_digit hdigit)
  have hoperator : ∀ kind first rest,
      (operator kind (first :: rest)).pattern.mayBegin c = true → c = first := by
    intro kind first rest h
    have hhead : (some first == some c || false) = true := h
    rw [Bool.or_false, beq_iff_eq] at hhead
    exact (Option.some.inj hhead).symm
  simp only [catalog, List.mem_cons, List.not_mem_nil, or_false] at hentry
  rcases hentry with rfl | rfl | rfl | rfl | hentry
  · exact absurd hmay (Bool.eq_false_iff.mp hblank)
  · exact absurd (truthValue_mayBegin hmay) hhead
  · exact absurd hmay hhead
  · exact absurd hmay hdigit
  · rcases hentry with rfl | rfl | rfl | rfl | rfl | rfl | rfl | rfl | rfl
    all_goals obtain rfl := hoperator _ _ _ hmay
    · exact ⟨_, .inr ⟨rfl, rfl⟩⟩
    · exact ⟨_, .inl ⟨rfl, rfl⟩⟩
    · exact ⟨_, .inl ⟨rfl, rfl⟩⟩
    · exact ⟨_, .inl ⟨rfl, rfl⟩⟩
    · exact ⟨_, .inl ⟨rfl, rfl⟩⟩
    · exact ⟨_, .inr ⟨rfl, rfl⟩⟩
    · exact ⟨_, .inr ⟨rfl, rfl⟩⟩
    · exact ⟨_, .inl ⟨rfl, rfl⟩⟩
    · exact ⟨_, .inl ⟨rfl, rfl⟩⟩

private theorem operator_cut? (kind : Kind) {word : List Char} (hword : word ≠ [])
    (rest : List Char) : (operator kind word).cut? (word ++ rest) = some ⟨word, rest⟩ := by
  have hsplit : (operator kind word).pattern.split? (word ++ rest) = some (word, rest) := by
    simp [operator, Pattern.split?, Pattern.spelling?]
  exact Entry.cut?_of_split? hsplit hword rfl

private theorem word_of_operator_cut? {kind : Kind} {word text : List Char} {cut : Cut}
    (h : (operator kind word).cut? text = some cut) : cut.word = word :=
  List.mem_singleton.mp (Entry.accepts_of_cut? h)

theorem classify?_of_single {c : Char} {rest : List Char} (hblank : isBlank c = false)
    (hword : isIdentifierChar c = false)
    (hrest : (double? c).isSome = true → rest.head? ≠ some c) :
    classify? (c :: rest) =
      (single? c).map fun kind => (operator kind [c], ⟨[c], rest⟩) := by
  cases hclassify : classify? (c :: rest) with
  | none =>
      cases hsingle : single? c with
      | none => rfl
      | some kind =>
          have hcut := operator_cut? kind (List.cons_ne_nil c []) rest
          have hnone := classify?_eq_none_iff.mp hclassify _ (operator_mem_catalog hsingle)
          exact absurd (hcut.symm.trans hnone) (Option.some_ne_none _)
  | some found =>
      obtain ⟨entry, cut⟩ := found
      obtain ⟨hentry, hcut⟩ := cut?_of_classify? hclassify
      have happend := Entry.append_of_cut? hcut
      obtain ⟨kind, ⟨hsingle, rfl⟩ | ⟨hdouble, rfl⟩⟩ :=
        operator_of_mayBegin hblank hword hentry (Entry.mayBegin_of_cut? hcut)
      · obtain ⟨word, rest'⟩ := cut
        obtain rfl : word = [c] := word_of_operator_cut? hcut
        obtain rfl : rest' = rest := (List.cons.inj happend).2
        rw [hsingle, Option.map_some]
      · rw [word_of_operator_cut? hcut, List.cons_append, List.cons_append] at happend
        have hhead : rest.head? = some c := by
          rw [← (List.cons.inj happend).2]
          rfl
        exact absurd hhead (hrest (hdouble ▸ rfl))

end Scriptlet.Lexicon
