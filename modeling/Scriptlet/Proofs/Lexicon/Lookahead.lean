import Scriptlet.Proofs.Lexicon.Classification

/-!
# Lookahead

A word is classified by itself and by the one character behind it.  For each
word there is a class of characters that would change it (`Closes`): further
blanks, digits or identifier characters, or the operator character that doubles
it.  Before a text that begins with any other character, and at the end, the
classification stays as it is.
-/

namespace Scriptlet.Lexicon

/-- The word is classified so before every text that does not begin with one of the characters
`p`.  Blanks close every word that is not blank, and the other way round. -/
structure Closes (p : Char → Bool) (entry : Entry) (word : List Char) : Prop where
  classify? : ∀ rest, rest.head?.any p = false →
    classify? (word ++ rest) = some (entry, ⟨word, rest⟩)
  other_sort : ∀ c, isBlank c = entry.kind?.isSome → p c = false

/-! ## The classes of closing characters -/

section Words

variable {c : Char} {tail : List Char}

theorem closes_blanks (h : ∀ d ∈ c :: tail, isBlank d = true) :
    Closes isBlank whitespace (c :: tail) := by
  obtain ⟨hc, htail⟩ := List.forall_mem_cons.mp h
  constructor
  · intro rest hrest
    rw [List.cons_append, classify?_of_isBlank hc, takeWhile_append_of_all htail hrest,
      dropWhile_append_of_all htail hrest]
  · exact fun d hd => hd

theorem closes_digits (h : ∀ d ∈ c :: tail, digit.contains d = true) :
    Closes digit.contains integer (c :: tail) := by
  obtain ⟨hc, htail⟩ := List.forall_mem_cons.mp h
  constructor
  · intro rest hrest
    rw [List.cons_append, classify?_of_digit hc, takeWhile_append_of_all htail hrest,
      dropWhile_append_of_all htail hrest]
  · intro d hd
    have hblank : isBlank d = true := hd
    apply Bool.eq_false_iff.mpr
    intro hdigit
    simp [isBlank_eq_false (isIdentifierChar_of_digit hdigit)] at hblank

def nameEntry (word : List Char) : Entry :=
  if truthValue.pattern.Accepts word then truthValue else identifier

private theorem nameEntry_kind?_isSome (word : List Char) :
    (nameEntry word).kind?.isSome = true := by
  unfold nameEntry
  split <;> rfl

theorem closes_name (hc : identifierHead.contains c = true)
    (htail : ∀ d ∈ tail, isIdentifierChar d = true) :
    Closes isIdentifierChar (nameEntry (c :: tail)) (c :: tail) := by
  constructor
  · intro rest hrest
    by_cases htruth : truthValue.pattern.Accepts (c :: tail)
    · rw [nameEntry, if_pos htruth, classify?_of_truthValue htruth hrest]
    · rw [nameEntry, if_neg htruth, List.cons_append,
        classify?_of_identifier hc htail hrest htruth]
  · intro d hd
    rw [nameEntry_kind?_isSome] at hd
    apply Bool.eq_false_iff.mpr
    intro hword
    simp [isBlank_eq_false hword] at hd

theorem classify?_of_identifierHead (hc : identifierHead.contains c = true) (text : List Char) :
    classify? (c :: text) =
      some (nameEntry (c :: text.takeWhile isIdentifierChar),
        ⟨c :: text.takeWhile isIdentifierChar, text.dropWhile isIdentifierChar⟩) := by
  have htail : ∀ d ∈ text.takeWhile isIdentifierChar, isIdentifierChar d = true :=
    fun d hd => List.mem_takeWhile_imp hd
  have hclassify := (closes_name hc htail).classify? _ (head?_dropWhile isIdentifierChar text)
  rwa [List.cons_append, List.takeWhile_append_dropWhile] at hclassify

def doubles (c d : Char) : Bool :=
  (double? c).isSome && d == c

private theorem exists_of_doubles {rest : List Char} (h : rest.head?.any (doubles c) = true) :
    ∃ kind text, double? c = some kind ∧ rest = c :: text := by
  cases rest with
  | nil => contradiction
  | cons d text =>
      simp only [List.head?_cons, Option.any_some, doubles, Bool.and_eq_true, beq_iff_eq] at h
      obtain ⟨hsome, rfl⟩ := h
      obtain ⟨kind, hdouble⟩ := Option.isSome_iff_exists.mp hsome
      exact ⟨kind, text, hdouble, rfl⟩

private theorem head?_ne_of_doubles {rest : List Char} (h : rest.head?.any (doubles c) = false) :
    (double? c).isSome = true → rest.head? ≠ some c := by
  intro hsome hhead
  simp [hhead, doubles, hsome] at h

private theorem closes_double {kind : Kind} (h : double? c = some kind) :
    Closes (fun _ => false) (operator kind [c, c]) [c, c] where
  classify? rest _ := classify?_of_double? h rest
  other_sort _ _ := rfl

private theorem closes_single {kind : Kind} (hblank : isBlank c = false)
    (hword : isIdentifierChar c = false) (h : single? c = some kind) :
    Closes (doubles c) (operator kind [c]) [c] := by
  constructor
  · intro rest hrest
    have hclassify := classify?_of_single hblank hword (head?_ne_of_doubles hrest)
    rwa [h] at hclassify
  · intro d hd
    have hd : isBlank d = true := hd
    apply Bool.eq_false_iff.mpr
    intro hdoubles
    simp only [doubles, Bool.and_eq_true, beq_iff_eq] at hdoubles
    simp [hdoubles.2, hblank] at hd

end Words

/-! ## Words of a text -/

theorem exists_closes {text : List Char} {entry : Entry} {cut : Cut}
    (h : classify? text = some (entry, cut)) :
    ∃ p, Closes p entry cut.word ∧ cut.rest.head?.any p = false := by
  cases text with
  | nil => exact absurd (length_rest_of_classify? h) (by simp)
  | cons c text =>
      by_cases hblank : isBlank c = true
      · rw [classify?_of_isBlank hblank] at h
        obtain ⟨rfl, rfl⟩ := Prod.mk.inj (Option.some.inj h)
        refine ⟨isBlank, closes_blanks ?_, head?_dropWhile _ text⟩
        exact List.forall_mem_cons.mpr ⟨hblank, fun d hd => List.mem_takeWhile_imp hd⟩
      by_cases hdigit : digit.contains c = true
      · rw [classify?_of_digit hdigit] at h
        obtain ⟨rfl, rfl⟩ := Prod.mk.inj (Option.some.inj h)
        refine ⟨digit.contains, closes_digits ?_, head?_dropWhile _ text⟩
        exact List.forall_mem_cons.mpr ⟨hdigit, fun d hd => List.mem_takeWhile_imp hd⟩
      by_cases hhead : identifierHead.contains c = true
      · rw [classify?_of_identifierHead hhead] at h
        obtain ⟨rfl, rfl⟩ := Prod.mk.inj (Option.some.inj h)
        refine ⟨isIdentifierChar, closes_name hhead ?_, head?_dropWhile _ text⟩
        exact fun d hd => List.mem_takeWhile_imp hd
      rw [Bool.not_eq_true] at hblank
      have hword : isIdentifierChar c = false := by
        apply Bool.eq_false_iff.mpr
        intro hword
        exact (isIdentifierChar_iff.mp hword).elim hhead hdigit
      cases hdoubles : text.head?.any (doubles c) with
      | false =>
          rw [classify?_of_single hblank hword (head?_ne_of_doubles hdoubles)] at h
          obtain ⟨kind, hsingle, hfound⟩ := Option.map_eq_some_iff.mp h
          obtain ⟨rfl, rfl⟩ := Prod.mk.inj hfound
          exact ⟨doubles c, closes_single hblank hword hsingle, hdoubles⟩
      | true =>
          obtain ⟨kind, text, hdouble, rfl⟩ := exists_of_doubles hdoubles
          rw [classify?_of_double? hdouble] at h
          obtain ⟨rfl, rfl⟩ := Prod.mk.inj (Option.some.inj h)
          exact ⟨_, closes_double hdouble, by cases text <;> rfl⟩

theorem classify?_cons_eq_none_iff {c : Char} {rest : List Char} :
    classify? (c :: rest) = none ↔ isBlank c = false ∧ isIdentifierChar c = false ∧
      single? c = none ∧ rest.head?.any (doubles c) = false := by
  constructor
  · intro h
    have hblank : isBlank c = false := by
      apply Bool.eq_false_iff.mpr
      intro hblank
      simp [classify?_of_isBlank hblank] at h
    have hword : isIdentifierChar c = false := by
      apply Bool.eq_false_iff.mpr
      intro hword
      rcases isIdentifierChar_iff.mp hword with hhead | hdigit
      · simp [classify?_of_identifierHead hhead] at h
      · simp [classify?_of_digit hdigit] at h
    have hdoubles : rest.head?.any (doubles c) = false := by
      apply Bool.eq_false_iff.mpr
      intro hdoubles
      obtain ⟨kind, text, hdouble, rfl⟩ := exists_of_doubles hdoubles
      simp [classify?_of_double? hdouble] at h
    rw [classify?_of_single hblank hword (head?_ne_of_doubles hdoubles)] at h
    exact ⟨hblank, hword, Option.map_eq_none_iff.mp h, hdoubles⟩
  · rintro ⟨hblank, hword, hsingle, hdoubles⟩
    rw [classify?_of_single hblank hword (head?_ne_of_doubles hdoubles), hsingle, Option.map_none]

/-! ## One character of lookahead -/

/-- A word keeps its classification if what is behind it begins as before, or with a character
of the other sort, or is nothing at all. -/
theorem classify?_lookahead {word rest rest' : List Char} {entry : Entry}
    (h : classify? (word ++ rest) = some (entry, ⟨word, rest⟩))
    (hnext : ∀ c ∈ rest'.head?, rest.head? = some c ∨ isBlank c = entry.kind?.isSome) :
    classify? (word ++ rest') = some (entry, ⟨word, rest'⟩) := by
  obtain ⟨p, hcloses, hrest⟩ := exists_closes h
  refine hcloses.classify? rest' ?_
  cases hhead : rest'.head? with
  | none => rfl
  | some c =>
      rcases hnext c hhead with hsame | hother
      · rwa [hsame] at hrest
      · exact hcloses.other_sort c hother

theorem classify?_eq_none_lookahead {c : Char} {rest rest' : List Char}
    (h : classify? (c :: rest) = none) (hnext : ∀ d ∈ rest'.head?, rest.head? = some d) :
    classify? (c :: rest') = none := by
  obtain ⟨hblank, hword, hsingle, hdoubles⟩ := classify?_cons_eq_none_iff.mp h
  refine classify?_cons_eq_none_iff.mpr ⟨hblank, hword, hsingle, ?_⟩
  cases hhead : rest'.head? with
  | none => rfl
  | some d => rwa [hnext d hhead] at hdoubles

section Truncation

variable {more rest : List Char}

private theorem head?_append_of_mem {c : Char} (h : c ∈ more.head?) :
    (more ++ rest).head? = some c := by
  rw [List.head?_append, h, Option.some_or]

theorem classify?_of_append {word : List Char} {entry : Entry}
    (h : classify? (word ++ (more ++ rest)) = some (entry, ⟨word, more ++ rest⟩)) :
    classify? (word ++ more) = some (entry, ⟨word, more⟩) :=
  classify?_lookahead h fun _ hc => .inl (head?_append_of_mem hc)

theorem classify?_eq_none_of_append {c : Char} (h : classify? (c :: (more ++ rest)) = none) :
    classify? (c :: more) = none :=
  classify?_eq_none_lookahead h fun _ hd => head?_append_of_mem hd

end Truncation

end Scriptlet.Lexicon
