import Scriptlet.Proofs.Lexicon.Lookahead

/-!
# Longest words

Classification compares no lengths: it takes the first entry of the catalog
that applies.  The catalog is made so that this is the longest word that any
entry has at the front of the text.  Two words of different entries begin with
the same character only if one is a truth value and the other an identifier,
or if one is an operator and the other the same character twice; in both cases
the entry with the longer word comes first or the shorter word does not count.
-/

namespace Scriptlet.Lexicon

/-! ## Words at the front of a text -/

/-- The cut takes a word of the entry off the front of the text, which at a word boundary is one
only if no identifier character follows. -/
structure Entry.Cuts (entry : Entry) (text : List Char) (cut : Cut) : Prop where
  append_eq : cut.word ++ cut.rest = text
  word_ne_nil : cut.word ≠ []
  accepts : entry.pattern.Accepts cut.word
  closed : entry.wordBoundary = true → continues cut.rest = false

def CatalogCuts (text : List Char) (cut : Cut) : Prop :=
  ∃ entry ∈ catalog, entry.Cuts text cut

structure Longest (cuts : Cut → Prop) (cut : Cut) : Prop where
  holds : cuts cut
  size_le : ∀ other, cuts other → other.size ≤ cut.size

theorem Longest.eq {text : List Char} {cuts : Cut → Prop} {a b : Cut}
    (hcuts : ∀ cut, cuts cut → cut.word ++ cut.rest = text) (ha : Longest cuts a)
    (hb : Longest cuts b) : a = b :=
  Cut.eq_of_size_eq (hcuts a ha.holds) (hcuts b hb.holds)
    (Nat.le_antisymm (hb.size_le a ha.holds) (ha.size_le b hb.holds))

theorem CatalogCuts.append_eq {text : List Char} {cut : Cut} (h : CatalogCuts text cut) :
    cut.word ++ cut.rest = text := by
  obtain ⟨entry, -, hcuts⟩ := h
  exact hcuts.append_eq

theorem isPrefix_run {p : Char → Bool} {tail : List Char} (h : ∀ d ∈ tail, p d = true)
    (c : Char) (rest : List Char) : c :: tail <+: c :: (tail ++ rest).takeWhile p := by
  rw [List.takeWhile_append_of_pos h]
  exact List.cons_prefix_cons.mpr ⟨rfl, List.prefix_append _ _⟩

/-! ## One entry -/

namespace Pattern

private theorem exists_spelling? {words : List (List Char)} {word : List Char} (h : word ∈ words)
    (rest : List Char) : ∃ found, spelling? (word ++ rest) words = some found := by
  induction words with
  | nil => contradiction
  | cons first words ih =>
      unfold spelling?
      split
      · exact ⟨_, rfl⟩
      · next hnone =>
          rcases List.mem_cons.mp h with rfl | hmem
          · simp at hnone
          · exact ih hmem

theorem spelling?_eq {words : List (List Char)}
    (hwords : ∀ a ∈ words, ∀ b ∈ words, a <+: b → a = b) {word : List Char} (h : word ∈ words)
    (rest : List Char) : spelling? (word ++ rest) words = some (word, rest) := by
  obtain ⟨⟨found, rest'⟩, hfound⟩ := exists_spelling? h rest
  have hmem := mem_of_spelling? hfound
  have happend := append_of_spelling? hfound
  have heq : found = word := by
    rcases List.prefix_or_prefix_of_prefix ⟨rest', happend⟩ ⟨rest, rfl⟩ with hle | hle
    · exact hwords _ hmem _ h hle
    · exact (hwords _ h _ hmem hle).symm
  subst heq
  rw [hfound, List.append_cancel_left happend]

end Pattern

namespace Entry

theorem cuts_of_cut? {entry : Entry} {text : List Char} {cut : Cut}
    (h : entry.cut? text = some cut) : entry.Cuts text cut where
  append_eq := append_of_cut? h
  word_ne_nil := word_ne_nil_of_cut? h
  accepts := accepts_of_cut? h
  closed := continues_of_cut? h

/-- The entry never stops short: a run is not held back by a boundary, and no spelling is the
beginning of another. -/
def isGreedy (entry : Entry) : Bool :=
  match entry.pattern with
  | .spellings words => words.all fun a => words.all fun b => a == b || !a.isPrefixOf b
  | .run _ _ => !entry.wordBoundary

theorem isGreedy_of_mem_catalog : ∀ entry ∈ catalog, entry.isGreedy = true := by
  decide

theorem exists_cut? {entry : Entry} (hgreedy : entry.isGreedy = true) {text : List Char}
    {cut : Cut} (h : entry.Cuts text cut) :
    ∃ longest, entry.cut? text = some longest ∧ cut.word <+: longest.word := by
  obtain ⟨word, rest⟩ := cut
  obtain ⟨rfl, hne, haccepts, hclosed⟩ := h
  unfold isGreedy at hgreedy
  cases hpattern : entry.pattern with
  | spellings words =>
      rw [hpattern] at haccepts hgreedy
      have hwords : ∀ a ∈ words, ∀ b ∈ words, a <+: b → a = b := by
        simpa [or_iff_not_imp_right] using hgreedy
      have hsplit : entry.pattern.split? (word ++ rest) = some (word, rest) := by
        rw [hpattern]
        exact Pattern.spelling?_eq hwords haccepts rest
      have hboundary : (entry.wordBoundary && continues rest) = false := by
        cases hword : entry.wordBoundary with
        | false => rfl
        | true => exact hclosed hword
      exact ⟨_, cut?_of_split? hsplit hne hboundary, List.prefix_rfl⟩
  | run head tail =>
      rw [hpattern] at haccepts hgreedy
      have hboundary : entry.wordBoundary = false := by simpa using hgreedy
      cases word with
      | nil => contradiction
      | cons c word =>
          have hsplit := split?_run haccepts.1 tail (word ++ rest)
          rw [← hpattern] at hsplit
          refine ⟨_, cut?_of_split? hsplit (List.cons_ne_nil _ _) (by simp [hboundary]), ?_⟩
          exact isPrefix_run haccepts.2 c rest

variable {entry : Entry} {text : List Char}

theorem cut?_eq_some_iff (hentry : entry ∈ catalog) {cut : Cut} :
    entry.cut? text = some cut ↔ Longest (entry.Cuts text) cut := by
  have hgreedy := isGreedy_of_mem_catalog entry hentry
  have hlongest : ∀ {cut}, entry.cut? text = some cut → Longest (entry.Cuts text) cut := by
    intro cut h
    refine ⟨cuts_of_cut? h, fun other hother => ?_⟩
    obtain ⟨longest, hcut, hbegins⟩ := exists_cut? hgreedy hother
    obtain rfl := Option.some.inj (h.symm.trans hcut)
    exact byteSize_le_of_isPrefix hbegins
  refine ⟨hlongest, fun h => ?_⟩
  obtain ⟨longest, hcut, -⟩ := exists_cut? hgreedy h.holds
  rw [hcut, (hlongest hcut).eq (fun _ => Cuts.append_eq) h]

theorem cut?_eq_none_iff (hentry : entry ∈ catalog) :
    entry.cut? text = none ↔ ∀ cut, ¬ entry.Cuts text cut := by
  constructor
  · intro hnone cut hcuts
    obtain ⟨longest, hcut, -⟩ := exists_cut? (isGreedy_of_mem_catalog entry hentry) hcuts
    simp [hnone] at hcut
  · intro hcuts
    cases hcut : entry.cut? text with
    | none => rfl
    | some cut => exact absurd (cuts_of_cut? hcut) (hcuts cut)

end Entry

/-! ## All entries -/

private theorem accepts_cases {entry : Entry} (hentry : entry ∈ catalog) {c : Char}
    {tail : List Char} (h : entry.pattern.Accepts (c :: tail)) :
    (isBlank c = true ∧ ∀ d ∈ tail, isBlank d = true) ∨
      (digit.contains c = true ∧ ∀ d ∈ tail, digit.contains d = true) ∨
      (identifierHead.contains c = true ∧ ∀ d ∈ tail, isIdentifierChar d = true) ∨
      tail = [] ∨ ((double? c).isSome = true ∧ tail = [c]) := by
  simp only [catalog, List.mem_cons, List.not_mem_nil, or_false] at hentry
  rcases hentry with rfl | rfl | rfl | rfl | hentry
  · exact .inl h
  · have hmay : truthValue.pattern.mayBegin c = true := Pattern.mayBegin_of_accepts h
    have htail := (List.forall_mem_cons.mp (isIdentifierChar_of_truthValue h)).2
    exact .inr (.inr (.inl ⟨truthValue_mayBegin hmay, htail⟩))
  · exact .inr (.inr (.inl h))
  · exact .inr (.inl h)
  · -- The other entries are operators, of one character or of one twice.
    refine .inr (.inr (.inr ?_))
    rcases hentry with rfl | rfl | rfl | rfl | rfl | rfl | rfl | rfl | rfl
    all_goals
      obtain ⟨rfl, rfl⟩ := List.cons.inj (List.mem_singleton.mp h)
      decide

variable {text : List Char} {entry : Entry} {cut : Cut}

private theorem isPrefix_of_classify?_run {p : Char → Bool} {c : Char} {tail rest : List Char}
    {found : Entry} (hrun : classify? (c :: (tail ++ rest)) =
      some (found, ⟨c :: (tail ++ rest).takeWhile p, (tail ++ rest).dropWhile p⟩))
    (htail : ∀ d ∈ tail, p d = true)
    (h : classify? (c :: (tail ++ rest)) = some (entry, cut)) : c :: tail <+: cut.word := by
  obtain ⟨-, rfl⟩ := Prod.mk.inj (Option.some.inj (hrun.symm.trans h))
  exact isPrefix_run htail c rest

private theorem isPrefix_of_classify? (h : classify? text = some (entry, cut)) {other : Cut}
    (hother : CatalogCuts text other) : other.word <+: cut.word := by
  obtain ⟨found, hfound, hcuts⟩ := hother
  obtain ⟨word, rest⟩ := other
  obtain ⟨rfl, hne, haccepts, -⟩ := hcuts
  cases word with
  | nil => contradiction
  | cons c tail =>
      rw [List.cons_append] at h
      rcases accepts_cases hfound haccepts with
        ⟨hc, htail⟩ | ⟨hc, htail⟩ | ⟨hc, htail⟩ | rfl | ⟨hdouble, rfl⟩
      · exact isPrefix_of_classify?_run (classify?_of_isBlank hc _) htail h
      · exact isPrefix_of_classify?_run (classify?_of_digit hc _) htail h
      · exact isPrefix_of_classify?_run (classify?_of_identifierHead hc _) htail h
      · have hword := Entry.word_ne_nil_of_cut? (cut?_of_classify? h).2
        obtain ⟨d, more, hmore⟩ := List.exists_cons_of_ne_nil hword
        have happend := append_of_classify? h
        rw [hmore, List.cons_append] at happend
        obtain ⟨rfl, -⟩ := List.cons.inj happend
        rw [hmore]
        exact List.cons_prefix_cons.mpr ⟨rfl, List.nil_prefix⟩
      · obtain ⟨kind, hkind⟩ := Option.isSome_iff_exists.mp hdouble
        rw [List.singleton_append, classify?_of_double? hkind] at h
        obtain ⟨-, rfl⟩ := Prod.mk.inj (Option.some.inj h)
        exact List.prefix_rfl

theorem longest_of_classify? (h : classify? text = some (entry, cut)) :
    Longest (CatalogCuts text) cut := by
  obtain ⟨hentry, hcut⟩ := cut?_of_classify? h
  refine ⟨⟨entry, hentry, Entry.cuts_of_cut? hcut⟩, fun other hother => ?_⟩
  exact byteSize_le_of_isPrefix (isPrefix_of_classify? h hother)

theorem classify?_eq_none_iff_cuts :
    classify? text = none ↔ ∀ cut, ¬ CatalogCuts text cut := by
  rw [classify?_eq_none_iff]
  constructor
  · rintro hnone cut ⟨entry, hentry, hcuts⟩
    exact (Entry.cut?_eq_none_iff hentry).mp (hnone entry hentry) cut hcuts
  · intro hcuts entry hentry
    exact (Entry.cut?_eq_none_iff hentry).mpr fun cut h => hcuts cut ⟨entry, hentry, h⟩

private theorem identifier_cuts_of_truthValue {word : List Char}
    (h : truthValue.pattern.Accepts word) (rest : List Char) :
    identifier.Cuts (word ++ rest)
      ⟨word ++ rest.takeWhile isIdentifierChar, rest.dropWhile isIdentifierChar⟩ := by
  have hmore : ∀ d ∈ rest.takeWhile isIdentifierChar, isIdentifierChar d = true :=
    fun d hd => List.mem_takeWhile_imp hd
  have htext : word ++ rest.takeWhile isIdentifierChar ++ rest.dropWhile isIdentifierChar =
      word ++ rest := by
    rw [List.append_assoc, List.takeWhile_append_dropWhile]
  cases word with
  | nil => simp [truthValue_pattern_accepts_iff] at h
  | cons c tail =>
      have hhead := truthValue_mayBegin (Pattern.mayBegin_of_accepts h)
      have htail := (List.forall_mem_cons.mp (isIdentifierChar_of_truthValue h)).2
      have haccepts : identifier.pattern.Accepts
          (c :: tail ++ rest.takeWhile isIdentifierChar) :=
        ⟨hhead, List.forall_mem_append.mpr ⟨htail, hmore⟩⟩
      exact ⟨htext, List.cons_ne_nil _ _, haccepts, nofun⟩

private theorem Longest.continues_eq_false (h : Longest (CatalogCuts text) cut)
    (htruth : truthValue.pattern.Accepts cut.word) : continues cut.rest = false := by
  have hidentifier := identifier_cuts_of_truthValue htruth cut.rest
  rw [h.holds.append_eq] at hidentifier
  have hsize := h.size_le _ ⟨identifier, by decide, hidentifier⟩
  have hmore : byteSize (cut.rest.takeWhile isIdentifierChar) = 0 := by
    simp only [Cut.size, byteSize_append] at hsize
    omega
  rw [byteSize_eq_zero_iff] at hmore
  unfold continues
  cases hrest : cut.rest with
  | nil => rfl
  | cons d rest => simpa [hrest, List.takeWhile_cons] using hmore

private theorem Longest.cuts_of_accepts (h : Longest (CatalogCuts text) cut)
    (hentry : entry ∈ catalog) (haccepts : entry.pattern.Accepts cut.word) :
    entry.Cuts text cut := by
  have hbounded : ∀ entry ∈ catalog, entry.wordBoundary = true → entry = truthValue := by decide
  obtain ⟨found, -, hcuts⟩ := h.holds
  refine ⟨hcuts.append_eq, hcuts.word_ne_nil, haccepts, fun hboundary => ?_⟩
  obtain rfl := hbounded entry hentry hboundary
  exact h.continues_eq_false haccepts

theorem find?_of_classify? (h : classify? text = some (entry, cut)) :
    catalog.find? (fun found => found.pattern.Accepts cut.word) = some entry := by
  have hlongest := longest_of_classify? h
  obtain ⟨front, found, back, hcatalog, hfound, hfront⟩ := List.findSome?_eq_some_iff.mp h
  obtain ⟨cut', hcut, heq⟩ := Option.map_eq_some_iff.mp hfound
  obtain ⟨rfl, rfl⟩ := Prod.mk.inj heq
  refine List.find?_eq_some_iff_append.mpr ⟨?_, front, back, hcatalog, ?_⟩
  · exact decide_eq_true (Entry.accepts_of_cut? hcut)
  · intro earlier hearlier
    have hmem : earlier ∈ catalog := hcatalog ▸ List.mem_append_left _ hearlier
    have hnone : earlier.cut? text = none := by simpa using hfront earlier hearlier
    have hnot : ¬ earlier.pattern.Accepts cut'.word := fun haccepts =>
      (Entry.cut?_eq_none_iff hmem).mp hnone cut' (hlongest.cuts_of_accepts hmem haccepts)
    simpa using hnot

/-- The first entry that applies has the longest word of all entries, and is the first of which it
is a word.  Each entry by itself takes its own longest word, so none has a longer one than the
entry that is selected. -/
theorem classify?_takes_longest (text : List Char) :
    (∀ entry cut, classify? text = some (entry, cut) ↔ Longest (CatalogCuts text) cut ∧
      catalog.find? (fun found => found.pattern.Accepts cut.word) = some entry) ∧
    (classify? text = none ↔ ∀ cut, ¬ CatalogCuts text cut) ∧
    ∀ entry ∈ catalog,
      (∀ cut, entry.cut? text = some cut ↔ Longest (entry.Cuts text) cut) ∧
      (entry.cut? text = none ↔ ∀ cut, ¬ entry.Cuts text cut) ∧
      ∀ cut ∈ entry.cut? text, ∃ selected ∈ classify? text, cut.size ≤ selected.2.size := by
  refine ⟨fun entry cut => ⟨?taken, ?taking⟩, classify?_eq_none_iff_cuts, ?alone⟩
  case taken => exact fun h => ⟨longest_of_classify? h, find?_of_classify? h⟩
  case taking =>
    rintro ⟨hlongest, hfirst⟩
    cases hclassify : classify? text with
    | none => exact absurd hlongest.holds (classify?_eq_none_iff_cuts.mp hclassify cut)
    | some found =>
        obtain rfl : found.2 = cut :=
          (longest_of_classify? hclassify).eq (fun _ => CatalogCuts.append_eq) hlongest
        rw [find?_of_classify? hclassify] at hfirst
        rw [← Option.some.inj hfirst]
  case alone =>
    intro entry hentry
    refine ⟨fun _ => Entry.cut?_eq_some_iff hentry, Entry.cut?_eq_none_iff hentry, ?_⟩
    intro cut hcut
    have hcuts : CatalogCuts text cut := ⟨entry, hentry, Entry.cuts_of_cut? hcut⟩
    cases hclassify : classify? text with
    | none => exact absurd hcuts (classify?_eq_none_iff_cuts.mp hclassify cut)
    | some found => exact ⟨found, rfl, (longest_of_classify? hclassify).size_le cut hcuts⟩

end Scriptlet.Lexicon
