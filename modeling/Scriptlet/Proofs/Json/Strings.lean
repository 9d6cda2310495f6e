import Scriptlet.Json.Value

/-!
# The spelling of strings

In a JSON string a character may stand for itself unless it is a quote, a
backslash or a control character, and any character may be escaped in one way
or another.  `Spelling` lists these ways, a pair of surrogates for a character
outside the basic plane among them.  Reading takes one spelling after the other
up to the closing quote, and it reads just what is spelled.  What `Json.quote`
writes is one of the spellings.
-/

namespace Scriptlet.Json

/-! ## One character -/

def isPlain (c : Char) : Bool :=
  0x20 ≤ c.toNat && c != '"' && c != '\\'

def shortEscape? : Char → Option Char
  | '"' => some '"'
  | '\\' => some '\\'
  | '/' => some '/'
  | 'b' => some '\x08'
  | 'f' => some '\x0c'
  | 'n' => some '\n'
  | 'r' => some '\r'
  | 't' => some '\t'
  | _ => none

def hexDigit? (c : Char) : Option Nat :=
  if c.isDigit then some (c.toNat - '0'.toNat)
  else if 'a' ≤ c ∧ c ≤ 'f' then some (c.toNat - 'a'.toNat + 10)
  else if 'A' ≤ c ∧ c ≤ 'F' then some (c.toNat - 'A'.toNat + 10)
  else none

def codeUnit? (a b c d : Char) : Option Nat := do
  return (((← hexDigit? a) * 16 + (← hexDigit? b)) * 16 + (← hexDigit? c)) * 16 + (← hexDigit? d)

/-- The character of two surrogates, which each carry ten of its bits. -/
def ofSurrogates? (high low : Nat) : Option Char :=
  if 0xd800 ≤ high ∧ high < 0xdc00 ∧ 0xdc00 ≤ low ∧ low < 0xe000 then
    some (.ofNat (0x10000 + (high - 0xd800) * 0x400 + (low - 0xdc00)))
  else none

/-- The ways to write a character in a string.  A surrogate on its own is no character. -/
inductive Spelling : Char → List Char → Prop
  | plain {c} : isPlain c = true → Spelling c [c]
  | short {e c} : shortEscape? e = some c → Spelling c ['\\', e]
  | code {a b c d n} : codeUnit? a b c d = some n → n.isValidChar →
      Spelling (.ofNat n) ['\\', 'u', a, b, c, d]
  | surrogates {a b c d high a' b' c' d' low char} : codeUnit? a b c d = some high →
      codeUnit? a' b' c' d' = some low → ofSurrogates? high low = some char →
      Spelling char ['\\', 'u', a, b, c, d, '\\', 'u', a', b', c', d']

def unit? : List Char → Option (Nat × List Char)
  | '\\' :: 'u' :: a :: b :: c :: d :: rest => (codeUnit? a b c d).map fun n => (n, rest)
  | _ => none

def unescaped? : List Char → Option (Char × List Char)
  | '\\' :: e :: rest => (shortEscape? e).map fun c => (c, rest)
  | c :: rest => if isPlain c then some (c, rest) else none
  | [] => none

def character? (text : List Char) : Option (Char × List Char) :=
  match unit? text with
  | none => unescaped? text
  | some (n, rest) =>
      if n.isValidChar then some (.ofNat n, rest)
      else (unit? rest).bind fun (low, rest) => (ofSurrogates? n low).map fun c => (c, rest)

theorem unit?_eq_some_iff {text rest : List Char} {n : Nat} : unit? text = some (n, rest) ↔
    ∃ a b c d, codeUnit? a b c d = some n ∧ text = '\\' :: 'u' :: a :: b :: c :: d :: rest := by
  constructor
  · intro h
    unfold unit? at h
    split at h
    · next a b c d tail =>
        obtain ⟨n, hunit, heq⟩ := Option.map_eq_some_iff.mp h
        obtain ⟨rfl, rfl⟩ := Prod.mk.inj heq
        exact ⟨a, b, c, d, hunit, rfl⟩
    · contradiction
  · rintro ⟨a, b, c, d, hunit, rfl⟩
    simp [unit?, hunit]

private theorem not_isValidChar_of_ofSurrogates? {high low : Nat} {c : Char}
    (h : ofSurrogates? high low = some c) : ¬ high.isValidChar := by
  unfold ofSurrogates? at h
  split at h
  · unfold Nat.isValidChar
    omega
  · contradiction

private theorem character?_append {c : Char} {front : List Char} (h : Spelling c front)
    (rest : List Char) : character? (front ++ rest) = some (c, rest) := by
  cases h with
  | plain hplain =>
      have hslash : c ≠ '\\' := by
        rintro rfl
        contradiction
      simp [character?, unit?, unescaped?, hslash, hplain]
  | @short e c hshort =>
      have he : e ≠ 'u' := by
        rintro rfl
        contradiction
      simp [character?, unit?, unescaped?, he, hshort]
  | code hunit hvalid => simp [character?, unit?, hunit, hvalid]
  | surrogates hhigh hlow hpair =>
      simp [character?, unit?, hhigh, hlow, hpair, not_isValidChar_of_ofSurrogates? hpair]

private theorem spelling_of_unescaped? {text rest : List Char} {c : Char}
    (h : unescaped? text = some (c, rest)) :
    ∃ front, Spelling c front ∧ text = front ++ rest := by
  unfold unescaped? at h
  split at h
  · next e tail =>
      obtain ⟨c, hshort, heq⟩ := Option.map_eq_some_iff.mp h
      obtain ⟨rfl, rfl⟩ := Prod.mk.inj heq
      exact ⟨['\\', e], .short hshort, rfl⟩
  · next first tail _ =>
      split at h
      · next hplain =>
          obtain ⟨rfl, rfl⟩ := Prod.mk.inj (Option.some.inj h)
          exact ⟨[first], .plain hplain, rfl⟩
      · contradiction
  · contradiction

private theorem spelling_of_character? {text rest : List Char} {c : Char}
    (h : character? text = some (c, rest)) :
    ∃ front, Spelling c front ∧ text = front ++ rest := by
  unfold character? at h
  split at h
  · exact spelling_of_unescaped? h
  · next n tail hunit =>
      obtain ⟨a, b, c, d, hn, rfl⟩ := unit?_eq_some_iff.mp hunit
      split at h
      · next hvalid =>
          obtain ⟨rfl, rfl⟩ := Prod.mk.inj (Option.some.inj h)
          exact ⟨_, .code hn hvalid, rfl⟩
      · obtain ⟨⟨low, tail⟩, hunit, h⟩ := Option.bind_eq_some_iff.mp h
        obtain ⟨char, hpair, heq⟩ := Option.map_eq_some_iff.mp h
        obtain ⟨rfl, rfl⟩ := Prod.mk.inj heq
        obtain ⟨a', b', c', d', hlow, rfl⟩ := unit?_eq_some_iff.mp hunit
        exact ⟨_, .surrogates hn hlow hpair, rfl⟩

theorem character?_eq_some_iff {text rest : List Char} {c : Char} :
    character? text = some (c, rest) ↔ ∃ front, Spelling c front ∧ text = front ++ rest := by
  constructor
  · exact spelling_of_character?
  · rintro ⟨front, hfront, rfl⟩
    exact character?_append hfront rest

theorem Spelling.exists_cons {c : Char} {front : List Char} (h : Spelling c front) :
    ∃ first rest, front = first :: rest ∧ first ≠ '"' := by
  cases h with
  | plain hplain =>
      refine ⟨c, [], rfl, ?_⟩
      rintro rfl
      contradiction
  | short | code | surrogates => exact ⟨'\\', _, rfl, by decide⟩

/-! ## Strings up to the closing quote -/

inductive Spells : List Char → List Char → Prop
  | nil : Spells [] []
  | cons {c front text written} : Spelling c front → Spells text written →
      Spells (c :: text) (front ++ written)

theorem length_lt_of_character? {text rest : List Char} {c : Char}
    (h : character? text = some (c, rest)) : rest.length < text.length := by
  obtain ⟨front, hfront, rfl⟩ := character?_eq_some_iff.mp h
  obtain ⟨first, tail, rfl, -⟩ := hfront.exists_cons
  simp only [List.length_append, List.length_cons]
  omega

def string? (text : List Char) : Option (List Char × List Char) :=
  if text.head? = some '"' then some ([], text.tail)
  else
    match _h : character? text with
    | none => none
    | some (c, rest) => (string? rest).map fun (cs, behind) => (c :: cs, behind)
termination_by text.length
decreasing_by exact length_lt_of_character? ‹_›

theorem string?_quote (rest : List Char) : string? ('"' :: rest) = some ([], rest) := by
  simp [string?]

private theorem string?_of_character? {text rest : List Char} {c : Char}
    (h : character? text = some (c, rest)) :
    string? text = (string? rest).map fun (cs, behind) => (c :: cs, behind) := by
  obtain ⟨front, hfront, rfl⟩ := character?_eq_some_iff.mp h
  obtain ⟨first, tail, rfl, hfirst⟩ := hfront.exists_cons
  rw [string?, if_neg (by simpa using hfirst)]
  split
  · next hnone => exact absurd (hnone.symm.trans h) (by simp)
  · next hsome =>
      obtain ⟨rfl, rfl⟩ := Prod.mk.inj (Option.some.inj (hsome.symm.trans h))
      rfl

theorem string?_eq_some_iff {text meant behind : List Char} :
    string? text = some (meant, behind) ↔
      ∃ written, Spells meant written ∧ text = written ++ '"' :: behind := by
  constructor
  · intro h
    fun_induction string? text generalizing meant with
    | case1 text hquote =>
        obtain ⟨rfl, rfl⟩ := Prod.mk.inj (Option.some.inj h)
        obtain ⟨tail, rfl⟩ := List.head?_eq_some_iff.mp hquote
        exact ⟨[], .nil, rfl⟩
    | case2 => contradiction
    | case3 text _ c rest hcharacter ih =>
        obtain ⟨⟨cs, tail⟩, hrest, heq⟩ := Option.map_eq_some_iff.mp h
        obtain ⟨rfl, rfl⟩ := Prod.mk.inj heq
        obtain ⟨front, hfront, rfl⟩ := character?_eq_some_iff.mp hcharacter
        obtain ⟨written, hwritten, rfl⟩ := ih hrest
        exact ⟨front ++ written, .cons hfront hwritten, by simp⟩
  · rintro ⟨written, hwritten, rfl⟩
    induction hwritten with
    | nil => exact string?_quote behind
    | cons hfront _ ih =>
        rw [List.append_assoc, string?_of_character? (character?_append hfront _), ih]
        rfl

example : string? "\\uD83D\\uDE00\\/\\u00e9\"]".toList = some (['😀', '/', 'é'], [']']) := by
  decide +kernel

/-! ## What is written -/

private theorem hexDigit?_digitChar : ∀ n < 16, hexDigit? (Nat.digitChar n) = some n := by
  decide

private theorem spelling_codeEscape {c : Char} (h : c.toNat < 0x20) :
    Spelling c (codeEscape c) := by
  have hunit : codeUnit? '0' '0' (Nat.digitChar (c.toNat / 16)) (Nat.digitChar (c.toNat % 16)) =
      some c.toNat := by
    have hzero : hexDigit? '0' = some 0 := rfl
    simp only [codeUnit?, hzero, hexDigit?_digitChar _ (show c.toNat / 16 < 16 by omega),
      hexDigit?_digitChar _ (Nat.mod_lt c.toNat (by omega))]
    exact congrArg some (by omega)
  have hspelling := Spelling.code hunit c.valid
  rwa [Char.ofNat_toNat] at hspelling

theorem spelling_escape (c : Char) : Spelling c (escape c) := by
  fun_cases escape c with
  | case8 _ _ _ _ _ _ _ hcontrol => exact spelling_codeEscape hcontrol
  | case9 hquote hslash _ _ _ _ _ hcontrol =>
      exact .plain (by simp [isPlain, hquote, hslash, Nat.not_lt.mp hcontrol])
  | _ =>
      subst_vars
      exact .short rfl

theorem spells_flatMap_escape (text : List Char) : Spells text (text.flatMap escape) := by
  induction text with
  | nil => exact .nil
  | cons c text ih => exact .cons (spelling_escape c) ih

end Scriptlet.Json
