import Scriptlet.Source.Blank

/-!
# Patterns

The two shapes in which the words of the language come: a choice between fixed
spellings, and a head character followed by as many tail characters as there
are.  A pattern is data.  It can be printed in the usual notation of regular
expressions, it describes a set of words (`Pattern.Accepts`), and it cuts a
word off the front of a text (`Pattern.split?`).
-/

namespace Scriptlet.Lexicon

/-! ## Character classes -/

inductive CharClass where
  | blank
  | ranges (bounds : List (Char × Char))
  deriving DecidableEq, Repr

namespace CharClass

def contains : CharClass → Char → Bool
  | .blank, c => isBlank c
  | .ranges bounds, c => bounds.any fun range => range.1 ≤ c && c ≤ range.2

def rangeSource (range : Char × Char) : List Char :=
  if range.1 = range.2 then [range.1] else [range.1, '-', range.2]

def source : CharClass → List Char
  | .blank => ['\\', 's']
  | .ranges bounds => '[' :: bounds.flatMap rangeSource ++ [']']

end CharClass

def letterBounds : List (Char × Char) :=
  [('A', 'Z'), ('a', 'z'), ('_', '_')]

def identifierHead : CharClass :=
  .ranges letterBounds

/-- Characters that may continue an identifier; all of them are ASCII. -/
def identifierTail : CharClass :=
  .ranges [('A', 'Z'), ('a', 'z'), ('0', '9'), ('_', '_')]

def digit : CharClass :=
  .ranges [('0', '9')]

def isIdentifierChar (c : Char) : Bool :=
  identifierTail.contains c

/-! ## Patterns and their words -/

inductive Pattern where
  | spellings (words : List (List Char))
  | run (head tail : CharClass)
  deriving DecidableEq, Repr

namespace Pattern

def Accepts : Pattern → List Char → Prop
  | .spellings words, word => word ∈ words
  | .run _ _, [] => False
  | .run head tail, c :: word => head.contains c = true ∧ ∀ d ∈ word, tail.contains d = true

instance decidableAccepts : (pattern : Pattern) → (word : List Char) →
    Decidable (pattern.Accepts word)
  | .spellings words, word => inferInstanceAs (Decidable (word ∈ words))
  | .run _ _, [] => inferInstanceAs (Decidable False)
  | .run head tail, c :: word =>
      inferInstanceAs (Decidable (head.contains c = true ∧ ∀ d ∈ word, tail.contains d = true))

/-! ## Printing -/

def isSpecial (c : Char) : Bool :=
  ['\\', '.', '+', '*', '?', '(', ')', '|', '[', ']', '{', '}', '^', '$'].contains c

def spellingSource (word : List Char) : List Char :=
  word.flatMap fun c => if isSpecial c then ['\\', c] else [c]

def source : Pattern → String
  | .spellings words => String.ofList (['|'].intercalate (words.map spellingSource))
  | .run head tail =>
      String.ofList <|
        if head = tail then head.source ++ ['+'] else head.source ++ tail.source ++ ['*']

/-! ## Cutting a word off the front of a text -/

def after? : List Char → List Char → Option (List Char)
  | [], text => some text
  | _ :: _, [] => none
  | c :: word, d :: text => if c = d then after? word text else none

def spelling? (text : List Char) : List (List Char) → Option (List Char × List Char)
  | [] => none
  | word :: words =>
      match after? word text with
      | some rest => some (word, rest)
      | none => spelling? text words

/-- Cuts a word of the pattern off the front of the text: of several spellings the first that is
there, of a run all of it. -/
def split? : Pattern → List Char → Option (List Char × List Char)
  | .spellings words, text => spelling? text words
  | .run _ _, [] => none
  | .run head tail, c :: text =>
      if head.contains c then
        some (c :: text.takeWhile tail.contains, text.dropWhile tail.contains)
      else none

theorem append_of_after? {word text rest : List Char} (h : after? word text = some rest) :
    word ++ rest = text := by
  induction word generalizing text with
  | nil => simpa [after?] using h.symm
  | cons c word ih =>
      cases text with
      | nil => simp [after?] at h
      | cons d text =>
          simp only [after?] at h
          split at h
          · next hcd => rw [hcd, List.cons_append, ih h]
          · simp at h

@[simp] theorem after?_append (word rest : List Char) :
    after? word (word ++ rest) = some rest := by
  induction word with
  | nil => rfl
  | cons c word ih => simpa [after?] using ih

theorem append_of_spelling? {text word rest : List Char} {words : List (List Char)}
    (h : spelling? text words = some (word, rest)) : word ++ rest = text := by
  induction words with
  | nil => simp [spelling?] at h
  | cons first words ih =>
      simp only [spelling?] at h
      split at h
      · next hrest =>
          obtain ⟨rfl, rfl⟩ := Prod.mk.inj (Option.some.inj h)
          exact append_of_after? hrest
      · exact ih h

theorem append_of_split? {pattern : Pattern} {text word rest : List Char}
    (h : pattern.split? text = some (word, rest)) : word ++ rest = text := by
  cases pattern with
  | spellings words => exact append_of_spelling? h
  | run head tail =>
      cases text with
      | nil => simp [split?] at h
      | cons c text =>
          simp only [split?] at h
          split at h
          · obtain ⟨rfl, rfl⟩ := Prod.mk.inj (Option.some.inj h)
            simp
          · simp at h

theorem mem_of_spelling? {text word rest : List Char} {words : List (List Char)}
    (h : spelling? text words = some (word, rest)) : word ∈ words := by
  induction words with
  | nil => simp [spelling?] at h
  | cons first words ih =>
      simp only [spelling?] at h
      split at h
      · obtain ⟨rfl, rfl⟩ := Prod.mk.inj (Option.some.inj h)
        simp
      · exact List.mem_cons_of_mem _ (ih h)

theorem accepts_of_split? {pattern : Pattern} {text word rest : List Char}
    (h : pattern.split? text = some (word, rest)) : pattern.Accepts word := by
  cases pattern with
  | spellings words => exact mem_of_spelling? h
  | run head tail =>
      cases text with
      | nil => simp [split?] at h
      | cons c text =>
          simp only [split?] at h
          split at h
          · next hc =>
              obtain ⟨rfl, rfl⟩ := Prod.mk.inj (Option.some.inj h)
              refine ⟨hc, fun d hd => ?_⟩
              exact List.all_eq_true.mp List.all_takeWhile d hd
          · simp at h

end Pattern

end Scriptlet.Lexicon
