import Scriptlet.Lexicon.Pattern
import Scriptlet.Source.ByteSize
import Scriptlet.Token

/-!
# The catalog

One entry per category of words, in order of priority.  A text is classified
by the first entry that applies at its front, which takes the longest word its
pattern allows there.  Blank text is a category of its own that makes no
token.  The order matters in two places: the spellings of the truth values come
before identifiers, and `==` before `=`.
-/

namespace Scriptlet.Lexicon

/-- A category of words.  It makes tokens of `kind?`, or none; if `wordBoundary` is set, a word
counts only where no further identifier character follows. -/
structure Entry where
  name : String
  kind? : Option Kind
  pattern : Pattern
  wordBoundary : Bool
  deriving DecidableEq, Repr

structure Cut where
  word : List Char
  rest : List Char
  deriving DecidableEq, Repr

namespace Cut

def size (cut : Cut) : Nat :=
  byteSize cut.word

theorem eq_of_size_eq {text : List Char} {a b : Cut} (ha : a.word ++ a.rest = text)
    (hb : b.word ++ b.rest = text) (hsize : a.size = b.size) : a = b := by
  obtain ⟨word, rest⟩ := a
  obtain ⟨word', rest'⟩ := b
  obtain rfl : word = word' := eq_of_byteSize_eq ⟨rest, ha⟩ ⟨rest', hb⟩ hsize
  obtain rfl : rest = rest' := List.append_cancel_left (ha.trans hb.symm)
  rfl

end Cut

def continues (rest : List Char) : Bool :=
  rest.head?.any isIdentifierChar

namespace Entry

def cut? (entry : Entry) (text : List Char) : Option Cut :=
  match entry.pattern.split? text with
  | none => none
  | some (word, rest) =>
      if word.isEmpty || (entry.wordBoundary && continues rest) then none
      else some ⟨word, rest⟩

theorem append_of_cut? {entry : Entry} {text : List Char} {cut : Cut}
    (h : entry.cut? text = some cut) : cut.word ++ cut.rest = text := by
  unfold cut? at h
  split at h
  · simp at h
  · next hsplit =>
      split at h
      · simp at h
      · obtain rfl := Option.some.inj h
        exact Pattern.append_of_split? hsplit

theorem word_ne_nil_of_cut? {entry : Entry} {text : List Char} {cut : Cut}
    (h : entry.cut? text = some cut) : cut.word ≠ [] := by
  unfold cut? at h
  split at h
  · simp at h
  · split at h
    · simp at h
    · next hword =>
        obtain rfl := Option.some.inj h
        intro hnil
        simp_all

end Entry

def operator (kind : Kind) (word : List Char) : Entry :=
  ⟨kind.name, some kind, .spellings [word], false⟩

def whitespace : Entry :=
  ⟨"Whitespace", none, .run .blank .blank, false⟩

def truthValue : Entry :=
  ⟨Kind.boolean.name, some .boolean,
    .spellings [['T', 'r', 'u', 'e'], ['F', 'a', 'l', 's', 'e']], true⟩

def identifier : Entry :=
  ⟨Kind.identifier.name, some .identifier, .run identifierHead identifierTail, false⟩

def integer : Entry :=
  ⟨Kind.integer.name, some .integer, .run digit digit, false⟩

def catalog : List Entry :=
  [whitespace, truthValue, identifier, integer,
    operator .equivalence ['=', '='],
    operator .assignment ['='],
    operator .addition ['+'],
    operator .subtraction ['-'],
    operator .multiplication ['*'],
    operator .logicalOr ['|', '|'],
    operator .logicalAnd ['&', '&'],
    operator .lparen ['('],
    operator .rparen [')']]

def entryFor? (kind : Kind) : Option Entry :=
  catalog.find? fun entry => entry.kind? == some kind

def entryNamed? (name : String) : Option Entry :=
  catalog.find? fun entry => entry.name == name

/-- The first entry that applies at the front of the text, with the word it takes. -/
def classify? (text : List Char) : Option (Entry × Cut) :=
  catalog.findSome? fun entry => (entry.cut? text).map fun cut => (entry, cut)

theorem cut?_of_classify? {text : List Char} {entry : Entry} {cut : Cut}
    (h : classify? text = some (entry, cut)) :
    entry ∈ catalog ∧ entry.cut? text = some cut := by
  obtain ⟨found, hmem, hfound⟩ := List.exists_of_findSome?_eq_some h
  obtain ⟨cut', hcut, heq⟩ := Option.map_eq_some_iff.mp hfound
  obtain ⟨rfl, rfl⟩ := Prod.mk.inj heq
  exact ⟨hmem, hcut⟩

theorem append_of_classify? {text : List Char} {entry : Entry} {cut : Cut}
    (h : classify? text = some (entry, cut)) : cut.word ++ cut.rest = text :=
  Entry.append_of_cut? (cut?_of_classify? h).2

theorem length_rest_of_classify? {text : List Char} {entry : Entry} {cut : Cut}
    (h : classify? text = some (entry, cut)) : cut.rest.length < text.length := by
  have hword := List.length_pos_iff.mpr
    (Entry.word_ne_nil_of_cut? (cut?_of_classify? h).2)
  rw [← append_of_classify? h, List.length_append]
  omega

theorem entryFor?_isSome (kind : Kind) : (entryFor? kind).isSome = true := by
  cases kind <;> decide

theorem exists_entry (kind : Kind) : ∃ entry ∈ catalog, entry.kind? = some kind := by
  obtain ⟨entry, hentry⟩ := Option.isSome_iff_exists.mp (entryFor?_isSome kind)
  rw [entryFor?] at hentry
  exact ⟨entry, List.mem_of_find?_eq_some hentry, by simpa using List.find?_some hentry⟩

end Scriptlet.Lexicon
