import Scriptlet.Proofs.Json.Strings
import Scriptlet.Proofs.Lists

/-!
# The parts of a JSON text

A JSON text is built from six marks, from strings, numbers and three names,
with white space between them where one likes.  Numbers and names reach as far
as they can.  A text has one division into parts at most, which the reader
finds; it refuses the texts that have none.
-/

namespace Scriptlet.Json


/-! ## Documents -/

/-- What a JSON text can say.  Numbers stay as they are written, the fields of an object stay in
order. -/
inductive Document where
  | null
  | truth (value : Bool)
  | number (numeral : String)
  | text (value : String)
  | array (items : List Document)
  | object (fields : List (String × Document))
  deriving Repr

inductive Mark where
  | comma
  | colon
  | openArray
  | closeArray
  | openObject
  | closeObject
  deriving DecidableEq, Repr

namespace Mark

def all : List Mark :=
  [.comma, .colon, .openArray, .closeArray, .openObject, .closeObject]

def char : Mark → Char
  | .comma => ','
  | .colon => ':'
  | .openArray => '['
  | .closeArray => ']'
  | .openObject => '\x7b'
  | .closeObject => '\x7d'

def ofChar? (c : Char) : Option Mark :=
  all.find? fun mark => mark.char == c

@[simp] theorem ofChar?_char (mark : Mark) : ofChar? mark.char = some mark := by
  cases mark <;> rfl

theorem ofChar?_eq_none_iff {c : Char} : ofChar? c = none ↔ ∀ mark : Mark, mark.char ≠ c := by
  constructor
  · rintro h mark rfl
    simp at h
  · intro h
    simpa [ofChar?] using fun mark _ => h mark

private theorem char_of_ofChar? {c : Char} {mark : Mark} (h : ofChar? c = some mark) :
    mark.char = c := by
  unfold ofChar? at h
  simpa using List.find?_some h

end Mark

inductive Part where
  | mark (mark : Mark)
  | scalar (document : Document)
  deriving Repr

/-! ## Numbers and names -/

def isDigits (text : List Char) : Bool :=
  !text.isEmpty && text.all Char.isDigit

def isWhole (text : List Char) : Bool :=
  isDigits text && (text.head? != some '0' || text.length == 1)

def isExponent : List Char → Bool
  | [] => true
  | e :: sign :: rest =>
      (e == 'e' || e == 'E') && isDigits (if sign = '+' ∨ sign = '-' then rest else sign :: rest)
  | [_] => false

def isFraction : List Char → Bool
  | '.' :: rest =>
      isDigits (rest.takeWhile Char.isDigit) && isExponent (rest.dropWhile Char.isDigit)
  | rest => isExponent rest

def isUnsigned (text : List Char) : Bool :=
  isWhole (text.takeWhile Char.isDigit) && isFraction (text.dropWhile Char.isDigit)

def isNumeral : List Char → Bool
  | '-' :: rest => isUnsigned rest
  | rest => isUnsigned rest

def scalar? (word : List Char) : Option Document :=
  if word = ['n', 'u', 'l', 'l'] then some .null
  else if word = ['t', 'r', 'u', 'e'] then some (.truth true)
  else if word = ['f', 'a', 'l', 's', 'e'] then some (.truth false)
  else if isNumeral word then some (.number (String.ofList word))
  else none

private theorem scalar?_nil : scalar? [] = none := by
  simp [scalar?, isNumeral, isUnsigned, isWhole, isDigits]

/-! ## One part -/

def isSpace (c : Char) : Bool :=
  c == ' ' || c == '\t' || c == '\n' || c == '\r'

def isBare (c : Char) : Bool :=
  !isSpace c && (Mark.ofChar? c).isNone && c != '"'

theorem isBare_iff {c : Char} : isBare c = true ↔
    isSpace c = false ∧ Mark.ofChar? c = none ∧ c ≠ '"' := by
  simp [isBare, and_assoc]

/-- The part is written as `front` if `behind` comes next. -/
inductive Part.Stands : Part → List Char → List Char → Prop
  | mark {mark behind} : Stands (.mark mark) [mark.char] behind
  | text {meant written behind} : Spells meant written →
      Stands (.scalar (.text (String.ofList meant))) ('"' :: (written ++ ['"'])) behind
  | bare {word document behind} : (∀ c ∈ word, isBare c = true) →
      behind.head?.any isBare = false → scalar? word = some document →
      Stands (.scalar document) word behind

def bare? (text : List Char) : Option (Part × List Char) :=
  (scalar? (text.takeWhile isBare)).map fun document =>
    (.scalar document, text.dropWhile isBare)

def part? : List Char → Option (Part × List Char)
  | [] => none
  | c :: rest =>
      match Mark.ofChar? c with
      | some mark => some (.mark mark, rest)
      | none =>
          if c = '"' then
            (string? rest).map fun (meant, behind) =>
              (.scalar (.text (String.ofList meant)), behind)
          else bare? (c :: rest)

private theorem bare?_append {word behind : List Char} {document : Document}
    (hword : ∀ c ∈ word, isBare c = true) (hbehind : behind.head?.any isBare = false)
    (h : scalar? word = some document) :
    bare? (word ++ behind) = some (.scalar document, behind) := by
  simp [bare?, takeWhile_append_of_all hword hbehind, dropWhile_append_of_all hword hbehind, h]

private theorem stands_of_bare? {text behind : List Char} {part : Part}
    (h : bare? text = some (part, behind)) :
    ∃ front, part.Stands front behind ∧ text = front ++ behind := by
  obtain ⟨document, hscalar, heq⟩ := Option.map_eq_some_iff.mp h
  obtain ⟨rfl, rfl⟩ := Prod.mk.inj heq
  have hword : ∀ c ∈ text.takeWhile isBare, isBare c = true :=
    fun c hc => List.mem_takeWhile_imp hc
  exact ⟨text.takeWhile isBare, .bare hword (head?_dropWhile isBare text) hscalar,
    List.takeWhile_append_dropWhile.symm⟩

private theorem part?_append {part : Part} {front behind : List Char}
    (h : part.Stands front behind) : part? (front ++ behind) = some (part, behind) := by
  cases h with
  | mark => simp [part?]
  | text hspells =>
      have hquote : Mark.ofChar? '"' = none := rfl
      simp [part?, hquote, string?_eq_some_iff.mpr ⟨_, hspells, rfl⟩]
  | bare hword hbehind hscalar =>
      cases front with
      | nil => simp [scalar?_nil] at hscalar
      | cons c front =>
          obtain ⟨-, hmark, hquote⟩ := isBare_iff.mp (hword c List.mem_cons_self)
          simpa [part?, hmark, hquote] using bare?_append hword hbehind hscalar

private theorem stands_of_part? {text behind : List Char} {part : Part}
    (h : part? text = some (part, behind)) :
    ∃ front, part.Stands front behind ∧ text = front ++ behind := by
  unfold part? at h
  split at h
  · contradiction
  · next c rest =>
      split at h
      · next mark hmark =>
          obtain ⟨rfl, rfl⟩ := Prod.mk.inj (Option.some.inj h)
          exact ⟨[mark.char], .mark, by simp [Mark.char_of_ofChar? hmark]⟩
      · split at h
        · next hquote =>
            obtain ⟨⟨meant, behind⟩, hstring, heq⟩ := Option.map_eq_some_iff.mp h
            obtain ⟨rfl, rfl⟩ := Prod.mk.inj heq
            obtain ⟨written, hspells, rfl⟩ := string?_eq_some_iff.mp hstring
            exact ⟨_, .text hspells, by simp [hquote]⟩
        · exact stands_of_bare? h

theorem part?_eq_some_iff {text behind : List Char} {part : Part} :
    part? text = some (part, behind) ↔
      ∃ front, part.Stands front behind ∧ text = front ++ behind := by
  constructor
  · exact stands_of_part?
  · rintro ⟨front, hstands, rfl⟩
    exact part?_append hstands

/-! ## All parts -/

/-- The text is made up of the parts, with white space in front of and behind any of them. -/
inductive Divides : List Char → List Part → Prop
  | nil : Divides [] []
  | space {c text parts} : isSpace c = true → Divides text parts → Divides (c :: text) parts
  | part {part front behind parts} : part.Stands front behind → Divides behind parts →
      Divides (front ++ behind) (part :: parts)

theorem Part.Stands.exists_cons {part : Part} {front behind : List Char}
    (h : part.Stands front behind) : ∃ c rest, front = c :: rest ∧ isSpace c = false := by
  cases h with
  | @mark mark => exact ⟨mark.char, [], rfl, by cases mark <;> decide⟩
  | text => exact ⟨'"', _, rfl, by decide⟩
  | bare hword _ hscalar =>
      cases front with
      | nil => simp [scalar?_nil] at hscalar
      | cons c front =>
          exact ⟨c, front, rfl, (isBare_iff.mp (hword c List.mem_cons_self)).1⟩

theorem length_lt_of_part? {text behind : List Char} {part : Part}
    (h : part? text = some (part, behind)) : behind.length < text.length := by
  obtain ⟨front, hstands, rfl⟩ := part?_eq_some_iff.mp h
  obtain ⟨c, rest, rfl, -⟩ := hstands.exists_cons
  simp only [List.length_append, List.length_cons]
  omega

def parts? : List Char → Option (List Part)
  | [] => some []
  | c :: rest =>
      if isSpace c then parts? rest
      else
        match _h : part? (c :: rest) with
        | none => none
        | some (part, behind) => (parts? behind).map (part :: ·)
termination_by text => text.length
decreasing_by
  · simp
  · exact length_lt_of_part? ‹_›

private theorem parts?_of_part? {text behind : List Char} {part : Part}
    (h : part? text = some (part, behind)) :
    parts? text = (parts? behind).map (part :: ·) := by
  obtain ⟨front, hstands, rfl⟩ := part?_eq_some_iff.mp h
  obtain ⟨c, rest, rfl, hc⟩ := hstands.exists_cons
  rw [List.cons_append, parts?, if_neg (by simp [hc])]
  split
  · next hnone => exact absurd (hnone.symm.trans h) (by simp)
  · next hsome =>
      obtain ⟨rfl, rfl⟩ := Prod.mk.inj (Option.some.inj (hsome.symm.trans h))
      rfl

theorem parts?_eq_some_iff {text : List Char} {parts : List Part} :
    parts? text = some parts ↔ Divides text parts := by
  constructor
  · intro h
    fun_induction parts? text generalizing parts with
    | case1 =>
        obtain rfl := Option.some.inj h
        exact .nil
    | case2 c rest hspace ih => exact .space hspace (ih h)
    | case3 => contradiction
    | case4 c rest _ part behind hpart ih =>
        obtain ⟨parts, hparts, rfl⟩ := Option.map_eq_some_iff.mp h
        obtain ⟨front, hstands, heq⟩ := part?_eq_some_iff.mp hpart
        exact heq ▸ .part hstands (ih hparts)
  · intro h
    induction h with
    | nil => simp [parts?]
    | space hspace _ ih => simpa [parts?, hspace] using ih
    | part hstands _ ih => simp [parts?_of_part? (part?_append hstands), ih]

end Scriptlet.Json
