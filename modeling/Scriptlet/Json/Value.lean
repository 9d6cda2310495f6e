/-!
# JSON values and their text

Values of JSON, as far as they are needed here: there are no fractions, truth
values or nulls.  The text of a value has one member on a line, indented by
one tab for each level, and an empty array or object is closed at once.  In
strings only the quote, the backslash and the control characters of ASCII are
escaped.
-/

namespace Scriptlet

inductive Json where
  | text (value : String)
  | number (value : Nat)
  | array (items : List Json)
  | object (fields : List (String × Json))
  deriving Repr

namespace Json

/-! ## Strings -/

def codeEscape (c : Char) : List Char :=
  ['\\', 'u', '0', '0', Nat.digitChar (c.toNat / 16), Nat.digitChar (c.toNat % 16)]

def escape (c : Char) : List Char :=
  if c = '"' then ['\\', '"']
  else if c = '\\' then ['\\', '\\']
  else if c = '\x08' then ['\\', 'b']
  else if c = '\x0c' then ['\\', 'f']
  else if c = '\n' then ['\\', 'n']
  else if c = '\r' then ['\\', 'r']
  else if c = '\t' then ['\\', 't']
  else if c.toNat < 0x20 then codeEscape c
  else [c]

def quote (text : String) : List Char :=
  '"' :: text.toList.flatMap escape ++ ['"']

/-! ## Values -/

def newline (level : Nat) : List Char :=
  '\n' :: List.replicate level '\t'

mutual

def chars (level : Nat) : Json → List Char
  | .text value => quote value
  | .number value => (toString value).toList
  | .array [] => ['[', ']']
  | .array (item :: items) =>
      '[' :: itemChars (level + 1) (item :: items) ++ newline level ++ [']']
  | .object [] => ['\x7b', '\x7d']
  | .object (field :: fields) =>
      '\x7b' :: fieldChars (level + 1) (field :: fields) ++ newline level ++ ['\x7d']

def itemChars (level : Nat) : List Json → List Char
  | [] => []
  | [item] => newline level ++ chars level item
  | item :: items => newline level ++ chars level item ++ ',' :: itemChars level items

def fieldChars (level : Nat) : List (String × Json) → List Char
  | [] => []
  | [(key, value)] => newline level ++ quote key ++ ':' :: ' ' :: chars level value
  | (key, value) :: fields =>
      newline level ++ quote key ++ ':' :: ' ' :: chars level value ++
        ',' :: fieldChars level fields

end

def render (json : Json) : String :=
  String.ofList (json.chars 0)

end Json

end Scriptlet
