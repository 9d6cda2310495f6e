import Scriptlet.Json.Encoding
import Scriptlet.Proofs.Json.Printing

/-!
# A lexing is read back from its text

Each field of a lexing is found again in the document that its JSON text says:
numbers by their digits, kinds by their names, the variant of a choice by its
key, and a help text if there is a field for it.  Reading the text and then the
fields gives the lexing itself, so no two lexings have the same text.
-/

namespace Scriptlet

/-! ## Looking into documents -/

namespace Json.Document

def field? (key : String) : Document → Option Document
  | .object fields => fields.lookup key
  | _ => none

def text? : Document → Option String
  | .text value => some value
  | _ => none

def natural? : Document → Option Nat
  | .number numeral =>
      if isWhole numeral.toList then some (Nat.ofDigitChars 10 numeral.toList 0) else none
  | _ => none

def items? : Document → Option (List Document)
  | .array items => some items
  | _ => none

end Json.Document

namespace Json

open Document

@[simp] theorem text?_document_text (value : String) : (text value).document.text? = some value :=
  rfl

@[simp] theorem natural?_document_number (n : Nat) : (number n).document.natural? = some n := by
  simp only [document, natural?, Nat.toString_eq_ofList_toDigits, String.toList_ofList,
    if_pos (isWhole_toDigits n), Nat.ofDigitChars_ten_toDigits]

@[simp] theorem items?_document_array (items : List Json) :
    (array items).document.items? = some (items.map document) := by
  simp only [document, itemDocuments_eq_map]
  rfl

@[simp] theorem field?_document_nil (key : String) : (object []).document.field? key = none :=
  rfl

@[simp] theorem field?_document_cons (key name : String) (value : Json)
    (fields : List (String × Json)) : (object ((name, value) :: fields)).document.field? key =
      if key == name then some value.document else (object fields).document.field? key := by
  simp only [document, fieldDocuments, field?, List.lookup_cons]
  cases key == name <;> rfl

end Json

open Json (Document)

/-! ## The fields of a lexing -/

def Span.ofDocument? (d : Document) : Option Span := do
  return {
    start := ← (← d.field? "startOffset").natural?
    stop := ← (← d.field? "endOffset").natural?
    line := ← (← d.field? "line").natural?
    column := ← (← d.field? "column").natural? }

def Kind.ofDocument? (d : Document) : Option Kind := do
  Kind.ofName? (← d.text?)

def Token.ofDocument? (d : Document) : Option Token := do
  return {
    kind := ← Kind.ofDocument? (← d.field? "kind")
    lexeme := ← (← d.field? "lexeme").text?
    span := ← Span.ofDocument? d }

def Found.ofDocument? : Document → Option Found
  | .text "EndOfInput" => some .endOfInput
  | .object [("Token", inner)] => (Token.ofDocument? inner).map .token
  | .object [("Char", .text value)] =>
      match value.toList with
      | [c] => some (.char c)
      | _ => none
  | _ => none

def Expected.ofDocument? : Document → Option Expected
  | .text "EndOfInput" => some .endOfInput
  | .text "AnyToken" => some .anyToken
  | .object [("Kind", inner)] => (Kind.ofDocument? inner).map .kind
  | .object [("OneOf", .array items)] => (items.mapM Kind.ofDocument?).map .oneOf
  | _ => none

def Diagnostic.helpOf? (d : Document) : Option (Option String) :=
  match d.field? "help" with
  | none => some none
  | some help => help.text?.map some

def Diagnostic.ofDocument? (d : Document) : Option Diagnostic := do
  return {
    code := ← (← d.field? "code").text?
    message := ← (← d.field? "message").text?
    span := ← Span.ofDocument? (← d.field? "span")
    found := ← Found.ofDocument? (← d.field? "found")
    expected := ← Expected.ofDocument? (← d.field? "expected")
    help := ← Diagnostic.helpOf? d }

def Lexing.ofDocument? (d : Document) : Option Lexing := do
  return {
    tokens := ← (← (← d.field? "tokens").items?).mapM Token.ofDocument?
    errors := ← (← (← d.field? "errors").items?).mapM Diagnostic.ofDocument? }

/-! ## What is written is read -/

@[simp] theorem mapM_some {α : Type} (items : List α) :
    items.mapM (fun item => some item) = some items := by
  simpa using List.mapM_pure (m := Option) (f := @id α) (l := items)

@[simp] theorem Kind.ofDocument?_toJson (kind : Kind) :
    Kind.ofDocument? kind.toJson.document = some kind := by
  simp [ofDocument?, toJson]

@[simp] theorem Span.ofDocument?_toJson (span : Span) :
    Span.ofDocument? span.toJson.document = some span := by
  simp [ofDocument?, toJson, jsonFields]

@[simp] theorem Token.ofDocument?_toJson (token : Token) :
    Token.ofDocument? token.toJson.document = some token := by
  simp [ofDocument?, toJson, Span.ofDocument?, Span.jsonFields]

@[simp] theorem Found.ofDocument?_toJson (found : Found) :
    Found.ofDocument? found.toJson.document = some found := by
  cases found with
  | token token => simp [ofDocument?, toJson, Json.document, Json.fieldDocuments]
  | char c => simp [ofDocument?, toJson, Json.document, Json.fieldDocuments]
  | endOfInput => rfl

@[simp] theorem Expected.ofDocument?_toJson (expected : Expected) :
    Expected.ofDocument? expected.toJson.document = some expected := by
  cases expected with
  | kind kind => simp [ofDocument?, toJson, Json.document, Json.fieldDocuments]
  | oneOf kinds =>
      simp [ofDocument?, toJson, Json.document, Json.fieldDocuments, Json.itemDocuments_eq_map,
        Function.comp_def]
  | endOfInput => rfl
  | anyToken => rfl

@[simp] theorem Diagnostic.ofDocument?_toJson (diagnostic : Diagnostic) :
    Diagnostic.ofDocument? diagnostic.toJson.document = some diagnostic := by
  obtain ⟨code, message, span, found, expected, help⟩ := diagnostic
  cases help <;> simp [ofDocument?, toJson, helpFields, helpOf?]

theorem Lexing.ofDocument?_toJson (lexing : Lexing) :
    Lexing.ofDocument? lexing.toJson.document = some lexing := by
  simp [ofDocument?, toJson, Function.comp_def]

/-- The text of a lexing is JSON and says one document, the fields of which are those of the
lexing.  Only one lexing has this text. -/
theorem Lexing.render_read_back (lexing : Lexing) :
    (∃ document, (∀ other, Json.Reads lexing.toJson.render other ↔ other = document) ∧
      Json.decode? lexing.toJson.render = some document ∧
      Lexing.ofDocument? document = some lexing) ∧
    ∀ other : Lexing, other.toJson.render = lexing.toJson.render → other = lexing := by
  constructor
  · have hreads := Json.reads_render lexing.toJson
    refine ⟨lexing.toJson.document, fun other => ?_, Json.decode?_eq_some_iff.mpr hreads,
      lexing.ofDocument?_toJson⟩
    constructor
    · exact fun hother => hother.unique hreads
    · rintro rfl
      exact hreads
  · intro other hrender
    have hother := Json.reads_render other.toJson
    rw [hrender] at hother
    have hdocument := hother.unique (Json.reads_render lexing.toJson)
    have hsame := other.ofDocument?_toJson
    rw [hdocument, lexing.ofDocument?_toJson] at hsame
    exact (Option.some.inj hsame).symm

end Scriptlet
