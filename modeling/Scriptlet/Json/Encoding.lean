import Scriptlet.Json.Value
import Scriptlet.Lexing

/-!
# The JSON form of a lexing

Records become objects with their fields in order.  The span of a token is
not an object of its own, its fields follow those of the token.  A choice is
written as its name, or as an object with its name as the only key.  A help
text that is not there has no field.
-/

namespace Scriptlet

namespace Span

def jsonFields (span : Span) : List (String × Json) :=
  [("startOffset", .number span.start), ("endOffset", .number span.stop),
    ("line", .number span.line), ("column", .number span.column)]

def toJson (span : Span) : Json :=
  .object span.jsonFields

end Span

namespace Kind

def toJson (kind : Kind) : Json :=
  .text kind.name

end Kind

namespace Token

def toJson (token : Token) : Json :=
  .object (("kind", token.kind.toJson) :: ("lexeme", .text token.lexeme)
    :: token.span.jsonFields)

end Token

namespace Found

def toJson : Found → Json
  | .token t => .object [("Token", t.toJson)]
  | .char c => .object [("Char", .text (String.singleton c))]
  | .endOfInput => .text "EndOfInput"

end Found

namespace Expected

def toJson : Expected → Json
  | .kind k => .object [("Kind", k.toJson)]
  | .oneOf ks => .object [("OneOf", .array (ks.map Kind.toJson))]
  | .endOfInput => .text "EndOfInput"
  | .anyToken => .text "AnyToken"

end Expected

namespace Diagnostic

def helpFields : Option String → List (String × Json)
  | none => []
  | some help => [("help", .text help)]

def toJson (diagnostic : Diagnostic) : Json :=
  .object ([("code", .text diagnostic.code), ("message", .text diagnostic.message),
    ("span", diagnostic.span.toJson), ("found", diagnostic.found.toJson),
    ("expected", diagnostic.expected.toJson)] ++ helpFields diagnostic.help)

end Diagnostic

namespace Lexing

def toJson (lexing : Lexing) : Json :=
  .object [("tokens", .array (lexing.tokens.map Token.toJson)),
    ("errors", .array (lexing.errors.map Diagnostic.toJson))]

end Lexing

end Scriptlet
