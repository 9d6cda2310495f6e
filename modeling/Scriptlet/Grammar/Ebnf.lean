import Scriptlet.Grammar.Basic

/-!
# Grammars in EBNF

A production is written `rule := alternative | alternative`, the symbols of an
alternative with a blank between them, and a repetition as `( body )*`.
-/

namespace Scriptlet

namespace Phrase

def words : Phrase → List String
  | .done => []
  | .token k rest => k.name :: rest.words
  | .rule r rest => r.name :: rest.words
  | .many body rest => ("( " ++ " ".intercalate body.words ++ " )*") :: rest.words

def ebnf (phrase : Phrase) : String :=
  " ".intercalate phrase.words

end Phrase

namespace Production

def ebnf (p : Production) : String :=
  p.rule.name ++ " := " ++ " | ".intercalate (p.alternatives.map Phrase.ebnf)

end Production

end Scriptlet
