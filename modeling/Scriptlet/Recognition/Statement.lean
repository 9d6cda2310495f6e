import Scriptlet.Lexing
import Scriptlet.Recognition.Ladder

/-!
# Statements

A list of tokens is recognized if it is one assignment statement, with nothing
left over unless the options allow it.  A text is recognized by its tokens;
characters that are part of no token do not count.
-/

namespace Scriptlet

def assignmentStatement (limit : Nat) (c : Cursor) : Run c :=
  (Run.expect .identifier c).andThen fun d _ =>
    (Run.expect .assignment d).andThen fun e _ => expression limit e

/-- At most `maxDepth` groups may be open at any time; `allowTrailing` lets tokens follow the
statement. -/
structure Options where
  maxDepth : Nat
  allowTrailing : Bool
  deriving DecidableEq, Repr

namespace Options

def standard : Options :=
  ⟨256, false⟩

end Options

/-- One statement from the first token on, wherever the cursor was. -/
def recognition (options : Options) (c : Cursor) : Run c.rewind :=
  (assignmentStatement options.maxDepth c.rewind).andThen fun d _ =>
    if options.allowTrailing then .done d else .expectEnd d

def recognize (options : Options) (tokens : List Token) : Verdict :=
  (recognition options (.start tokens)).verdict

def recognizeText (options : Options) (source : String) : Verdict :=
  recognize options (lex source).tokens

end Scriptlet
