import Scriptlet.Recognition.Statement

/-!
# Sessions

A session works on one cursor by one request after the other.  What a request
does to the cursor stays for the next one, the count of open groups included;
only recognizing a whole statement starts over.
-/

namespace Scriptlet

inductive Request where
  | peek
  | advance
  | previous
  | sees (kind : Kind)
  | accept (kind : Kind)
  | consume (kind : Kind)
  | unexpected (expected : Expected)
  | expectEnd
  | expression
  | assignmentStatement
  | recognize
  deriving DecidableEq, Repr

inductive Reply where
  | token (token : Option Token)
  | answer (yes : Bool)
  | consumed (token : Except Diagnostic Token)
  | diagnostic (diagnostic : Diagnostic)
  | verdict (verdict : Verdict)

namespace Reply

def ofRun {c : Cursor} (run : Run c) : Reply × Cursor :=
  (.verdict run.verdict, run.cursor)

end Reply

namespace Cursor

def perform (options : Options) (c : Cursor) : Request → Reply × Cursor
  | .peek => (.token c.peek?, c)
  | .advance => (.token c.peek?, c.advance)
  | .previous => (.token c.previous?, c)
  | .sees kind => (.answer (c.sees kind), c)
  | .accept kind => (.answer (c.sees kind), c.accept kind)
  | .consume kind =>
      match c.consume kind with
      | .ok (token, d) => (.consumed (.ok token), d)
      | .error diagnostic => (.consumed (.error diagnostic), c)
  | .unexpected expected => (.diagnostic (c.unexpected expected), c)
  | .expectEnd => Reply.ofRun (Run.expectEnd c)
  | .expression => Reply.ofRun (Scriptlet.expression options.maxDepth c)
  | .assignmentStatement => Reply.ofRun (Scriptlet.assignmentStatement options.maxDepth c)
  | .recognize => Reply.ofRun (recognition options c)

def session (options : Options) (c : Cursor) : List Request → List (Reply × Cursor)
  | [] => []
  | request :: rest =>
      let outcome := c.perform options request
      outcome :: session options outcome.2 rest

end Cursor

end Scriptlet
