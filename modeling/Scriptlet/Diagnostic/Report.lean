import Scriptlet.Diagnostic
import Scriptlet.Source.Excerpt

/-!
# Reports

A report shows a diagnostic to a reader: the message, the place by name, line
and column, the line of source text, and carets below the offending text.  The
gutter of the source row is as wide as the line number but at least three
columns; that of the other rows is three columns.
-/

namespace Scriptlet

structure Report where
  name : String
  source : String
  deriving DecidableEq, Repr

namespace Report

def padLeft (width : Nat) (text : List Char) : List Char :=
  List.replicate (width - text.length) ' ' ++ text

def lineNumber (line : Nat) : List Char :=
  padLeft 3 (toString line).toList

def sourceLine (report : Report) (span : Span) : List Char :=
  Excerpt.line span.line report.source.toList

def offending (report : Report) (span : Span) : List Char :=
  ((Excerpt.slice? span.start span.stop report.source.toList).getD []).takeWhile (· ≠ '\n')

/-- One caret per offending character; a span of no text gets a single one. -/
def caretCount (report : Report) (span : Span) : Nat :=
  max 1 (report.offending span).length

def emptyGutter : List Char :=
  "   |".toList

def headRow (diagnostic : Diagnostic) : List Char :=
  ("error[" ++ diagnostic.code ++ "]: " ++ diagnostic.message).toList

def placeRow (report : Report) (span : Span) : List Char :=
  ("  --> " ++ report.name ++ ":" ++ toString span.line ++ ":"
    ++ toString span.column).toList

def sourceRow (report : Report) (span : Span) : List Char :=
  lineNumber span.line ++ " | ".toList ++ report.sourceLine span

def caretRow (report : Report) (span : Span) : List Char :=
  emptyGutter ++ ' ' :: List.replicate (span.column - 1) ' '
    ++ List.replicate (report.caretCount span) '^'

def helpRows : Option String → List (List Char)
  | none => []
  | some help => [[], ("help: " ++ help).toList]

def rows (report : Report) (diagnostic : Diagnostic) : List (List Char) :=
  [headRow diagnostic, report.placeRow diagnostic.span, emptyGutter,
    report.sourceRow diagnostic.span, report.caretRow diagnostic.span]
    ++ helpRows diagnostic.help

def render (report : Report) (diagnostic : Diagnostic) : String :=
  String.ofList ((report.rows diagnostic).flatMap (· ++ ['\n']))

end Report

end Scriptlet
