/-!
# Spans

A span says where a piece of source text stands.  Offsets count bytes of the
UTF-8 form, so that a span can cut the text; line and column count from one,
in characters, which is what a reader of a report expects.
-/

namespace Scriptlet

/-- The bytes from `start` up to but excluding `stop`; line and column are those of `start`. -/
structure Span where
  start : Nat
  stop : Nat
  line : Nat
  column : Nat
  deriving DecidableEq, Repr

namespace Span

def point (offset line column : Nat) : Span :=
  ⟨offset, offset, line, column⟩

def length (span : Span) : Nat :=
  span.stop - span.start

def isEmpty (span : Span) : Bool :=
  span.start == span.stop

@[simp] theorem length_point (offset line column : Nat) :
    (point offset line column).length = 0 := by
  simp [point, length]

@[simp] theorem isEmpty_point (offset line column : Nat) :
    (point offset line column).isEmpty = true := by
  simp [point, isEmpty]

end Span

end Scriptlet
