import Scriptlet.Diagnostic

/-!
# Cursors

A cursor is a place in a list of tokens, kept as the tokens behind it, the
latest in front, and the tokens ahead.  It also counts the groups in
parentheses that are open.
-/

namespace Scriptlet

structure Cursor where
  behind : List Token
  ahead : List Token
  depth : Nat
  deriving DecidableEq, Repr

namespace Cursor

def start (tokens : List Token) : Cursor :=
  ⟨[], tokens, 0⟩

def tokens (c : Cursor) : List Token :=
  c.behind.reverse ++ c.ahead

def position (c : Cursor) : Nat :=
  c.behind.length

def atEnd (c : Cursor) : Bool :=
  c.ahead.isEmpty

def peek? (c : Cursor) : Option Token :=
  c.ahead.head?

def previous? (c : Cursor) : Option Token :=
  c.behind.head?

def sees (c : Cursor) (kind : Kind) : Bool :=
  c.peek?.any fun token => token.kind == kind

/-! ## Moves -/

def advance (c : Cursor) : Cursor :=
  match c.ahead with
  | [] => c
  | token :: rest => { c with behind := token :: c.behind, ahead := rest }

def accept (c : Cursor) (kind : Kind) : Cursor :=
  if c.sees kind then c.advance else c

def rewind (c : Cursor) : Cursor :=
  start c.tokens

def enter (c : Cursor) : Cursor :=
  { c.advance with depth := c.depth + 1 }

def leave (c : Cursor) : Cursor :=
  { c.advance with depth := c.depth - 1 }

@[simp] theorem tokens_start (tokens : List Token) : (start tokens).tokens = tokens := by
  simp [start, Cursor.tokens]

@[simp] theorem tokens_advance (c : Cursor) : c.advance.tokens = c.tokens := by
  unfold advance
  split
  · rfl
  · next h => simp [Cursor.tokens, h]

@[simp] theorem ahead_enter (c : Cursor) : c.enter.ahead = c.advance.ahead := rfl

@[simp] theorem ahead_leave (c : Cursor) : c.leave.ahead = c.advance.ahead := rfl

@[simp] theorem tokens_enter (c : Cursor) : c.enter.tokens = c.tokens :=
  tokens_advance c

@[simp] theorem tokens_leave (c : Cursor) : c.leave.tokens = c.tokens :=
  tokens_advance c

theorem sees_iff {c : Cursor} {kind : Kind} :
    c.sees kind = true ↔ ∃ token rest, c.ahead = token :: rest ∧ token.kind = kind := by
  cases h : c.ahead <;> simp [sees, peek?, h]

theorem length_ahead_advance_le (c : Cursor) : c.advance.ahead.length ≤ c.ahead.length := by
  unfold advance
  split
  · exact Nat.le_refl _
  · next h => simp [h]

theorem length_ahead_advance_lt {c : Cursor} (h : c.ahead ≠ []) :
    c.advance.ahead.length < c.ahead.length := by
  unfold advance
  split
  · contradiction
  · next h => simp [h]

theorem ne_nil_of_sees {c : Cursor} {kind : Kind} (h : c.sees kind = true) :
    c.ahead ≠ [] := by
  obtain ⟨_, _, h, _⟩ := sees_iff.mp h
  simp [h]

/-! ## Reports on what comes next -/

/-- The span of no text just past the last token.  At the end, that is the token behind. -/
def endSpan (c : Cursor) : Span :=
  match c.previous? with
  | none => .point 0 1 1
  | some last => .point last.span.stop last.span.line (last.span.column + last.lexeme.length)

def unexpected (c : Cursor) (expected : Expected) : Diagnostic :=
  match c.peek? with
  | some token => .mismatch expected (.token token) token.span
  | none => .mismatch expected .endOfInput c.endSpan

@[simp] theorem expected_unexpected (c : Cursor) (expected : Expected) :
    (c.unexpected expected).expected = expected := by
  unfold unexpected
  split <;> rfl

@[simp] theorem code_unexpected (c : Cursor) (expected : Expected) :
    (c.unexpected expected).code = Diagnostic.mismatchCode expected := by
  unfold unexpected
  split <;> rfl

def consume (c : Cursor) (kind : Kind) : Except Diagnostic (Token × Cursor) :=
  match c.peek? with
  | some token =>
      if token.kind = kind then .ok (token, c.advance) else .error (c.unexpected (.kind kind))
  | none => .error (c.unexpected (.kind kind))

end Cursor

end Scriptlet
