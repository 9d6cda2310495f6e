import Scriptlet.Recognition.Cursor

/-!
# Runs

A run is what became of applying a rule at a cursor: whether it succeeded, and
the cursor it left behind, which has moved on or stayed.  That a run never
moves back is part of its type, so that rules can be composed into loops that
are seen to end.
-/

namespace Scriptlet

abbrev Verdict := Except Diagnostic Unit

structure Run (c : Cursor) where
  verdict : Verdict
  cursor : Cursor
  length_le : cursor.ahead.length ≤ c.ahead.length

namespace Run

def done (c : Cursor) : Run c :=
  ⟨.ok (), c, Nat.le_refl _⟩

def refuse (c : Cursor) (diagnostic : Diagnostic) : Run c :=
  ⟨.error diagnostic, c, Nat.le_refl _⟩

def step (c : Cursor) : Run c :=
  ⟨.ok (), c.advance, c.length_ahead_advance_le⟩

def since {c d : Cursor} (h : d.ahead.length ≤ c.ahead.length) (run : Run d) : Run c :=
  ⟨run.verdict, run.cursor, Nat.le_trans run.length_le h⟩

/-- Goes on where a successful run stopped; a failed one stays as it is. -/
def andThen {c : Cursor} (run : Run c)
    (next : (d : Cursor) → d.ahead.length ≤ c.ahead.length → Run d) : Run c :=
  match run.verdict with
  | .ok () => (next run.cursor run.length_le).since run.length_le
  | .error _ => run

@[simp] theorem verdict_since {c d : Cursor} (h : d.ahead.length ≤ c.ahead.length)
    (run : Run d) : (run.since h).verdict = run.verdict := rfl

@[simp] theorem cursor_since {c d : Cursor} (h : d.ahead.length ≤ c.ahead.length)
    (run : Run d) : (run.since h).cursor = run.cursor := rfl

theorem andThen_of_ok {c : Cursor} {run : Run c} (h : run.verdict = .ok ())
    (next : (d : Cursor) → d.ahead.length ≤ c.ahead.length → Run d) :
    run.andThen next = (next run.cursor run.length_le).since run.length_le := by
  unfold andThen
  rw [h]

theorem andThen_of_error {c : Cursor} {run : Run c} {diagnostic : Diagnostic}
    (h : run.verdict = .error diagnostic)
    (next : (d : Cursor) → d.ahead.length ≤ c.ahead.length → Run d) :
    run.andThen next = run := by
  unfold andThen
  rw [h]

def expect (kind : Kind) (c : Cursor) : Run c :=
  if c.sees kind then step c else refuse c (c.unexpected (.kind kind))

def expectEnd (c : Cursor) : Run c :=
  if c.atEnd then done c else refuse c (c.unexpected .endOfInput)

end Run

end Scriptlet
