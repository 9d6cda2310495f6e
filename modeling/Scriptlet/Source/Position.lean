import Scriptlet.Source.ByteSize
import Scriptlet.Source.Span

/-!
# Positions

A position is the place between two characters of a text that is read from
the front.  Reading a character moves it: the offset grows by the bytes of the
character, a line feed begins the next line, and any other character is one
column wide.
-/

namespace Scriptlet

structure Position where
  offset : Nat
  line : Nat
  column : Nat
  deriving DecidableEq, Repr

namespace Position

def first : Position :=
  ⟨0, 1, 1⟩

def step (p : Position) (c : Char) : Position :=
  if c = '\n' then
    ⟨p.offset + c.utf8Size, p.line + 1, 1⟩
  else
    ⟨p.offset + c.utf8Size, p.line, p.column + 1⟩

def past (p : Position) (text : List Char) : Position :=
  text.foldl step p

def spanOf (p : Position) (text : List Char) : Span :=
  ⟨p.offset, (p.past text).offset, p.line, p.column⟩

@[simp] theorem past_nil (p : Position) : p.past [] = p := rfl

@[simp] theorem past_cons (p : Position) (c : Char) (text : List Char) :
    p.past (c :: text) = (p.step c).past text := rfl

theorem past_append (p : Position) (a b : List Char) :
    p.past (a ++ b) = (p.past a).past b := by
  simp [past]

@[simp] theorem offset_step (p : Position) (c : Char) :
    (p.step c).offset = p.offset + c.utf8Size := by
  unfold step
  split <;> rfl

@[simp] theorem offset_past (p : Position) (text : List Char) :
    (p.past text).offset = p.offset + byteSize text := by
  induction text generalizing p with
  | nil => simp
  | cons c text ih => simp [ih, Nat.add_assoc]

end Position

end Scriptlet
