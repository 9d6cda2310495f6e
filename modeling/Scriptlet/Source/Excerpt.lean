import Scriptlet.Source.ByteSize

/-!
# Excerpts

Two ways to cut a piece out of a text: the line with a given number, and the
characters between two byte offsets.  Lines end at a line feed; a carriage
return directly before that line feed belongs to the line end.
-/

namespace Scriptlet.Excerpt

/-! ## Lines -/

def dropLines : Nat → List Char → List Char
  | 0, text => text
  | _ + 1, [] => []
  | n + 1, c :: text => if c = '\n' then dropLines n text else dropLines (n + 1) text

def firstLine : List Char → List Char
  | [] => []
  | '\n' :: _ => []
  | '\r' :: '\n' :: _ => []
  | c :: text => c :: firstLine text

/-- Line `n`, counting from one; a line that is not there is empty, and line zero is line one. -/
def line (n : Nat) (text : List Char) : List Char :=
  firstLine (dropLines (n - 1) text)

/-! ## Slices by byte offset -/

/-- What follows the first `n` bytes; `none` if these do not end between two characters. -/
def dropBytes? : Nat → List Char → Option (List Char)
  | 0, text => some text
  | _ + 1, [] => none
  | n + 1, c :: text =>
      if c.utf8Size ≤ n + 1 then dropBytes? (n + 1 - c.utf8Size) text else none

def takeBytes? : Nat → List Char → Option (List Char)
  | 0, _ => some []
  | _ + 1, [] => none
  | n + 1, c :: text =>
      if c.utf8Size ≤ n + 1 then
        (takeBytes? (n + 1 - c.utf8Size) text).map (c :: ·)
      else none

/-- The bytes from `start` up to `stop`; `none` unless both are places between characters of the
text and in this order. -/
def slice? (start stop : Nat) (text : List Char) : Option (List Char) :=
  if start ≤ stop then
    (dropBytes? start text).bind (takeBytes? (stop - start))
  else none

theorem dropBytes?_of_le {c : Char} {n : Nat} (h : c.utf8Size ≤ n) (text : List Char) :
    dropBytes? n (c :: text) = dropBytes? (n - c.utf8Size) text := by
  cases n with
  | zero => exact absurd c.utf8Size_pos (by omega)
  | succ n => rw [dropBytes?, if_pos h]

theorem takeBytes?_of_le {c : Char} {n : Nat} (h : c.utf8Size ≤ n) (text : List Char) :
    takeBytes? n (c :: text) = (takeBytes? (n - c.utf8Size) text).map (c :: ·) := by
  cases n with
  | zero => exact absurd c.utf8Size_pos (by omega)
  | succ n => rw [takeBytes?, if_pos h]

@[simp] theorem dropBytes?_append (front text : List Char) :
    dropBytes? (byteSize front) (front ++ text) = some text := by
  induction front with
  | nil => rw [byteSize_nil, List.nil_append, dropBytes?]
  | cons c front ih =>
      rw [byteSize_cons, List.cons_append, dropBytes?_of_le (by omega),
        Nat.add_sub_cancel_left, ih]

@[simp] theorem takeBytes?_append (front text : List Char) :
    takeBytes? (byteSize front) (front ++ text) = some front := by
  induction front with
  | nil => rw [byteSize_nil, List.nil_append, takeBytes?]
  | cons c front ih =>
      rw [byteSize_cons, List.cons_append, takeBytes?_of_le (by omega),
        Nat.add_sub_cancel_left, ih, Option.map_some]

theorem dropBytes?_eq_some_iff {n : Nat} {text rest : List Char} :
    dropBytes? n text = some rest ↔ ∃ front, text = front ++ rest ∧ byteSize front = n := by
  constructor
  · intro h
    fun_induction dropBytes? n text with
    | case1 text => exact ⟨[], Option.some.inj h, rfl⟩
    | case2 n => contradiction
    | case3 n c text hfits ih =>
        obtain ⟨front, rfl, hsize⟩ := ih h
        refine ⟨c :: front, rfl, ?_⟩
        rw [byteSize_cons, hsize]
        omega
    | case4 n c text hlarge => contradiction
  · rintro ⟨front, rfl, rfl⟩
    exact dropBytes?_append front rest

theorem takeBytes?_eq_some_iff {n : Nat} {text front : List Char} :
    takeBytes? n text = some front ↔ ∃ rest, text = front ++ rest ∧ byteSize front = n := by
  constructor
  · intro h
    fun_induction takeBytes? n text generalizing front with
    | case1 text =>
        obtain rfl := Option.some.inj h
        exact ⟨text, rfl, rfl⟩
    | case2 n => contradiction
    | case3 n c text hfits ih =>
        obtain ⟨front, hfront, rfl⟩ := Option.map_eq_some_iff.mp h
        obtain ⟨rest, rfl, hsize⟩ := ih hfront
        refine ⟨rest, rfl, ?_⟩
        rw [byteSize_cons, hsize]
        omega
    | case4 n c text hlarge => contradiction
  · rintro ⟨rest, rfl, rfl⟩
    exact takeBytes?_append front rest

theorem slice?_append (front middle rest : List Char) :
    slice? (byteSize front) (byteSize front + byteSize middle) (front ++ (middle ++ rest))
      = some middle := by
  simp [slice?]

theorem slice?_eq_some_iff {start stop : Nat} {text piece : List Char} :
    slice? start stop text = some piece ↔ ∃ front rest, text = front ++ (piece ++ rest) ∧
      byteSize front = start ∧ byteSize front + byteSize piece = stop := by
  constructor
  · intro h
    unfold slice? at h
    split at h
    · next hle =>
        obtain ⟨behind, hdrop, htake⟩ := Option.bind_eq_some_iff.mp h
        obtain ⟨front, rfl, hfront⟩ := dropBytes?_eq_some_iff.mp hdrop
        obtain ⟨rest, rfl, hpiece⟩ := takeBytes?_eq_some_iff.mp htake
        exact ⟨front, rest, rfl, hfront, by omega⟩
    · contradiction
  · rintro ⟨front, rest, rfl, rfl, rfl⟩
    exact slice?_append front piece rest

end Scriptlet.Excerpt
