/-!
# Sizes in bytes

Offsets into a text count the bytes of its UTF-8 form, of which a character
takes one to four.
-/

namespace Scriptlet

def byteSize : List Char → Nat
  | [] => 0
  | c :: text => c.utf8Size + byteSize text

@[simp] theorem byteSize_nil : byteSize [] = 0 := rfl

@[simp] theorem byteSize_cons (c : Char) (text : List Char) :
    byteSize (c :: text) = c.utf8Size + byteSize text := rfl

@[simp] theorem byteSize_append (a b : List Char) :
    byteSize (a ++ b) = byteSize a + byteSize b := by
  induction a with
  | nil => simp
  | cons c a ih => rw [List.cons_append, byteSize_cons, byteSize_cons, ih, Nat.add_assoc]

theorem length_le_byteSize (text : List Char) : text.length ≤ byteSize text := by
  induction text with
  | nil => simp
  | cons c text ih =>
      have := c.utf8Size_pos
      simp only [List.length_cons, byteSize_cons]
      omega

@[simp] theorem byteSize_eq_zero_iff {text : List Char} : byteSize text = 0 ↔ text = [] := by
  constructor
  · intro h
    have := length_le_byteSize text
    exact List.eq_nil_of_length_eq_zero (by omega)
  · rintro rfl
    rfl

theorem byteSize_le_of_isPrefix {a b : List Char} (h : a <+: b) : byteSize a ≤ byteSize b := by
  obtain ⟨more, rfl⟩ := h
  rw [byteSize_append]
  exact Nat.le_add_right _ _

theorem isPrefix_of_byteSize_le {text a b : List Char} (ha : a <+: text) (hb : b <+: text)
    (h : byteSize a ≤ byteSize b) : a <+: b := by
  rcases List.prefix_or_prefix_of_prefix ha hb with hab | ⟨more, rfl⟩
  · exact hab
  · rw [byteSize_append] at h
    obtain rfl : more = [] := byteSize_eq_zero_iff.mp (by omega)
    simp

theorem eq_of_byteSize_eq {text a b : List Char} (ha : a <+: text) (hb : b <+: text)
    (h : byteSize a = byteSize b) : a = b := by
  obtain ⟨more, rfl⟩ := isPrefix_of_byteSize_le ha hb (Nat.le_of_eq h)
  rw [byteSize_append] at h
  obtain rfl : more = [] := byteSize_eq_zero_iff.mp (by omega)
  rw [List.append_nil]

end Scriptlet
