import Mathlib.Data.List.Induction
import Mathlib.Data.List.Nodup
import Mathlib.Data.List.TakeWhile

/-!
# Runs and first occurrences

The longest front of a list in which every item has a property ends before an
item without it, or with the list.  It is the same before all lists that do not
begin with an item of the property.  Of the items that occur more than once only
the first occurrence counts where repetitions are left out, so that it makes no
difference whether later ones are left out before.
-/

namespace Scriptlet

/-! ## Where a run ends -/

section Runs

variable {α : Type} {p : α → Bool} {rest : List α}

theorem head?_dropWhile (p : α → Bool) (items : List α) :
    (items.dropWhile p).head?.any p = false := by
  have h := List.head?_dropWhile_not p items
  cases hhead : (items.dropWhile p).head? with
  | none => rfl
  | some a => simpa [hhead] using h

theorem takeWhile_append_of_head? (h : rest.head?.any p = false) (items : List α) :
    (items ++ rest).takeWhile p = items.takeWhile p := by
  induction items with
  | nil =>
      cases rest with
      | nil => rfl
      | cons a rest => exact List.takeWhile_cons_of_neg (Bool.eq_false_iff.mp h)
  | cons a items ih =>
      rw [List.cons_append, List.takeWhile_cons, List.takeWhile_cons, ih]

theorem dropWhile_append_of_head? (h : rest.head?.any p = false) (items : List α) :
    (items ++ rest).dropWhile p = items.dropWhile p ++ rest := by
  induction items with
  | nil =>
      cases rest with
      | nil => rfl
      | cons a rest => exact List.dropWhile_cons_of_neg (Bool.eq_false_iff.mp h)
  | cons a items ih =>
      rw [List.cons_append, List.dropWhile_cons, List.dropWhile_cons, ih]
      split <;> rfl

theorem takeWhile_append_of_all {items : List α} (hitems : ∀ a ∈ items, p a = true)
    (h : rest.head?.any p = false) : (items ++ rest).takeWhile p = items := by
  rw [takeWhile_append_of_head? h, List.takeWhile_eq_self_iff.mpr hitems]

theorem dropWhile_append_of_all {items : List α} (hitems : ∀ a ∈ items, p a = true)
    (h : rest.head?.any p = false) : (items ++ rest).dropWhile p = rest := by
  rw [dropWhile_append_of_head? h, List.dropWhile_eq_nil_iff.mpr hitems, List.nil_append]

end Runs

/-! ## First occurrences -/

section FirstOccurrences

variable {α β : Type} [DecidableEq α] [DecidableEq β]

theorem eraseDups_append_singleton (front : List α) (a : α) :
    (front ++ [a]).eraseDups = if a ∈ front then front.eraseDups else front.eraseDups ++ [a] := by
  rw [List.eraseDups_append]
  split
  · next h => simp [List.removeAll, h]
  · next h => simp [List.removeAll, h, List.eraseDups_cons]

theorem nodup_eraseDups (items : List α) : items.eraseDups.Nodup := by
  induction items using List.reverseRecOn with
  | nil => simp
  | append_singleton front a ih =>
      rw [eraseDups_append_singleton]
      split
      · exact ih
      · next hnew =>
          rw [List.nodup_append]
          refine ⟨ih, List.nodup_singleton a, ?_⟩
          simpa using fun b hb => ne_of_mem_of_not_mem hb hnew

theorem eraseDups_append_append {front middle : List α} (h : middle ⊆ front) (back : List α) :
    (front ++ (middle ++ back)).eraseDups = (front ++ back).eraseDups := by
  have hmiddle : middle.removeAll front = [] := by
    simpa [List.removeAll] using fun a => @h a
  rw [List.eraseDups_append, List.eraseDups_append]
  simp only [List.removeAll, List.filter_append] at hmiddle ⊢
  rw [hmiddle, List.nil_append]

theorem eraseDups_flatMap_eraseDups (f : α → List β) (items : List α) (front back : List β) :
    (front ++ (items.eraseDups.flatMap f ++ back)).eraseDups =
      (front ++ (items.flatMap f ++ back)).eraseDups := by
  induction items using List.reverseRecOn generalizing back with
  | nil => rfl
  | append_singleton items a ih =>
      rw [eraseDups_append_singleton]
      split
      · next ha =>
          have hsubset : f a ⊆ front ++ items.flatMap f := fun b hb =>
            List.mem_append_right _ (List.mem_flatMap.mpr ⟨a, ha, hb⟩)
          rw [ih]
          simpa using (eraseDups_append_append hsubset back).symm
      · simpa using ih (f a ++ back)

end FirstOccurrences

end Scriptlet
