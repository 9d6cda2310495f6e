import Scriptlet.Grammar.Derivation
import Scriptlet.Grammar.Vanishing

/-!
# Vanishing and empty words

The rules that the collection finds are those that derive the empty word.  They
do so because each round only adds rules that vanish by those known before.
There are no others because the collection stops where the known rules are
closed: a derivation of the empty word never leaves a closed set.
-/

namespace Scriptlet.Grammar

variable {g : Grammar} {known pending : List Rule}

theorem vanishesBy_iff {rule : Rule} : g.vanishesBy known rule = true ↔
    ∃ phrase, g.Offers rule phrase ∧ phrase.vanishes known = true := by
  simp only [vanishesBy, List.any_eq_true, Bool.and_eq_true, beq_iff_eq]
  constructor
  · rintro ⟨p, hp, hrule, phrase, hphrase, hvanishes⟩
    exact ⟨phrase, ⟨p, hp, hrule, hphrase⟩, hvanishes⟩
  · rintro ⟨phrase, ⟨p, hp, hrule, hphrase⟩, hvanishes⟩
    exact ⟨p, hp, hrule, phrase, hphrase, hvanishes⟩

/-! ## What is found derives the empty word -/

theorem derives_nil_of_vanishes
    (hknown : ∀ rule ∈ known, g.Derives (.rule rule .done) []) {phrase : Phrase}
    (h : phrase.vanishes known = true) : g.Derives phrase [] := by
  induction phrase with
  | done => exact .done
  | token k rest => contradiction
  | rule r rest ih =>
      obtain ⟨hr, hrest⟩ := Bool.and_eq_true_iff.mp h
      obtain ⟨phrase, front, tail, hword, ho, hphrase, -⟩ :=
        derives_rule_iff.mp (hknown r (List.contains_iff_mem.mp hr))
      obtain ⟨rfl, -⟩ := List.append_eq_nil_iff.mp hword.symm
      exact .rule ho hphrase (ih hrest)
  | many body rest _ ih => exact .stop (ih h)

theorem derives_nil_of_vanishesBy
    (hknown : ∀ rule ∈ known, g.Derives (.rule rule .done) []) {rule : Rule}
    (h : g.vanishesBy known rule = true) : g.Derives (.rule rule .done) [] := by
  obtain ⟨phrase, ho, hphrase⟩ := vanishesBy_iff.mp h
  exact .rule ho (derives_nil_of_vanishes hknown hphrase) .done

private theorem derives_nil_of_mem_saturate
    (hknown : ∀ rule ∈ known, g.Derives (.rule rule .done) []) :
    ∀ rule ∈ g.saturate known pending, g.Derives (.rule rule .done) [] := by
  fun_induction saturate g known pending with
  | case1 => exact hknown
  | case2 known pending _ ih =>
      refine ih fun rule hrule => ?_
      rcases List.mem_append.mp hrule with hrule | hrule
      · exact hknown rule hrule
      · exact derives_nil_of_vanishesBy hknown (List.mem_filter.mp hrule).2

/-! ## What derives the empty word is found -/

/-- No further rule vanishes on account of the known ones. -/
def Saturated (g : Grammar) (known : List Rule) : Prop :=
  ∀ rule, g.vanishesBy known rule = true → rule ∈ known

private theorem saturated_saturate (hall : ∀ rule, rule ∈ known ∨ rule ∈ pending) :
    g.Saturated (g.saturate known pending) := by
  fun_induction saturate g known pending with
  | case1 known pending hnone =>
      intro rule hrule
      rcases hall rule with hmem | hmem
      · exact hmem
      · have hnew : rule ∈ g.newcomers known pending := List.mem_filter.mpr ⟨hmem, hrule⟩
        rw [hnone] at hnew
        contradiction
  | case2 known pending _ ih =>
      refine ih fun rule => ?_
      rcases hall rule with hmem | hmem
      · exact .inl (List.mem_append_left _ hmem)
      · cases hrule : g.vanishesBy known rule with
        | true => exact .inl (List.mem_append_right _ (List.mem_filter.mpr ⟨hmem, hrule⟩))
        | false => exact .inr (List.mem_filter.mpr ⟨hmem, by rw [hrule]; rfl⟩)

theorem Saturated.vanishes (h : g.Saturated known) {phrase : Phrase} {word : List Kind}
    (hderives : g.Derives phrase word) (hword : word = []) : phrase.vanishes known = true := by
  induction hderives with
  | done => rfl
  | token => contradiction
  | @rule r rest phrase front word ho _ _ ihphrase ihrest =>
      obtain ⟨hfront, hword⟩ := List.append_eq_nil_iff.mp hword
      have hr : r ∈ known := h r (vanishesBy_iff.mpr ⟨phrase, ho, ihphrase hfront⟩)
      rw [Phrase.vanishes, ihrest hword, Bool.and_true]
      exact List.contains_iff_mem.mpr hr
  | stop _ ih => exact ih hword
  | again _ _ _ ih => exact ih (List.append_eq_nil_iff.mp hword).2

theorem Saturated.vanishes_iff (h : g.Saturated known)
    (hknown : ∀ rule ∈ known, g.Derives (.rule rule .done) []) {phrase : Phrase} :
    phrase.vanishes known = true ↔ g.Derives phrase [] :=
  ⟨derives_nil_of_vanishes hknown, fun hderives => h.vanishes hderives rfl⟩

theorem Saturated.mem_iff (h : g.Saturated known)
    (hknown : ∀ rule ∈ known, g.Derives (.rule rule .done) []) {rule : Rule} :
    rule ∈ known ↔ g.Derives (.rule rule .done) [] := by
  rw [← h.vanishes_iff hknown, Phrase.vanishes, Phrase.vanishes, Bool.and_true,
    List.contains_iff_mem]

/-! ## The vanishing rules and phrases -/

theorem saturated_vanishing (g : Grammar) : g.Saturated g.vanishing :=
  saturated_saturate fun rule => .inr rule.mem_all

theorem derives_nil_of_mem_vanishing (g : Grammar) :
    ∀ rule ∈ g.vanishing, g.Derives (.rule rule .done) [] :=
  derives_nil_of_mem_saturate (List.forall_mem_nil _)

theorem vanishes_iff {phrase : Phrase} :
    phrase.vanishes g.vanishing = true ↔ g.Derives phrase [] :=
  g.saturated_vanishing.vanishes_iff g.derives_nil_of_mem_vanishing

theorem mem_vanishing_iff {rule : Rule} :
    rule ∈ g.vanishing ↔ g.Derives (.rule rule .done) [] :=
  g.saturated_vanishing.mem_iff g.derives_nil_of_mem_vanishing

end Scriptlet.Grammar
