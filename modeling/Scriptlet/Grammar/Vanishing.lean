import Scriptlet.Grammar.Basic

/-!
# Vanishing rules

A rule vanishes if it derives the empty sequence of tokens.  Whether a phrase
vanishes follows from the rules that do: a token never vanishes, a repetition
always can.  The vanishing rules are collected in rounds.  Each round adds the
rules that vanish on account of those known so far, and the collection is
complete once a round adds nothing.
-/

namespace Scriptlet

namespace Phrase

/-- Whether the phrase can be empty if the rules in `known` can. -/
def vanishes (known : List Rule) : Phrase → Bool
  | .done => true
  | .token _ _ => false
  | .rule r rest => known.contains r && rest.vanishes known
  | .many _ rest => rest.vanishes known

end Phrase

namespace Grammar

def vanishesBy (g : Grammar) (known : List Rule) (rule : Rule) : Bool :=
  g.productions.any fun p => p.rule == rule && p.alternatives.any (Phrase.vanishes known)

def newcomers (g : Grammar) (known pending : List Rule) : List Rule :=
  pending.filter (g.vanishesBy known)

def others (g : Grammar) (known pending : List Rule) : List Rule :=
  pending.filter fun rule => !g.vanishesBy known rule

theorem length_others_lt {g : Grammar} {known pending : List Rule}
    (h : g.newcomers known pending ≠ []) :
    (g.others known pending).length < pending.length := by
  obtain ⟨rule, hrule⟩ := List.exists_mem_of_ne_nil _ h
  obtain ⟨hmem, hvanishes⟩ := List.mem_filter.mp hrule
  rw [others, List.length_filter_lt_length_iff_exists]
  exact ⟨rule, hmem, by simp [hvanishes]⟩

/-- Adds to `known` the rules among `pending` that vanish, round by round. -/
def saturate (g : Grammar) (known pending : List Rule) : List Rule :=
  if g.newcomers known pending = [] then known
  else saturate g (known ++ g.newcomers known pending) (g.others known pending)
termination_by pending.length
decreasing_by exact length_others_lt ‹_›

def vanishing (g : Grammar) : List Rule :=
  saturate g [] Rule.all

end Grammar

end Scriptlet
