import Scriptlet.Grammar.Vanishing

/-!
# What a phrase can begin with

A leader of a phrase is a token or rule at which it can begin, what stands in
front of it having vanished.  Following the leaders of rules, and never
entering a rule that is still being followed, visits all that a phrase can
begin with, in the order of the alternatives.  The tokens met are the FIRST
set.  A rule met below itself is left-recursive.
-/

namespace Scriptlet

inductive Leader where
  | token (kind : Kind)
  | rule (rule : Rule)
  deriving DecidableEq, Repr

namespace Leader

def kind? : Leader → Option Kind
  | .token k => some k
  | .rule _ => none

end Leader

namespace Phrase

def leaders (vanishing : List Rule) : Phrase → List Leader
  | .done => []
  | .token k _ => [.token k]
  | .rule r rest => .rule r :: if vanishing.contains r then rest.leaders vanishing else []
  | .many body rest => body.leaders vanishing ++ rest.leaders vanishing

end Phrase

namespace Grammar

def leaders (g : Grammar) (rule : Rule) : List Leader :=
  ((g.alternatives rule).flatMap (Phrase.leaders g.vanishing)).eraseDups

/-- All that is met in following the rule, where only the rules in `fresh` may be entered. -/
def descend (g : Grammar) (fresh : List Rule) (rule : Rule) : List Leader :=
  if rule ∈ fresh then
    (g.leaders rule).flatMap fun
      | .token kind => [.token kind]
      | .rule next => .rule next :: descend g (fresh.erase rule) next
  else []
termination_by fresh.length
decreasing_by
  next h =>
    have := List.length_pos_of_mem h
    rw [List.length_erase_of_mem h]
    omega

def reach (g : Grammar) : Leader → List Leader
  | .token kind => [.token kind]
  | .rule rule => .rule rule :: g.descend Rule.all rule

def firstOfPhrase (g : Grammar) (phrase : Phrase) : List Kind :=
  (((phrase.leaders g.vanishing).flatMap g.reach).filterMap Leader.kind?).eraseDups

def first (g : Grammar) (rule : Rule) : List Kind :=
  ((g.descend Rule.all rule).filterMap Leader.kind?).eraseDups

def isLeftRecursive (g : Grammar) (rule : Rule) : Bool :=
  (g.descend Rule.all rule).contains (.rule rule)

end Grammar

end Scriptlet
