import Scriptlet.Grammar.Leading
import Scriptlet.Lexicon.Catalog

/-!
# Validation

A table of productions can serve as a grammar for reading with one token of
lookahead if it has none of the defects listed here.  They are collected in a
fixed order, and the first one is the one reported: repeated rules; the start
rule; then, production by production and symbol by symbol, undefined rules,
terminals that no text can contain, and repetitions of what can be empty; then
left recursion; and last, alternatives that begin alike.
-/

namespace Scriptlet

inductive Defect where
  | duplicateRule (rule : Rule)
  | undefinedRule (rule : Rule) (referencedBy : Option Rule)
  | unknownTerminal (kind : Kind) (rule : Rule)
  | vanishingRepetition (rule : Rule)
  | leftRecursion (rule : Rule)
  | ambiguousAlternatives (rule : Rule) (kind : Kind)
  deriving DecidableEq, Repr

namespace Defect

def rule : Defect → Rule
  | .duplicateRule r => r
  | .undefinedRule r _ => r
  | .unknownTerminal _ r => r
  | .vanishingRepetition r => r
  | .leftRecursion r => r
  | .ambiguousAlternatives r _ => r

def message : Defect → String
  | .duplicateRule r => "rule `" ++ r.name ++ "` is defined more than once"
  | .undefinedRule r (some user) =>
      "rule `" ++ r.name ++ "` referenced by `" ++ user.name ++ "` is not defined"
  | .undefinedRule r none => "start rule `" ++ r.name ++ "` is not defined"
  | .unknownTerminal k r =>
      "rule `" ++ r.name ++ "` uses `" ++ k.name ++ "`, which the vocabulary never emits"
  | .vanishingRepetition r =>
      "rule `" ++ r.name ++ "` repeats a sequence that can be empty"
  | .leftRecursion r => "rule `" ++ r.name ++ "` is left-recursive"
  | .ambiguousAlternatives r k =>
      "alternatives of `" ++ r.name ++ "` both start with `" ++ k.name ++ "`"

end Defect

namespace Grammar

def repeatedRules (seen : List Rule) : List Production → List Rule
  | [] => []
  | p :: rest =>
      if seen.contains p.rule then p.rule :: repeatedRules seen rest
      else repeatedRules (p.rule :: seen) rest

def startDefects (g : Grammar) : List Defect :=
  if g.defines g.start then [] else [.undefinedRule g.start none]

/-- The defects of the symbols in a phrase of `user`, a repetition before its body. -/
def symbolDefects (g : Grammar) (user : Rule) : Phrase → List Defect
  | .done => []
  | .token kind rest =>
      (if (Lexicon.entryFor? kind).isSome then [] else [.unknownTerminal kind user])
        ++ symbolDefects g user rest
  | .rule rule rest =>
      (if g.defines rule then [] else [.undefinedRule rule (some user)])
        ++ symbolDefects g user rest
  | .many body rest =>
      (if body.vanishes g.vanishing then [.vanishingRepetition user] else [])
        ++ symbolDefects g user body ++ symbolDefects g user rest

/-- The first shared kind of every two lists, by the place of the one and then of the other. -/
def sharedKinds : List (List Kind) → List Kind
  | [] => []
  | kinds :: rest => rest.filterMap (fun other => kinds.find? other.contains) ++ sharedKinds rest

def clashes (g : Grammar) (p : Production) : List Kind :=
  sharedKinds (p.alternatives.map g.firstOfPhrase)

def defects (g : Grammar) : List Defect :=
  (repeatedRules [] g.productions).map .duplicateRule
    ++ g.startDefects
    ++ g.productions.flatMap (fun p => p.alternatives.flatMap (g.symbolDefects p.rule))
    ++ ((g.productions.map Production.rule).filter g.isLeftRecursive).map .leftRecursion
    ++ g.productions.flatMap (fun p => (g.clashes p).map (.ambiguousAlternatives p.rule))

def defect? (g : Grammar) : Option Defect :=
  g.defects.head?

def isValid (g : Grammar) : Bool :=
  g.defects.isEmpty

theorem isValid_iff {g : Grammar} : g.isValid = true ↔ g.defect? = none := by
  simp [isValid, defect?]

end Grammar

end Scriptlet
