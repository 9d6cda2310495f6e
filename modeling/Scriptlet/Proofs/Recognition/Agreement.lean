import Mathlib.Data.List.Forall2
import Scriptlet.Proofs.Recognition.Verdict

/-!
# Agreement up to offsets

Two lists of tokens agree if they differ in offsets at most: one by one they
have the same kind, lexeme, line and column.  Recognition tells them apart no
further.  A scan looks at kinds, so that it stops at the same place in both,
and a refusal is about two tokens that agree, or about the end of both.
-/

namespace Scriptlet

structure Token.Agrees (a b : Token) : Prop where
  kind_eq : a.kind = b.kind
  lexeme_eq : a.lexeme = b.lexeme
  line_eq : a.span.line = b.span.line
  column_eq : a.span.column = b.span.column

inductive Found.Agrees : Found → Found → Prop
  | token {a b : Token} : a.Agrees b → Agrees (.token a) (.token b)
  | char (c : Char) : Agrees (.char c) (.char c)
  | endOfInput : Agrees .endOfInput .endOfInput

structure Diagnostic.Agrees (a b : Diagnostic) : Prop where
  code_eq : a.code = b.code
  expected_eq : a.expected = b.expected
  line_eq : a.span.line = b.span.line
  column_eq : a.span.column = b.span.column
  found : a.found.Agrees b.found

/-- Both accept, or both refuse with diagnostics that agree. -/
inductive VerdictsAgree : Verdict → Verdict → Prop
  | ok : VerdictsAgree (.ok ()) (.ok ())
  | error {a b : Diagnostic} : a.Agrees b → VerdictsAgree (.error a) (.error b)

/-! ## Cursors -/

abbrev TokensAgree : List Token → List Token → Prop :=
  List.Forall₂ Token.Agrees

structure Cursor.Agrees (c d : Cursor) : Prop where
  behind : TokensAgree c.behind d.behind
  ahead : TokensAgree c.ahead d.ahead

namespace Cursor.Agrees

variable {c d : Cursor}

theorem peek? (h : c.Agrees d) :
    (c.peek? = none ∧ d.peek? = none) ∨
      ∃ a b, c.peek? = some a ∧ d.peek? = some b ∧ a.Agrees b := by
  obtain ⟨behind, ahead, depth⟩ := c
  obtain ⟨behind', ahead', depth'⟩ := d
  cases h.ahead with
  | nil => simp [Cursor.peek?]
  | cons hab _ => simp [Cursor.peek?, hab]

theorem endSpan (h : c.Agrees d) :
    c.endSpan.line = d.endSpan.line ∧ c.endSpan.column = d.endSpan.column := by
  obtain ⟨behind, ahead, depth⟩ := c
  obtain ⟨behind', ahead', depth'⟩ := d
  cases h.behind with
  | nil => simp [Cursor.endSpan, Cursor.previous?]
  | cons hab _ =>
      simp [Cursor.endSpan, Cursor.previous?, Span.point, hab.line_eq, hab.column_eq,
        hab.lexeme_eq]

theorem unexpected (h : c.Agrees d) (expected : Expected) :
    (c.unexpected expected).Agrees (d.unexpected expected) := by
  unfold Cursor.unexpected
  rcases h.peek? with ⟨hc, hd⟩ | ⟨a, b, hc, hd, hab⟩
  · simp only [hc, hd]
    exact ⟨rfl, rfl, h.endSpan.1, h.endSpan.2, .endOfInput⟩
  · simp only [hc, hd]
    exact ⟨rfl, rfl, hab.line_eq, hab.column_eq, .token hab⟩

theorem report (h : c.Agrees d) (limit : Nat) (stage : Stage) :
    (stage.report limit c).Agrees (stage.report limit d) := by
  unfold Stage.report
  rcases h.peek? with ⟨hc, hd⟩ | ⟨a, b, hc, hd, hab⟩
  · simp only [hc, hd]
    exact h.unexpected _
  · cases stage with
    | operand opened =>
        simp only [hc, hd, hab.kind_eq]
        split
        · exact ⟨rfl, rfl, hab.line_eq, hab.column_eq, .token hab⟩
        · exact h.unexpected _
    | target | assignment | operator => exact h.unexpected _

end Cursor.Agrees

/-! ## Scans -/

structure Stop.Agrees (a b : Stop) : Prop where
  stage_eq : a.stage = b.stage
  behind : TokensAgree a.behind b.behind
  ahead : TokensAgree a.ahead b.ahead

theorem scan_agrees (limit : Nat) (stage : Stage) {behind behind' ahead ahead' : List Token}
    (hbehind : TokensAgree behind behind') (hahead : TokensAgree ahead ahead') :
    (scan limit stage behind ahead).Agrees (scan limit stage behind' ahead') := by
  induction hahead generalizing stage behind behind' with
  | nil => exact ⟨rfl, hbehind, .nil⟩
  | cons hab hrest ih =>
      unfold scan
      rw [hab.kind_eq]
      split
      · exact ih _ (.cons hab hbehind)
      · exact ⟨rfl, hbehind, .cons hab hrest⟩

namespace Stop.Agrees

variable {a b : Stop}

theorem accepted_iff (h : a.Agrees b) (options : Options) :
    a.Accepted options ↔ b.Accepted options := by
  have hnil : a.ahead = [] ↔ b.ahead = [] := by
    have hlength := h.ahead.length_eq
    rw [← List.length_eq_zero_iff, ← List.length_eq_zero_iff, hlength]
  rw [Accepted, Accepted, h.stage_eq, hnil]

theorem diagnostic (h : a.Agrees b) (options : Options) :
    (a.diagnostic options).Agrees (b.diagnostic options) := by
  have hcursor : (a.cursor 0).Agrees (b.cursor 0) := ⟨h.behind, h.ahead⟩
  rw [Stop.diagnostic, Stop.diagnostic, h.stage_eq]
  exact hcursor.report options.maxDepth b.stage

end Stop.Agrees

theorem recognize_agrees {tokens tokens' : List Token} (h : TokensAgree tokens tokens')
    (options : Options) :
    VerdictsAgree (recognize options tokens) (recognize options tokens') := by
  have hstop : (options.scan tokens).Agrees (options.scan tokens') := scan_agrees _ _ .nil h
  rw [recognize_eq_scan, recognize_eq_scan]
  by_cases haccepted : (options.scan tokens).Accepted options
  · rw [if_pos haccepted, if_pos ((hstop.accepted_iff options).mp haccepted)]
    exact .ok
  · rw [if_neg haccepted, if_neg (mt (hstop.accepted_iff options).mpr haccepted)]
    exact .error (hstop.diagnostic options)

end Scriptlet
