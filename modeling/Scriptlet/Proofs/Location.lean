import Mathlib.Data.List.DropRight
import Scriptlet.Proofs.Lexing.Tiling
import Scriptlet.Proofs.Recognition.Completion

/-!
# Locations

Where a reader finds a place of a text: its line is counted by the line feeds
in front of it, its column by the characters since the last of them.  Positions
are kept step by step while a text is read, and at the end of the tokens one is
computed from the last token; both agree with the count.
-/

namespace Scriptlet

/-! ## Line and column by counting -/

def lastLine (text : List Char) : List Char :=
  text.rtakeWhile (· ≠ '\n')

private theorem lastLine_append_feed (text : List Char) : lastLine (text ++ ['\n']) = [] :=
  List.rtakeWhile_concat_neg _ _ _ (by decide)

private theorem lastLine_append_singleton (text : List Char) {c : Char} (hc : c ≠ '\n') :
    lastLine (text ++ [c]) = lastLine text ++ [c] :=
  List.rtakeWhile_concat_pos _ _ _ (decide_eq_true hc)

theorem lastLine_append (front text : List Char) :
    lastLine (front ++ text) =
      if '\n' ∈ text then lastLine text else lastLine front ++ text := by
  induction text using List.reverseRecOn with
  | nil => simp
  | append_singleton text c ih =>
      rw [← List.append_assoc]
      by_cases hc : c = '\n'
      · rw [hc, lastLine_append_feed, lastLine_append_feed, if_pos (by simp)]
      · rw [lastLine_append_singleton _ hc, lastLine_append_singleton _ hc, ih]
        split <;> simp_all [Ne.symm hc]

theorem lastLine_of_not_mem {text : List Char} (h : '\n' ∉ text) : lastLine text = text := by
  have happend := lastLine_append [] text
  rw [if_neg h] at happend
  exact happend

theorem not_mem_lastLine (text : List Char) : '\n' ∉ lastLine text := by
  intro h
  simpa using List.mem_rtakeWhile_imp h

namespace Position

theorem past_first (text : List Char) : first.past text =
    ⟨byteSize text, 1 + text.count '\n', 1 + (lastLine text).length⟩ := by
  induction text using List.reverseRecOn with
  | nil => rfl
  | append_singleton text c ih =>
      rw [past_append, ih, past_cons, past_nil, step]
      by_cases hc : c = '\n'
      · rw [if_pos hc, hc, lastLine_append_feed, byteSize_append, List.count_append]
        rfl
      · rw [if_neg hc, lastLine_append_singleton text hc, byteSize_append, List.count_append,
          List.count_singleton, if_neg (by simpa using hc), List.length_append]
        rfl

theorem past_of_not_mem (p : Position) {word : List Char} (h : '\n' ∉ word) :
    p.past word = ⟨p.offset + byteSize word, p.line, p.column + word.length⟩ := by
  induction word generalizing p with
  | nil => rfl
  | cons c word ih =>
      obtain ⟨hc, hword⟩ := List.ne_and_not_mem_of_not_mem_cons h
      rw [past_cons, ih _ hword, step, if_neg (Ne.symm hc), byteSize_cons, List.length_cons,
        Nat.add_assoc, Nat.add_assoc, Nat.add_comm 1]

end Position

namespace Span

/-- The span starts between two characters of the text, at the line and column that counting
gives for this place. -/
def LocatedIn (span : Span) (text : List Char) : Prop :=
  ∃ front rest, text = front ++ rest ∧ span.start = byteSize front ∧
    span.line = 1 + front.count '\n' ∧ span.column = 1 + (lastLine front).length

theorem locatedIn_of_past {span : Span} {front : List Char} (rest : List Char)
    (h : Position.first.past front = ⟨span.start, span.line, span.column⟩) :
    span.LocatedIn (front ++ rest) := by
  rw [Position.past_first] at h
  obtain ⟨hstart, hline, hcolumn⟩ := Position.mk.inj h
  exact ⟨front, rest, rfl, hstart.symm, hline.symm, hcolumn.symm⟩

end Span

theorem Tiles.locatedIn {text : List Char} {items : List Item} (h : Tiles .first text items) :
    ∀ item ∈ items, item.span.LocatedIn text := by
  intro item hitem
  obtain ⟨front, rest, rfl, hspan, -⟩ := h.exists_front item hitem
  refine Span.locatedIn_of_past _ ?_
  rw [hspan]
  rfl

/-! ## The end of the tokens -/

namespace Cursor

def finish (tokens : List Token) : Cursor :=
  ⟨tokens.reverse, [], 0⟩

private theorem previous?_finish (tokens : List Token) :
    (finish tokens).previous? = tokens.getLast? :=
  List.head?_reverse

theorem exists_endSpan {text : List Char} {items : List Item} {tokens : List Token}
    (h : Tiles .first text items) (htokens : ∀ token ∈ tokens, .token token ∈ items) :
    ∃ front rest, text = front ++ rest ∧
      (finish tokens).endSpan = (Position.first.past front).spanOf [] ∧
      ∀ c ∈ front.getLast?, isBlank c = false := by
  rw [endSpan, previous?_finish]
  cases hlast : tokens.getLast? with
  | none => exact ⟨[], text, rfl, rfl, nofun⟩
  | some last =>
      have hmem := htokens last (List.mem_of_getLast? hlast)
      obtain ⟨front, rest, rfl, hspan, hne, hblank⟩ := h.exists_front _ hmem
      change last.lexeme.toList ≠ [] at hne
      change last.span = (Position.first.past front).spanOf last.lexeme.toList at hspan
      have hfeed : '\n' ∉ last.lexeme.toList := by
        intro hfeed
        exact absurd (hblank '\n' hfeed) (by decide)
      refine ⟨front ++ last.lexeme.toList, rest, (List.append_assoc _ _ _).symm, ?_, ?_⟩
      · change Span.point last.span.stop last.span.line (last.span.column + last.lexeme.length) = _
        rw [Position.past_append, hspan, Position.spanOf, Position.past_of_not_mem _ hfeed,
          String.length_toList]
        rfl
      · rw [List.getLast?_append_of_ne_nil _ hne]
        exact fun c hc => hblank c (List.mem_of_getLast? hc)

private theorem endSpan_locatedIn {text : List Char} {items : List Item} {tokens : List Token}
    (h : Tiles .first text items) (htokens : ∀ token ∈ tokens, .token token ∈ items) :
    (finish tokens).endSpan.LocatedIn text := by
  obtain ⟨front, rest, rfl, hspan, -⟩ := exists_endSpan h htokens
  refine Span.locatedIn_of_past rest ?_
  rw [hspan]
  rfl

def endOffset (tokens : List Token) : Nat :=
  (tokens.getLast?.map fun token => token.span.stop).getD 0

theorem endSpan_finish (tokens : List Token) :
    (finish tokens).endSpan.start = endOffset tokens ∧
      (finish tokens).endSpan.stop = endOffset tokens := by
  rw [endSpan, previous?_finish, endOffset]
  cases tokens.getLast? <;> exact ⟨rfl, rfl⟩

end Cursor

/-! ## Where a refusal points -/

theorem place_of_refusal {options : Options} {tokens : List Token} {diagnostic : Diagnostic}
    (h : recognize options tokens = .error diagnostic) :
    (∃ token ∈ tokens, diagnostic.found = .token token ∧ diagnostic.span = token.span) ∨
      (diagnostic.found = .endOfInput ∧ diagnostic.span = (Cursor.finish tokens).endSpan) := by
  obtain ⟨front, htokens, hbehind, -, -⟩ := scan_split options.maxDepth .target [] tokens
  rw [← Options.scan] at htokens hbehind
  have hcases := Stage.report_cases options.maxDepth (options.scan tokens).stage
    ((options.scan tokens).cursor 0)
  rw [← Stop.diagnostic, recognize_eq_error h] at hcases
  rcases hcases with ⟨token, hpeek, hfound, hspan⟩ | ⟨hpeek, hfound, hspan⟩
  · have hahead : token ∈ (options.scan tokens).ahead := List.mem_of_head? hpeek
    exact .inl ⟨token, htokens ▸ List.mem_append_right front hahead, hfound, hspan⟩
  · have hahead : (options.scan tokens).ahead = [] := List.head?_eq_none_iff.mp hpeek
    rw [hahead, List.append_nil] at htokens
    rw [← htokens, List.append_nil] at hbehind
    have hplace : ((options.scan tokens).cursor 0).endSpan = (Cursor.finish tokens).endSpan := by
      rw [Cursor.endSpan, Cursor.previous?, Stop.cursor, hbehind]
      rfl
    exact .inr ⟨hfound, hspan.trans hplace⟩

/-- All tokens, errors and refusals are where their line and column say; a refusal at the end
of the tokens is about no text there. -/
theorem spans_locatedIn (source : String) (options : Options) :
    (∀ token ∈ (lex source).tokens, token.span.LocatedIn source.toList) ∧
    (∀ error ∈ (lex source).errors, error.span.LocatedIn source.toList) ∧
    ∀ diagnostic, recognize options (lex source).tokens = .error diagnostic →
      diagnostic.span.LocatedIn source.toList ∧
      (diagnostic.found = .endOfInput →
        diagnostic.span.start = Cursor.endOffset (lex source).tokens ∧
        diagnostic.span.stop = Cursor.endOffset (lex source).tokens) := by
  have htiles := tiles_lex source
  have htokens : ∀ token ∈ (lex source).tokens, token.span.LocatedIn source.toList :=
    fun token htoken => htiles.locatedIn _ (Lexing.token_mem_items.mpr htoken)
  refine ⟨htokens, ?errors, ?refusals⟩
  case errors =>
    exact fun error herror => htiles.locatedIn _ (Lexing.error_mem_items.mpr herror)
  case refusals =>
    intro diagnostic hrefused
    rcases place_of_refusal hrefused with ⟨token, htoken, hfound, hspan⟩ | ⟨-, hspan⟩
    · rw [hspan, hfound]
      exact ⟨htokens token htoken, nofun⟩
    · rw [hspan]
      refine ⟨Cursor.endSpan_locatedIn htiles fun token htoken => ?_, fun _ => ?_⟩
      · exact Lexing.token_mem_items.mpr htoken
      · exact Cursor.endSpan_finish _

end Scriptlet
