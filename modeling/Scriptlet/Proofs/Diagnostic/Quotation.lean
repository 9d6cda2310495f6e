import Scriptlet.Diagnostic.Report
import Scriptlet.Proofs.Location

/-!
# Quotations

A report quotes the line of the source on which its diagnostic stands and marks
the offending text by carets in the row below.  Three ways to find a place have
to agree for this: line and column, the lines of the text, and byte offsets.
They do, the right line is quoted and the right number of carets drawn.  Only
the gutters of the two rows differ in width, so that the carets come out to the
left of the text that they mark.
-/

namespace Scriptlet

/-! ## The line around a place -/

namespace Excerpt

def dropReturn (line : List Char) : List Char :=
  if line.getLast? = some '\r' then line.dropLast else line

/-- The line of a text on which the place between `front` and `rest` is: what stands between the
line feeds on both sides of it, without the carriage return that belongs to the line end. -/
def lineAround (front rest : List Char) : List Char :=
  let piece := lastLine front ++ rest.takeWhile (· ≠ '\n')
  if '\n' ∈ rest then dropReturn piece else piece

private theorem dropReturn_cons (c : Char) {line : List Char} (hne : line ≠ []) :
    dropReturn (c :: line) = c :: dropReturn line := by
  unfold dropReturn
  rw [List.getLast?_cons_of_ne_nil hne, List.dropLast_cons_of_ne_nil hne]
  split <;> rfl

private theorem dropReturn_append {line : List Char} (h : line.getLast? ≠ some '\r')
    (more : List Char) : dropReturn (line ++ more) = line ++ dropReturn more := by
  by_cases hnil : more = []
  · rw [hnil, List.append_nil, dropReturn, if_neg h]
    exact (List.append_nil line).symm
  · unfold dropReturn
    rw [List.getLast?_append_of_ne_nil _ hnil, List.dropLast_append_of_ne_nil hnil]
    split <;> rfl

private theorem getLast?_of_lastLine {text : List Char} {c : Char}
    (h : (lastLine text).getLast? = some c) : text.getLast? = some c := by
  obtain ⟨front, hfront⟩ : lastLine text <:+ text := List.rtakeWhile_suffix _ _
  rw [← hfront, List.getLast?_append, h, Option.some_or]

private theorem head?_of_takeWhile_eq_nil {text : List Char} (h : text.takeWhile (· ≠ '\n') = [])
    (hmem : '\n' ∈ text) : text.head? = some '\n' := by
  cases text with
  | nil => contradiction
  | cons c text =>
      by_cases hc : c = '\n'
      · rw [hc, List.head?_cons]
      · simp [hc] at h

private theorem lineAround_nil_cons {c : Char} {text : List Char} (hfeed : c ≠ '\n')
    (hreturn : c = '\r' → text.head? ≠ some '\n') :
    lineAround [] (c :: text) = c :: lineAround [] text := by
  have hmem : '\n' ∈ c :: text ↔ '\n' ∈ text := by simp [Ne.symm hfeed]
  have htake : (c :: text).takeWhile (· ≠ '\n') = c :: text.takeWhile (· ≠ '\n') := by
    simp [hfeed]
  simp only [lineAround, hmem, htake, lastLine, List.rtakeWhile_nil, List.nil_append]
  split
  · next htext =>
      by_cases hnil : text.takeWhile (· ≠ '\n') = []
      · -- The line ends behind the character, which is no carriage return then.
        have hc : c ≠ '\r' := fun hc => hreturn hc (head?_of_takeWhile_eq_nil hnil htext)
        rw [hnil]
        simp [dropReturn, hc]
      · exact dropReturn_cons c hnil
  · rfl

private theorem firstLine_eq_lineAround (text : List Char) :
    firstLine text = lineAround [] text := by
  fun_induction firstLine text with
  | case1 => rfl
  | case2 text => simp [lineAround, lastLine, dropReturn]
  | case3 text => simp [lineAround, lastLine, dropReturn]
  | case4 c text hfeed hreturn ih =>
      rw [ih, lineAround_nil_cons hfeed]
      intro hc hhead
      exact hreturn text.tail hc (List.eq_cons_of_mem_head? hhead)

theorem dropLines_append (front rest : List Char) :
    dropLines (front.count '\n') (front ++ rest) = lastLine front ++ rest := by
  induction front with
  | nil => simp [dropLines, lastLine]
  | cons c front ih =>
      have hsplit := lastLine_append [c] front
      rw [List.singleton_append] at hsplit
      by_cases hc : c = '\n'
      · rw [hc, List.count_cons_self, List.cons_append, dropLines, if_pos rfl, ih]
        rw [hc] at hsplit
        by_cases hmem : '\n' ∈ front
        · rw [hsplit, if_pos hmem]
        · rw [hsplit, if_neg hmem, lastLine_of_not_mem hmem]
          rfl
      · rw [List.count_cons_of_ne hc]
        by_cases hmem : '\n' ∈ front
        · obtain ⟨n, hn⟩ := Nat.exists_eq_add_one.mpr (List.count_pos_iff.mpr hmem)
          rw [hsplit, if_pos hmem, ← ih, hn, List.cons_append, dropLines, if_neg hc]
        · have hline : '\n' ∉ c :: front := by simp [Ne.symm hc, hmem]
          rw [lastLine_of_not_mem hline, List.count_eq_zero_of_not_mem hmem, dropLines]

theorem lineAround_append {line : List Char} (hline : '\n' ∉ line) (front rest : List Char) :
    lineAround front (line ++ rest) = lineAround (front ++ line) rest := by
  have htake : (line ++ rest).takeWhile (· ≠ '\n') = line ++ rest.takeWhile (· ≠ '\n') := by
    refine List.takeWhile_append_of_pos fun c hc => decide_eq_true ?_
    exact ne_of_mem_of_not_mem hc hline
  simp only [lineAround, htake, lastLine_append, List.mem_append, hline, false_or, if_false,
    List.append_assoc]

theorem line_eq_lineAround (front rest : List Char) :
    line (1 + front.count '\n') (front ++ rest) = lineAround front rest := by
  have hfront := not_mem_lastLine front
  rw [line, Nat.add_sub_cancel_left, dropLines_append, firstLine_eq_lineAround,
    lineAround_append hfront, List.nil_append, lineAround, lastLine_of_not_mem hfront]
  rfl

theorem exists_lineAround {front word : List Char} (hword : '\n' ∉ word)
    (hlast : (front ++ word).getLast? ≠ some '\r') (rest : List Char) :
    ∃ behind, lineAround front (word ++ rest) = lastLine front ++ (word ++ behind) := by
  have hline : lastLine (front ++ word) = lastLine front ++ word := by
    rw [lastLine_append, if_neg hword]
  rw [lineAround_append hword]
  unfold lineAround
  dsimp only
  rw [dropReturn_append (mt getLast?_of_lastLine hlast), hline]
  split
  · exact ⟨_, List.append_assoc _ _ _⟩
  · exact ⟨_, List.append_assoc _ _ _⟩

theorem not_mem_lineAround (front rest : List Char) : '\n' ∉ lineAround front rest := by
  have hpiece : '\n' ∉ lastLine front ++ rest.takeWhile (· ≠ '\n') := by
    rw [List.mem_append, not_or]
    refine ⟨not_mem_lastLine front, fun h => ?_⟩
    simpa using List.mem_takeWhile_imp h
  unfold lineAround dropReturn
  dsimp only
  split
  · split
    · exact fun h => hpiece (List.dropLast_subset _ h)
    · exact hpiece
  · exact hpiece

end Excerpt

/-! ## Where a diagnostic stands -/

/-- What the reading of a text can report: its lexical errors, and the refusal of its tokens. -/
def Reported (source : String) (options : Options) (diagnostic : Diagnostic) : Prop :=
  diagnostic ∈ (lex source).errors ∨
    recognize options (lex source).tokens = .error diagnostic

/-- The span is that of a word behind `front` that has no blanks in it, or of no text at the end
of such a word. -/
structure Span.Marks (span : Span) (front word : List Char) : Prop where
  eq_spanOf : span = (Position.first.past front).spanOf word
  not_blank : ∀ c ∈ word, isBlank c = false
  last_not_blank : ∀ c ∈ (front ++ word).getLast?, isBlank c = false

namespace Span.Marks

variable {span : Span} {front word : List Char}

theorem fields_eq (h : span.Marks front word) :
    span = ⟨byteSize front, byteSize front + byteSize word, 1 + front.count '\n',
      1 + (lastLine front).length⟩ := by
  rw [h.eq_spanOf, Position.past_first, Position.spanOf, Position.offset_past]

private theorem not_mem_feed (h : span.Marks front word) : '\n' ∉ word := by
  intro hfeed
  exact absurd (h.not_blank '\n' hfeed) (by decide)

theorem isEmpty_iff (h : span.Marks front word) : span.isEmpty = true ↔ word = [] := by
  simp [h.fields_eq, Span.isEmpty]

theorem exists_lineAround (h : span.Marks front word) (rest : List Char) :
    ∃ behind, Excerpt.lineAround front (word ++ rest) = lastLine front ++ (word ++ behind) := by
  refine Excerpt.exists_lineAround h.not_mem_feed ?_ rest
  intro hreturn
  exact absurd (h.last_not_blank '\r' hreturn) (by decide)

end Span.Marks

theorem Tiles.exists_marks {text : List Char} {items : List Item} (h : Tiles .first text items) :
    ∀ item ∈ items, ∃ front rest, text = front ++ (item.text ++ rest) ∧
      item.span.Marks front item.text := by
  intro item hitem
  obtain ⟨front, rest, htext, hspan, hne, hblank⟩ := h.exists_front item hitem
  refine ⟨front, rest, htext, hspan, hblank, ?_⟩
  rw [List.getLast?_append_of_ne_nil _ hne]
  exact fun c hc => hblank c (List.mem_of_getLast? hc)

theorem exists_marks_of_reported {source : String} {options : Options} {diagnostic : Diagnostic}
    (h : Reported source options diagnostic) : ∃ front word rest,
      source.toList = front ++ (word ++ rest) ∧ diagnostic.span.Marks front word := by
  have htiles := tiles_lex source
  have htokens : ∀ token ∈ (lex source).tokens, .token token ∈ (lex source).items :=
    fun token htoken => Lexing.token_mem_items.mpr htoken
  rcases h with herror | hrefused
  · obtain ⟨front, rest, htext, hmarks⟩ :=
      htiles.exists_marks _ (Lexing.error_mem_items.mpr herror)
    exact ⟨front, _, rest, htext, hmarks⟩
  · rcases place_of_refusal hrefused with ⟨token, htoken, -, hspan⟩ | ⟨-, hspan⟩
    · obtain ⟨front, rest, htext, hmarks⟩ := htiles.exists_marks _ (htokens token htoken)
      exact ⟨front, _, rest, htext, hspan ▸ hmarks⟩
    · obtain ⟨front, rest, htext, hend, hlast⟩ := Cursor.exists_endSpan htiles htokens
      refine ⟨front, [], rest, htext, hspan.trans hend, List.forall_mem_nil _, ?_⟩
      rwa [List.append_nil]

/-! ## Diagnostics come without help -/

theorem Lexing.exists_of_mem_errors {pieces : List Piece} {p : Position} {error : Diagnostic}
    (h : error ∈ (ofPieces p pieces).errors) : ∃ c span, error = .unrecognizedCharacter c span := by
  induction pieces generalizing p with
  | nil => contradiction
  | cons piece pieces ih =>
      cases piece with
      | skipped | word => exact ih h
      | stray c =>
          rcases List.mem_cons.mp h with rfl | hrest
          · exact ⟨c, _, rfl⟩
          · exact ih hrest

private theorem Cursor.help_unexpected (c : Cursor) (expected : Expected) :
    (c.unexpected expected).help = none := by
  unfold unexpected
  split <;> rfl

private theorem Stage.help_report (limit : Nat) (stage : Stage) (c : Cursor) :
    (stage.report limit c).help = none := by
  unfold report
  split
  · split
    · rfl
    · exact c.help_unexpected _
  · exact c.help_unexpected _

theorem help_of_reported {source : String} {options : Options} {diagnostic : Diagnostic}
    (h : Reported source options diagnostic) : diagnostic.help = none := by
  rcases h with herror | hrefused
  · obtain ⟨c, span, rfl⟩ := Lexing.exists_of_mem_errors herror
    rfl
  · rw [← recognize_eq_error hrefused]
    exact Stage.help_report _ _ _

/-! ## The rows of a report -/

namespace Report

private theorem three_le_length_lineNumber (line : Nat) : 3 ≤ (lineNumber line).length := by
  simp [lineNumber, padLeft]
  omega

private theorem not_mem_lineNumber (line : Nat) : '\n' ∉ lineNumber line := by
  have hdigits : '\n' ∉ Nat.toDigits 10 line := by
    intro h
    have hdigit := Nat.isDigit_of_mem_toDigits (by decide) (by decide) h
    contradiction
  simp [lineNumber, padLeft, hdigits]

private theorem not_mem_sourceRow (report : Report) (span : Span) :
    '\n' ∉ report.sourceRow span := by
  have hline : '\n' ∉ report.sourceLine span := by
    rw [sourceLine, Excerpt.line, Excerpt.firstLine_eq_lineAround]
    exact Excerpt.not_mem_lineAround _ _
  simp [sourceRow, not_mem_lineNumber, hline]

private theorem not_mem_caretRow (report : Report) (span : Span) : '\n' ∉ report.caretRow span := by
  simp [caretRow, emptyGutter]

structure EndsInRows (report : Report) (diagnostic : Diagnostic) : Prop where
  render_eq : ∃ header, (report.render diagnostic).toList =
    header ++ '\n' :: (report.sourceRow diagnostic.span ++
      '\n' :: (report.caretRow diagnostic.span ++ ['\n']))
  feed_notMem_sourceRow : '\n' ∉ report.sourceRow diagnostic.span
  feed_notMem_caretRow : '\n' ∉ report.caretRow diagnostic.span

theorem endsInRows_of_help {diagnostic : Diagnostic} (report : Report)
    (h : diagnostic.help = none) : report.EndsInRows diagnostic := by
  refine ⟨?_, report.not_mem_sourceRow _, report.not_mem_caretRow _⟩
  refine ⟨headRow diagnostic ++ '\n' :: report.placeRow diagnostic.span ++ '\n' :: emptyGutter, ?_⟩
  simp [render, rows, helpRows, h]

private theorem count_caretRow (report : Report) (span : Span) :
    (report.caretRow span).count '^' = report.caretCount span := by
  have hgutter : emptyGutter.count '^' = 0 := by decide
  simp [caretRow, List.count_append, hgutter, List.count_replicate]

def caretIndex (report : Report) (span : Span) : Nat :=
  (report.caretRow span).idxOf '^'

/-- Where the text of the span begins in the source row: behind the gutter and what the line has
in front of this text. -/
def offendingIndex (report : Report) (span : Span) : Nat :=
  (lineNumber span.line ++ " | ".toList ++
    lastLine ((Excerpt.takeBytes? span.start report.source.toList).getD [])).length

theorem caretIndex_eq (report : Report) (span : Span) :
    report.caretIndex span = 5 + (span.column - 1) := by
  obtain ⟨n, hcount⟩ : ∃ n, report.caretCount span = n + 1 :=
    Nat.exists_eq_add_one.mpr (Nat.lt_of_lt_of_le Nat.one_pos (Nat.le_max_left _ _))
  have hmargin : '^' ∉ emptyGutter ++ ' ' :: List.replicate (span.column - 1) ' ' := by
    simp [emptyGutter]
  have hlength : emptyGutter.length = 4 := rfl
  rw [caretIndex, caretRow, hcount, List.replicate_succ, List.idxOf_append_of_notMem hmargin,
    List.idxOf_cons_self, List.length_append, List.length_cons, List.length_replicate, hlength]
  omega

section Marks

variable {report : Report} {span : Span} {front word rest : List Char}
  (htext : report.source.toList = front ++ (word ++ rest)) (hmarks : span.Marks front word)
include htext hmarks

theorem slice?_of_marks :
    Excerpt.slice? span.start span.stop report.source.toList = some word := by
  rw [hmarks.fields_eq, htext]
  exact Excerpt.slice?_append front word rest

theorem sourceLine_of_marks : report.sourceLine span = Excerpt.lineAround front (word ++ rest) := by
  rw [sourceLine, hmarks.fields_eq, htext]
  exact Excerpt.line_eq_lineAround front (word ++ rest)

theorem caretCount_of_marks : report.caretCount span = max 1 word.length := by
  rw [caretCount, offending, slice?_of_marks htext hmarks, Option.getD_some,
    List.takeWhile_eq_self_iff.mpr]
  intro c hc
  exact decide_eq_true (ne_of_mem_of_not_mem hc hmarks.not_mem_feed)

theorem offendingIndex_of_marks : report.offendingIndex span =
    (lineNumber span.line).length + 3 + (lastLine front).length := by
  have hstart : span.start = byteSize front := by rw [hmarks.fields_eq]
  rw [offendingIndex, hstart, htext, Excerpt.takeBytes?_append, Option.getD_some,
    List.length_append, List.length_append]
  rfl

end Marks

/-! ## What a report shows -/

/-- Above the carets stands the line of the source around the place between `front` and `rest`, at
which the diagnostic is.  This line has the text of the span from its column on, and there are as
many carets as characters in this text; of no text the column is on the line and there is one
caret. -/
structure Quotes (report : Report) (diagnostic : Diagnostic) (front rest : List Char) : Prop where
  source_eq : report.source.toList = front ++ rest
  start_eq : diagnostic.span.start = byteSize front
  endsInRows : report.EndsInRows diagnostic
  sourceRow_eq : report.sourceRow diagnostic.span =
    lineNumber diagnostic.span.line ++ " | ".toList ++ Excerpt.lineAround front rest
  of_text : diagnostic.span.isEmpty = false → ∃ word behind,
    Excerpt.slice? diagnostic.span.start diagnostic.span.stop report.source.toList = some word ∧
    (Excerpt.lineAround front rest).drop (diagnostic.span.column - 1) = word ++ behind ∧
    (report.caretRow diagnostic.span).count '^' = word.length
  of_no_text : diagnostic.span.isEmpty = true →
    (report.caretRow diagnostic.span).count '^' = 1 ∧
    diagnostic.span.column - 1 ≤ (Excerpt.lineAround front rest).length

theorem quotes_of_reported {report : Report} {options : Options} {diagnostic : Diagnostic}
    (h : Reported report.source options diagnostic) :
    ∃ front rest, report.Quotes diagnostic front rest := by
  obtain ⟨front, word, rest, htext, hmarks⟩ := exists_marks_of_reported h
  obtain ⟨behind, hline⟩ := hmarks.exists_lineAround rest
  have hcolumn : diagnostic.span.column - 1 = (lastLine front).length := by
    rw [hmarks.fields_eq]
    exact Nat.add_sub_cancel_left _ _
  refine ⟨front, word ++ rest, ?_⟩
  constructor
  case source_eq => exact htext
  case start_eq => rw [hmarks.fields_eq]
  case endsInRows => exact report.endsInRows_of_help (help_of_reported h)
  case sourceRow_eq => rw [sourceRow, sourceLine_of_marks htext hmarks]
  case of_text =>
    intro hempty
    refine ⟨word, behind, slice?_of_marks htext hmarks, ?_, ?_⟩
    · rw [hcolumn, hline, List.drop_left]
    · have hne : word ≠ [] := mt hmarks.isEmpty_iff.mpr (Bool.eq_false_iff.mp hempty)
      rw [count_caretRow, caretCount_of_marks htext hmarks]
      exact Nat.max_eq_right (List.length_pos_iff.mpr hne)
  case of_no_text =>
    intro hempty
    obtain rfl := hmarks.isEmpty_iff.mp hempty
    constructor
    · rw [count_caretRow, caretCount_of_marks htext hmarks]
      rfl
    · rw [hcolumn, hline, List.length_append]
      exact Nat.le_add_right _ _

def accented : Report :=
  ⟨"<input>", "y = 2\r\nx é 1\r\n"⟩

theorem quotes_accented :
    Reported accented.source .standard (.unrecognizedCharacter 'é' ⟨9, 11, 2, 3⟩) ∧
      ∃ front rest, accented.Quotes (.unrecognizedCharacter 'é' ⟨9, 11, 2, 3⟩) front rest := by
  have h : Reported accented.source .standard (.unrecognizedCharacter 'é' ⟨9, 11, 2, 3⟩) :=
    .inl (by decide +kernel)
  exact ⟨h, quotes_of_reported h⟩

/-! ## Where the carets come out -/

/-- The first caret is to the left of the place in the row above that it is to mark, by the columns
that the line number takes beyond two; it takes three at least. -/
theorem caretIndex_lt_offendingIndex {report : Report} {options : Options}
    {diagnostic : Diagnostic} (h : Reported report.source options diagnostic) :
    report.EndsInRows diagnostic ∧
    (∃ word behind,
      Excerpt.slice? diagnostic.span.start diagnostic.span.stop report.source.toList = some word ∧
      (report.sourceRow diagnostic.span).drop (report.offendingIndex diagnostic.span) =
        word ++ behind) ∧
    report.caretIndex diagnostic.span < report.offendingIndex diagnostic.span ∧
    report.offendingIndex diagnostic.span =
      report.caretIndex diagnostic.span + ((lineNumber diagnostic.span.line).length - 2) := by
  obtain ⟨front, word, rest, htext, hmarks⟩ := exists_marks_of_reported h
  obtain ⟨behind, hline⟩ := hmarks.exists_lineAround rest
  have hcolumn : diagnostic.span.column = 1 + (lastLine front).length := by
    rw [hmarks.fields_eq]
  have hwidth := three_le_length_lineNumber diagnostic.span.line
  have hcaret := report.caretIndex_eq diagnostic.span
  have hoffending := offendingIndex_of_marks htext hmarks
  refine ⟨report.endsInRows_of_help (help_of_reported h), ?_, by omega, by omega⟩
  refine ⟨word, behind, slice?_of_marks htext hmarks, ?_⟩
  have hindex : report.offendingIndex diagnostic.span =
      (lineNumber diagnostic.span.line ++ " | ".toList ++ lastLine front).length := by
    rw [hoffending, List.length_append, List.length_append]
    rfl
  rw [sourceRow, sourceLine_of_marks htext hmarks, hline, ← List.append_assoc, hindex,
    List.drop_left]

def unassigned : Report :=
  ⟨"<input>", "x 1"⟩

def missingAssignment : Diagnostic :=
  .mismatch (.kind .assignment) (.token ⟨.integer, "1", ⟨2, 3, 1, 3⟩⟩) ⟨2, 3, 1, 3⟩

private theorem reported_missingAssignment :
    Reported unassigned.source .standard missingAssignment :=
  .inr (by decide +kernel)

theorem caretIndex_lt_offendingIndex_unassigned :
    Reported unassigned.source .standard missingAssignment ∧
      unassigned.offendingIndex missingAssignment.span =
        unassigned.caretIndex missingAssignment.span + 1 := by
  have h := reported_missingAssignment
  have hwidth : (lineNumber missingAssignment.span.line).length - 2 = 1 := by decide
  obtain ⟨-, -, -, hindex⟩ := caretIndex_lt_offendingIndex h
  exact ⟨h, hwidth ▸ hindex⟩

theorem caretIndex_ne_offendingIndex_unassigned :
    Reported unassigned.source .standard missingAssignment ∧
      unassigned.sourceRow missingAssignment.span = "  1 | x 1".toList ∧
      unassigned.caretRow missingAssignment.span = "   |   ^".toList ∧
      unassigned.caretIndex missingAssignment.span ≠
        unassigned.offendingIndex missingAssignment.span := by
  exact ⟨reported_missingAssignment, by decide, by decide, by decide⟩

end Report

end Scriptlet
