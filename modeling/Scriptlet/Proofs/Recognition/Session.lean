import Scriptlet.Proofs.Recognition.Completion
import Scriptlet.Recognition.Session

/-!
# Sessions keep their place

A session never loses the tokens it was started with, whatever is requested and
whatever failed before: its cursor is between them, no more groups are open
than allowed, and only a new start takes it back.  What a session reports is
about the place where its cursor then is.  One request keeps this, so a session
of any length does.
-/

namespace Scriptlet

/-! ## The place of a cursor -/

def endPoint (tokens : List Token) : Span :=
  match tokens.getLast? with
  | none => .point 0 1 1
  | some last => .point last.span.stop last.span.line (last.span.column + last.lexeme.length)

/-- The diagnostic is about the token at the position, or about the end if there is none. -/
def Diagnostic.Describes (diagnostic : Diagnostic) (tokens : List Token) (position : Nat) :
    Prop :=
  match tokens[position]? with
  | some token => diagnostic.found = .token token ∧ diagnostic.span = token.span
  | none => diagnostic.found = .endOfInput ∧ diagnostic.span = endPoint tokens

namespace Cursor

theorem position_le (c : Cursor) : c.position ≤ c.tokens.length := by
  simp [position, tokens]

theorem atEnd_iff (c : Cursor) : c.atEnd = true ↔ c.position = c.tokens.length := by
  simp [atEnd, position, tokens]

theorem getElem?_position (c : Cursor) : c.tokens[c.position]? = c.peek? := by
  rw [tokens, position, ← List.length_reverse, List.getElem?_append_right (Nat.le_refl _)]
  simp [peek?, List.head?_eq_getElem?]

private theorem endSpan_of_peek? {c : Cursor} (h : c.peek? = none) :
    c.endSpan = endPoint c.tokens := by
  have hahead : c.ahead = [] := List.head?_eq_none_iff.mp h
  have hlast : c.tokens.getLast? = c.previous? := by simp [tokens, previous?, hahead]
  unfold endSpan endPoint
  cases hprevious : c.previous? with
  | none => simp [hlast, hprevious]
  | some last => simp [hlast, hprevious]

abbrev IsDescribedBy (c : Cursor) (diagnostic : Diagnostic) : Prop :=
  diagnostic.Describes c.tokens c.position

theorem isDescribedBy_unexpected (c : Cursor) (expected : Expected) :
    c.IsDescribedBy (c.unexpected expected) := by
  unfold IsDescribedBy Diagnostic.Describes unexpected
  rw [getElem?_position]
  cases hpeek : c.peek? with
  | some token => exact ⟨rfl, rfl⟩
  | none => exact ⟨rfl, endSpan_of_peek? hpeek⟩

theorem isDescribedBy_report (c : Cursor) (limit : Nat) (stage : Stage) :
    c.IsDescribedBy (stage.report limit c) := by
  unfold IsDescribedBy Diagnostic.Describes
  rw [getElem?_position]
  rcases stage.report_cases limit c with ⟨token, hpeek, hfound, hspan⟩ | ⟨hpeek, hfound, hspan⟩
  · rw [hpeek]
    exact ⟨hfound, hspan⟩
  · rw [hpeek]
    exact ⟨hfound, hspan.trans (endSpan_of_peek? hpeek)⟩

/-! ## Going on -/

/-- From `c` to `d` a session only goes on: among the same tokens, not backwards, and with no more
groups open than allowed. -/
structure GoesOn (limit : Nat) (c d : Cursor) : Prop where
  tokens_eq : d.tokens = c.tokens
  position_le : c.position ≤ d.position
  depth_le : c.depth ≤ limit → d.depth ≤ limit

namespace GoesOn

theorem refl (limit : Nat) (c : Cursor) : GoesOn limit c c :=
  ⟨rfl, Nat.le_refl _, id⟩

theorem advance (limit : Nat) (c : Cursor) : GoesOn limit c c.advance := by
  refine ⟨c.tokens_advance, ?_, ?_⟩
  · unfold Cursor.advance
    split <;> simp [position]
  · simp

end GoesOn

end Cursor

theorem Cursor.goesOn_scan (limit : Nat) {stage : Stage} (hstage : stage.opened = 0)
    (c : Cursor) : GoesOn limit c ((c.scan (limit - c.depth) stage).cursor c.depth) := by
  obtain ⟨front, hahead, hbehind, hafter, -⟩ :=
    scan_split (limit - c.depth) stage c.behind c.ahead
  have hopened := Stage.opened_le_of_after? hafter (by omega)
  constructor
  · simp [tokens, Stop.cursor, Cursor.scan, hbehind, ← hahead]
  · simp [position, Stop.cursor, Cursor.scan, hbehind]
  · intro hdepth
    simp only [Stop.cursor, Cursor.scan]
    omega

namespace Run

variable {c : Cursor} {run : Run c} {limit : Nat} {stage : Stage}

theorem EndsAs.goesOn (h : run.EndsAs limit (c.scan (limit - c.depth) stage))
    (hstage : stage.opened = 0) : Cursor.GoesOn limit c run.cursor := by
  rw [h.cursor_eq]
  exact Cursor.goesOn_scan limit hstage c

theorem EndsAs.isDescribedBy {stop : Stop} (h : run.EndsAs limit stop) {diagnostic : Diagnostic}
    (hrefused : run.verdict = .error diagnostic) : run.cursor.IsDescribedBy diagnostic := by
  have hverdict := h.verdict_eq
  rw [hrefused, Stop.outcome, ← h.cursor_eq] at hverdict
  split at hverdict
  · contradiction
  · rw [Except.error.inj hverdict]
    exact run.cursor.isDescribedBy_report limit stop.stage

end Run

/-! ## One request -/

namespace Reply

def diagnostic? : Reply → Option Diagnostic
  | .token _ => none
  | .answer _ => none
  | .consumed (.ok _) => none
  | .consumed (.error error) => some error
  | .diagnostic error => some error
  | .verdict (.ok ()) => none
  | .verdict (.error error) => some error

end Reply

namespace Request

/-- Whether the request, if it gets this reply, is to leave the cursor as it was. -/
def leavesCursor : Request → Reply → Bool
  | .peek, _ | .previous, _ | .sees _, _ | .unexpected _, _ | .expectEnd, _ => true
  | .accept _, .answer yes => !yes
  | .consume _, .consumed (.error _) => true
  | _, _ => false

end Request

namespace Cursor

private theorem consume_eq (c : Cursor) (kind : Kind) :
    (∃ token, c.consume kind = .ok (token, c.advance)) ∨
      c.consume kind = .error (c.unexpected (.kind kind)) := by
  unfold consume
  split
  · split
    · exact .inl ⟨_, rfl⟩
    · exact .inr rfl
  · exact .inr rfl

theorem cursor_expectEnd (c : Cursor) : (Run.expectEnd c).cursor = c := by
  unfold Run.expectEnd
  split <;> rfl

theorem perform_goesOn (options : Options) (c : Cursor) {request : Request}
    (h : request ≠ .recognize) : GoesOn options.maxDepth c (c.perform options request).2 := by
  cases request with
  | peek | previous | sees | unexpected => exact .refl _ c
  | advance => exact .advance _ c
  | accept kind =>
      simp only [perform, accept]
      split
      · exact .advance _ c
      · exact .refl _ c
  | consume kind =>
      rcases c.consume_eq kind with ⟨token, hconsume⟩ | hconsume
      · simp only [perform, hconsume]
        exact .advance _ c
      · simp only [perform, hconsume]
        exact .refl _ c
  | expectEnd =>
      simp only [perform, Reply.ofRun, cursor_expectEnd]
      exact .refl _ c
  | expression => exact (expression_endsAs options.maxDepth c).goesOn rfl
  | assignmentStatement => exact (assignmentStatement_endsAs options.maxDepth c).goesOn rfl
  | recognize => contradiction

private theorem perform_recognize_eq (options : Options) (c : Cursor) :
    c.perform options .recognize = (start c.tokens).perform options .recognize := by
  have hrewind : (start c.tokens).rewind = c.rewind := by simp [rewind]
  simp only [perform, recognition]
  rw [hrewind]

private theorem perform_recognize_goesOn (options : Options) (c : Cursor) :
    GoesOn options.maxDepth (start c.tokens) (c.perform options .recognize).2 := by
  have hcursor := (recognition_eq_scan options c).1
  have hscan := @goesOn_scan options.maxDepth .target rfl (start c.tokens)
  simp only [perform, Reply.ofRun]
  rw [hcursor]
  exact hscan

theorem tokens_perform (options : Options) (c : Cursor) (request : Request) :
    (c.perform options request).2.tokens = c.tokens := by
  by_cases h : request = .recognize
  · rw [h, (c.perform_recognize_goesOn options).tokens_eq, tokens_start]
  · exact (c.perform_goesOn options h).tokens_eq

theorem depth_perform_le {options : Options} {c : Cursor} (h : c.depth ≤ options.maxDepth)
    (request : Request) : (c.perform options request).2.depth ≤ options.maxDepth := by
  by_cases hrequest : request = .recognize
  · rw [hrequest]
    exact (c.perform_recognize_goesOn options).depth_le (Nat.zero_le _)
  · exact (c.perform_goesOn options hrequest).depth_le h

theorem perform_of_leavesCursor {options : Options} {c : Cursor} {request : Request}
    (h : request.leavesCursor (c.perform options request).1 = true) :
    (c.perform options request).2 = c := by
  cases request with
  | peek | previous | sees | unexpected => rfl
  | expectEnd => exact c.cursor_expectEnd
  | accept kind =>
      have hsees : c.sees kind = false := by simpa [perform, Request.leavesCursor] using h
      simp [perform, accept, hsees]
  | consume kind =>
      rcases c.consume_eq kind with ⟨token, hconsume⟩ | hconsume
      · simp [perform, hconsume, Request.leavesCursor] at h
      · simp [perform, hconsume]
  | advance | expression | assignmentStatement | recognize =>
      simp [Request.leavesCursor] at h

private theorem isDescribedBy_ofRun {c : Cursor} {run : Run c}
    (h : ∀ diagnostic, run.verdict = .error diagnostic → run.cursor.IsDescribedBy diagnostic) :
    ∀ diagnostic ∈ (Reply.ofRun run).1.diagnostic?, run.cursor.IsDescribedBy diagnostic := by
  intro diagnostic hdiagnostic
  cases hverdict : run.verdict with
  | ok => simp [Reply.ofRun, hverdict, Reply.diagnostic?] at hdiagnostic
  | error other =>
      obtain rfl : other = diagnostic := by
        simpa [Reply.ofRun, hverdict, Reply.diagnostic?] using hdiagnostic
      exact h other hverdict

theorem isDescribedBy_perform (options : Options) (c : Cursor) (request : Request) :
    ∀ diagnostic ∈ (c.perform options request).1.diagnostic?,
      (c.perform options request).2.IsDescribedBy diagnostic := by
  cases request with
  | peek | advance | previous | sees | accept => simp [perform, Reply.diagnostic?]
  | consume kind =>
      rcases c.consume_eq kind with ⟨token, hconsume⟩ | hconsume
      · simp [perform, hconsume, Reply.diagnostic?]
      · simp [perform, hconsume, Reply.diagnostic?, isDescribedBy_unexpected]
  | unexpected expected => simp [perform, Reply.diagnostic?, isDescribedBy_unexpected]
  | expectEnd =>
      refine isDescribedBy_ofRun fun diagnostic hrefused => ?_
      rw [cursor_expectEnd]
      unfold Run.expectEnd at hrefused
      split at hrefused
      · contradiction
      · rw [← Except.error.inj hrefused]
        exact c.isDescribedBy_unexpected _
  | expression =>
      exact isDescribedBy_ofRun fun _ => (expression_endsAs options.maxDepth c).isDescribedBy
  | assignmentStatement =>
      exact isDescribedBy_ofRun fun _ =>
        (assignmentStatement_endsAs options.maxDepth c).isDescribedBy
  | recognize =>
      refine isDescribedBy_ofRun fun diagnostic hrefused => ?_
      obtain ⟨hcursor, hverdict⟩ := recognition_eq_scan options c
      rw [hrefused] at hverdict
      split at hverdict
      · contradiction
      · rw [Except.error.inj hverdict, Stop.diagnostic, ← hcursor]
        exact isDescribedBy_report _ _ _

/-! ## Whole sessions -/

def after (options : Options) (c : Cursor) (requests : List Request) : Cursor :=
  requests.foldl (fun c request => (c.perform options request).2) c

theorem session_append (options : Options) (c : Cursor) (front back : List Request) :
    c.session options (front ++ back) =
      c.session options front ++ (c.after options front).session options back := by
  induction front generalizing c with
  | nil => rfl
  | cons request front ih => simp [session, ih, after]

theorem tokens_after (options : Options) (c : Cursor) (requests : List Request) :
    (c.after options requests).tokens = c.tokens := by
  induction requests generalizing c with
  | nil => rfl
  | cons request requests ih => exact (ih _).trans (c.tokens_perform options request)

theorem depth_after_le {options : Options} {c : Cursor} (h : c.depth ≤ options.maxDepth)
    (requests : List Request) : (c.after options requests).depth ≤ options.maxDepth := by
  induction requests generalizing c with
  | nil => exact h
  | cons request requests ih => exact ih (depth_perform_le h request)

/-- What is to hold of the reply to a request in a session over the tokens, and of the cursor that
is left behind. -/
structure Keeps (options : Options) (tokens : List Token) (before : Cursor) (request : Request)
    (outcome : Reply × Cursor) : Prop where
  tokens_eq : outcome.2.tokens = tokens
  position_le : outcome.2.position ≤ tokens.length
  depth_le : outcome.2.depth ≤ options.maxDepth
  atEnd_iff : outcome.2.atEnd = true ↔ outcome.2.position = tokens.length
  not_back : request ≠ .recognize → before.position ≤ outcome.2.position
  unchanged : request.leavesCursor outcome.1 = true → outcome.2 = before
  describes : ∀ diagnostic ∈ outcome.1.diagnostic?,
    diagnostic.Describes tokens outcome.2.position
  afresh : request = .recognize → outcome = (start tokens).perform options .recognize

/-- Each request of a session is performed where the requests in front of it have led, and keeps
the place. -/
theorem session_keeps (options : Options) (tokens : List Token) (front back : List Request)
    (request : Request) :
    ∃ outcome : Reply × Cursor,
      outcome = ((start tokens).after options front).perform options request ∧
      (start tokens).session options (front ++ request :: back) =
        (start tokens).session options front ++ outcome :: outcome.2.session options back ∧
      Keeps options tokens ((start tokens).after options front) request outcome := by
  refine ⟨_, rfl, ?_, ?_⟩
  · rw [session_append, session]
  · have hdepth : ((start tokens).after options front).depth ≤ options.maxDepth :=
      depth_after_le (Nat.zero_le _) front
    have htokens := tokens_after options (start tokens) front
    rw [tokens_start] at htokens
    generalize (start tokens).after options front = c at hdepth htokens
    have hkept := (c.tokens_perform options request).trans htokens
    constructor
    case tokens_eq => exact hkept
    case position_le => exact hkept ▸ position_le _
    case depth_le => exact depth_perform_le hdepth request
    case atEnd_iff => exact hkept ▸ Cursor.atEnd_iff _
    case not_back => exact fun h => (c.perform_goesOn options h).position_le
    case unchanged => exact perform_of_leavesCursor
    case describes => exact hkept ▸ c.isDescribedBy_perform options request
    case afresh =>
      rintro rfl
      rw [← htokens]
      exact c.perform_recognize_eq options

end Cursor

end Scriptlet
