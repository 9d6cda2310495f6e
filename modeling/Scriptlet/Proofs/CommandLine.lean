import Scriptlet.CommandLine

/-!
# What the program answers

The arguments are read in order, up to the first that does not fit, but what
they come to has no order: whether they are misused, which of the two flags
occur, and which text is given.  The answer is what the library says about the
text, on the channels and with the code that the flags ask for.
-/

namespace Scriptlet.CommandLine

/-! ## Arguments one by one -/

def beginsOption (arg : String) : Bool :=
  ['-', '-'].isPrefixOf arg.toList

def isText (arg : String) : Bool :=
  !beginsOption arg && arg != "-h"

/-- Help is asked for, an option is not known, or there is more than one text. -/
inductive Misused (args : List String) : Prop where
  | help {arg : String} : arg ∈ args → arg = "-h" ∨ arg = "--help" → Misused args
  | unknownOption {arg : String} : arg ∈ args → beginsOption arg = true →
      arg ≠ "--parse" → arg ≠ "--grammar" → Misused args
  | extraText : 2 ≤ (args.filter isText).length → Misused args

def Fits (arg : String) : Prop :=
  arg = "--parse" ∨ arg = "--grammar" ∨ isText arg = true

instance decidableFits (arg : String) : Decidable (Fits arg) :=
  inferInstanceAs (Decidable (_ ∨ _ ∨ _))

theorem isText_iff {arg : String} :
    isText arg = true ↔ beginsOption arg = false ∧ arg ≠ "-h" := by
  simp [isText]

theorem misused_iff {args : List String} :
    Misused args ↔ (∃ arg ∈ args, ¬ Fits arg) ∨ 2 ≤ (args.filter isText).length := by
  constructor
  · rintro (⟨hmem, harg⟩ | ⟨hmem, hoption, hparse, hgrammar⟩ | hlength)
    · refine .inl ⟨_, hmem, ?_⟩
      rcases harg with rfl | rfl <;> decide
    · refine .inl ⟨_, hmem, ?_⟩
      simp [Fits, isText_iff, hoption, hparse, hgrammar]
    · exact .inr hlength
  · rintro (⟨arg, hmem, hfits⟩ | hlength)
    · simp only [Fits, not_or, isText_iff, not_and, Decidable.not_not] at hfits
      obtain ⟨hparse, hgrammar, htext⟩ := hfits
      cases hoption : beginsOption arg with
      | true => exact .unknownOption hmem hoption hparse hgrammar
      | false => exact .help hmem (.inl (htext hoption))
    · exact .extraText hlength

private theorem ofString_of_isText {arg : String} (h : isText arg = true) :
    Argument.ofString arg = .text arg := by
  obtain ⟨hoption, hhelp⟩ := isText_iff.mp h
  have hne : ∀ flag, beginsOption flag = true → arg ≠ flag := by
    rintro flag hflag rfl
    rw [hoption] at hflag
    contradiction
  have hprefix : ['-', '-'].isPrefixOf arg.toList = false := hoption
  simp only [Argument.ofString, hhelp, hprefix, hne "--parse" (by decide),
    hne "--grammar" (by decide), hne "--help" (by decide), or_self, if_false, Bool.false_eq_true]

private theorem exists_error_of_not_fits {arg : String} (h : ¬ Fits arg) (invocation : Invocation) :
    ∃ error, invocation.add (.ofString arg) = .error error := by
  simp only [Fits, not_or] at h
  obtain ⟨hparse, hgrammar, htext⟩ := h
  unfold Argument.ofString
  rw [if_neg hparse, if_neg hgrammar]
  split
  · exact ⟨.help, rfl⟩
  · next hhelp =>
      split
      · exact ⟨.unknownOption arg, rfl⟩
      · next hoption =>
          have hne : arg ≠ "-h" := fun harg => hhelp (.inl harg)
          exact absurd (isText_iff.mpr ⟨Bool.eq_false_iff.mpr hoption, hne⟩) htext

instance decidableMisused (args : List String) : Decidable (Misused args) :=
  decidable_of_iff _ misused_iff.symm

/-! ## Arguments without order -/

namespace Invocation

def collect (start : Invocation) (args : List String) : Invocation where
  parse := start.parse || args.contains "--parse"
  grammar := start.grammar || args.contains "--grammar"
  text := start.text.or (args.filter isText).head?

private theorem collect_parse (start : Invocation) (args : List String) :
    start.collect ("--parse" :: args) = { start with parse := true }.collect args := by
  simp [collect, show isText "--parse" = false by decide]

private theorem collect_grammar (start : Invocation) (args : List String) :
    start.collect ("--grammar" :: args) = { start with grammar := true }.collect args := by
  simp [collect, show isText "--grammar" = false by decide]

private theorem collect_text {arg : String} (h : isText arg = true) {start : Invocation}
    (hnone : start.text = none) (args : List String) :
    start.collect (arg :: args) = { start with text := some arg }.collect args := by
  have hparse : "--parse" ≠ arg := by
    rintro rfl
    exact absurd h (by decide)
  have hgrammar : "--grammar" ≠ arg := by
    rintro rfl
    exact absurd h (by decide)
  simp [collect, h, hnone, hparse, hgrammar]

theorem read_eq_ok_iff {start invocation : Invocation} {args : List String} :
    start.read (args.map .ofString) = .ok invocation ↔
      (∀ arg ∈ args, Fits arg) ∧
        start.text.toList.length + (args.filter isText).length ≤ 1 ∧
        start.collect args = invocation := by
  induction args generalizing start with
  | nil =>
      have hlength : start.text.toList.length ≤ 1 := by cases start.text <;> simp
      simp [read, collect, hlength]
  | cons arg args ih =>
      rw [List.map_cons, read, List.forall_mem_cons]
      by_cases hfits : Fits arg
      · simp only [hfits, true_and]
        rcases hfits with rfl | rfl | htext
        · rw [collect_parse, List.filter_cons_of_neg (by decide)]
          exact ih
        · rw [collect_grammar, List.filter_cons_of_neg (by decide)]
          exact ih
        · rw [ofString_of_isText htext, List.filter_cons_of_pos htext]
          cases hsome : start.text with
          | none =>
              rw [collect_text htext hsome]
              simp only [add, hsome, Option.isSome_none, Bool.false_eq_true, if_false, ih]
              simp [Nat.add_comm]
          | some text =>
              have hmany : ¬ 1 + ((args.filter isText).length + 1) ≤ 1 := by omega
              simp [add, hsome, hmany]
      · obtain ⟨error, hadd⟩ := exists_error_of_not_fits hfits start
        simp [hadd, hfits]

theorem read_empty_eq_ok_iff {invocation : Invocation} {args : List String} :
    empty.read (args.map .ofString) = .ok invocation ↔
      ¬ Misused args ∧ empty.collect args = invocation := by
  have hmisused : ¬ Misused args ↔
      (∀ arg ∈ args, Fits arg) ∧ (args.filter isText).length ≤ 1 := by
    simp only [misused_iff, not_or, not_exists, not_and, Decidable.not_not, Nat.not_le,
      Nat.lt_succ_iff]
  have hnone : empty.text.toList.length = 0 := rfl
  rw [read_eq_ok_iff, hmisused, hnone, Nat.zero_add, and_assoc]

end Invocation

/-! ## Answers -/

def sourceOf (args : List String) : String :=
  (args.filter isText).head?.getD "True == Truething"

def Accepts (args : List String) (source : String) : Prop :=
  "--parse" ∈ args ∧ recognizeText .standard source = .ok ()

def Refuses (args : List String) (source : String) (diagnostic : Diagnostic) : Prop :=
  "--parse" ∈ args ∧ recognizeText .standard source = .error diagnostic

def printed (args : List String) (source : String) : String :=
  (if "--grammar" ∈ args then
    String.join (Grammar.statement.productions.map fun p => p.ebnf ++ "\n") else "")
    ++ ((lex source).toJson.render ++ "\n")

def errorReports (source : String) : String :=
  String.join ((lex source).errors.map (Report.render ⟨"<input>", source⟩))

/-- The outcome is the one that is asked for by the arguments, with the library's results for the
text. -/
structure Answers (args : List String) (source : String) (outcome : Outcome) : Prop where
  code_of_refuses : ∀ diagnostic, Refuses args source diagnostic → outcome.code = 1
  code_otherwise : (∀ diagnostic, ¬ Refuses args source diagnostic) → outcome.code = 0
  stdout_of_accepts : Accepts args source → outcome.stdout = printed args source ++ "accepted\n"
  stdout_otherwise : ¬ Accepts args source → outcome.stdout = printed args source
  stderr_of_refuses : ∀ diagnostic, Refuses args source diagnostic →
    outcome.stderr = errorReports source
      ++ (diagnostic.rejection ++ "\n") ++ Report.render ⟨"<input>", source⟩ diagnostic
  stderr_otherwise : (∀ diagnostic, ¬ Refuses args source diagnostic) →
    outcome.stderr = errorReports source

theorem defect?_statement : Grammar.statement.defect? = none := by
  decide +kernel

theorem Invocation.outcome_eq_examine (invocation : Invocation) :
    invocation.outcome = invocation.examine := by
  simp [outcome, defect?_statement]

private theorem examine_eq {invocation : Invocation} {args : List String}
    (h : Invocation.empty.collect args = invocation) :
    invocation.examine =
      if "--parse" ∈ args then
        match recognizeText .standard (sourceOf args) with
        | .ok () => ⟨0, printed args (sourceOf args) ++ "accepted\n", errorReports (sourceOf args)⟩
        | .error diagnostic =>
            ⟨1, printed args (sourceOf args), errorReports (sourceOf args)
              ++ (diagnostic.rejection ++ "\n")
              ++ Report.render ⟨"<input>", sourceOf args⟩ diagnostic⟩
      else ⟨0, printed args (sourceOf args), errorReports (sourceOf args)⟩ := by
  subst h
  have hparse : (Invocation.empty.collect args).parse = decide ("--parse" ∈ args) := by
    simp [Invocation.collect, Invocation.empty]
  have hprinted : (Invocation.empty.collect args).preface ++ lexingText (lex (sourceOf args)) =
      printed args (sourceOf args) := by
    simp [Invocation.preface, Invocation.collect, Invocation.empty, printed, grammarText,
      lexingText, line]
  have hsource : (Invocation.empty.collect args).source = sourceOf args := rfl
  simp only [Invocation.examine, hsource, hprinted, hparse, decide_eq_true_eq, recognizeText]
  rfl

private theorem answers_outcome (args : List String) :
    Answers args (sourceOf args) (Invocation.empty.collect args).outcome := by
  rw [Invocation.outcome_eq_examine, examine_eq rfl]
  by_cases hmem : "--parse" ∈ args
  · cases hverdict : recognizeText .standard (sourceOf args) with
    | ok => constructor <;> simp [Accepts, Refuses, hmem, hverdict]
    | error diagnostic => constructor <;> simp [Accepts, Refuses, hmem, hverdict]
  · constructor <;> simp [Accepts, Refuses, hmem]

theorem run_of_not_misused {args : List String} (h : ¬ Misused args) :
    run args = (Invocation.empty.collect args).outcome := by
  have hread := Invocation.read_empty_eq_ok_iff.mpr ⟨h, rfl⟩
  rw [run, hread]

private theorem exists_run_of_misused {args : List String} (h : Misused args) :
    ∃ error : UsageError, run args = ⟨2, "", line error.message⟩ := by
  cases hread : Invocation.empty.read (args.map .ofString) with
  | ok invocation => exact absurd h (Invocation.read_empty_eq_ok_iff.mp hread).1
  | error error =>
      refine ⟨error, ?_⟩
      rw [run, hread]

theorem Answers.code_ne_two {args : List String} {source : String} {outcome : Outcome}
    (h : Answers args source outcome) : outcome.code ≠ 2 := by
  by_cases hrefuses : ∃ diagnostic, Refuses args source diagnostic
  · obtain ⟨diagnostic, hrefuses⟩ := hrefuses
    rw [h.code_of_refuses diagnostic hrefuses]
    decide
  · rw [h.code_otherwise fun diagnostic hdiagnostic => hrefuses ⟨diagnostic, hdiagnostic⟩]
    decide

/-! ## Rearranged arguments -/

/-- The same flags, however often, and the same texts, both in any order. -/
structure Rearranged (args args' : List String) : Prop where
  flags : ∀ arg, isText arg = false → (arg ∈ args ↔ arg ∈ args')
  texts : (args.filter isText).Perm (args'.filter isText)

theorem rearranged_of_perm {args args' : List String} (h : args.Perm args') :
    Rearranged args args' :=
  ⟨fun _ _ => h.mem_iff, h.filter isText⟩

namespace Rearranged

variable {args args' : List String}

theorem symm (h : Rearranged args args') : Rearranged args' args :=
  ⟨fun arg harg => (h.flags arg harg).symm, h.texts.symm⟩

theorem misused (h : Rearranged args args') (hmisused : Misused args) : Misused args' := by
  rw [misused_iff] at hmisused ⊢
  rcases hmisused with ⟨arg, hmem, hfits⟩ | hlength
  · have htext : isText arg = false := by
      refine Bool.eq_false_iff.mpr fun htext => hfits ?_
      exact .inr (.inr htext)
    exact .inl ⟨arg, (h.flags arg htext).mp hmem, hfits⟩
  · exact .inr (h.texts.length_eq ▸ hlength)

theorem collect_eq (h : Rearranged args args') (hnot : ¬ Misused args) :
    Invocation.empty.collect args' = Invocation.empty.collect args := by
  have hparse := h.flags "--parse" (by decide)
  have hgrammar := h.flags "--grammar" (by decide)
  have htexts : (args'.filter isText).head? = (args.filter isText).head? := by
    have hlength : (args.filter isText).length ≤ 1 :=
      Nat.le_of_lt_succ (Nat.not_le.mp fun hmany => hnot (.extraText hmany))
    have hperm := h.texts
    -- Only here does it matter that there is one text at most: the first of several can change.
    match args.filter isText, hlength, hperm with
    | [], _, hperm => rw [List.nil_perm.mp hperm]
    | [text], _, hperm => rw [List.singleton_perm.mp hperm]
  simp [Invocation.collect, Invocation.empty, hparse, hgrammar, htexts]

theorem run_eq (h : Rearranged args args') (hnot : ¬ Misused args) : run args' = run args := by
  have hnot' : ¬ Misused args' := fun hmisused => hnot (h.symm.misused hmisused)
  rw [run_of_not_misused hnot, run_of_not_misused hnot', h.collect_eq hnot]

end Rearranged

/-- Misused arguments are answered by a code of their own and no output, all others as the library
answers for the text.  The order of the arguments makes no difference, nor does it how often a flag
is given. -/
theorem run_answers (args : List String) :
    ((run args).code = 2 ∧ (run args).stdout = "" ↔ Misused args) ∧
    (¬ Misused args → Answers args (sourceOf args) (run args)) ∧
    (∀ args', Rearranged args args' → (run args).code ≠ 2 → run args' = run args) ∧
    (∀ args', args.Perm args' → (run args).code = 2 →
      (run args').code = 2 ∧ (run args').stdout = "") := by
  have hmisused : ∀ args, Misused args → (run args).code = 2 ∧ (run args).stdout = "" := by
    intro args h
    obtain ⟨error, hrun⟩ := exists_run_of_misused h
    rw [hrun]
    exact ⟨rfl, rfl⟩
  have hanswers : ∀ args, ¬ Misused args → Answers args (sourceOf args) (run args) := by
    intro args h
    rw [run_of_not_misused h]
    exact answers_outcome args
  have hcode : (run args).code = 2 → Misused args := fun htwo =>
    Decidable.not_not.mp fun hnot => (hanswers args hnot).code_ne_two htwo
  refine ⟨⟨fun h => hcode h.1, hmisused args⟩, hanswers args, ?_, ?_⟩
  · intro args' hrearranged hne
    exact hrearranged.run_eq fun h => hne (hmisused args h).1
  · intro args' hperm htwo
    exact hmisused args' ((rearranged_of_perm hperm).misused (hcode htwo))

theorem run_answers_in_any_order :
    (run ["--grammar", "--parse", "x = 1"]).code ≠ 2 ∧
      run ["--parse", "x = 1", "--grammar", "--parse"] =
        run ["--grammar", "--parse", "x = 1"] := by
  obtain ⟨-, hanswers, hrearranged, -⟩ := run_answers ["--grammar", "--parse", "x = 1"]
  have hcode := (hanswers (by decide)).code_ne_two
  refine ⟨hcode, hrearranged _ ⟨fun arg harg => ?_, List.Perm.refl _⟩ hcode⟩
  have hne : arg ≠ "x = 1" := by
    rintro rfl
    exact absurd harg (by decide)
  simp only [List.mem_cons, List.not_mem_nil, hne, or_false, false_or]
  constructor
  · rintro (hgrammar | hparse)
    · exact .inr (.inl hgrammar)
    · exact .inl hparse
  · rintro (hparse | hgrammar | hparse)
    · exact .inr hparse
    · exact .inl hgrammar
    · exact .inr hparse

end Scriptlet.CommandLine
