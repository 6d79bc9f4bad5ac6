import LetPoly.Proofs.Drivers.Batch
import LetPoly.Proofs.Drivers.Session
import LetPoly.Proofs.Evaluation.NestedLets

/-!
# Sessions and batch runs agree

A session types and evaluates line by line, and a batch run types a whole program before it
evaluates it.  On lines with definitions and a last line with an expression both come to the
same schemes and the same values.

Main results:

- Theorem {lit}`Session.succeedsAll_iff`: the lines are typed and evaluated one by one just if
  the definitions are.
- Theorem {lit}`Session.outcome_takeAll_definitions`: the session that definitions leave.
- Theorem {lit}`Session.agrees_with_batch`: a session and a batch run on the same lines.
- Theorem {lit}`Session.stops_at_longValue`: a session that ends at a value without a text.
-/

namespace LetPoly

variable {κ : Type} [DecidableEq κ]

namespace Session

variable {settings : Settings} {s s₁ s₂ : Session κ} {line last : String}
  {lines : List String}

/-- The session in which nothing is defined. -/
def start : Session κ where
  env := ∅
  values := ∅

/-! ## Lines that are typed and evaluated -/

/-- The line is a form whose expression has a scheme and a value. -/
def Succeeds (settings : Settings) (s : Session κ) (line : String) : Prop :=
  ∃ form σ v, Parser.Form.parse line = .ok form ∧ form.value.scheme s.env = .ok σ ∧
    form.value.eval settings.limit s.values.entries = .ok v

/-- Every line is reached, and succeeds there. -/
def SucceedsAll (settings : Settings) (s : Session κ) (lines : List String) : Prop :=
  ∀ before line after, lines = before ++ line :: after →
    ∃ s₁, (s.takeAll settings before).outcome = .ok s₁ ∧ s₁.Succeeds settings line

/-- One line succeeds as a line of its own. -/
theorem succeedsAll_singleton : s.SucceedsAll settings [line] ↔ s.Succeeds settings line := by
  constructor
  · intro h
    obtain ⟨_, ⟨⟩, hline⟩ := h [] line [] rfl
    exact hline
  · intro h before next after hlines
    obtain ⟨rfl, hnext⟩ | ⟨_, -, hnil⟩ := List.cons_eq_append_iff.1 hlines
    · cases hnext
      exact ⟨s, rfl, h⟩
    · simp at hnil

/-- If all lines succeed, then so does the first one. -/
theorem SucceedsAll.head (h : s.SucceedsAll settings (line :: lines)) :
    s.Succeeds settings line := by
  obtain ⟨_, ⟨⟩, hline⟩ := h [] line lines rfl
  exact hline

/-- Behind a line that succeeds, the others must succeed. -/
theorem succeedsAll_cons_iff (hline : s.Succeeds settings line)
    (htake : (s.take settings line).outcome = .ok s₁) :
    s.SucceedsAll settings (line :: lines) ↔ s₁.SucceedsAll settings lines := by
  have hcons : ∀ before, (s.takeAll settings (line :: before)).outcome =
      (s₁.takeAll settings before).outcome := by
    intro before
    rw [outcome_takeAll_cons, htake]
    rfl
  constructor
  · intro h before next after hlines
    have hnext := h (line :: before) next after (by rw [hlines, List.cons_append])
    rwa [hcons] at hnext
  · intro h before next after hlines
    obtain ⟨rfl, hnext⟩ | ⟨before', rfl, hlines'⟩ := List.cons_eq_append_iff.1 hlines
    · cases hnext
      exact ⟨s, rfl, hline⟩
    · rw [hcons]
      exact h before' next after hlines'

/-- The lines are typed and evaluated one by one just if the definitions are, and the last
line after them. -/
theorem succeedsAll_iff {definitions : List Definition}
    (h : List.Forall₂ (fun line d => Parser.Form.parse line = .ok (.definition d)) lines
      definitions) :
    s.SucceedsAll settings (lines ++ [last]) ↔
      ∃ Γ V, Definition.extend s.env definitions = .ok Γ ∧
        Definition.evalAll settings.limit s.values definitions = .ok V ∧
        Succeeds settings ⟨Γ, V⟩ last := by
  induction h generalizing s with
  | nil =>
      rw [List.nil_append, succeedsAll_singleton]
      constructor
      · intro h
        exact ⟨s.env, s.values, rfl, rfl, h⟩
      · rintro ⟨_, _, ⟨⟩, ⟨⟩, h⟩
        exact h
  | @cons line d lines definitions hparse _ ih =>
      -- both sides need that the first definition is typed and evaluated
      have hstep : ∀ {σ v}, d.value.scheme s.env = .ok σ →
          d.value.eval settings.limit s.values.entries = .ok v →
          (s.SucceedsAll settings (line :: lines ++ [last]) ↔
            ∃ Γ V, Definition.extend s.env (d :: definitions) = .ok Γ ∧
              Definition.evalAll settings.limit s.values (d :: definitions) = .ok V ∧
              Succeeds settings ⟨Γ, V⟩ last) := by
        intro σ v hσ hv
        rw [Definition.extend_cons_of_scheme hσ, Definition.evalAll_cons_of_eval hv,
          List.cons_append, succeedsAll_cons_iff ⟨_, σ, v, hparse, hσ, hv⟩
            (outcome_take_definition hparse hσ hv)]
        exact ih
      constructor
      · intro h
        obtain ⟨form, σ, v, hform, hσ, hv⟩ := SucceedsAll.head h
        rw [hparse] at hform
        cases hform
        exact (hstep hσ hv).1 h
      · rintro ⟨Γ, V, hΓ, hV, hlast⟩
        obtain ⟨σ, hσ, -⟩ := Definition.extend_cons hΓ
        obtain ⟨v, hv⟩ := Definition.evalAll_cons hV
        exact (hstep hσ hv).2 ⟨Γ, V, hΓ, hV, hlast⟩

/-- Lines with definitions leave the schemes and the values of the definitions. -/
theorem outcome_takeAll_definitions {definitions : List Definition} {Γ : Env κ}
    {V : Bindings Value}
    (h : List.Forall₂ (fun line d => Parser.Form.parse line = .ok (.definition d)) lines
      definitions)
    (hΓ : Definition.extend s.env definitions = .ok Γ)
    (hV : Definition.evalAll settings.limit s.values definitions = .ok V) :
    (s.takeAll settings lines).outcome = .ok ⟨Γ, V⟩ := by
  induction h generalizing s with
  | nil =>
      cases hΓ
      cases hV
      rfl
  | cons hparse _ ih =>
      obtain ⟨σ, hσ, hrest⟩ := Definition.extend_cons hΓ
      obtain ⟨v, hv⟩ := Definition.evalAll_cons hV
      rw [Definition.evalAll_cons_of_eval hv] at hV
      rw [outcome_takeAll_cons, outcome_take_definition hparse hσ hv]
      exact ih hrest hV

/-- One line is taken with a prompt in front. -/
theorem takeAll_singleton :
    s.takeAll settings [line] =
      { output := prompt ++ (s.take settings line).output
        events := (s.take settings line).events
        outcome := (s.take settings line).outcome } := by
  rw [takeAll]
  cases hline : (s.take settings line).outcome <;> simp [takeAll]

/-- What comes of one more line. -/
theorem takeAll_concat (h : (s.takeAll settings lines).outcome = .ok s₁) :
    s.takeAll settings (lines ++ [last]) =
      { output := (s.takeAll settings lines).output ++ prompt ++ (s₁.take settings last).output
        events := (s.takeAll settings lines).events ++ (s₁.take settings last).events
        outcome := (s₁.take settings last).outcome } := by
  induction lines generalizing s with
  | nil =>
      cases h
      rw [List.nil_append, takeAll_singleton]
      simp [takeAll]
  | cons line lines ih =>
      obtain ⟨next, hline, hlines⟩ := outcome_takeAll_cons_eq_ok_iff.1 h
      rw [← outcome_take_eq_ok_iff] at hline
      rw [List.cons_append, takeAll, takeAll]
      simp [hline, ih hlines, String.append_assoc]

/-- The lines of a joined text. -/
theorem lines_joined (hfree : ∀ line ∈ lines ++ [last], '\n' ∉ line.toList)
    (hne : last.toList ≠ []) :
    (Text.newlineLines (Text.joined (lines ++ [last])).toList).map String.ofList =
      lines ++ [last] := by
  rw [Text.newlineLines_joined hfree hne, List.map_map]
  simp

/-- A session on the lines of a text takes them one by one. -/
theorem outcome_run_joined (hfree : ∀ line ∈ lines ++ [last], '\n' ∉ line.toList)
    (hne : last.toList ≠ []) :
    (s.run settings false (Text.joined (lines ++ [last]))).outcome =
      (s.takeAll settings (lines ++ [last])).outcome.map Session.env := by
  rw [run, lines_joined hfree hne]
  cases (s.takeAll settings (lines ++ [last])).outcome <;> rfl

/-! ## Agreement -/

/-- A session that took the definitions, the same session after the last line, its transcript
and the report of a batch run come to the same schemes, values and result. -/
structure Agrees (defined whole : Turn κ) (transcript : Transcript κ) (report : Report κ)
    (Γ : Env κ) (V : Bindings Value) (typeText : String) (v : Value) : Prop where
  definitions : defined.outcome = .ok ⟨Γ, V⟩
  /-- A value with a text is printed after the scheme. -/
  written : ∀ text, v.render = .ok text →
    whole.outcome = .ok ⟨Γ, V⟩ ∧ transcript.outcome = .ok Γ ∧ report.outcome = .ok 0 ∧
    whole.output = defined.output ++ prompt ++ (typeText ++ "= " ++ text ++ "\n") ∧
    ∃ schemes, report.output = schemes ++ (typeText ++ "= " ++ text ++ "\n")
  /-- A value without a text ends both where the text would stand. -/
  unwritten : ∀ error, v.render = .error error →
    whole.outcome = .error (.digits error) ∧ transcript.outcome = .error (.digits error) ∧
    report.outcome = .error (.digits error) ∧
    whole.output = defined.output ++ prompt ++ (typeText ++ "= ") ∧
    ∃ schemes, report.output = schemes ++ (typeText ++ "= ")

omit [DecidableEq κ] in
/-- A batch run prints about the body what a session prints about an expression. -/
theorem print_bodyLines (settings : Settings) (r : Inference κ) :
    (Line.print none (Batch.bodyLines settings r)).1 = typeText settings r := by
  have hresult : (Line.print none [Batch.resultLine r.scheme]).1 = r.scheme.resultLine := by
    have hnil : (Line.print none []).1 = "" := rfl
    rw [Line.print_none_cons, hnil, String.append_empty, Batch.resultLine, Scheme.resultLine,
      String.append_assoc]
  have hdetails : (Line.print none (Batch.detailLines r ++ [Batch.resultLine r.scheme])).1 =
      r.details ++ r.scheme.resultLine := by
    have hsubstitution : "\nSubstitution:\n" = "\n" ++ "Substitution:\n" := rfl
    have htype : "\nType: " = "\n" ++ "Type: " := rfl
    change "Constraints:\n" ++ (Constraint.renderLines r.constraints ++ "\n") ++
        ("Substitution:\n" ++ (r.substitution.renderLines ++ "\n") ++
          ("Type: " ++ (r.type.render ++ "\n") ++
            (Line.print none [Batch.resultLine r.scheme]).1)) =
      "Constraints:\n" ++ Constraint.renderLines r.constraints ++
        "\nSubstitution:\n" ++ r.substitution.renderLines ++
        "\nType: " ++ r.type.render ++ "\n" ++ r.scheme.resultLine
    rw [hresult, hsubstitution, htype]
    simp only [String.append_assoc]
  rw [Batch.bodyLines, typeText]
  cases settings.showConstraints with
  | false => simpa using hresult
  | true => exact hdetails

/-- Once the definitions and the body have schemes and values, the session and the batch run
come to them. -/
theorem exists_agrees {program : Program} {Γ : Env κ} {σ : Scheme κ} {V : Bindings Value}
    {v : Value} (hlines : ProgramLines lines last program)
    (hfree : ∀ line ∈ lines ++ [last], '\n' ∉ line.toList) (verbose : Bool)
    (hinfer : program.infer ∅ = .ok (Γ, σ)) (heval : program.eval settings.limit ∅ = .ok (V, v)) :
    ∃ r, program.body.inference Γ = .ok r ∧ r.scheme = σ ∧
      Agrees (start.takeAll settings lines) (start.takeAll settings (lines ++ [last]))
        (start.run settings false (Text.joined (lines ++ [last])))
        (Batch.run settings verbose (Text.joined (lines ++ [last]))) Γ V (typeText settings r)
        v := by
  obtain ⟨-, r, hr, rfl⟩ := Batch.of_infer hinfer
  have hne : last.toList ≠ [] := by
    intro hnil
    have hblank := Parser.Form.isBlankLine_of_parse hlines.body
    rw [Text.isBlankLine, hnil] at hblank
    cases hblank
  obtain ⟨hextend, -⟩ := Program.infer_eq_ok_iff.1 hinfer
  obtain ⟨hvalues, hbody⟩ := Program.eval_eq_ok_iff.1 heval
  have hdefinitions : (start.takeAll settings lines).outcome = .ok ⟨Γ, V⟩ :=
    outcome_takeAll_definitions hlines.definitions hextend hvalues
  obtain ⟨schemes, events, hbatch⟩ : ∃ schemes events,
      (Batch.run settings verbose (Text.joined (lines ++ [last])) : Report κ) =
        Batch.printValue .unbounded settings verbose program (schemes ++ typeText settings r)
          events := by
    have hread : Program.parseWithin Stack.unbounded.reading (Text.joined (lines ++ [last])) =
        .ok program := Program.parse_joined hlines
    rw [Batch.run, Batch.runWithin, hread]
    simp only [Batch.runProgram_unbounded hinfer hr, print_bodyLines]
    exact ⟨_, _, rfl⟩
  have hroom : Stack.holds Stack.unbounded.printing v.depth = true := rfl
  simp only [Batch.printValue, heval, if_pos hroom] at hbatch
  refine ⟨r, hr, rfl, hdefinitions, fun text htext => ?_, fun error herror => ?_⟩
  · simp only [htext] at hbatch
    rw [outcome_run_joined hfree hne, takeAll_concat hdefinitions,
      take_answered hlines.body hr hbody htext, hbatch]
    exact ⟨rfl, rfl, rfl, rfl, schemes, by simp only [String.append_assoc]⟩
  · simp only [herror] at hbatch
    rw [outcome_run_joined hfree hne, takeAll_concat hdefinitions,
      take_unwritten hlines.body hr hbody herror, hbatch]
    exact ⟨rfl, rfl, rfl, rfl, schemes, by simp only [String.append_assoc]⟩

/-- A session and a batch run agree.  Lines with definitions and a last line with an expression
are the text of the program made of them.  A session without definitions gets through all the
lines without an error of type or evaluation just if the program is typed and evaluated, and
then both come to the same schemes, the same values and the same printed result; a result that
has no text ends both. -/
theorem agrees_with_batch {program : Program} (hlines : ProgramLines lines last program)
    (hfree : ∀ line ∈ lines ++ [last], '\n' ∉ line.toList) (verbose : Bool) :
    Program.parse (Text.joined (lines ++ [last])) = .ok program ∧
    ((start : Session κ).SucceedsAll settings (lines ++ [last]) ↔
      (∃ (Γ : Env κ) (σ : Scheme κ), program.infer ∅ = .ok (Γ, σ)) ∧
        ∃ V v, program.eval settings.limit ∅ = .ok (V, v)) ∧
    ∀ (Γ : Env κ) σ V v, program.infer ∅ = .ok (Γ, σ) →
      program.eval settings.limit ∅ = .ok (V, v) →
      ∃ r, program.body.inference Γ = .ok r ∧ r.scheme = σ ∧
        Agrees (start.takeAll settings lines) (start.takeAll settings (lines ++ [last]))
          (start.run settings false (Text.joined (lines ++ [last])))
          (Batch.run settings verbose (Text.joined (lines ++ [last]))) Γ V (typeText settings r)
          v := by
  refine ⟨Program.parse_joined hlines, ?_, fun Γ σ V v => exists_agrees hlines hfree verbose⟩
  rw [succeedsAll_iff hlines.definitions]
  constructor
  · rintro ⟨Γ, V, hΓ, hV, form, σ, v, hparse, hσ, hv⟩
    rw [hlines.body] at hparse
    cases hparse
    exact ⟨⟨Γ, σ, Program.infer_eq_ok_iff.2 ⟨hΓ, hσ⟩⟩, V, v, Program.eval_eq_ok_iff.2 ⟨hV, hv⟩⟩
  · rintro ⟨⟨Γ, σ, hinfer⟩, V, v, heval⟩
    obtain ⟨hΓ, hσ⟩ := Program.infer_eq_ok_iff.1 hinfer
    obtain ⟨hV, hv⟩ := Program.eval_eq_ok_iff.1 heval
    exact ⟨Γ, V, hΓ, hV, _, σ, v, hlines.body, hσ, hv⟩

/-- Three lines that define a name twice and use it are the program of the same text. -/
theorem agrees_with_batch_redefinition :
    ∃ V, ProgramLines ["(def id (lam [x] x))", "(def id (lam [y] (id y)))"]
        "(pair (id 2) (id true))" Batch.redefinition ∧
      (start : Session Empty).SucceedsAll ⟨10, false⟩
        ["(def id (lam [x] x))", "(def id (lam [y] (id y)))", "(pair (id 2) (id true))"] ∧
      (takeAll ⟨10, false⟩ start
        ["(def id (lam [x] x))", "(def id (lam [y] (id y)))", "(pair (id 2) (id true))"]).outcome =
        .ok ⟨.single "id" (⟨["a"], .fn (.var "a") (.var "a")⟩ : Scheme Empty), V⟩ := by
  have hrender : Batch.redefinition.body.render = .ok "(pair (id 2) (id true))" := by
    decide +kernel
  have hbody := Parser.Form.parse_of_render_expression Batch.printable_redefinition.body hrender
  have hlines : ProgramLines ["(def id (lam [x] x))", "(def id (lam [y] (id y)))"]
      "(pair (id 2) (id true))" Batch.redefinition :=
    ⟨.cons parse_identity (.cons parse_identityAgain .nil), hbody⟩
  obtain ⟨V, heval⟩ := Batch.exists_eval_redefinition
  have hfree : ∀ line ∈ ["(def id (lam [x] x))", "(def id (lam [y] (id y)))"] ++
      ["(pair (id 2) (id true))"], '\n' ∉ line.toList := by
    decide
  obtain ⟨-, hsucceeds, hagrees⟩ :=
    @agrees_with_batch Empty _ ⟨10, false⟩ _ _ _ hlines hfree false
  obtain ⟨r, -, -, hagrees⟩ := hagrees _ _ _ _ Batch.infer_redefinition heval
  have htext : (Value.pair (.int 2) (.bool true)).render = .ok "(pair 2 true)" := by
    decide +kernel
  exact ⟨V, hlines, hsucceeds.2 ⟨⟨_, _, Batch.infer_redefinition⟩, V, _, heval⟩,
    (hagrees.written _ htext).1⟩

/-- A program whose value is a number of more than eight thousand digits. -/
def longValue : Program where
  definitions := []
  body := Program.longNumber (.lam "x" Program.squareBody)

/-- The line with the expression. -/
def longValueLine : String :=
  "(foldl (lam [x] (lam [y] (* x x))) 10 [0 0 0 0 0 0 0 0 0 0 0 0 0])"

theorem parse_longValueLine :
    Parser.Form.parse longValueLine = .ok (.expression longValue.body) := by
  have hx : Token.IsName "x" := by decide
  have hy : Token.IsName "y" := by decide
  have hzeros : ∀ e ∈ List.replicate 13 (Expr.int 0), e.Printable := by
    intro e he
    rw [List.eq_of_mem_replicate he]
    exact .int (by decide)
  have hsquare : ((Expr.prim .mul).apps [.var "x", .var "x"]).Printable :=
    .app (.app (.prim .mul) (.var hx)) (.var hx)
  have hrender : longValue.body.render = .ok longValueLine := by decide +kernel
  exact Parser.Form.parse_of_render_expression (e := longValue.body)
    (.app (.app (.app (.prim .foldl) (.lam hx (.lam hy hsquare))) (.int (by decide)))
      (.list hzeros)) hrender

/-- The value is a number with too many digits to be written. -/
theorem exists_eval_longValue :
    ∃ v error, longValue.body.eval Settings.standardLimit (∅ : Bindings Value).entries = .ok v ∧
      v.render = .error error := by
  have hrun : ((longValue.body.eval Settings.standardLimit
      (∅ : Bindings Value).entries).toOption.map fun v => v.render.toOption) = some none := by
    decide +kernel
  cases heval : longValue.body.eval Settings.standardLimit (∅ : Bindings Value).entries with
  | error error =>
      rw [heval] at hrun
      cases hrun
  | ok v =>
      cases hrender : v.render with
      | error error => exact ⟨v, error, rfl, hrender⟩
      | ok text =>
          rw [heval] at hrun
          simp [Except.toOption, hrender] at hrun

/-- The program is typed and evaluated, and the session ends with a failure all the same: its
value is not printed, and there is no environment at the end. -/
theorem stops_at_longValue :
    ProgramLines [] longValueLine longValue ∧ '\n' ∉ longValueLine.toList ∧
      ∃ V v error, longValue.infer ∅ = .ok (∅, (.mono .int : Scheme Empty)) ∧
        longValue.eval Settings.standardLimit ∅ = .ok (V, v) ∧
        (takeAll ⟨Settings.standardLimit, false⟩ (start : Session Empty) [longValueLine]).output =
          ">>> : Int\n= " ∧
        (takeAll ⟨Settings.standardLimit, false⟩ (start : Session Empty)
          [longValueLine]).outcome = .error (.digits error) ∧
        (run ⟨Settings.standardLimit, false⟩ false (start : Session Empty)
          longValueLine).outcome = .error (.digits error) := by
  have hlines : ProgramLines [] longValueLine longValue := ⟨.nil, parse_longValueLine⟩
  have hfree : '\n' ∉ longValueLine.toList := by decide
  obtain ⟨v, error, heval, hrender⟩ := exists_eval_longValue
  have hscheme : longValue.body.scheme ∅ = .ok (.mono .int : Scheme Empty) :=
    Checked.eq_ok_of_toOption (by decide +kernel)
  obtain ⟨r, hr, hσ⟩ := Expr.scheme_eq_ok.1 hscheme
  have hlast : take ⟨Settings.standardLimit, false⟩ start longValueLine =
      { output := typeText ⟨Settings.standardLimit, false⟩ r ++ "= "
        events := longValue.body.inferenceEvents ∅
        outcome := .error (.digits error) } :=
    take_unwritten parse_longValueLine hr heval hrender
  have htake : takeAll ⟨Settings.standardLimit, false⟩ (start : Session Empty) [longValueLine] =
      { output := prompt ++ (typeText ⟨Settings.standardLimit, false⟩ r ++ "= ")
        events := longValue.body.inferenceEvents ∅
        outcome := .error (.digits error) } := by
    rw [takeAll_singleton, hlast]
  have hjoined : Text.joined ([] ++ [longValueLine]) = longValueLine := by simp [Text.joined]
  have hrun : (run ⟨Settings.standardLimit, false⟩ false (start : Session Empty)
      (Text.joined ([] ++ [longValueLine]))).outcome = _ :=
    outcome_run_joined (List.forall_mem_singleton.2 hfree) (by decide)
  rw [hjoined, List.nil_append, htake] at hrun
  refine ⟨hlines, hfree, ∅, v, error, ?_, ?_, ?_, ?_, hrun⟩
  · exact Program.infer_eq_ok_iff.2 ⟨rfl, hscheme⟩
  · rw [Program.eval_eq_ok_iff]
    exact ⟨rfl, heval⟩
  · rw [htake]
    have hline : (Scheme.mono .int : Scheme Empty).resultLine = ": Int\n" := rfl
    simp only [typeText, hσ, hline]
    rfl
  · rw [htake]

end Session

end LetPoly
