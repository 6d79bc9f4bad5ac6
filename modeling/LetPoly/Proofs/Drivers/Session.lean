import LetPoly.Session
import LetPoly.Proofs.Inference.Runs
import LetPoly.Proofs.OrderedMaps
import LetPoly.Proofs.Reading.JoinedLines

/-!
# Sessions keep schemes and values in step

A session has one map for the schemes of its names and one for their values.  Only a
definition that is typed and evaluated changes them, and it changes the entry of its own name
in both.

Main results:

- Definition {lit}`Session.Proceeds`: what a session is after a line that does not end it.
- Theorem {lit}`Session.outcome_take_eq_ok_iff`: taking a line does just that.
- Theorem {lit}`Session.lines_keep_inStep`: what lines do to a session, one after the other.
-/

namespace LetPoly

variable {κ : Type}

namespace Parser.Form

/-- The expression of a form. -/
def value : Parser.Form → Expr
  | .definition d => d.value
  | .expression e => e

@[simp] theorem value_definition (d : Definition) : (definition d).value = d.value :=
  rfl

@[simp] theorem value_expression (e : Expr) : (expression e).value = e :=
  rfl

end Parser.Form

/-- The second map differs from the first in one entry.  A name that was bound keeps its
place, and a new one comes last. -/
structure Bindings.ChangesOnly {α : Type} (b c : Bindings α) (name : String) (value : α) :
    Prop where
  own : c.get? name = some value
  others : ∀ other, other ≠ name → c.get? other = b.get? other
  order : c.names = if name ∈ b.names then b.names else b.names ++ [name]

/-- Binding a name changes nothing else. -/
theorem Bindings.changesOnly_insert {α : Type} (b : Bindings α) (name : String) (value : α) :
    b.ChangesOnly (b.insert name value) name value where
  own := by simp
  others other h := by simp [h]
  order := b.names_insert name value

/-- There is no scheme exactly if inference fails. -/
theorem Expr.scheme_eq_error [DecidableEq κ] {Γ : Env κ} {e : Expr} {error : CheckError κ} :
    e.scheme Γ = .error error ↔ e.inference Γ = .error error := by
  rw [scheme]
  cases e.inference Γ with
  | error _ =>
      constructor
      · intro h
        cases h
        rfl
      · intro h
        cases h
        rfl
  | ok _ =>
      constructor
      · intro h
        cases h
      · intro h
        cases h

namespace Session

/-- The names that have schemes are those that have values. -/
def InStep (s : Session κ) : Prop :=
  ∀ x, x ∈ s.env.names ↔ x ∈ s.values.names

/-- A name that is bound to a scheme and a value keeps them in step. -/
theorem InStep.insert {s : Session κ} (h : s.InStep) (x : String) (σ : Scheme κ) (v : Value) :
    InStep ⟨s.env.insert x σ, s.values.insert x v⟩ := by
  intro y
  simp only [Bindings.mem_names_insert, h y]

/-! ## One line -/

/-- A session goes on after a failure that is reported, and is the same as before. -/
theorem outcome_failing_eq_ok_iff {s s₂ : Session κ} {output : String}
    {events : List (Event κ)} {failure : Failure κ} :
    (s.failing output events failure).outcome = .ok s₂ ↔
      (failure.report? headings).isSome = true ∧ s = s₂ := by
  rw [failing]
  cases failure.report? headings with
  | none => exact ⟨nofun, nofun⟩
  | some report => exact ⟨fun h => ⟨rfl, Except.ok.inj h⟩, fun h => congrArg _ h.2⟩

variable [DecidableEq κ]

/-- The line has a syntax error, or its expression has a type error or an evaluation error. -/
inductive Refused (settings : Settings) (s : Session κ) (line : String) : Prop where
  | unread {error : ParseError} (hparse : Parser.Form.parse line = .error (.syntaxError error))
  | untyped {form : Parser.Form} {error : TypeError κ} (hparse : Parser.Form.parse line = .ok form)
      (hscheme : form.value.scheme s.env = .error (.rejected error))
  | unevaluated {form : Parser.Form} {σ : Scheme κ} {error : EvalError} {message : String}
      (hparse : Parser.Form.parse line = .ok form) (hscheme : form.value.scheme s.env = .ok σ)
      (heval : form.value.eval settings.limit s.values.entries = .error error)
      (hreported : error.isReported = true) (hmessage : error.message = .ok message)

/-- What is printed about the type of an expression. -/
def typeText (settings : Settings) (r : Inference κ) : String :=
  (if settings.showConstraints then r.details else "") ++ r.scheme.resultLine

/-- What a session is after a line that does not end it. -/
inductive Proceeds (settings : Settings) (s : Session κ) (line : String) : Session κ → Prop where
  | blank (hblank : Text.isBlankLine line = true) : Proceeds settings s line s
  | refused (h : s.Refused settings line) : Proceeds settings s line s
  | answered {e : Expr} {σ : Scheme κ} {v : Value} {text : String}
      (hparse : Parser.Form.parse line = .ok (.expression e)) (hscheme : e.scheme s.env = .ok σ)
      (heval : e.eval settings.limit s.values.entries = .ok v) (hrender : v.render = .ok text) :
      Proceeds settings s line s
  | defined {d : Definition} {σ : Scheme κ} {v : Value}
      (hparse : Parser.Form.parse line = .ok (.definition d))
      (hscheme : d.value.scheme s.env = .ok σ)
      (heval : d.value.eval settings.limit s.values.entries = .ok v) :
      Proceeds settings s line ⟨s.env.insert d.name σ, s.values.insert d.name v⟩

end Session

namespace Failure

/-- Texts that are rejected are reported. -/
theorem isSome_report?_ofRead_iff {headings : Headings} {line : String} {error : ReadError} :
    ((ofRead line error : Failure κ).report? headings).isSome = true ↔
      ∃ report, error = .syntaxError report := by
  cases error with
  | syntaxError error => simp [ofRead, report?]
  | aborted reason => cases reason <;> simp [ofRead, report?]

/-- Expressions that are rejected are reported. -/
theorem isSome_report?_check_iff {headings : Headings} {error : CheckError κ} :
    ((check error).report? headings).isSome = true ↔ ∃ reason, error = .rejected reason := by
  cases error <;> simp [report?]

/-- Failures of evaluation are reported if they can be written down. -/
theorem isSome_report?_ofEval_iff {headings : Headings} {error : EvalError} :
    ((ofEval error : Failure κ).report? headings).isSome = true ↔
      error.isReported = true ∧ ∃ message, error.message = .ok message := by
  rw [ofEval]
  cases error.message <;> simp [report?]

end Failure

namespace Session

variable [DecidableEq κ] {settings : Settings} {s s₁ s₂ : Session κ} {line : String}

/-- A definition is defined. -/
theorem take_definition {d : Definition}
    (hparse : Parser.Form.parse line = .ok (.definition d)) :
    s.take settings line = s.define settings d := by
  rw [take, Parser.Form.isBlankLine_of_parse hparse, hparse]
  rfl

/-- An expression is answered. -/
theorem take_expression {e : Expr} (hparse : Parser.Form.parse line = .ok (.expression e)) :
    s.take settings line = s.answer settings e := by
  rw [take, Parser.Form.isBlankLine_of_parse hparse, hparse]
  rfl

/-- A session that goes on after a failed check was given a type error. -/
theorem Proceeds.of_failing_check {form : Parser.Form} {error : CheckError κ} {output : String}
    {events : List (Event κ)} (hparse : Parser.Form.parse line = .ok form)
    (hscheme : form.value.scheme s.env = .error error)
    (h : (s.failing output events (.check error)).outcome = .ok s₂) :
    s.Proceeds settings line s₂ := by
  obtain ⟨hreported, rfl⟩ := outcome_failing_eq_ok_iff.1 h
  obtain ⟨_, rfl⟩ := Failure.isSome_report?_check_iff.1 hreported
  exact .refused (.untyped hparse hscheme)

/-- A session that goes on after a failed evaluation was given an evaluation error. -/
theorem Proceeds.of_failing_eval {form : Parser.Form} {σ : Scheme κ} {error : EvalError}
    {output : String} {events : List (Event κ)} (hparse : Parser.Form.parse line = .ok form)
    (hscheme : form.value.scheme s.env = .ok σ)
    (heval : form.value.eval settings.limit s.values.entries = .error error)
    (h : (s.failing output events (.ofEval error)).outcome = .ok s₂) :
    s.Proceeds settings line s₂ := by
  obtain ⟨hfailure, rfl⟩ := outcome_failing_eq_ok_iff.1 h
  obtain ⟨hreported, _, hmessage⟩ := Failure.isSome_report?_ofEval_iff.1 hfailure
  exact .refused (.unevaluated hparse hscheme heval hreported hmessage)

/-- What a definition does that ends well. -/
theorem Proceeds.of_define {d : Definition}
    (hparse : Parser.Form.parse line = .ok (.definition d))
    (h : (s.define settings d).outcome = .ok s₂) : s.Proceeds settings line s₂ := by
  rw [define] at h
  cases hscheme : d.value.scheme s.env with
  | error error =>
      rw [hscheme] at h
      exact .of_failing_check hparse hscheme h
  | ok σ =>
      rw [hscheme] at h
      cases heval : d.value.eval settings.limit s.values.entries with
      | error error =>
          simp only [heval] at h
          exact .of_failing_eval hparse hscheme heval h
      | ok v =>
          simp only [heval] at h
          cases h
          exact .defined hparse hscheme heval

/-- What an expression does that ends well. -/
theorem Proceeds.of_answer {e : Expr} (hparse : Parser.Form.parse line = .ok (.expression e))
    (h : (s.answer settings e).outcome = .ok s₂) : s.Proceeds settings line s₂ := by
  rw [answer] at h
  cases hinference : e.inference s.env with
  | error error =>
      rw [hinference] at h
      exact .of_failing_check hparse (Expr.scheme_eq_error.2 hinference) h
  | ok r =>
      have hscheme : e.scheme s.env = .ok r.scheme := Expr.scheme_eq_ok.2 ⟨r, hinference, rfl⟩
      rw [hinference] at h
      cases heval : e.eval settings.limit s.values.entries with
      | error error =>
          simp only [heval] at h
          exact .of_failing_eval hparse hscheme heval h
      | ok v =>
          cases hrender : v.render with
          | error error =>
              simp only [heval, hrender] at h
              exact nomatch (outcome_failing_eq_ok_iff.1 h).1
          | ok text =>
              simp only [heval, hrender] at h
              cases h
              exact .answered hparse hscheme heval hrender

/-- What a line does that ends well: there are no other ways. -/
theorem Proceeds.of_take (h : (s.take settings line).outcome = .ok s₂) :
    s.Proceeds settings line s₂ := by
  cases hparse : Parser.Form.parse line with
  | error error =>
      rw [take, hparse] at h
      split at h
      next hblank =>
        cases h
        exact .blank hblank
      next =>
        obtain ⟨hreported, rfl⟩ := outcome_failing_eq_ok_iff.1 h
        obtain ⟨_, rfl⟩ := Failure.isSome_report?_ofRead_iff.1 hreported
        exact .refused (.unread hparse)
  | ok form =>
      cases form with
      | definition d =>
          rw [take_definition hparse] at h
          exact .of_define hparse h
      | expression e =>
          rw [take_expression hparse] at h
          exact .of_answer hparse h

/-- A refused line leaves the session as it is. -/
theorem Refused.outcome_take (h : s.Refused settings line) :
    (s.take settings line).outcome = .ok s := by
  cases h with
  | unread hparse =>
      rw [take, hparse]
      split
      next => rfl
      next => rfl
  | @untyped form _ hparse hscheme =>
      cases form with
      | definition d =>
          rw [Parser.Form.value_definition] at hscheme
          rw [take_definition hparse, define, hscheme]
          rfl
      | expression e =>
          rw [Parser.Form.value_expression, Expr.scheme_eq_error] at hscheme
          rw [take_expression hparse, answer, hscheme]
          rfl
  | @unevaluated form σ error message hparse hscheme heval hreported hmessage =>
      have hfailure : ∀ output events,
          (s.failing output events (.ofEval error)).outcome = .ok s := fun _ _ =>
        outcome_failing_eq_ok_iff.2
          ⟨Failure.isSome_report?_ofEval_iff.2 ⟨hreported, message, hmessage⟩, rfl⟩
      cases form with
      | definition d =>
          rw [Parser.Form.value_definition] at hscheme heval
          rw [take_definition hparse, define, hscheme]
          simp only [heval]
          exact hfailure _ _
      | expression e =>
          rw [Parser.Form.value_expression] at hscheme heval
          obtain ⟨r, hr, -⟩ := Expr.scheme_eq_ok.1 hscheme
          rw [take_expression hparse, answer, hr]
          simp only [heval]
          exact hfailure _ _

/-- A definition that is typed and has a value binds its name to both. -/
theorem outcome_take_definition {d : Definition} {σ : Scheme κ} {v : Value}
    (hparse : Parser.Form.parse line = .ok (.definition d))
    (hscheme : d.value.scheme s.env = .ok σ)
    (heval : d.value.eval settings.limit s.values.entries = .ok v) :
    (s.take settings line).outcome =
      .ok ⟨s.env.insert d.name σ, s.values.insert d.name v⟩ := by
  rw [take_definition hparse, define, hscheme]
  simp only [heval]

/-- An expression that is typed and has a value prints its type and its value. -/
theorem take_answered {e : Expr} {r : Inference κ} {v : Value} {text : String}
    (hparse : Parser.Form.parse line = .ok (.expression e)) (hr : e.inference s.env = .ok r)
    (heval : e.eval settings.limit s.values.entries = .ok v) (hrender : v.render = .ok text) :
    s.take settings line =
      { output := typeText settings r ++ "= " ++ text ++ "\n"
        events := e.inferenceEvents s.env
        outcome := .ok s } := by
  rw [take_expression hparse, answer, hr]
  simp only [heval, hrender]
  rfl

/-- A value whose text is too long ends the session where the text would stand. -/
theorem take_unwritten {e : Expr} {r : Inference κ} {v : Value} {error : Text.DigitError}
    (hparse : Parser.Form.parse line = .ok (.expression e)) (hr : e.inference s.env = .ok r)
    (heval : e.eval settings.limit s.values.entries = .ok v) (hrender : v.render = .error error) :
    s.take settings line =
      { output := typeText settings r ++ "= "
        events := e.inferenceEvents s.env
        outcome := .error (.digits error) } := by
  rw [take_expression hparse, answer, hr]
  simp only [heval, hrender]
  rfl

/-- Taking a line goes on with the session that the line leaves. -/
theorem outcome_take_eq_ok_iff :
    (s.take settings line).outcome = .ok s₂ ↔ s.Proceeds settings line s₂ := by
  refine ⟨.of_take, fun h => ?_⟩
  cases h with
  | blank hblank => rw [take, if_pos hblank]
  | refused h => exact h.outcome_take
  | answered hparse hscheme heval hrender =>
      obtain ⟨r, hr, -⟩ := Expr.scheme_eq_ok.1 hscheme
      rw [take_answered hparse hr heval hrender]
  | defined hparse hscheme heval => exact outcome_take_definition hparse hscheme heval

/-- A line keeps schemes and values in step. -/
theorem Proceeds.inStep (h : s.Proceeds settings line s₂) (hstep : s.InStep) : s₂.InStep := by
  cases h with
  | blank => exact hstep
  | refused => exact hstep
  | answered => exact hstep
  | defined => exact hstep.insert _ _ _

/-! ## Many lines -/

/-- Lines are taken one after the other. -/
theorem outcome_takeAll_cons {lines : List String} :
    (s.takeAll settings (line :: lines)).outcome =
      (s.take settings line).outcome.bind fun next => (next.takeAll settings lines).outcome := by
  rw [takeAll]
  cases (s.take settings line).outcome <;> rfl

/-- Some lines end well if the first one does and then the others. -/
theorem outcome_takeAll_cons_eq_ok_iff {lines : List String} :
    (s.takeAll settings (line :: lines)).outcome = .ok s₂ ↔
      ∃ s₁, s.Proceeds settings line s₁ ∧ (s₁.takeAll settings lines).outcome = .ok s₂ := by
  simp only [← outcome_take_eq_ok_iff, outcome_takeAll_cons]
  cases (s.take settings line).outcome with
  | error failure => exact ⟨nofun, nofun⟩
  | ok next =>
      constructor
      · intro h
        exact ⟨next, rfl, h⟩
      · rintro ⟨_, ⟨⟩, h⟩
        exact h

/-- Lines keep schemes and values in step. -/
theorem InStep.takeAll {lines : List String} (hstep : s.InStep)
    (h : (s.takeAll settings lines).outcome = .ok s₂) : s₂.InStep := by
  induction lines generalizing s with
  | nil =>
      cases h
      exact hstep
  | cons line lines ih =>
      obtain ⟨s₁, hline, hlines⟩ := outcome_takeAll_cons_eq_ok_iff.1 h
      exact ih (hline.inStep hstep) hlines

/-- What a line does to the schemes and the values of a session. -/
structure LineEffects (settings : Settings) (s : Session κ) (line : String) : Prop where
  inStep : ∀ s₂, (s.take settings line).outcome = .ok s₂ → s₂.InStep
  refused : s.Refused settings line → (s.take settings line).outcome = .ok s
  expression : ∀ e, Parser.Form.parse line = .ok (.expression e) →
    ∀ s₂, (s.take settings line).outcome = .ok s₂ → s₂ = s
  answered : ∀ e σ v text, Parser.Form.parse line = .ok (.expression e) →
    e.scheme s.env = .ok σ → e.eval settings.limit s.values.entries = .ok v →
    v.render = .ok text → (s.take settings line).outcome = .ok s
  definition : ∀ d σ v, Parser.Form.parse line = .ok (.definition d) →
    d.value.scheme s.env = .ok σ → d.value.eval settings.limit s.values.entries = .ok v →
    ∃ s₂, (s.take settings line).outcome = .ok s₂ ∧
      s.env.ChangesOnly s₂.env d.name σ ∧ s.values.ChangesOnly s₂.values d.name v
  changed : ∀ s₂, (s.take settings line).outcome = .ok s₂ → s₂ ≠ s →
    ∃ d σ v, Parser.Form.parse line = .ok (.definition d) ∧
      d.value.scheme s.env = .ok σ ∧ d.value.eval settings.limit s.values.entries = .ok v

/-- What one line does to a session in step. -/
theorem InStep.lineEffects (hstep : s.InStep) (settings : Settings) (line : String) :
    s.LineEffects settings line where
  inStep s₂ h := (Proceeds.of_take h).inStep hstep
  refused h := h.outcome_take
  expression e hparse s₂ h := by
    cases Proceeds.of_take h with
    | blank => rfl
    | refused => rfl
    | answered => rfl
    | defined hparse' =>
        rw [hparse] at hparse'
        cases hparse'
  answered e σ v text hparse hscheme heval hrender :=
    outcome_take_eq_ok_iff.2 (.answered hparse hscheme heval hrender)
  definition d σ v hparse hscheme heval :=
    ⟨_, outcome_take_definition hparse hscheme heval,
      s.env.changesOnly_insert d.name σ, s.values.changesOnly_insert d.name v⟩
  changed s₂ h hne := by
    cases Proceeds.of_take h with
    | blank => exact absurd rfl hne
    | refused => exact absurd rfl hne
    | answered => exact absurd rfl hne
    | defined hparse hscheme heval => exact ⟨_, _, _, hparse, hscheme, heval⟩

/-- Schemes and values stay in step.  Whatever lines came before, a line that is refused and a
line with an expression change nothing, and a definition that is typed and evaluated changes
the entry of its own name: its scheme and its value are those of its expression before the
line. -/
theorem lines_keep_inStep {before : List String} (hstep : s.InStep)
    (hbefore : (s.takeAll settings before).outcome = .ok s₁) :
    s₁.InStep ∧ ∀ line, s₁.LineEffects settings line := by
  have hstep₁ := hstep.takeAll hbefore
  exact ⟨hstep₁, hstep₁.lineEffects settings⟩

/-- The identity function. -/
def identity : Definition where
  name := "id"
  value := .lam "x" (.var "x")

/-- A second definition of the same name, with the use of the first. -/
def identityAgain : Definition where
  name := "id"
  value := .lam "y" (.app (.var "id") (.var "y"))

theorem parse_identity :
    Parser.Form.parse "(def id (lam [x] x))" = .ok (.definition identity) := by
  have hx : Token.IsName "x" := by decide
  exact Parser.Form.parse_of_render_definition (d := identity) (by decide) (.lam hx (.var hx)) rfl

theorem parse_identityAgain :
    Parser.Form.parse "(def id (lam [y] (id y)))" = .ok (.definition identityAgain) := by
  have hid : Token.IsName "id" := by decide
  have hy : Token.IsName "y" := by decide
  exact Parser.Form.parse_of_render_definition (d := identityAgain) hid
    (.lam hy (.app (.var hid) (.var hy))) rfl

/-- A name is defined and then defined again by means of itself: the new value has the old one
inside. -/
theorem lines_keep_inStep_identityAgain :
    ∃ s₁ s₂ : Session Empty, InStep (⟨∅, ∅⟩ : Session Empty) ∧
      (takeAll ⟨10, false⟩ ⟨∅, ∅⟩ ["(def id (lam [x] x))"]).outcome = .ok s₁ ∧ s₁.InStep ∧
      (s₁.take ⟨10, false⟩ "(def id (lam [y] (id y)))").outcome = .ok s₂ ∧
      s₂.env.get? "id" = some ⟨["a"], .fn (.var "a") (.var "a")⟩ ∧
      s₂.values.get? "id" = some (.closure "y" (.app (.var "id") (.var "y"))
        [("id", .closure "x" (.var "x") [])]) := by
  have hempty : InStep (⟨∅, ∅⟩ : Session Empty) := fun _ => Iff.rfl
  let σ : Scheme Empty := ⟨["a"], .fn (.var "a") (.var "a")⟩
  have hscheme : identity.value.scheme ∅ = .ok σ := Checked.eq_ok_of_toOption rfl
  have hscheme' : identityAgain.value.scheme (Bindings.insert ∅ "id" σ) = .ok σ :=
    Checked.eq_ok_of_toOption (by decide +kernel)
  have hline : Proceeds ⟨10, false⟩ ⟨∅, ∅⟩ "(def id (lam [x] x))"
      ⟨Bindings.insert ∅ "id" σ, Bindings.insert ∅ "id" (.closure "x" (.var "x") [])⟩ :=
    .defined parse_identity hscheme rfl
  have hbefore := outcome_takeAll_cons_eq_ok_iff.2 ⟨_, hline, Eq.refl (takeAll _ _ []).outcome⟩
  obtain ⟨hstep, heffects⟩ := lines_keep_inStep hempty hbefore
  obtain ⟨s₂, htake, henv, hvalues⟩ := (heffects "(def id (lam [y] (id y)))").definition
    identityAgain σ _ parse_identityAgain hscheme' rfl
  exact ⟨_, s₂, hempty, hbefore, hstep, htake, henv.own, hvalues.own⟩

end Session

end LetPoly
