import LetPoly.Proofs.Reading.RoundTrip
import LetPoly.Text.Lines

/-!
# Lines that are read one by one and together

A newline ends a token and a comment.  So the tokens of lines that are joined by newlines are
those of the lines one after the other, and definitions and an expression that are read line
by line are read together as a program.

Main results:

- Theorem {lit}`Token.Lexes.append_newline`: the tokens on both sides of a newline.
- Theorem {lit}`Program.parse_joined`: lines with definitions and an expression are the text of
  a program.
- Theorem {lit}`Text.newlineLines_joined`: the lines of a joined text.
-/

namespace LetPoly

open Token (Lexes Gap Longest skipBlanks)

/-! ## Tokens on both sides of a newline -/

theorem Token.skipBlanks_eq_nil_of_isBlank {cs : List Char}
    (h : ∀ c ∈ cs, Text.isBlank c = true) : skipBlanks false cs = [] := by
  induction cs with
  | nil => rfl
  | cons c cs ih =>
      rw [List.forall_mem_cons] at h
      simpa [skipBlanks, h.1] using ih h.2

/-- White space and comments up to the end of a line are skipped, and the newline with
them. -/
theorem Token.Gap.skipBlanks_append_newline {cs : List Char} (h : Gap cs [])
    (after : List Char) : skipBlanks false (cs ++ '\n' :: after) = skipBlanks false after := by
  have hskip : skipBlanks false (cs ++ []) = [] := by
    rw [List.append_nil]
    exact h.skipBlanks_eq
  obtain ⟨inComment, -, hnext⟩ := exists_skipBlanks_append hskip
  rw [hnext]
  -- the newline is white space, and it ends a comment
  cases inComment <;> rfl

/-- The tokens on both sides of a newline. -/
theorem Token.Lexes.append_newline {cs after rest : List Char} {tokens more : List Token}
    (h : Lexes cs tokens []) (hafter : Lexes after more rest) :
    Lexes (cs ++ '\n' :: after) (tokens ++ more) rest := by
  induction tokens generalizing cs with
  | nil =>
      rcases h with ⟨hgap⟩
      rw [List.nil_append, ← skipBlanks_left_iff, hgap.skipBlanks_append_newline,
        skipBlanks_left_iff]
      exact hafter
  | cons token tokens ih =>
      rcases h with _ | @⟨_, lexeme, line, _, _, _, hgap, hlongest, h⟩
      have hlongest' : Longest token lexeme (line ++ '\n' :: after) := by
        rw [← List.append_nil line] at hlongest
        refine hlongest.append_separated fun c hc => ?_
        obtain rfl : '\n' = c := by simpa using hc
        decide
      obtain ⟨blanks, rfl⟩ := hgap.isSuffix
      obtain ⟨c, lexeme, rfl⟩ := List.exists_cons_of_ne_nil hlongest.spells.ne_nil
      simp only [List.append_assoc, List.cons_append] at hgap ⊢
      exact .token (hgap.change_tail _) hlongest' (ih h)

/-! ## Forms and programs -/

namespace Parser.Form

theorem parse_eq_ok_iff {text : String} {form : Parser.Form} :
    Form.parse text = .ok form ↔ ∃ tokens, Lexes text.toList tokens [] ∧
      (∀ t ∈ tokens, t.IsShort) ∧ Language.forms.Word tokens form :=
  Parser.parseText_eq_ok_iff_shortWord Parser.exact_forms Language.prefixFree_forms

/-- A definition is read again from its printed text. -/
theorem parse_of_render_definition {d : Definition} {line : String} (hname : Token.IsName d.name)
    (hvalue : d.value.Printable) (hrender : d.render = .ok line) :
    Form.parse line = .ok (.definition d) := by
  obtain ⟨text, p, htext, hp, hwrites⟩ := Definition.written hname hvalue
  obtain rfl : line = text := Except.ok.inj (hrender.symm.trans htext)
  refine parse_eq_ok_iff.2 ⟨p.tokens, hwrites.lexes_all, hwrites.isShort, ?_⟩
  exact ⟨.definition p, rfl, by rw [FormPhrase.form, hp]⟩

/-- An expression is read again from its printed text. -/
theorem parse_of_render_expression {e : Expr} {line : String} (h : e.Printable)
    (hrender : e.render = .ok line) : Form.parse line = .ok (.expression e) := by
  obtain ⟨text, p, htext, hp, hwrites⟩ := h.written.1
  obtain rfl : line = text := Except.ok.inj (hrender.symm.trans htext)
  refine parse_eq_ok_iff.2 ⟨p.tokens, hwrites.lexes_all, hwrites.isShort, ?_⟩
  exact ⟨.expression p, rfl, by rw [FormPhrase.form, hp]⟩

/-- The tokens of a line with a definition. -/
theorem exists_phrase_of_definition {line : String} {d : Definition}
    (h : Form.parse line = .ok (.definition d)) :
    ∃ p : DefinitionPhrase, p.definition = d ∧ Lexes line.toList p.tokens [] ∧
      ∀ t ∈ p.tokens, t.IsShort := by
  obtain ⟨_, hlexes, hshort, p, rfl, hform⟩ := parse_eq_ok_iff.1 h
  cases p with
  | definition p =>
      cases hform
      exact ⟨p, rfl, hlexes, hshort⟩
  | expression p => cases hform

/-- The tokens of a line with an expression. -/
theorem exists_phrase_of_expression {line : String} {e : Expr}
    (h : Form.parse line = .ok (.expression e)) :
    ∃ p : Phrase, p.expr = e ∧ Lexes line.toList p.tokens [] ∧ ∀ t ∈ p.tokens, t.IsShort := by
  obtain ⟨_, hlexes, hshort, p, rfl, hform⟩ := parse_eq_ok_iff.1 h
  cases p with
  | definition p => cases hform
  | expression p =>
      cases hform
      exact ⟨p, rfl, hlexes, hshort⟩

/-- A line that can be read is not blank. -/
theorem isBlankLine_of_parse {line : String} {form : Parser.Form}
    (h : Form.parse line = .ok form) : Text.isBlankLine line = false := by
  obtain ⟨_, hlexes, -, p, rfl, -⟩ := parse_eq_ok_iff.1 h
  have hne : p.tokens ≠ [] := by
    cases p with
    | definition d => exact List.cons_ne_nil _ _
    | expression p => exact p.tokens_ne_nil
  obtain ⟨token, tokens, htokens⟩ := List.exists_cons_of_ne_nil hne
  rw [htokens] at hlexes
  obtain ⟨after, hscan, -⟩ := Lexes.cons_iff.1 hlexes
  by_contra hblank
  rw [Bool.not_eq_false, Text.isBlankLine, List.all_eq_true] at hblank
  rw [Token.skipBlanks_eq_nil_of_isBlank hblank] at hscan
  cases hscan

end Parser.Form

/-! ## Joined lines -/

/-- Lines with definitions, then a line with an expression. -/
structure ProgramLines (lines : List String) (last : String) (program : Program) : Prop where
  definitions : List.Forall₂ (fun line d => Parser.Form.parse line = .ok (.definition d)) lines
    program.definitions
  body : Parser.Form.parse last = .ok (.expression program.body)

/-- Lines joined by newlines. -/
def Text.joined (lines : List String) : String :=
  "\n".intercalate lines

theorem Text.toList_joined_cons (line : String) (lines : List String) (last : String) :
    (joined (line :: (lines ++ [last]))).toList =
      line.toList ++ '\n' :: (joined (lines ++ [last])).toList := by
  obtain ⟨next, rest, hrest⟩ := List.exists_cons_of_ne_nil (List.concat_ne_nil last lines)
  rw [hrest, joined, joined, String.intercalate_cons_cons]
  simp

theorem Text.newlineLines_append_newline {line : List Char} (h : '\n' ∉ line)
    (rest : List Char) : newlineLines (line ++ '\n' :: rest) = line :: newlineLines rest := by
  induction line with
  | nil => simp [newlineLines]
  | cons c line ih =>
      rw [List.mem_cons, not_or] at h
      simp [newlineLines, Ne.symm h.1, ih h.2]

theorem Text.newlineLines_of_notMem {line : List Char} (h : '\n' ∉ line) (hne : line ≠ []) :
    newlineLines line = [line] := by
  induction line with
  | nil => exact absurd rfl hne
  | cons c line ih =>
      rw [List.mem_cons, not_or] at h
      cases line with
      | nil => simp [newlineLines, Ne.symm h.1]
      | cons d line =>
          rw [newlineLines, if_neg (Ne.symm h.1), ih h.2 (List.cons_ne_nil d line)]

/-- The lines of a joined text are those that were joined, unless the last is empty. -/
theorem Text.newlineLines_joined {lines : List String} {last : String}
    (hfree : ∀ line ∈ lines ++ [last], '\n' ∉ line.toList) (hne : last.toList ≠ []) :
    newlineLines (joined (lines ++ [last])).toList = (lines ++ [last]).map String.toList := by
  induction lines with
  | nil =>
      have hlast : '\n' ∉ last.toList := hfree last (List.mem_singleton_self last)
      simpa [joined] using newlineLines_of_notMem hlast hne
  | cons line lines ih =>
      rw [List.cons_append, List.forall_mem_cons] at hfree
      rw [List.cons_append, toList_joined_cons, newlineLines_append_newline hfree.1,
        ih hfree.2, List.map_cons]

/-- Lines with definitions and an expression are the text of a program. -/
theorem Program.parse_joined {lines : List String} {last : String} {program : Program}
    (h : ProgramLines lines last program) :
    Program.parse (Text.joined (lines ++ [last])) = .ok program := by
  obtain ⟨body, hbody, hlexes, hshort⟩ := Parser.Form.exists_phrase_of_expression h.body
  have hdefinitions : ∃ ps : List DefinitionPhrase,
      ps.map DefinitionPhrase.definition = program.definitions ∧
      Lexes (Text.joined (lines ++ [last])).toList
        (ps.flatMap DefinitionPhrase.tokens ++ body.tokens) [] ∧
      ∀ t ∈ ps.flatMap DefinitionPhrase.tokens ++ body.tokens, t.IsShort := by
    have hlines := h.definitions
    clear h
    generalize program.definitions = ds at hlines ⊢
    induction hlines with
    | nil => exact ⟨[], rfl, by simpa [Text.joined] using hlexes, by simpa using hshort⟩
    | @cons line d lines ds hline _ ih =>
        obtain ⟨p, hp, hplexes, hpshort⟩ := Parser.Form.exists_phrase_of_definition hline
        obtain ⟨ps, hps, hpslexes, hpsshort⟩ := ih
        refine ⟨p :: ps, by rw [List.map_cons, hp, hps], ?_, ?_⟩
        · rw [List.cons_append, Text.toList_joined_cons, List.flatMap_cons, List.append_assoc]
          exact hplexes.append_newline hpslexes
        · rw [List.flatMap_cons, List.append_assoc]
          exact List.forall_mem_append.2 ⟨hpshort, hpsshort⟩
  obtain ⟨ps, hps, hpslexes, hpsshort⟩ := hdefinitions
  refine parse_eq_ok_iff.2 ⟨_, hpslexes, hpsshort, ⟨ps, body⟩, rfl, ?_⟩
  rw [ProgramPhrase.program, hps, hbody]

end LetPoly
