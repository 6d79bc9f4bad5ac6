import LetPoly.Proofs.Reading.Grammar
import LetPoly.Proofs.Reading.Languages

/-!
# The sentences of the grammar

The languages that the grammar derives from its nonterminals.  A word of each of them is taken apart
into words of smaller languages one after another, in the order in which a parser meets them.

Main results:

- Theorems {lit}`prefixFree_expressions`, {lit}`prefixFree_programs` and {lit}`prefixFree_forms`: no
  sentence is the beginning of another.
- Theorems {lit}`word_expressions_iff`, {lit}`word_definitions_iff`, {lit}`word_programs_iff` and
  {lit}`word_forms_iff`: what the sentences are made of.
- Theorem {lit}`greedy_inParens`: in parentheses as much as possible may be read in front of the
  closing one.
-/

namespace LetPoly

/-! ## Tokens that can be spelled -/

namespace Token

@[simp] theorem isSpelled_prim (p : Primitive) : (prim p).IsSpelled :=
  ⟨_, .prim p⟩

@[simp] theorem isSpelled_keyword (k : Keyword) : (keyword k).IsSpelled :=
  ⟨_, .keyword k⟩

/-- There is an integer, so that a language of integers has a word. -/
@[simp] theorem isSpelled_zero : (integer false ['0']).IsSpelled :=
  ⟨_, .integer (by decide) (List.forall_mem_singleton.2 rfl)⟩

/-- There is a name. -/
@[simp] theorem isSpelled_x : (name "x").IsSpelled :=
  ⟨_, .name (by decide)⟩

end Token

namespace Language

/-! ## Single tokens -/

/-- The language of a bracket, a parenthesis or an operator. -/
def symbol (t : Token) : Language String :=
  token t t.kind.text

/-- The language of a reserved word. -/
def reserved (t : Token) : Language (List Char) :=
  token t t.kind.text.toList

/-- The language of names. -/
def names : Language String where
  Word tokens x := tokens = [.name x]

/-- The language of integers. -/
def integers : Language Expr where
  Word tokens e := ∃ negative digits, tokens = [.integer negative digits] ∧
    Expr.int (Phrase.numeral negative digits) = e

/-- The language of an operator that is written with signs. -/
def operatorSign (p : Primitive) : Language Expr := do
  let _ ← symbol (.prim p)
  pure (.prim p)

/-- The language of an operator that is written as a word. -/
def operatorWord (p : Primitive) : Language Expr := do
  let _ ← reserved (.prim p)
  pure (.prim p)

/-- The language of a truth value. -/
def truthValue (value : Bool) : Language Expr := do
  let _ ← reserved (.keyword (.ofBool value))
  pure (.bool value)

/-- The language of names that are expressions. -/
def variableNames : Language Expr := do
  let x ← names
  pure (.var x)

/-- Words of names are single tokens. -/
theorem isTerminal_names : names.IsTerminal .name where
  exists_token := by
    rintro _ x rfl
    exact ⟨_, rfl, rfl⟩
  unique := by
    rintro t x y hx hy
    cases hx
    cases hy
    rfl
  hasWord := ⟨[.name "x"], "x", by simp, rfl⟩

/-- Words of integers are single tokens. -/
theorem isTerminal_integers : integers.IsTerminal .integer where
  exists_token := by
    rintro _ e ⟨negative, digits, rfl, -⟩
    exact ⟨_, rfl, rfl⟩
  unique := by
    rintro t _ _ ⟨negative, digits, ht, rfl⟩ ⟨negative', digits', ht', rfl⟩
    cases ht
    cases ht'
    rfl
  hasWord := ⟨[.integer false ['0']], _, by simp, false, ['0'], rfl, rfl⟩

/-- An operator starts with its own token. -/
theorem startsIn_operatorSign (p : Primitive) : (operatorSign p).StartsIn [.prim p] :=
  (isTerminal_token (Token.isSpelled_prim p) _).startsIn.bind _

theorem startsIn_operatorWord (p : Primitive) : (operatorWord p).StartsIn [.prim p] :=
  (isTerminal_token (Token.isSpelled_prim p) _).startsIn.bind _

/-- A truth value starts with its keyword. -/
theorem startsIn_truthValue (value : Bool) :
    (truthValue value).StartsIn [.keyword (.ofBool value)] :=
  (isTerminal_token (Token.isSpelled_keyword _) _).startsIn.bind _

/-- A variable starts with a name. -/
theorem startsIn_variableNames : variableNames.StartsIn [.name] :=
  isTerminal_names.startsIn.bind _

/-! ## Sentences -/

/-- The language of expressions. -/
def expressions : Language Expr where
  Word tokens e := ∃ p : Phrase, p.tokens = tokens ∧ p.expr = e

/-- The language of definitions. -/
def definitions : Language Definition where
  Word tokens d := ∃ p : DefinitionPhrase, p.tokens = tokens ∧ p.definition = d

/-- The language of programs. -/
def programs : Language Program where
  Word tokens program := ∃ p : ProgramPhrase, p.tokens = tokens ∧ p.program = program

/-- The language of definitions and expressions. -/
def forms : Language Parser.Form where
  Word tokens form := ∃ p : FormPhrase, p.tokens = tokens ∧ p.form = form

/-- No expression is the beginning of another one. -/
theorem prefixFree_expressions : expressions.PrefixFree := by
  rintro _ _ rest rest' _ _ ⟨p, rfl, rfl⟩ ⟨q, rfl, rfl⟩ h
  obtain ⟨rfl, rfl⟩ := Phrase.tokens_append_inj h
  exact ⟨rfl, rfl, rfl⟩

/-- No definition is the beginning of another one. -/
theorem prefixFree_definitions : definitions.PrefixFree := by
  rintro _ _ rest rest' _ _ ⟨p, rfl, rfl⟩ ⟨q, rfl, rfl⟩ h
  obtain ⟨rfl, rfl⟩ := DefinitionPhrase.tokens_append_inj h
  exact ⟨rfl, rfl, rfl⟩

/-- No program is the beginning of another one: an expression ends a program, and behind it no
definition starts. -/
theorem prefixFree_programs : programs.PrefixFree := by
  rintro _ _ rest rest' _ _ ⟨p, rfl, rfl⟩ ⟨q, rfl, rfl⟩ h
  obtain ⟨rfl, rfl⟩ := ProgramPhrase.tokens_append_inj h
  exact ⟨rfl, rfl, rfl⟩

/-- No line of a session is the beginning of another one. -/
theorem prefixFree_forms : forms.PrefixFree := by
  rintro _ _ rest rest' _ _ ⟨p, rfl, rfl⟩ ⟨q, rfl, rfl⟩ h
  obtain ⟨rfl, rfl⟩ := FormPhrase.tokens_append_inj h
  exact ⟨rfl, rfl, rfl⟩

/-- An expression starts with one of the kinds of token that are listed. -/
theorem startsIn_expressions : expressions.StartsIn TokenKind.expressionStarts := by
  rintro _ _ ⟨p, rfl, rfl⟩
  obtain ⟨t, rest, htokens, hstarts⟩ := p.exists_tokens_eq_cons
  exact ⟨t, rest, htokens, by rwa [Token.startsExpression, List.contains_iff_mem] at hstarts⟩

/-- There are expressions. -/
theorem hasWord_expressions : expressions.HasWord :=
  ⟨_, _, by simp [Phrase.tokens], .prim .nil, rfl, rfl⟩

/-- Definitions start with a parenthesis. -/
theorem startsIn_definitions : definitions.StartsIn [.openParen] := by
  rintro _ _ ⟨d, rfl, rfl⟩
  exact ⟨_, _, rfl, List.mem_singleton.2 rfl⟩

/-- No expression starts as a definition does. -/
theorem apart_definitions_expressions : definitions.Apart expressions := by
  rintro _ _ rest rest' _ _ ⟨d, rfl, rfl⟩ ⟨p, rfl, rfl⟩ h
  exact Phrase.tokens_append_ne_definition h.symm

/-! ## Words in sequence -/

section Sequence

variable {α β : Type} {word : List Token} {b : β}

/-- A sequence that starts with a token has the token in front. -/
theorem word_token_bind {t : Token} {a : α} {K : α → Language β} :
    (token t a >>= K).Word word b ↔ ∃ tail, word = t :: tail ∧ (K a).Word tail b := by
  constructor
  · rintro ⟨_, tail, _, rfl, ⟨rfl, rfl⟩, h⟩
    exact ⟨tail, rfl, h⟩
  · rintro ⟨tail, rfl, h⟩
    exact ⟨[t], tail, a, rfl, ⟨rfl, rfl⟩, h⟩

/-- A bracket, a parenthesis or a sign in front of a sequence. -/
theorem word_symbol_bind {t : Token} {K : String → Language β} :
    (symbol t >>= K).Word word b ↔ ∃ tail, word = t :: tail ∧ (K t.kind.text).Word tail b :=
  word_token_bind

/-- A reserved word in front of a sequence. -/
theorem word_reserved_bind {t : Token} {K : List Char → Language β} :
    (reserved t >>= K).Word word b ↔
      ∃ tail, word = t :: tail ∧ (K t.kind.text.toList).Word tail b :=
  word_token_bind

/-- A name in front of a sequence, which may depend on the name. -/
theorem word_names_bind {K : String → Language β} :
    (names >>= K).Word word b ↔ ∃ x tail, word = .name x :: tail ∧ (K x).Word tail b := by
  constructor
  · rintro ⟨_, tail, x, rfl, rfl, h⟩
    exact ⟨x, tail, rfl, h⟩
  · rintro ⟨x, tail, rfl, h⟩
    exact ⟨[.name x], tail, x, rfl, rfl, h⟩

/-- An expression in front of a sequence: its derivation is split off. -/
theorem word_expressions_bind {K : Expr → Language β} :
    (expressions >>= K).Word word b ↔
      ∃ (p : Phrase) (tail : List Token), word = p.tokens ++ tail ∧ (K p.expr).Word tail b := by
  constructor
  · rintro ⟨_, tail, _, rfl, ⟨p, rfl, rfl⟩, h⟩
    exact ⟨p, tail, rfl, h⟩
  · rintro ⟨p, tail, rfl, h⟩
    exact ⟨p.tokens, tail, p.expr, rfl, ⟨p, rfl, rfl⟩, h⟩

/-- A repetition of expressions is what a list of derivations derives. -/
theorem word_star_expressions_iff {es : List Expr} :
    expressions.star.Word word es ↔ ∃ ps, Phrase.tokensList ps = word ∧ Phrase.exprs ps = es := by
  constructor
  · intro h
    induction h with
    | nil => exact ⟨[], rfl, rfl⟩
    | cons hfirst _ ih =>
        obtain ⟨p, rfl, rfl⟩ := hfirst
        obtain ⟨ps, rfl, rfl⟩ := ih
        exact ⟨p :: ps, rfl, rfl⟩
  · rintro ⟨ps, rfl, rfl⟩
    induction ps with
    | nil => exact .nil
    | cons p ps ih => exact .cons ⟨p, rfl, rfl⟩ ih

/-- Expressions in front of a sequence: their derivations are split off. -/
theorem word_star_expressions_bind {K : List Expr → Language β} :
    (expressions.star >>= K).Word word b ↔
      ∃ ps tail, word = Phrase.tokensList ps ++ tail ∧ (K (Phrase.exprs ps)).Word tail b := by
  constructor
  · rintro ⟨_, tail, _, rfl, hstar, h⟩
    obtain ⟨ps, rfl, rfl⟩ := word_star_expressions_iff.1 hstar
    exact ⟨ps, tail, rfl, h⟩
  · rintro ⟨ps, tail, rfl, h⟩
    exact ⟨_, tail, _, rfl, word_star_expressions_iff.2 ⟨ps, rfl, rfl⟩, h⟩

end Sequence

/-! ## What an expression is made of -/

/-- The language of lists. -/
def lists : Language Expr := do
  let _ ← symbol .openBracket
  let elements ← expressions.star
  let _ ← symbol .closeBracket
  pure (.list elements)

/-- The language of functions, without parentheses. -/
def lambdas : Language Expr := do
  let _ ← reserved (.keyword .lam)
  let _ ← symbol .openBracket
  let parameter ← names
  let _ ← symbol .closeBracket
  let body ← expressions
  pure (.lam parameter body)

/-- The language of local definitions, without parentheses. -/
def lets : Language Expr := do
  let _ ← reserved (.keyword .letWord)
  let _ ← symbol .openParen
  let _ ← symbol .openBracket
  let x ← names
  let value ← expressions
  let _ ← symbol .closeBracket
  let _ ← symbol .closeParen
  let body ← expressions
  pure (.letIn x value body)

/-- The language of choices, without parentheses. -/
def choices : Language Expr := do
  let _ ← reserved (.keyword .ifWord)
  let test ← expressions
  let onTrue ← expressions
  let onFalse ← expressions
  pure (.ifThenElse test onTrue onFalse)

/-- The language of fixed points, without parentheses. -/
def fixes : Language Expr := do
  let _ ← reserved (.keyword .fix)
  let body ← expressions
  pure (.fix body)

/-- The language of one or more arguments. -/
def arguments : Language (List Expr) := do
  let first ← expressions
  let more ← expressions.star
  pure (first :: more)

/-- The language of applications, without parentheses. -/
def applications : Language Expr := do
  let function ← expressions
  let args ← arguments
  pure (function.apps args)

/-- The language of what may stand in parentheses. -/
def inParens : Language Expr :=
  lambdas.union (lets.union (choices.union (fixes.union applications)))

/-- The language of expressions in parentheses. -/
def parenthesized : Language Expr := do
  let _ ← symbol .openParen
  let inner ← inParens
  let _ ← symbol .closeParen
  pure inner

/-- The operators that are written with signs. -/
def signs : List Primitive :=
  [.eql, .add, .sub, .mul]

/-- The operators that are written as words. -/
def words : List Primitive :=
  [.null, .map, .foldl, .pair, .fst, .snd, .cons, .nil]

/-- The language of what is tried behind integers and signs. -/
def wordOrForm : Language Expr :=
  (anyOf truthValue [true, false]).union
    ((anyOf operatorWord words).union (variableNames.union (lists.union parenthesized)))

/-- The alternatives of an expression, in the order in which they are tried. -/
def alternatives : Language Expr :=
  integers.union ((anyOf operatorSign signs).union wordOrForm)

section Parts

variable {word : List Token} {e : Expr}

/-- The words of lists are derived as lists. -/
theorem word_lists_iff : lists.Word word e ↔
    ∃ elements, (Phrase.list elements).tokens = word ∧ (Phrase.list elements).expr = e := by
  simp only [lists, word_symbol_bind, word_star_expressions_bind, word_pure]
  constructor
  · rintro ⟨_, rfl, elements, _, rfl, _, rfl, rfl, rfl⟩
    exact ⟨elements, rfl, rfl⟩
  · rintro ⟨elements, rfl, rfl⟩
    exact ⟨_, rfl, elements, _, rfl, _, rfl, rfl, rfl⟩

/-- What stands in the parentheses of a function. -/
theorem word_lambdas_iff : lambdas.Word word e ↔
    ∃ x body, word =
        .keyword .lam :: .openBracket :: .name x :: .closeBracket :: Phrase.tokens body ∧
      Expr.lam x body.expr = e := by
  simp only [lambdas, word_reserved_bind, word_symbol_bind, word_names_bind,
    word_expressions_bind, word_pure]
  constructor
  · rintro ⟨_, rfl, _, rfl, x, _, rfl, _, rfl, body, _, rfl, rfl, rfl⟩
    exact ⟨x, body, by simp, rfl⟩
  · rintro ⟨x, body, rfl, rfl⟩
    exact ⟨_, rfl, _, rfl, x, _, rfl, _, rfl, body, [], by simp, rfl, rfl⟩

/-- What stands in the parentheses of a local definition. -/
theorem word_lets_iff : lets.Word word e ↔
    ∃ x value body, word = .keyword .letWord :: .openParen :: .openBracket :: .name x ::
        (Phrase.tokens value ++ .closeBracket :: .closeParen :: Phrase.tokens body) ∧
      Expr.letIn x value.expr body.expr = e := by
  simp only [lets, word_reserved_bind, word_symbol_bind, word_names_bind, word_expressions_bind,
    word_pure]
  constructor
  · rintro ⟨_, rfl, _, rfl, _, rfl, x, _, rfl, value, _, rfl, _, rfl, _, rfl, body, _, rfl, rfl,
      rfl⟩
    exact ⟨x, value, body, by simp, rfl⟩
  · rintro ⟨x, value, body, rfl, rfl⟩
    exact ⟨_, rfl, _, rfl, _, rfl, x, _, rfl, value, _, rfl, _, rfl, _, rfl, body, [], by simp, rfl,
      rfl⟩

/-- What stands in the parentheses of a choice. -/
theorem word_choices_iff : choices.Word word e ↔
    ∃ test onTrue onFalse, word = .keyword .ifWord ::
        (Phrase.tokens test ++ (Phrase.tokens onTrue ++ Phrase.tokens onFalse)) ∧
      Expr.ifThenElse test.expr onTrue.expr onFalse.expr = e := by
  simp only [choices, word_reserved_bind, word_expressions_bind, word_pure]
  constructor
  · rintro ⟨_, rfl, test, _, rfl, onTrue, _, rfl, onFalse, _, rfl, rfl, rfl⟩
    exact ⟨test, onTrue, onFalse, by simp, rfl⟩
  · rintro ⟨test, onTrue, onFalse, rfl, rfl⟩
    exact ⟨_, rfl, test, _, rfl, onTrue, _, rfl, onFalse, [], by simp, rfl, rfl⟩

/-- What stands in the parentheses of a fixed point. -/
theorem word_fixes_iff : fixes.Word word e ↔
    ∃ body, word = .keyword .fix :: Phrase.tokens body ∧ Expr.fix body.expr = e := by
  simp only [fixes, word_reserved_bind, word_expressions_bind, word_pure]
  constructor
  · rintro ⟨_, rfl, body, _, rfl, rfl, rfl⟩
    exact ⟨body, by simp, rfl⟩
  · rintro ⟨body, rfl, rfl⟩
    exact ⟨_, rfl, body, [], by simp, rfl, rfl⟩

/-- There is at least one argument. -/
theorem word_arguments_iff {es : List Expr} : arguments.Word word es ↔
    ∃ first more, word = Phrase.tokens first ++ Phrase.tokensList more ∧
      first.expr :: Phrase.exprs more = es := by
  simp only [arguments, word_expressions_bind, word_star_expressions_bind, word_pure]
  constructor
  · rintro ⟨first, _, rfl, more, _, rfl, rfl, rfl⟩
    exact ⟨first, more, by simp, rfl⟩
  · rintro ⟨first, more, rfl, rfl⟩
    exact ⟨first, _, rfl, more, [], by simp, rfl, rfl⟩

/-- What stands in the parentheses of an application: a function and its arguments, applied from the
left. -/
theorem word_applications_iff : applications.Word word e ↔
    ∃ function first more,
      word = Phrase.tokens function ++ (Phrase.tokens first ++ Phrase.tokensList more) ∧
      function.expr.apps (first.expr :: Phrase.exprs more) = e := by
  simp only [applications, word_expressions_bind]
  constructor
  · rintro ⟨function, _, rfl, _, _, _, rfl, hargs, rfl, rfl⟩
    obtain ⟨first, more, rfl, rfl⟩ := word_arguments_iff.1 hargs
    exact ⟨function, first, more, by simp, rfl⟩
  · rintro ⟨function, first, more, rfl, rfl⟩
    exact ⟨function, _, rfl, _, [], _, List.append_nil _,
      word_arguments_iff.2 ⟨first, more, rfl, rfl⟩, rfl, rfl⟩

/-- What stands in parentheses is derived together with them. -/
theorem exists_phrase_of_inParens (h : inParens.Word word e) :
    ∃ p : Phrase, p.tokens = .openParen :: (word ++ [.closeParen]) ∧ p.expr = e := by
  rcases h with h | h | h | h | h
  · obtain ⟨x, body, rfl, rfl⟩ := word_lambdas_iff.1 h
    exact ⟨.lam x body, by simp [Phrase.tokens], rfl⟩
  · obtain ⟨x, value, body, rfl, rfl⟩ := word_lets_iff.1 h
    exact ⟨.letIn x value body, by simp [Phrase.tokens], rfl⟩
  · obtain ⟨test, onTrue, onFalse, rfl, rfl⟩ := word_choices_iff.1 h
    exact ⟨.ifThenElse test onTrue onFalse, by simp [Phrase.tokens], rfl⟩
  · obtain ⟨body, rfl, rfl⟩ := word_fixes_iff.1 h
    exact ⟨.fix body, by simp [Phrase.tokens], rfl⟩
  · obtain ⟨function, first, more, rfl, rfl⟩ := word_applications_iff.1 h
    exact ⟨.app function first more, by simp [Phrase.tokens], rfl⟩

/-- A word in parentheses is one of the words without them. -/
theorem word_parenthesized_iff : parenthesized.Word word e ↔
    ∃ inner, word = .openParen :: (inner ++ [.closeParen]) ∧ inParens.Word inner e := by
  rw [parenthesized, word_symbol_bind]
  constructor
  · rintro ⟨_, rfl, inner, _, _, rfl, hinner, hclose⟩
    obtain ⟨_, rfl, rfl, rfl⟩ := word_symbol_bind.1 hclose
    exact ⟨inner, rfl, hinner⟩
  · rintro ⟨inner, rfl, hinner⟩
    exact ⟨_, rfl, inner, _, e, rfl, hinner, word_symbol_bind.2 ⟨[], rfl, rfl, rfl⟩⟩

/-- In parentheses as much as possible may be read in front of the closing one. -/
theorem greedy_inParens :
    Greedy inParens fun inner => (do let _ ← symbol .closeParen; pure inner : Language Expr) := by
  refine greedy_of_prefixFree_bind (f := fun inner _ => inner) ?_
  have hwhole : ∀ {word e}, (do let inner ← inParens
                                let _ ← token .closeParen ")"
                                pure inner : Language Expr).Word word e →
      ∃ p : Phrase, p.tokens = .openParen :: word ∧ p.expr = e := by
    rintro _ e ⟨inner, _, _, rfl, hinner, hclose⟩
    obtain ⟨_, rfl, rfl, rfl⟩ := word_token_bind.1 hclose
    exact exists_phrase_of_inParens hinner
  intro first second rest rest' _ _ hfirst hsecond heq
  obtain ⟨p, hp, rfl⟩ := hwhole hfirst
  obtain ⟨q, hq, rfl⟩ := hwhole hsecond
  have htokens : p.tokens ++ rest = q.tokens ++ rest' := by rw [hp, hq, List.cons_append, heq]; rfl
  obtain ⟨rfl, rfl⟩ := Phrase.tokens_append_inj htokens
  exact ⟨(List.cons.inj (hp.symm.trans hq)).2, rfl, rfl⟩

/-- A derivation with parentheses is tried last. -/
theorem word_alternatives_of_inParens {p : Phrase} {inner : List Token}
    (hinner : inParens.Word inner p.expr)
    (htokens : p.tokens = .openParen :: (inner ++ [.closeParen])) :
    alternatives.Word p.tokens p.expr := by
  change _ ∨ _ ∨ _ ∨ _ ∨ _ ∨ _ ∨ _
  iterate 6 right
  rw [htokens]
  exact word_parenthesized_iff.2 ⟨inner, rfl, hinner⟩

/-- What is derived is one of the alternatives: one case for each form. -/
theorem word_alternatives (p : Phrase) : alternatives.Word p.tokens p.expr := by
  cases p with
  | integer negative digits => exact .inl ⟨negative, digits, rfl, rfl⟩
  | bool value =>
      refine .inr (.inr (.inl ⟨value, by simp, ?_⟩))
      exact word_reserved_bind.2 ⟨[], rfl, rfl, rfl⟩
  | prim p =>
      have hp : p ∈ signs ∨ p ∈ words := by cases p <;> decide
      rcases hp with hp | hp
      · exact .inr (.inl ⟨p, hp, word_symbol_bind.2 ⟨[], rfl, rfl, rfl⟩⟩)
      · exact .inr (.inr (.inr (.inl ⟨p, hp, word_reserved_bind.2 ⟨[], rfl, rfl, rfl⟩⟩)))
  | name x => exact .inr (.inr (.inr (.inr (.inl (word_names_bind.2 ⟨x, [], rfl, rfl, rfl⟩)))))
  | list elements =>
      have hword := word_lists_iff.2 ⟨elements, rfl, rfl⟩
      exact .inr (.inr (.inr (.inr (.inr (.inl hword)))))
  | lam x body =>
      have hword := word_lambdas_iff.2 ⟨x, body, rfl, rfl⟩
      exact word_alternatives_of_inParens (.inl hword) (by simp [Phrase.tokens])
  | letIn x value body =>
      have hword := word_lets_iff.2 ⟨x, value, body, rfl, rfl⟩
      exact word_alternatives_of_inParens (.inr (.inl hword)) (by simp [Phrase.tokens])
  | ifThenElse test onTrue onFalse =>
      have hword := word_choices_iff.2 ⟨test, onTrue, onFalse, rfl, rfl⟩
      exact word_alternatives_of_inParens (.inr (.inr (.inl hword))) (by simp [Phrase.tokens])
  | fix body =>
      have hword := word_fixes_iff.2 ⟨body, rfl, rfl⟩
      exact word_alternatives_of_inParens (.inr (.inr (.inr (.inl hword))))
        (by simp [Phrase.tokens])
  | app function first more =>
      have hword := word_applications_iff.2 ⟨function, first, more, rfl, rfl⟩
      exact word_alternatives_of_inParens (.inr (.inr (.inr (.inr hword))))
        (by simp [Phrase.tokens])

/-- What an expression is made of. -/
theorem word_expressions_iff : expressions.Word word e ↔ alternatives.Word word e := by
  constructor
  · rintro ⟨p, rfl, rfl⟩
    exact word_alternatives p
  · rintro (⟨negative, digits, rfl, rfl⟩ | ⟨p, -, h⟩ | ⟨value, -, h⟩ | ⟨p, -, h⟩ | h | h | h)
    · exact ⟨.integer negative digits, rfl, rfl⟩
    · obtain ⟨_, rfl, rfl, rfl⟩ := word_symbol_bind.1 h
      exact ⟨.prim p, rfl, rfl⟩
    · obtain ⟨_, rfl, rfl, rfl⟩ := word_reserved_bind.1 h
      exact ⟨.bool value, rfl, rfl⟩
    · obtain ⟨_, rfl, rfl, rfl⟩ := word_reserved_bind.1 h
      exact ⟨.prim p, rfl, rfl⟩
    · obtain ⟨x, _, rfl, rfl, rfl⟩ := word_names_bind.1 h
      exact ⟨.name x, rfl, rfl⟩
    · obtain ⟨elements, rfl, rfl⟩ := word_lists_iff.1 h
      exact ⟨.list elements, rfl, rfl⟩
    · obtain ⟨inner, rfl, hinner⟩ := word_parenthesized_iff.1 h
      exact exists_phrase_of_inParens hinner

end Parts

/-! ## What definitions and programs are made of -/

section Programs

variable {word : List Token}

/-- A definition is made of its tokens, its name and its value, in this order. -/
theorem word_definitions_iff {d : Definition} : definitions.Word word d ↔
    (do let _ ← symbol .openParen
        let _ ← reserved (.keyword .defWord)
        let x ← names
        let value ← expressions
        let _ ← symbol .closeParen
        pure { name := x, value := value } : Language Definition).Word word d := by
  simp only [word_symbol_bind, word_reserved_bind, word_names_bind, word_expressions_bind,
    word_pure]
  constructor
  · rintro ⟨⟨x, value⟩, rfl, rfl⟩
    exact ⟨_, rfl, _, rfl, x, _, rfl, value, _, rfl, _, rfl, rfl, rfl⟩
  · rintro ⟨_, rfl, _, rfl, x, _, rfl, value, _, rfl, _, rfl, rfl, rfl⟩
    exact ⟨⟨x, value⟩, rfl, rfl⟩

/-- A repetition of definitions is what a list of derivations derives. -/
theorem word_star_definitions_iff {ds : List Definition} :
    definitions.star.Word word ds ↔
      ∃ ps : List DefinitionPhrase, ps.flatMap DefinitionPhrase.tokens = word ∧
        ps.map DefinitionPhrase.definition = ds := by
  constructor
  · intro h
    induction h with
    | nil => exact ⟨[], rfl, rfl⟩
    | cons hfirst _ ih =>
        obtain ⟨p, rfl, rfl⟩ := hfirst
        obtain ⟨ps, rfl, rfl⟩ := ih
        exact ⟨p :: ps, List.flatMap_cons, rfl⟩
  · rintro ⟨ps, rfl, rfl⟩
    induction ps with
    | nil => exact .nil
    | cons p ps ih =>
        rw [List.flatMap_cons, List.map_cons]
        exact .cons ⟨p, rfl, rfl⟩ ih

/-- A program is made of definitions and of an expression behind them. -/
theorem word_programs_iff {program : Program} : programs.Word word program ↔
    (do let definitions ← definitions.star
        let body ← expressions
        pure { definitions := definitions, body := body } :
      Language Program).Word word program := by
  constructor
  · rintro ⟨⟨ps, p⟩, rfl, rfl⟩
    exact ⟨_, _, _, rfl, word_star_definitions_iff.2 ⟨ps, rfl, rfl⟩,
      word_expressions_bind.2 ⟨p, [], (List.append_nil _).symm, rfl, rfl⟩⟩
  · rintro ⟨_, _, _, rfl, hstar, hbody⟩
    obtain ⟨ps, rfl, rfl⟩ := word_star_definitions_iff.1 hstar
    obtain ⟨p, _, rfl, rfl, rfl⟩ := word_expressions_bind.1 hbody
    exact ⟨⟨ps, p⟩, by rw [ProgramPhrase.tokens, List.append_nil], rfl⟩

/-- A line of a session is a definition or an expression. -/
theorem word_forms_iff {form : Parser.Form} : forms.Word word form ↔
    (union (do let d ← definitions
               pure (.definition d))
           (do let e ← expressions
               pure (.expression e))).Word word form := by
  constructor
  · rintro ⟨d | p, rfl, rfl⟩
    · exact .inl ⟨_, [], _, List.append_nil _, ⟨d, rfl, rfl⟩, rfl, rfl⟩
    · exact .inr ⟨_, [], _, List.append_nil _, ⟨p, rfl, rfl⟩, rfl, rfl⟩
  · rintro (⟨_, _, _, rfl, ⟨d, rfl, rfl⟩, rfl, rfl⟩ | ⟨_, _, _, rfl, ⟨p, rfl, rfl⟩, rfl, rfl⟩)
    · exact ⟨.definition d, (List.append_nil _).symm, rfl⟩
    · exact ⟨.expression p, (List.append_nil _).symm, rfl⟩

end Programs

end Language

end LetPoly
