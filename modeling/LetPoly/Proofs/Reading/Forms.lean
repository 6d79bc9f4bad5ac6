import LetPoly.Proofs.Reading.Terminals

/-!
# The parsers of the grammar are exact

Each parser of a form is its language, written with parsers in place of languages.  That it is exact
follows step by step, from the parsers of tokens and from the parser of the expressions inside,
which have fewer characters left.

The two places at which the grammar does not decide by one token are those of the parentheses: a
form with a keyword is tried before an application, and a definition before an expression.  In both
cases no word of the first is the beginning of one of the second.

Main results:

- Theorem {lit}`exact_expressionWith`: a parser of expressions is exact at a place if the parser of
  the expressions inside is exact behind it.
- Theorems {lit}`exact_expression`, {lit}`exact_program` and {lit}`exact_definitionOrExpression`:
  the three parsers are exact at every place of every text.
-/

namespace LetPoly
namespace Parser

open LetPoly.Language (expressions)

variable {α β : Type} {limit : Nat}

/-! ## Sequences -/

/-- A bracket or a parenthesis in front. -/
theorem exact_symbol_bind {t : Token} (ht : t ∈ symbols) {next : String → Parser β}
    {K : String → Language β} (hnext : ∀ text, Exact limit (next text) (K text)) :
    Exact limit (symbol t.kind.text >>= next) (Language.symbol t >>= K) :=
  (exact_symbol ht).bind ((isTerminal_symbol ht).prefixFree.greedy _) hnext

/-- A keyword in front. -/
theorem exact_keyword_bind (k : Keyword) {next : List Char → Parser β}
    {K : List Char → Language β} (hnext : ∀ text, Exact limit (next text) (K text)) :
    Exact limit (keyword k.text >>= next) (Language.reserved (.keyword k) >>= K) :=
  (exact_keyword k).bind
    ((Language.isTerminal_token (Token.isSpelled_keyword k) _).prefixFree.greedy _) hnext

/-- A name in front. -/
theorem exact_name_bind {next : String → Parser β} {K : String → Language β}
    (hnext : ∀ x, Exact limit (next x) (K x)) :
    Exact limit (name >>= next) (Language.names >>= K) :=
  exact_name.bind (Language.isTerminal_names.prefixFree.greedy _) hnext

/-- An expression in front: no expression is the beginning of another one, so it may be read
greedily. -/
theorem Exact.expression_bind {expression : Parser Expr} (h : Exact limit expression expressions)
    {next : Expr → Parser β} {K : Expr → Language β} (hnext : ∀ e, Exact limit (next e) (K e)) :
    Exact limit (expression >>= next) (expressions >>= K) :=
  h.bind (Language.prefixFree_expressions.greedy _) hnext

/-- Behind the first token of a form there are fewer characters. -/
theorem exact_symbol_bind_succ {t : Token} (ht : t ∈ symbols) {next : String → Parser β}
    {K : String → Language β} (hnext : ∀ text, Exact limit (next text) (K text)) :
    Exact (limit + 1) (symbol t.kind.text >>= next) (Language.symbol t >>= K) :=
  (exact_symbol ht).bind_succ (isTerminal_symbol ht).startsIn.ne_nil
    ((isTerminal_symbol ht).prefixFree.greedy _) hnext

/-! ## Forms -/

section Forms

variable {expression : Parser Expr}

/-- A repetition of expressions ends where none of them starts. -/
theorem exact_many (h : Exact limit expression expressions) :
    Exact limit (many expression) expressions.star :=
  h.many Language.prefixFree_expressions Language.startsIn_expressions.ne_nil

/-- Lists are read exactly.  The bracket takes a character, so the elements have less to read. -/
theorem exact_listExpression (h : Exact limit expression expressions) :
    Exact (limit + 1) (listExpression expression) Language.lists := by
  refine exact_symbol_bind_succ (t := .openBracket) (by decide) fun _ => ?_
  refine (exact_many h).bind ?_ fun elements => ?_
  · refine Language.greedy_star Language.prefixFree_expressions
      Language.startsIn_expressions.ne_nil fun elements => ?_
    exact Language.startsIn_expressions.apart
      ((isTerminal_symbol (t := .closeBracket) (by decide)).startsIn.bind _) (by decide)
  · exact exact_symbol_bind (t := .closeBracket) (by decide) fun _ => exact_pure limit _

/-- Functions are read exactly. -/
theorem exact_lambdaExpression (h : Exact limit expression expressions) :
    Exact limit (lambdaExpression expression) Language.lambdas := by
  refine exact_keyword_bind .lam fun _ => ?_
  refine exact_symbol_bind (t := .openBracket) (by decide) fun _ => ?_
  refine exact_name_bind fun x => ?_
  refine exact_symbol_bind (t := .closeBracket) (by decide) fun _ => ?_
  exact h.expression_bind fun body => exact_pure limit _

/-- Local definitions are read exactly. -/
theorem exact_letExpression (h : Exact limit expression expressions) :
    Exact limit (letExpression expression) Language.lets := by
  refine exact_keyword_bind .letWord fun _ => ?_
  refine exact_symbol_bind (t := .openParen) (by decide) fun _ => ?_
  refine exact_symbol_bind (t := .openBracket) (by decide) fun _ => ?_
  refine exact_name_bind fun x => ?_
  refine h.expression_bind fun value => ?_
  refine exact_symbol_bind (t := .closeBracket) (by decide) fun _ => ?_
  refine exact_symbol_bind (t := .closeParen) (by decide) fun _ => ?_
  exact h.expression_bind fun body => exact_pure limit _

/-- Choices are read exactly. -/
theorem exact_ifExpression (h : Exact limit expression expressions) :
    Exact limit (ifExpression expression) Language.choices := by
  refine exact_keyword_bind .ifWord fun _ => ?_
  refine h.expression_bind fun test => ?_
  refine h.expression_bind fun onTrue => ?_
  exact h.expression_bind fun onFalse => exact_pure limit _

/-- Fixed points are read exactly. -/
theorem exact_fixExpression (h : Exact limit expression expressions) :
    Exact limit (fixExpression expression) Language.fixes := by
  refine exact_keyword_bind .fix fun _ => ?_
  exact h.expression_bind fun body => exact_pure limit _

/-- Arguments are read exactly. -/
theorem exact_atLeastOne (h : Exact limit expression expressions) :
    Exact limit (atLeastOne expression) Language.arguments := by
  refine h.expression_bind fun first => ?_
  exact (exact_many h).bind (Language.greedy_pure _ _) fun more => exact_pure limit _

/-- Applications are read exactly. -/
theorem exact_applicationExpression (h : Exact limit expression expressions) :
    Exact limit (applicationExpression expression) Language.applications := by
  refine h.expression_bind fun function => ?_
  exact (exact_atLeastOne h).bind (Language.greedy_pure _ _) fun args => exact_pure limit _

/-- In parentheses the keywords decide, and all else is an application. -/
theorem exact_inParens (h : Exact limit expression expressions) :
    Exact limit (choice (lambdaExpression expression) [letExpression expression,
      ifExpression expression, fixExpression expression, applicationExpression expression])
      Language.inParens := by
  have hkeyword : ∀ k : Keyword, (Language.reserved (.keyword k)).StartsIn [.keyword k] :=
    fun k => (Language.isTerminal_token (Token.isSpelled_keyword k) _).startsIn
  have happ : Language.applications.StartsIn TokenKind.expressionStarts :=
    Language.startsIn_expressions.bind _
  have hfix : Language.fixes.StartsIn [.keyword .fix] := (hkeyword .fix).bind _
  have hif : Language.choices.StartsIn [.keyword .ifWord] := (hkeyword .ifWord).bind _
  have hlet : Language.lets.StartsIn [.keyword .letWord] := (hkeyword .letWord).bind _
  have hlam : Language.lambdas.StartsIn [.keyword .lam] := (hkeyword .lam).bind _
  refine (exact_lambdaExpression h).orElse ?_
    (hlam.not_viable (hlet.union (hif.union (hfix.union happ))) (by decide))
  refine (exact_letExpression h).orElse ?_
    (hlet.not_viable (hif.union (hfix.union happ)) (by decide))
  refine (exact_ifExpression h).orElse ?_ (hif.not_viable (hfix.union happ) (by decide))
  exact (exact_fixExpression h).orElse (exact_applicationExpression h)
    (hfix.not_viable happ (by decide))

/-- Forms in parentheses are read exactly. -/
theorem exact_parenthesized (h : Exact limit expression expressions) :
    Exact (limit + 1) (parenthesized expression) Language.parenthesized := by
  refine exact_symbol_bind_succ (t := .openParen) (by decide) fun _ => ?_
  refine (exact_inParens h).bind Language.greedy_inParens fun inner => ?_
  exact exact_symbol_bind (t := .closeParen) (by decide) fun _ => exact_pure limit _

/-- Lists start with a bracket. -/
theorem startsIn_lists : Language.lists.StartsIn [.openBracket] :=
  (isTerminal_symbol (t := .openBracket) (by decide)).startsIn.bind _

/-- Forms in parentheses start with one. -/
theorem startsIn_parenthesized : Language.parenthesized.StartsIn [.openParen] :=
  (isTerminal_symbol (t := .openParen) (by decide)).startsIn.bind _

/-- What is tried behind integers and signs starts with a word or an opening bracket. -/
theorem startsIn_wordOrForm : Language.wordOrForm.StartsIn
    ([true, false].map (TokenKind.keyword ∘ Keyword.ofBool) ++
      (Language.words.map TokenKind.prim ++ ([.name] ++ ([.openBracket] ++ [.openParen])))) :=
  (Language.StartsIn.anyOf Language.startsIn_truthValue _).union
    ((Language.StartsIn.anyOf Language.startsIn_operatorWord _).union
      (Language.startsIn_variableNames.union (startsIn_lists.union startsIn_parenthesized)))

/-- What is tried behind integers and signs is read exactly: the first token decides. -/
theorem exact_wordOrForm (h : Exact limit expression expressions) :
    Exact (limit + 1)
      (choice boolean [namedPrimitive, nameExpression, listExpression expression,
        parenthesized expression])
      Language.wordOrForm := by
  have hforms := startsIn_lists.union startsIn_parenthesized
  have hnames := Language.startsIn_variableNames
  have hwords := Language.StartsIn.anyOf Language.startsIn_operatorWord Language.words
  have htruth := Language.StartsIn.anyOf Language.startsIn_truthValue [true, false]
  refine exact_boolean.orElse ?_
    (htruth.not_viable (hwords.union (hnames.union hforms)) (by decide))
  refine exact_namedPrimitive.orElse ?_ (hwords.not_viable (hnames.union hforms) (by decide))
  refine exact_nameExpression.orElse ?_ (hnames.not_viable hforms (by decide))
  exact (exact_listExpression h).orElse (exact_parenthesized h)
    (startsIn_lists.not_viable startsIn_parenthesized (by decide))

/-- A parser of expressions is exact if the parser of the expressions inside is exact behind the
first token.  Only the minus sign is not decided by the first token: it is an operator where no
integer was read. -/
theorem exact_expressionWith (h : Exact limit expression expressions) :
    Exact (limit + 1) (expressionWith expression) expressions := by
  have hsigns := Language.StartsIn.anyOf Language.startsIn_operatorSign Language.signs
  refine Exact.of_word_iff ⟨fun start hsettled hlimit => ?_,
    Language.isTerminal_integers.hasWord.union_left⟩ fun _ _ => Language.word_expressions_iff
  refine (exact_integer.outcome start hsettled hlimit).orElse (fun f hinteger => ?_)
    (Language.isTerminal_integers.startsIn.not_viable (hsigns.union startsIn_wordOrForm)
      (by decide))
  exact (outcome_operator hsettled hinteger).orElse
    (fun _ _ => (exact_wordOrForm h).outcome start hsettled hlimit)
    (hsigns.not_viable startsIn_wordOrForm (by decide))

/-- Definitions are read exactly. -/
theorem exact_definition (h : Exact limit expression expressions) :
    Exact limit (definition expression) Language.definitions := by
  refine Exact.of_word_iff ?_ fun _ _ => Language.word_definitions_iff
  refine exact_symbol_bind (t := .openParen) (by decide) fun _ => ?_
  refine exact_keyword_bind .defWord fun _ => ?_
  refine exact_name_bind fun x => ?_
  refine h.expression_bind fun value => ?_
  exact exact_symbol_bind (t := .closeParen) (by decide) fun _ => exact_pure limit _

/-- Programs are read exactly: a parenthesis may start a definition or the body, and the next token
decides. -/
theorem exact_program (h : Exact limit expression expressions) :
    Exact limit (program expression) Language.programs := by
  refine Exact.of_word_iff ?_ fun _ _ => Language.word_programs_iff
  have hne := Language.startsIn_definitions.ne_nil
  refine ((exact_definition h).many Language.prefixFree_definitions hne).bind ?_ fun ds => ?_
  · refine Language.greedy_star Language.prefixFree_definitions hne fun ds => ?_
    rintro _ _ rest rest' d _ hd ⟨first, second, e, rfl, hfirst, -⟩ heq
    rw [List.append_assoc] at heq
    exact Language.apart_definitions_expressions hd hfirst heq
  · exact h.expression_bind fun body => exact_pure limit _

/-- Lines of a session are read exactly. -/
theorem exact_definitionOrExpression (h : Exact limit expression expressions) :
    Exact limit (definitionOrExpression expression) Language.forms := by
  refine Exact.of_word_iff ?_ fun _ _ => Language.word_forms_iff
  refine Exact.orElse ?_ (h.expression_bind fun e => exact_pure limit _) ?_
  · exact (exact_definition h).bind (Language.greedy_pure _ _) fun d => exact_pure limit _
  · rintro _ _ ⟨first, _, d, rfl, hd, rfl, rfl⟩ ⟨more, _, -, word, _, e, heq, hword, rfl, rfl⟩
    have hsame : first ++ more = word ++ [] := by simpa using heq.symm
    exact Language.apart_definitions_expressions hd hword hsame

end Forms

/-! ## The parser of expressions -/

/-- Every level of nesting takes a character, so that a text is not nested deeper than it is
long. -/
theorem exact_expressionUpTo (limit : Nat) : Exact limit (expressionUpTo limit) expressions := by
  induction limit with
  | zero => exact ⟨fun _ _ h => absurd h (Nat.not_lt_zero _), Language.hasWord_expressions⟩
  | succ limit ih => exact exact_expressionWith ih

/-- The parser of expressions is exact at every place. -/
theorem exact_expression (limit : Nat) : Exact limit expression expressions where
  outcome start hsettled _ :=
    (exact_expressionUpTo (start.rest.length + 1)).outcome start hsettled (Nat.lt_succ_self _)
  hasWord := Language.hasWord_expressions

/-- The parser of programs is exact at every place. -/
theorem exact_programs (limit : Nat) : Exact limit (program expression) Language.programs :=
  exact_program (exact_expression limit)

/-- The parser of the lines of a session is exact at every place. -/
theorem exact_forms (limit : Nat) :
    Exact limit (definitionOrExpression expression) Language.forms :=
  exact_definitionOrExpression (exact_expression limit)

end Parser
end LetPoly
