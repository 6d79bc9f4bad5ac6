import LetPoly.Parser
import LetPoly.Proofs.Reading.Lexemes

/-!
# The grammar

The derivations of the grammar as trees, with one constructor for each production:

```text
expression := integer | boolean | operator | name
            | [ expression* ]
            | ( lam [ name ] expression )
            | ( let ( [ name expression ] ) expression )
            | ( if expression expression expression )
            | ( fix expression )
            | ( expression expression+ )
definition := ( def name expression )
program    := definition* expression
```

A tree has the tokens that it derives and the expression, definition or program that it
stands for.

Main results:

- Theorem {lit}`Phrase.tokens_append_inj`: no derivation is the beginning of another, so a
  sequence of tokens has at most one derivation.
- Theorems {lit}`ProgramPhrase.tokens_append_inj` and {lit}`FormPhrase.tokens_append_inj`:
  the same for programs and for what one line of a session holds.
-/

namespace LetPoly

/-- The kinds of token with which an expression starts. -/
def TokenKind.expressionStarts : List TokenKind :=
  .integer :: Primitive.all.map .prim ++
    [.keyword .trueWord, .keyword .falseWord, .name, .openBracket, .openParen]

/-- Whether a token starts an expression. -/
def Token.startsExpression (token : Token) : Bool :=
  TokenKind.expressionStarts.contains token.kind

/-- A derivation of an expression. -/
inductive Phrase where
  | integer (negative : Bool) (digits : List Char)
  | bool (value : Bool)
  | prim (primitive : Primitive)
  | name (name : String)
  | list (elements : List Phrase)
  | lam (parameter : String) (body : Phrase)
  | letIn (name : String) (value body : Phrase)
  | ifThenElse (test onTrue onFalse : Phrase)
  | fix (body : Phrase)
  | app (function first : Phrase) (more : List Phrase)

namespace Phrase

/-- Induction over derivations: the hypothesis for a repetition is about each of its
members. -/
@[elab_as_elim, induction_eliminator]
theorem structuralInduction {motive : Phrase → Prop}
    (integer : ∀ negative digits, motive (.integer negative digits))
    (bool : ∀ value, motive (.bool value))
    (prim : ∀ primitive, motive (.prim primitive))
    (name : ∀ name, motive (.name name))
    (list : ∀ elements, (∀ p ∈ elements, motive p) → motive (.list elements))
    (lam : ∀ parameter body, motive body → motive (.lam parameter body))
    (letIn : ∀ name value body, motive value → motive body → motive (.letIn name value body))
    (ifThenElse : ∀ test onTrue onFalse, motive test → motive onTrue → motive onFalse →
      motive (.ifThenElse test onTrue onFalse))
    (fix : ∀ body, motive body → motive (.fix body))
    (app : ∀ function first more, motive function → motive first → (∀ p ∈ more, motive p) →
      motive (.app function first more)) (p : Phrase) : motive p :=
  @Phrase.rec motive (fun ps => ∀ p ∈ ps, motive p)
    integer bool prim name list lam letIn ifThenElse fix app
    (fun _ h => absurd h List.not_mem_nil)
    (fun _ _ hfirst hrest _ h => (List.mem_cons.1 h).elim (fun heq => heq ▸ hfirst) (hrest _))
    p

/-- The integer that a sign and some digits stand for. -/
def numeral (negative : Bool) (digits : List Char) : Int :=
  let n : Int := Nat.ofDigitChars 10 digits 0
  if negative then -n else n

mutual

/-- The tokens that are derived. -/
def tokens : Phrase → List Token
  | integer negative digits => [.integer negative digits]
  | bool value => [.keyword (if value then .trueWord else .falseWord)]
  | prim primitive => [.prim primitive]
  | name x => [.name x]
  | list elements => .openBracket :: (tokensList elements ++ [.closeBracket])
  | lam x body =>
      .openParen :: .keyword .lam :: .openBracket :: .name x :: .closeBracket ::
        (body.tokens ++ [.closeParen])
  | letIn x value body =>
      .openParen :: .keyword .letWord :: .openParen :: .openBracket :: .name x ::
        (value.tokens ++ .closeBracket :: .closeParen :: (body.tokens ++ [.closeParen]))
  | ifThenElse test onTrue onFalse =>
      .openParen :: .keyword .ifWord ::
        (test.tokens ++ (onTrue.tokens ++ (onFalse.tokens ++ [.closeParen])))
  | fix body => .openParen :: .keyword .fix :: (body.tokens ++ [.closeParen])
  | app function first more =>
      .openParen :: (function.tokens ++ (first.tokens ++ (tokensList more ++ [.closeParen])))

/-- The tokens that are derived one after another. -/
def tokensList : List Phrase → List Token
  | [] => []
  | p :: rest => p.tokens ++ tokensList rest

end

mutual

/-- The expression that a derivation stands for. -/
def expr : Phrase → Expr
  | integer negative digits => .int (numeral negative digits)
  | bool value => .bool value
  | prim primitive => .prim primitive
  | name x => .var x
  | list elements => .list (exprs elements)
  | lam x body => .lam x body.expr
  | letIn x value body => .letIn x value.expr body.expr
  | ifThenElse test onTrue onFalse => .ifThenElse test.expr onTrue.expr onFalse.expr
  | fix body => .fix body.expr
  | app function first more => function.expr.apps (first.expr :: exprs more)

/-- The expressions that some derivations stand for. -/
def exprs : List Phrase → List Expr
  | [] => []
  | p :: rest => p.expr :: exprs rest

end

/-! ## One derivation at most -/

attribute [local simp] tokens tokensList

/-- A derivation starts with a token that starts an expression. -/
theorem exists_tokens_eq_cons (p : Phrase) :
    ∃ token rest, p.tokens = token :: rest ∧ token.startsExpression = true := by
  cases p with
  | bool value => cases value <;> exact ⟨_, _, rfl, rfl⟩
  | prim primitive => cases primitive <;> exact ⟨_, _, rfl, rfl⟩
  | _ => exact ⟨_, _, rfl, rfl⟩

/-- A derivation derives some token. -/
theorem tokens_ne_nil (p : Phrase) : p.tokens ≠ [] := by
  obtain ⟨token, rest, htokens, _⟩ := p.exists_tokens_eq_cons
  simp [htokens]

/-- No derivation starts with a token that does not start an expression. -/
theorem tokens_append_ne {p : Phrase} {token : Token} {rest rest' : List Token}
    (h : token.startsExpression = false) : p.tokens ++ rest ≠ token :: rest' := by
  obtain ⟨first, more, htokens, hfirst⟩ := p.exists_tokens_eq_cons
  rw [htokens, List.cons_append]
  intro heq
  rw [(List.cons.inj heq).1, h] at hfirst
  cases hfirst

/-- No expression follows the parenthesis of an application if the next token starts none. -/
theorem app_tokens_append_ne {function first : Phrase} {more : List Phrase} {token : Token}
    {rest tail : List Token} (h : token.startsExpression = false) :
    (app function first more).tokens ++ rest ≠ .openParen :: token :: tail := by
  intro heq
  simp only [tokens, List.cons_append, List.append_assoc] at heq
  exact tokens_append_ne h (List.cons.inj heq).2

/-- Repetitions before a token that starts no expression have the same members if each
member of one can be told from all others. -/
theorem tokensList_append_inj {ps qs : List Phrase} {close : Token} {rest rest' : List Token}
    (hclose : close.startsExpression = false)
    (ih : ∀ p ∈ ps, ∀ (q : Phrase) (r r' : List Token), p.tokens ++ r = q.tokens ++ r' →
      p = q ∧ r = r')
    (h : tokensList ps ++ close :: rest = tokensList qs ++ close :: rest') :
    ps = qs ∧ rest = rest' := by
  induction ps generalizing qs with
  | nil =>
      cases qs with
      | nil => simpa using h
      | cons q qs =>
          simp only [tokensList, List.nil_append, List.append_assoc] at h
          exact absurd h.symm (tokens_append_ne hclose)
  | cons p ps ihps =>
      cases qs with
      | nil =>
          simp only [tokensList, List.nil_append, List.append_assoc] at h
          exact absurd h (tokens_append_ne hclose)
      | cons q qs =>
          simp only [tokensList, List.append_assoc] at h
          obtain ⟨rfl, htail⟩ := ih p List.mem_cons_self _ _ _ h
          obtain ⟨rfl, rfl⟩ := ihps (fun p hp => ih p (List.mem_cons_of_mem _ hp)) htail
          exact ⟨rfl, rfl⟩

/-! The first tokens decide which production was used last. -/

section Inversion

variable {p : Phrase} {rest tail : List Token}

/-- The first token decides: an integer derives nothing else. -/
theorem eq_integer_of_tokens {negative : Bool} {digits : List Char}
    (h : p.tokens ++ rest = .integer negative digits :: tail) :
    p = .integer negative digits ∧ rest = tail := by
  cases p <;> simp_all

/-- So does a truth value. -/
theorem eq_bool_of_tokens {value : Bool}
    (h : p.tokens ++ rest = .keyword (if value then .trueWord else .falseWord) :: tail) :
    p = .bool value ∧ rest = tail := by
  cases p with
  | bool other => cases value <;> cases other <;> simp_all
  | _ => simp at h

/-- So does an operator. -/
theorem eq_prim_of_tokens {primitive : Primitive}
    (h : p.tokens ++ rest = .prim primitive :: tail) : p = .prim primitive ∧ rest = tail := by
  cases p <;> simp_all

/-- So does a name. -/
theorem eq_name_of_tokens {x : String} (h : p.tokens ++ rest = .name x :: tail) :
    p = .name x ∧ rest = tail := by
  cases p <;> simp_all

/-- An opening bracket starts a list. -/
theorem eq_list_of_tokens (h : p.tokens ++ rest = .openBracket :: tail) :
    ∃ elements, p = .list elements ∧ tail = tokensList elements ++ .closeBracket :: rest := by
  cases p with
  | list elements => exact ⟨elements, rfl, by simpa using h.symm⟩
  | _ => simp at h

/-- Behind a parenthesis the keyword decides: a function. -/
theorem eq_lam_of_tokens (h : p.tokens ++ rest = .openParen :: .keyword .lam :: tail) :
    ∃ x body, p = .lam x body ∧
      tail = .openBracket :: .name x :: .closeBracket :: (body.tokens ++ .closeParen :: rest) := by
  cases p with
  | lam x body => exact ⟨x, body, rfl, by simpa using h.symm⟩
  | app function first more => exact absurd h (app_tokens_append_ne rfl)
  | _ => simp at h

/-- Behind a parenthesis the keyword decides: a local definition. -/
theorem eq_letIn_of_tokens (h : p.tokens ++ rest = .openParen :: .keyword .letWord :: tail) :
    ∃ x value body, p = .letIn x value body ∧
      tail = .openParen :: .openBracket :: .name x ::
        (value.tokens ++ .closeBracket :: .closeParen :: (body.tokens ++ .closeParen :: rest)) := by
  cases p with
  | letIn x value body => exact ⟨x, value, body, rfl, by simpa using h.symm⟩
  | app function first more => exact absurd h (app_tokens_append_ne rfl)
  | _ => simp at h

/-- Behind a parenthesis the keyword decides: a choice. -/
theorem eq_ifThenElse_of_tokens (h : p.tokens ++ rest = .openParen :: .keyword .ifWord :: tail) :
    ∃ test onTrue onFalse, p = .ifThenElse test onTrue onFalse ∧
      tail = test.tokens ++ (onTrue.tokens ++ (onFalse.tokens ++ .closeParen :: rest)) := by
  cases p with
  | ifThenElse test onTrue onFalse =>
      exact ⟨test, onTrue, onFalse, rfl, by simpa using h.symm⟩
  | app function first more => exact absurd h (app_tokens_append_ne rfl)
  | _ => simp at h

/-- Behind a parenthesis the keyword decides: a fixed point. -/
theorem eq_fix_of_tokens (h : p.tokens ++ rest = .openParen :: .keyword .fix :: tail) :
    ∃ body, p = .fix body ∧ tail = body.tokens ++ .closeParen :: rest := by
  cases p with
  | fix body => exact ⟨body, rfl, by simpa using h.symm⟩
  | app function first more => exact absurd h (app_tokens_append_ne rfl)
  | _ => simp at h

/-- Behind a parenthesis an expression starts an application. -/
theorem eq_app_of_tokens {token : Token} (htoken : token.startsExpression = true)
    (h : p.tokens ++ rest = .openParen :: token :: tail) :
    ∃ function first more, p = .app function first more ∧
      token :: tail =
        function.tokens ++ (first.tokens ++ (tokensList more ++ .closeParen :: rest)) := by
  cases p with
  | app function first more =>
      exact ⟨function, first, more, rfl, by simpa using h.symm⟩
  | lam _ _ | letIn _ _ _ | ifThenElse _ _ _ | fix _ =>
      simp only [tokens, List.cons_append, List.cons.injEq, true_and] at h
      rw [← h.1] at htoken
      cases htoken
  | _ => simp at h

end Inversion

/-- Where the tokens of two derivations begin a sequence, the derivations are the same. -/
theorem tokens_append_inj {p q : Phrase} {rest rest' : List Token}
    (h : p.tokens ++ rest = q.tokens ++ rest') : p = q ∧ rest = rest' := by
  induction p generalizing q rest rest' with
  | integer negative digits =>
      obtain ⟨rfl, rfl⟩ := eq_integer_of_tokens h.symm
      exact ⟨rfl, rfl⟩
  | bool value =>
      obtain ⟨rfl, rfl⟩ := eq_bool_of_tokens h.symm
      exact ⟨rfl, rfl⟩
  | prim primitive =>
      obtain ⟨rfl, rfl⟩ := eq_prim_of_tokens h.symm
      exact ⟨rfl, rfl⟩
  | name x =>
      obtain ⟨rfl, rfl⟩ := eq_name_of_tokens h.symm
      exact ⟨rfl, rfl⟩
  | list elements ih =>
      simp only [tokens, List.cons_append, List.append_assoc, List.nil_append] at h
      obtain ⟨elements', rfl, htail⟩ := eq_list_of_tokens h.symm
      obtain ⟨rfl, rfl⟩ := tokensList_append_inj rfl (fun p hp q r r' => ih p hp) htail
      exact ⟨rfl, rfl⟩
  | lam x body ih =>
      simp only [tokens, List.cons_append, List.append_assoc, List.nil_append] at h
      obtain ⟨x', body', rfl, htail⟩ := eq_lam_of_tokens h.symm
      simp only [List.cons.injEq, Token.name.injEq, true_and] at htail
      obtain ⟨rfl, htail⟩ := htail
      obtain ⟨rfl, hrest⟩ := ih htail
      simpa using hrest
  | letIn x value body ihvalue ihbody =>
      simp only [tokens, List.cons_append, List.append_assoc, List.nil_append] at h
      obtain ⟨x', value', body', rfl, htail⟩ := eq_letIn_of_tokens h.symm
      simp only [List.cons.injEq, Token.name.injEq, true_and] at htail
      obtain ⟨rfl, htail⟩ := htail
      obtain ⟨rfl, hbody⟩ := ihvalue htail
      simp only [List.cons.injEq, true_and] at hbody
      obtain ⟨rfl, hrest⟩ := ihbody hbody
      simpa using hrest
  | ifThenElse test onTrue onFalse ihtest ihtrue ihfalse =>
      simp only [tokens, List.cons_append, List.append_assoc, List.nil_append] at h
      obtain ⟨test', onTrue', onFalse', rfl, htail⟩ := eq_ifThenElse_of_tokens h.symm
      obtain ⟨rfl, htrue⟩ := ihtest htail
      obtain ⟨rfl, hfalse⟩ := ihtrue htrue
      obtain ⟨rfl, hrest⟩ := ihfalse hfalse
      simpa using hrest
  | fix body ih =>
      simp only [tokens, List.cons_append, List.append_assoc, List.nil_append] at h
      obtain ⟨body', rfl, htail⟩ := eq_fix_of_tokens h.symm
      obtain ⟨rfl, hrest⟩ := ih htail
      simpa using hrest
  | app function first more ihfunction ihfirst ihmore =>
      simp only [tokens, List.cons_append, List.append_assoc, List.nil_append] at h
      obtain ⟨token, tail, htokens, htoken⟩ := function.exists_tokens_eq_cons
      rw [htokens, List.cons_append] at h
      obtain ⟨function', first', more', rfl, htail⟩ := eq_app_of_tokens htoken h.symm
      rw [← List.cons_append, ← htokens] at htail
      obtain ⟨rfl, hfirst⟩ := ihfunction htail
      obtain ⟨rfl, hmore⟩ := ihfirst hfirst
      obtain ⟨rfl, rfl⟩ := tokensList_append_inj rfl (fun p hp q r r' => ihmore p hp) hmore
      exact ⟨rfl, rfl⟩

end Phrase

/-! ## Definitions and programs -/

/-- A derivation of a definition. -/
structure DefinitionPhrase where
  name : String
  value : Phrase

namespace DefinitionPhrase

/-- The tokens that are derived. -/
def tokens (d : DefinitionPhrase) : List Token :=
  .openParen :: .keyword .defWord :: .name d.name :: (d.value.tokens ++ [.closeParen])

/-- The definition that a derivation stands for. -/
def definition (d : DefinitionPhrase) : Definition :=
  { name := d.name, value := d.value.expr }

end DefinitionPhrase

/-- A derivation of a program. -/
structure ProgramPhrase where
  definitions : List DefinitionPhrase
  body : Phrase

namespace ProgramPhrase

/-- The tokens that are derived. -/
def tokens (p : ProgramPhrase) : List Token :=
  p.definitions.flatMap DefinitionPhrase.tokens ++ p.body.tokens

/-- The program that a derivation stands for. -/
def program (p : ProgramPhrase) : Program :=
  { definitions := p.definitions.map DefinitionPhrase.definition, body := p.body.expr }

end ProgramPhrase

/-- A derivation of a definition or an expression. -/
inductive FormPhrase where
  | definition (definition : DefinitionPhrase)
  | expression (expression : Phrase)

namespace FormPhrase

/-- The tokens that are derived. -/
def tokens : FormPhrase → List Token
  | definition d => d.tokens
  | expression p => p.tokens

/-- The definition or expression that a derivation stands for. -/
def form : FormPhrase → Parser.Form
  | definition d => .definition d.definition
  | expression p => .expression p.expr

end FormPhrase

/-! No expression starts as a definition does. -/

/-- No expression starts like a definition. -/
theorem Phrase.tokens_append_ne_definition {p : Phrase} {rest tail : List Token} :
    p.tokens ++ rest ≠ .openParen :: .keyword .defWord :: tail := by
  intro h
  cases p with
  | app function first more => exact absurd h (app_tokens_append_ne rfl)
  | _ => simp [tokens] at h

/-- Two definitions in front of some tokens are the same. -/
theorem DefinitionPhrase.tokens_append_inj {d d' : DefinitionPhrase} {rest rest' : List Token}
    (h : d.tokens ++ rest = d'.tokens ++ rest') : d = d' ∧ rest = rest' := by
  obtain ⟨x, value⟩ := d
  obtain ⟨x', value'⟩ := d'
  simp only [tokens, List.cons_append, List.append_assoc, List.nil_append, List.cons.injEq,
    Token.name.injEq, true_and] at h
  obtain ⟨rfl, h⟩ := h
  obtain ⟨rfl, h⟩ := Phrase.tokens_append_inj h
  simpa using h

/-- Two lines of a session in front of some tokens are the same. -/
theorem FormPhrase.tokens_append_inj {f f' : FormPhrase} {rest rest' : List Token}
    (h : f.tokens ++ rest = f'.tokens ++ rest') : f = f' ∧ rest = rest' := by
  cases f with
  | definition d =>
      cases f' with
      | definition d' =>
          obtain ⟨rfl, rfl⟩ := DefinitionPhrase.tokens_append_inj h
          exact ⟨rfl, rfl⟩
      | expression p' => exact absurd h.symm Phrase.tokens_append_ne_definition
  | expression p =>
      cases f' with
      | definition d' => exact absurd h Phrase.tokens_append_ne_definition
      | expression p' =>
          obtain ⟨rfl, rfl⟩ := Phrase.tokens_append_inj h
          exact ⟨rfl, rfl⟩

/-- Two programs in front of some tokens are the same: the definitions end where an expression
starts. -/
theorem ProgramPhrase.tokens_append_inj {p p' : ProgramPhrase} {rest rest' : List Token}
    (h : p.tokens ++ rest = p'.tokens ++ rest') : p = p' ∧ rest = rest' := by
  obtain ⟨definitions, body⟩ := p
  obtain ⟨definitions', body'⟩ := p'
  induction definitions generalizing definitions' with
  | nil =>
      cases definitions' with
      | nil =>
          obtain ⟨rfl, rfl⟩ := Phrase.tokens_append_inj h
          exact ⟨rfl, rfl⟩
      | cons d' definitions' => exact absurd h Phrase.tokens_append_ne_definition
  | cons d definitions ih =>
      cases definitions' with
      | nil => exact absurd h.symm Phrase.tokens_append_ne_definition
      | cons d' definitions' =>
          simp only [tokens, List.flatMap_cons, List.append_assoc] at h ih
          obtain ⟨rfl, htail⟩ := DefinitionPhrase.tokens_append_inj h
          obtain ⟨hprograms, rfl⟩ := ih _ htail
          cases hprograms
          exact ⟨rfl, rfl⟩

end LetPoly
