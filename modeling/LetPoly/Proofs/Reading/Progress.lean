import LetPoly.Proofs.Reading.Terminals
import Mathlib.Logic.Relation

/-!
# Reading makes progress

To read an expression, further expressions are read inside of it, and repetitions go on until an
attempt fails.  The grammar puts no bound on either.  Both come to an end because reading moves on:
what is read takes a character at least, and what is read inside of a form starts behind the first
token of the form.

The parsers have bounds, on the nesting and on the number of repetitions, which are taken from the
number of characters.  Here the recursion and the repetitions are written down without them, and it
is shown that the bounds are never noticed.

Main results:

- Theorem {lit}`Parser.advances_expressionWith`: what is read takes a character, at every place.
- Theorem {lit}`Parser.Uses.leadsOn`: an expression inside of another starts behind its first token.
- Theorem {lit}`Parser.expressionWith_congr`: what is read is decided by what is read at the listed
  places.
- Theorem {lit}`Parser.ends_iff`: the recursion without a bound ends with what the parser answers.
- Theorem {lit}`Parser.Advances.repeats_iff`: so does a repetition that takes a character each time.
- Theorem {lit}`Parser.reading_ends`: progress on texts, and the end of recursion and repetitions.
-/

namespace LetPoly

open Token (scan? skipBlanks takeWord? takeKeyword? takeInteger?)

/-! ## Places further on -/

namespace Cursor

/-- A place of the same text, the same one or one further on. -/
structure Leads (pos stop : Cursor) : Prop where
  isSuffix : stop.rest <:+ pos.rest
  index_add : stop.index + stop.rest.length = pos.index + pos.rest.length

/-- A place of the same text that is further on. -/
structure LeadsOn (pos stop : Cursor) : Prop extends Leads pos stop where
  length_lt : stop.rest.length < pos.rest.length

variable {pos mid stop : Cursor}

/-- Each place leads to itself. -/
theorem Leads.refl (pos : Cursor) : pos.Leads pos :=
  ⟨List.suffix_rfl, rfl⟩

/-- Steps forward add up. -/
theorem Leads.trans (h : pos.Leads mid) (h' : mid.Leads stop) : pos.Leads stop :=
  ⟨h'.isSuffix.trans h.isSuffix, h'.index_add.trans h.index_add⟩

/-- A place further on is further on than all places before it. -/
theorem LeadsOn.trans_leads (h : pos.LeadsOn mid) (h' : mid.Leads stop) : pos.LeadsOn stop :=
  ⟨h.toLeads.trans h', Nat.lt_of_le_of_lt h'.isSuffix.length_le h.length_lt⟩

/-- Further on the offset is larger. -/
theorem LeadsOn.index_lt (h : pos.LeadsOn stop) : pos.index < stop.index := by
  have hadd := h.index_add
  have hlt := h.length_lt
  omega

/-- What is left of the characters at a place is left at a place further on. -/
theorem leads_before {after : List Char} (h : after <:+ pos.rest) :
    pos.Leads (pos.before after) := by
  refine ⟨h, ?_⟩
  have hle := h.length_le
  simp only [before]
  omega

end Cursor

namespace Parser

variable {α β : Type}

/-! ## Parsers that move on -/

/-- The parser never goes back. -/
def Moves (p : Parser α) : Prop :=
  ∀ ⦃pos value stop furthest⦄, p pos = .read value stop furthest → pos.Leads stop

/-- What the parser reads takes a character. -/
def Advances (p : Parser α) : Prop :=
  ∀ ⦃pos value stop furthest⦄, p pos = .read value stop furthest → pos.LeadsOn stop

/-- A parser that takes a character does not go back. -/
theorem Advances.moves {p : Parser α} (h : Advances p) : Moves p :=
  fun _ _ _ _ hread => (h hread).toLeads

/-- Failures that are added do not change what was read. -/
theorem Answer.eq_read_of_aggregate {answer : Answer α} {f g : Option Furthest} {value : α}
    {stop : Cursor} (h : answer.aggregate f = .read value stop g) :
    ∃ g', answer = .read value stop g' := by
  cases answer with
  | read value' stop' g' =>
      cases h
      exact ⟨g', rfl⟩
  | failed _ => cases h
  | aborted _ => cases h

/-- What a sequence has read was read by its parts one after the other. -/
theorem exists_of_bind_read {p : Parser α} {next : α → Parser β} {pos stop : Cursor} {b : β}
    {f : Option Furthest} (h : (p >>= next) pos = .read b stop f) :
    ∃ a mid g g', p pos = .read a mid g ∧ next a mid = .read b stop g' := by
  cases hp : p pos with
  | read a mid g =>
      rw [bind_of_read hp] at h
      obtain ⟨g', hnext⟩ := Answer.eq_read_of_aggregate h
      exact ⟨a, mid, g, g', rfl, hnext⟩
  | failed g =>
      rw [bind_of_failed hp] at h
      cases h
  | aborted reason =>
      rw [bind_of_aborted hp] at h
      cases h

/-- What a choice has read was read by one of its alternatives. -/
theorem exists_of_orElse_read {p q : Parser α} {pos stop : Cursor} {a : α} {f : Option Furthest}
    (h : orElse p q pos = .read a stop f) :
    p pos = .read a stop f ∨ ∃ g, q pos = .read a stop g := by
  unfold orElse at h
  cases hp : p pos with
  | read b mid g => exact .inl (by rwa [hp] at h)
  | failed g =>
      rw [hp] at h
      exact .inr (Answer.eq_read_of_aggregate h)
  | aborted reason =>
      rw [hp] at h
      cases h

/-- What a choice among several has read was read by one of them. -/
theorem exists_of_choice_read {p : Parser α} {more : List (Parser α)} {pos stop : Cursor} {a : α}
    {f : Option Furthest} (h : choice p more pos = .read a stop f) :
    ∃ q ∈ p :: more, ∃ g, q pos = .read a stop g := by
  induction more generalizing p f with
  | nil => exact ⟨p, List.mem_cons_self, f, h⟩
  | cons q more ih =>
      rcases exists_of_orElse_read h with h | ⟨g, h⟩
      · exact ⟨p, List.mem_cons_self, f, h⟩
      · obtain ⟨r, hr, hread⟩ := ih h
        exact ⟨r, List.mem_cons_of_mem p hr, hread⟩

/-- Reading nothing stays at the place. -/
theorem moves_pure (a : α) : Moves (pure a : Parser α) := by
  rintro pos _ _ _ ⟨⟩
  exact .refl pos

/-- A sequence does not go back if its parts do not. -/
theorem Moves.bind {p : Parser α} {next : α → Parser β} (hp : Moves p)
    (hnext : ∀ a, Moves (next a)) :
    Moves (p >>= next) := by
  intro pos b stop f h
  obtain ⟨a, mid, _, _, hread, hrest⟩ := exists_of_bind_read h
  exact (hp hread).trans (hnext a hrest)

/-- A sequence takes a character if its first part does. -/
theorem Advances.bind {p : Parser α} {next : α → Parser β} (hp : Advances p)
    (hnext : ∀ a, Moves (next a)) : Advances (p >>= next) := by
  intro pos b stop f h
  obtain ⟨a, mid, _, _, hread, hrest⟩ := exists_of_bind_read h
  exact (hp hread).trans_leads (hnext a hrest)

/-- A choice does not go back if no alternative does. -/
theorem Moves.choice {p : Parser α} {more : List (Parser α)} (h : ∀ q ∈ p :: more, Moves q) :
    Moves (choice p more) := by
  intro pos a stop f hread
  obtain ⟨q, hq, g, hread⟩ := exists_of_choice_read hread
  exact h q hq hread

/-- A choice takes a character if each alternative does. -/
theorem Advances.choice {p : Parser α} {more : List (Parser α)}
    (h : ∀ q ∈ p :: more, Advances q) : Advances (choice p more) := by
  intro pos a stop f hread
  obtain ⟨q, hq, g, hread⟩ := exists_of_choice_read hread
  exact h q hq hread

/-- Another description of the failures does not change what is taken. -/
theorem Advances.desc {p : Parser α} (h : Advances p) (description : String) :
    Advances (desc description p) := by
  intro pos a stop f hread
  unfold Parser.desc at hread
  cases hp : p pos with
  | read b mid g =>
      rw [hp] at hread
      cases hread
      exact h hp
  | failed g =>
      rw [hp] at hread
      cases hread
  | aborted reason =>
      rw [hp] at hread
      cases hread

/-- Attempts that do not go back do not go back when they are repeated. -/
theorem Moves.manyUpTo {p : Parser α} (h : Moves p) (n : Nat) : Moves (manyUpTo p n) := by
  induction n with
  | zero =>
      rintro pos _ _ _ ⟨⟩
      exact .refl pos
  | succ n ih =>
      rw [manyUpTo_succ]
      intro pos as stop f hread
      rcases exists_of_orElse_read hread with hread | ⟨g, hread⟩
      · exact h.bind (fun a => ih.bind fun as => moves_pure (a :: as)) hread
      · exact moves_pure [] hread

/-- Repetitions do not go back, however often they read. -/
theorem Moves.many {p : Parser α} (h : Moves p) : Moves (many p) :=
  fun _ _ _ _ hread => h.manyUpTo _ hread

/-! ## Tokens -/

/-- Blanks and comments are skipped forward. -/
theorem moves_whitespace : Moves whitespace := by
  rintro pos _ _ _ ⟨⟩
  exact Cursor.leads_before (Token.gap_skipBlanks pos.rest).isSuffix

/-- Blanks behind a token are taken with it. -/
theorem Advances.lexeme {p : Parser α} (h : Advances p) : Advances (lexeme p) :=
  h.bind fun a => moves_whitespace.bind fun _ => moves_pure a

/-- A text that is not empty takes its characters. -/
theorem advances_string {text : String} (h : text.toList ≠ []) : Advances (string text) := by
  intro pos value stop f hread
  unfold string at hread
  split at hread
  case h_1 after hstrip =>
    cases hread
    have hrest := stripChars?_eq_some_iff.1 hstrip
    have hpos := List.length_pos_iff.2 h
    refine ⟨Cursor.leads_before ⟨_, hrest.symm⟩, ?_⟩
    rw [hrest, List.length_append]
    change after.length < _
    omega
  case h_2 => cases hread

/-- A pattern that takes a character off the text makes a parser that does. -/
theorem advances_regex {pattern : String} {take? : List Char → Option (List Char × List Char)}
    (h : ∀ cs taken after, take? cs = some (taken, after) →
      ∃ lexeme, cs = lexeme ++ after ∧ lexeme ≠ []) : Advances (regex pattern take?) := by
  intro pos value stop f hread
  unfold regex at hread
  split at hread
  case h_1 taken after htake =>
    cases hread
    obtain ⟨lexeme, hrest, hne⟩ := h _ _ _ htake
    have hpos := List.length_pos_iff.2 hne
    refine ⟨Cursor.leads_before ⟨lexeme, hrest.symm⟩, ?_⟩
    rw [hrest, List.length_append]
    change after.length < _
    omega
  case h_2 => cases hread

/-- The longest token is a beginning of the characters. -/
theorem exists_append_of_scan? {cs after : List Char} {t : Token}
    (h : scan? cs = some (t, after)) : ∃ lexeme, cs = lexeme ++ after ∧ lexeme ≠ [] := by
  obtain ⟨lexeme, hcs, hspells⟩ := Token.exists_spells_of_scan? h
  exact ⟨lexeme, hcs, hspells.ne_nil⟩

/-- Brackets, parentheses and signs take a character. -/
theorem advances_symbol (text : String) (h : text.toList ≠ [] := by decide) :
    Advances (symbol text) :=
  (advances_string h).lexeme

/-- Reserved words take a character. -/
theorem advances_keyword {text : String} (h : text.toList ≠ []) : Advances (keyword text) := by
  refine (advances_regex fun cs taken after htake => ?_).lexeme.desc text
  unfold takeKeyword? at htake
  split at htake
  case h_1 rest hstrip =>
    split_ifs at htake
    cases htake
    exact ⟨_, stripChars?_eq_some_iff.1 hstrip, h⟩
  case h_2 => cases htake

/-- Names take a character. -/
theorem advances_name : Advances name := by
  refine Advances.desc (Advances.bind ?_ fun word => ?_) "name"
  · refine (advances_regex fun cs taken after htake => ?_).lexeme
    exact exists_append_of_scan? (Token.takeWord?_eq_some_iff.1 htake).2
  · intro pos x stop f hread
    unfold nameOf at hread
    split_ifs at hread
    · cases hread
    · exact moves_pure _ hread

/-- Integers take a character. -/
theorem advances_integer : Advances integer := by
  refine Advances.bind ?_ fun cs => ?_
  · refine ((advances_regex fun cs taken after htake => ?_).desc "integer").lexeme
    obtain ⟨_, _, _, hscan⟩ := Token.takeInteger?_eq_some_iff.1 htake
    exact exists_append_of_scan? hscan
  · intro pos e stop f hread
    cases hvalue : Token.toInt cs with
    | ok value =>
        simp only [integerOf, hvalue] at hread
        exact moves_pure _ hread
    | error error =>
        simp only [integerOf, hvalue] at hread
        cases hread

theorem symbol_toList_ne_nil (p : Primitive) : p.symbol.toList ≠ [] := by
  cases p <;> decide

theorem text_toList_ne_nil (k : Keyword) : k.text.toList ≠ [] := by
  cases k <;> decide

/-- The parsers of single tokens that are expressions take a character. -/
theorem advances_tokens :
    Advances operator ∧ Advances boolean ∧ Advances namedPrimitive ∧ Advances nameExpression := by
  have hsign : ∀ p, Advances (operatorSign p) := fun p =>
    (advances_symbol p.symbol (symbol_toList_ne_nil p)).bind fun _ => moves_pure _
  have hword : ∀ p, Advances (operatorWord p) := fun p =>
    (advances_keyword (symbol_toList_ne_nil p)).bind fun _ => moves_pure _
  have htruth : ∀ value, Advances (booleanWord value) := fun value =>
    (advances_keyword (text_toList_ne_nil _)).bind fun _ => moves_pure _
  refine ⟨.choice ?_, .choice ?_, .choice ?_, advances_name.bind fun x => moves_pure _⟩
  · simp [hsign]
  · simp [htruth]
  · simp [hword]

/-! ## Forms -/

/-- The keywords of the grammar take a character. -/
theorem advances_keyword_text (k : Keyword) : Advances (keyword k.text) :=
  advances_keyword (text_toList_ne_nil k)

section Forms

variable {inner : Parser Expr}

/-- Inside of the parentheses of a function, nothing goes back. -/
theorem moves_lambdaExpression (h : Moves inner) : Moves (lambdaExpression inner) :=
  (advances_keyword_text .lam).moves.bind fun _ => (advances_symbol "[").moves.bind fun _ =>
    advances_name.moves.bind fun _ => (advances_symbol "]").moves.bind fun _ =>
    h.bind fun _ => moves_pure _

theorem moves_letExpression (h : Moves inner) : Moves (letExpression inner) :=
  (advances_keyword_text .letWord).moves.bind fun _ => (advances_symbol "(").moves.bind fun _ =>
    (advances_symbol "[").moves.bind fun _ => advances_name.moves.bind fun _ => h.bind fun _ =>
    (advances_symbol "]").moves.bind fun _ => (advances_symbol ")").moves.bind fun _ =>
    h.bind fun _ => moves_pure _

theorem moves_ifExpression (h : Moves inner) : Moves (ifExpression inner) :=
  (advances_keyword_text .ifWord).moves.bind fun _ => h.bind fun _ => h.bind fun _ =>
    h.bind fun _ => moves_pure _

theorem moves_fixExpression (h : Moves inner) : Moves (fixExpression inner) :=
  (advances_keyword_text .fix).moves.bind fun _ => h.bind fun _ => moves_pure _

theorem moves_applicationExpression (h : Moves inner) : Moves (applicationExpression inner) :=
  h.bind fun _ => (h.bind fun _ => h.many.bind fun _ => moves_pure _).bind fun _ => moves_pure _

/-- A list takes its opening bracket. -/
theorem advances_listExpression (h : Moves inner) : Advances (listExpression inner) :=
  (advances_symbol "[").bind fun _ => h.many.bind fun _ => (advances_symbol "]").moves.bind fun _ =>
    moves_pure _

/-- A form in parentheses takes the opening one. -/
theorem advances_parenthesized (h : Moves inner) : Advances (parenthesized inner) := by
  refine (advances_symbol "(").bind fun _ => Moves.bind (Moves.choice ?_) fun _ =>
    (advances_symbol ")").moves.bind fun _ => moves_pure _
  simp [moves_lambdaExpression h, moves_letExpression h, moves_ifExpression h,
    moves_fixExpression h, moves_applicationExpression h]

/-- What is read takes a character, whatever is read inside of it. -/
theorem advances_expressionWith (h : Moves inner) : Advances (expressionWith inner) := by
  refine Advances.choice ?_
  simp [advances_integer, advances_tokens, advances_listExpression h, advances_parenthesized h]

/-- A definition takes its opening parenthesis. -/
theorem advances_definition (h : Moves inner) : Advances (definition inner) :=
  (advances_symbol "(").bind fun _ => (advances_keyword_text .defWord).moves.bind fun _ =>
    advances_name.moves.bind fun _ => h.bind fun _ => (advances_symbol ")").moves.bind fun _ =>
    moves_pure _

end Forms

/-- Expressions take a character, however deep they may be. -/
theorem advances_expressionUpTo (n : Nat) : Advances (expressionUpTo n) := by
  induction n with
  | zero =>
      intro pos e stop f h
      cases h
  | succ n ih => exact advances_expressionWith ih.moves

/-- Expressions take a character. -/
theorem advances_expression : Advances expression :=
  fun _ _ _ _ h => advances_expressionUpTo _ h

/-! ## Where expressions are read -/

/-- Something is read between two places. -/
def Reads (p : Parser α) (pos stop : Cursor) : Prop :=
  ∃ value furthest, p pos = .read value stop furthest

/-- What two parsers read one after the other is read by them in sequence. -/
theorem Reads.bind {p : Parser α} {next : α → Parser β} {pos mid stop : Cursor} {a : α}
    {f : Option Furthest} (h : p pos = .read a mid f) (h' : Reads (next a) mid stop) :
    Reads (p >>= next) pos stop := by
  obtain ⟨b, g, hnext⟩ := h'
  refine ⟨b, f.merge Furthest.merge g, ?_⟩
  rw [bind_of_read h, hnext]
  rfl

/-- Some expressions are read one after the other between two places. -/
def Passes (self : Parser Expr) : Cursor → Cursor → Prop :=
  Relation.ReflTransGen (Reads self)

/-- To read an expression at a place, another one is tried at a place inside of it, by a parser for
the parts.  It is tried where the reading before it has left off.  The attempt that ends a
repetition counts too, and so does the one behind an opening parenthesis where a keyword stands. -/
inductive Uses (self : Parser Expr) (pos : Cursor) : Cursor → Prop where
  /-- An element of a list, or the end of the elements. -/
  | element {inside part : Cursor} (hopen : Reads (symbol "[") pos inside)
      (h : Passes self inside part) : Uses self pos part
  /-- The body of a function. -/
  | body {part : Cursor}
      (h : Reads (do let _ ← symbol "("
                     let _ ← keyword Keyword.lam.text
                     let _ ← symbol "["
                     let _ ← name
                     symbol "]") pos part) : Uses self pos part
  /-- The value of a local definition. -/
  | value {part : Cursor}
      (h : Reads (do let _ ← symbol "("
                     let _ ← keyword Keyword.letWord.text
                     let _ ← symbol "("
                     let _ ← symbol "["
                     name) pos part) : Uses self pos part
  /-- The body of a local definition. -/
  | scope {part : Cursor}
      (h : Reads (do let _ ← symbol "("
                     let _ ← keyword Keyword.letWord.text
                     let _ ← symbol "("
                     let _ ← symbol "["
                     let _ ← name
                     let _ ← self
                     let _ ← symbol "]"
                     symbol ")") pos part) : Uses self pos part
  /-- The test of a choice. -/
  | test {part : Cursor}
      (h : Reads (do let _ ← symbol "("
                     keyword Keyword.ifWord.text) pos part) : Uses self pos part
  /-- The first branch of a choice. -/
  | onTrue {part : Cursor}
      (h : Reads (do let _ ← symbol "("
                     let _ ← keyword Keyword.ifWord.text
                     self) pos part) : Uses self pos part
  /-- The second branch of a choice. -/
  | onFalse {part : Cursor}
      (h : Reads (do let _ ← symbol "("
                     let _ ← keyword Keyword.ifWord.text
                     let _ ← self
                     self) pos part) : Uses self pos part
  /-- The body of a fixed point. -/
  | fix {part : Cursor}
      (h : Reads (do let _ ← symbol "("
                     keyword Keyword.fix.text) pos part) : Uses self pos part
  /-- The head of an application. -/
  | function {part : Cursor} (h : Reads (symbol "(") pos part) : Uses self pos part
  /-- An argument of an application, or the end of the arguments. -/
  | argument {inside part : Cursor}
      (hfunction : Reads (do let _ ← symbol "("
                             self) pos inside)
      (h : Passes self inside part) : Uses self pos part

/-! ## No place is left out -/

/-- Parsers in sequence answer alike when the first ones do, and the second ones behind what the
first have read. -/
theorem bind_congr_at {p q : Parser α} {f g : α → Parser β} {pos : Cursor} (hpq : p pos = q pos)
    (hfg : ∀ a stop furthest, q pos = .read a stop furthest → f a stop = g a stop) :
    (p >>= f) pos = (q >>= g) pos := by
  cases hq : q pos with
  | read a stop furthest =>
      rw [bind_of_read (hpq.trans hq), bind_of_read hq, hfg a stop furthest hq]
  | failed furthest => rw [bind_of_failed (hpq.trans hq), bind_of_failed hq]
  | aborted reason => rw [bind_of_aborted (hpq.trans hq), bind_of_aborted hq]

/-- A choice is decided by what its alternatives answer at the place. -/
theorem orElse_congr_at {p p' q q' : Parser α} {pos : Cursor} (hp : p pos = p' pos)
    (hq : q pos = q' pos) : orElse p q pos = orElse p' q' pos := by
  simp only [orElse, hp, hq]

/-- A sequence that only changes the value changes the answer. -/
theorem bind_pure_eq_map (p : Parser α) (f : α → β) (pos : Cursor) :
    (do let a ← p
        return f a : Parser β) pos = (p pos).map f := by
  cases hp : p pos with
  | read a stop furthest =>
      rw [bind_of_read hp]
      simp [pure, Answer.aggregate, Answer.map]
  | failed furthest => exact bind_of_failed hp
  | aborted reason => exact bind_of_aborted hp

section Congruence

variable {self inner : Parser Expr} {pos inside : Cursor}

/-- A repetition is decided by the places that its attempts reach. -/
theorem manyUpTo_congr (n : Nat) (h : ∀ part, Passes self pos part → inner part = self part) :
    manyUpTo inner n pos = manyUpTo self n pos := by
  induction n generalizing pos with
  | zero => rfl
  | succ n ih =>
      rw [manyUpTo_succ, manyUpTo_succ]
      refine orElse_congr_at (bind_congr_at (h pos .refl) fun e stop f hread => ?_) rfl
      exact bind_congr_at (ih fun part hpart => h part (.head ⟨e, f, hread⟩ hpart))
        fun _ _ _ _ => rfl

/-- A list is decided by its elements. -/
theorem listExpression_congr (h : ∀ part, Uses self pos part → inner part = self part) :
    listExpression inner pos = listExpression self pos := by
  refine bind_congr_at rfl fun _ inside _ hopen => bind_congr_at ?_ fun _ _ _ _ => rfl
  exact manyUpTo_congr _ fun part hpart => h part (.element ⟨_, _, hopen⟩ hpart)

variable {text : String} {f : Option Furthest} (hopen : symbol "(" pos = .read text inside f)
  (h : ∀ part, Uses self pos part → inner part = self part)

include hopen h

theorem lambdaExpression_congr : lambdaExpression inner inside = lambdaExpression self inside := by
  refine bind_congr_at rfl fun _ _ _ hlam => bind_congr_at rfl fun _ _ _ hbracket => ?_
  refine bind_congr_at rfl fun _ _ _ hname => bind_congr_at rfl fun _ _ _ hclose => ?_
  exact bind_congr_at (h _ (.body (.bind hopen (.bind hlam (.bind hbracket (.bind hname
    ⟨_, _, hclose⟩)))))) fun _ _ _ _ => rfl

/-- The value and the body decide over a local definition. -/
theorem letExpression_congr : letExpression inner inside = letExpression self inside := by
  refine bind_congr_at rfl fun _ _ _ hlet => bind_congr_at rfl fun _ _ _ hparen => ?_
  refine bind_congr_at rfl fun _ _ _ hbracket => bind_congr_at rfl fun _ _ _ hname => ?_
  refine bind_congr_at (h _ (.value (.bind hopen (.bind hlet (.bind hparen (.bind hbracket
    ⟨_, _, hname⟩)))))) fun _ _ _ hvalue => ?_
  refine bind_congr_at rfl fun _ _ _ hclose => bind_congr_at rfl fun _ _ _ hclose' => ?_
  exact bind_congr_at (h _ (.scope (.bind hopen (.bind hlet (.bind hparen (.bind hbracket
    (.bind hname (.bind hvalue (.bind hclose ⟨_, _, hclose'⟩))))))))) fun _ _ _ _ => rfl

theorem ifExpression_congr : ifExpression inner inside = ifExpression self inside := by
  refine bind_congr_at rfl fun _ _ _ hif => ?_
  refine bind_congr_at (h _ (.test (.bind hopen ⟨_, _, hif⟩))) fun _ _ _ htest => ?_
  refine bind_congr_at (h _ (.onTrue (.bind hopen (.bind hif ⟨_, _, htest⟩)))) fun _ _ _ htrue => ?_
  exact bind_congr_at (h _ (.onFalse (.bind hopen (.bind hif (.bind htest ⟨_, _, htrue⟩)))))
    fun _ _ _ _ => rfl

theorem fixExpression_congr : fixExpression inner inside = fixExpression self inside := by
  refine bind_congr_at rfl fun _ _ _ hfix => ?_
  exact bind_congr_at (h _ (.fix (.bind hopen ⟨_, _, hfix⟩))) fun _ _ _ _ => rfl

/-- An application is decided by the function and by all arguments that are read, one behind the
other. -/
theorem applicationExpression_congr :
    applicationExpression inner inside = applicationExpression self inside := by
  refine bind_congr_at (h _ (.function ⟨_, _, hopen⟩)) fun _ rest _ hfunction => ?_
  have hhead : Reads (do let _ ← symbol "("
                         self) pos rest := .bind hopen ⟨_, _, hfunction⟩
  refine bind_congr_at ?_ fun _ _ _ _ => rfl
  refine bind_congr_at (h _ (.argument hhead .refl)) fun first rest' f' hfirst => ?_
  refine bind_congr_at ?_ fun _ _ _ _ => rfl
  exact manyUpTo_congr _ fun part hpart =>
    h part (.argument hhead (.head ⟨first, f', hfirst⟩ hpart))

omit hopen in
/-- Each form in parentheses is decided by the expressions inside of it. -/
theorem parenthesized_congr : parenthesized inner pos = parenthesized self pos := by
  refine bind_congr_at rfl fun _ inside _ hopen => bind_congr_at ?_ fun _ _ _ _ => rfl
  refine orElse_congr_at (lambdaExpression_congr hopen h) ?_
  refine orElse_congr_at (letExpression_congr hopen h) ?_
  refine orElse_congr_at (ifExpression_congr hopen h) ?_
  exact orElse_congr_at (fixExpression_congr hopen h) (applicationExpression_congr hopen h)

omit hopen in
/-- What is read is decided by what is read at the places that are listed: any other parser for the
parts that answers alike there gives the same. -/
theorem expressionWith_congr : expressionWith inner pos = expressionWith self pos :=
  orElse_congr_at rfl (orElse_congr_at rfl (orElse_congr_at rfl (orElse_congr_at rfl
    (orElse_congr_at rfl (orElse_congr_at (listExpression_congr h) (parenthesized_congr h))))))

end Congruence

/-! ## The places inside are further on -/

/-- Repeated reading leads forward. -/
theorem Passes.leads {pos part : Cursor} (h : Passes expression pos part) : pos.Leads part := by
  induction h with
  | refl => exact .refl pos
  | tail _ hread ih =>
      obtain ⟨e, f, hread⟩ := hread
      exact ih.trans (advances_expression hread).toLeads

/-- What takes a character leads further on. -/
theorem Advances.leadsOn {p : Parser α} (h : Advances p) {pos stop : Cursor}
    (hread : Reads p pos stop) : pos.LeadsOn stop := by
  obtain ⟨a, f, hread⟩ := hread
  exact h hread

/-- What is read inside of an expression starts behind its first token. -/
theorem Uses.leadsOn {pos part : Cursor} (h : Uses expression pos part) : pos.LeadsOn part := by
  have hparen := advances_symbol "("
  have hmoves := advances_expression.moves
  cases h with
  | element hopen hpass => exact ((advances_symbol "[").leadsOn hopen).trans_leads hpass.leads
  | body h =>
      exact (hparen.bind fun _ => (advances_keyword_text .lam).moves.bind fun _ =>
        (advances_symbol "[").moves.bind fun _ => advances_name.moves.bind fun _ =>
        (advances_symbol "]").moves).leadsOn h
  | value h =>
      exact (hparen.bind fun _ => (advances_keyword_text .letWord).moves.bind fun _ =>
        hparen.moves.bind fun _ => (advances_symbol "[").moves.bind fun _ =>
        advances_name.moves).leadsOn h
  | scope h =>
      exact (hparen.bind fun _ => (advances_keyword_text .letWord).moves.bind fun _ =>
        hparen.moves.bind fun _ => (advances_symbol "[").moves.bind fun _ =>
        advances_name.moves.bind fun _ => hmoves.bind fun _ =>
        (advances_symbol "]").moves.bind fun _ => (advances_symbol ")").moves).leadsOn h
  | test h =>
      exact (hparen.bind fun _ => (advances_keyword_text .ifWord).moves).leadsOn h
  | onTrue h =>
      exact (hparen.bind fun _ => (advances_keyword_text .ifWord).moves.bind fun _ =>
        hmoves).leadsOn h
  | onFalse h =>
      exact (hparen.bind fun _ => (advances_keyword_text .ifWord).moves.bind fun _ =>
        hmoves.bind fun _ => hmoves).leadsOn h
  | fix h => exact (hparen.bind fun _ => (advances_keyword_text .fix).moves).leadsOn h
  | function h => exact hparen.leadsOn h
  | argument hfunction hpass =>
      exact ((hparen.bind fun _ => hmoves).leadsOn hfunction).trans_leads hpass.leads

/-- There is no endless descent into expressions inside of expressions. -/
theorem wellFounded_uses : WellFounded fun part pos => Uses expression pos part :=
  Subrelation.wf (fun h => h.leadsOn.length_lt) (measure fun pos : Cursor => pos.rest.length).wf

/-! ## Recursion without a bound -/

/-- The bound on the nesting is not noticed. -/
theorem expressionUpTo_eq {n : Nat} {pos : Cursor} (h : pos.rest.length < n) :
    expressionUpTo n pos = expression pos := by
  induction n using Nat.strong_induction_on generalizing pos with
  | _ n ih =>
      -- below the given bound, the parser with any bound that is large enough is the same
      have hstep : ∀ m, m < n → pos.rest.length ≤ m →
          expressionUpTo (m + 1) pos = expressionWith expression pos := by
        intro m hm hpos
        refine expressionWith_congr fun part huse => ih m hm ?_
        exact Nat.lt_of_lt_of_le huse.leadsOn.length_lt hpos
      obtain ⟨m, rfl⟩ : ∃ m, n = m + 1 := ⟨n - 1, by omega⟩
      rw [hstep m (by omega) (by omega)]
      exact (hstep pos.rest.length h (Nat.le_refl _)).symm

/-- An expression is read by reading the expressions inside of it. -/
theorem expression_eq (pos : Cursor) : expression pos = expressionWith expression pos := by
  rw [← expressionUpTo_eq (Nat.lt_add_of_pos_right (n := pos.rest.length) Nat.zero_lt_two)]
  exact expressionWith_congr fun part huse => expressionUpTo_eq (by
    have hlt := huse.leadsOn.length_lt
    omega)

/-- The recursion without a bound: the reading of an expression ends with an answer when the
expressions inside of it are answered by readings that end.  A reading that goes on for ever has no
answer, and one that used a place which is not listed could have any. -/
inductive Ends : Cursor → Answer Expr → Prop where
  | intro (pos : Cursor) (inner : Parser Expr)
      (h : ∀ part, Uses inner pos part → Ends part (inner part)) :
      Ends pos (expressionWith inner pos)

/-- Every reading ends, with what the parser answers and with nothing else. -/
theorem ends_iff {pos : Cursor} {answer : Answer Expr} :
    Ends pos answer ↔ answer = expression pos := by
  rw [expression_eq]
  constructor
  · intro h
    induction h with
    | intro pos inner _ ih =>
        refine (expressionWith_congr fun part huse => ?_).symm
        rw [expression_eq, ih part huse]
  · rintro rfl
    induction pos using wellFounded_uses.induction with
    | _ pos ih =>
        refine .intro pos expression fun part huse => ?_
        rw [expression_eq]
        exact ih part huse

/-! ## Repetitions without a bound -/

/-- A repetition without a bound: a parser is tried again and again, each time behind what it has
read, until it fails.  A repetition that goes on for ever has no answer. -/
inductive Repeats (p : Parser α) : Cursor → Answer (List α) → Prop where
  /-- The attempt fails, and the repetition ends in front of it. -/
  | done {pos : Cursor} {f : Furthest} (h : p pos = .failed f) :
      Repeats p pos (.read [] pos (some f))
  | aborted {pos : Cursor} {reason : Abort} (h : p pos = .aborted reason) :
      Repeats p pos (.aborted reason)
  | again {pos stop : Cursor} {a : α} {f : Option Furthest} {answer : Answer (List α)}
      (h : p pos = .read a stop f) (hrest : Repeats p stop answer) :
      Repeats p pos ((answer.map (a :: ·)).aggregate f)

/-- A repetition has one answer. -/
theorem Repeats.unique {p : Parser α} {pos : Cursor} {answer answer' : Answer (List α)}
    (h : Repeats p pos answer) (h' : Repeats p pos answer') : answer = answer' := by
  induction h generalizing answer' with
  | done hp =>
      cases h' with
      | done hp' | aborted hp' | again hp' _ =>
          rw [hp] at hp'
          cases hp' <;> rfl
  | aborted hp =>
      cases h' with
      | done hp' | aborted hp' | again hp' _ =>
          rw [hp] at hp'
          cases hp' <;> rfl
  | again hp _ ih =>
      cases h' with
      | done hp' | aborted hp' =>
          rw [hp] at hp'
          cases hp'
      | again hp' hrest =>
          rw [hp] at hp'
          cases hp'
          rw [ih hrest]

/-- A repetition that takes a character each time ends before its bound. -/
theorem Advances.repeats_manyUpTo {p : Parser α} (hp : Advances p) {n : Nat} {pos : Cursor}
    (h : pos.rest.length < n) : Repeats p pos (manyUpTo p n pos) := by
  induction n generalizing pos with
  | zero => exact absurd h (Nat.not_lt_zero _)
  | succ n ih =>
      cases hread : p pos with
      | read a stop f =>
          have hlt := (hp hread).length_lt
          have hrest : Repeats p stop (manyUpTo p n stop) := ih (by omega)
          simp only [manyUpTo, hread]
          exact .again hread hrest
      | failed f =>
          simp only [manyUpTo, hread]
          exact .done hread
      | aborted reason =>
          simp only [manyUpTo, hread]
          exact .aborted hread

/-- Every repetition ends, with what the bounded one answers and with nothing else. -/
theorem Advances.repeats_iff {p : Parser α} (hp : Advances p) {pos : Cursor}
    {answer : Answer (List α)} : Repeats p pos answer ↔ answer = many p pos := by
  have hbound : Repeats p pos (many p pos) := hp.repeats_manyUpTo (Nat.lt_succ_self _)
  constructor
  · exact fun h => h.unique hbound
  · rintro rfl
    exact hbound

end Parser

/-! ## Offsets in a text -/

namespace Cursor

/-- The place of a text at an offset. -/
def ofText (text : String) (offset : Nat) : Cursor :=
  ⟨offset, text.toList.drop offset⟩

/-- A place of a text behind an offset, within the text. -/
structure MovesOn (text : String) (start : Nat) (stop : Cursor) : Prop where
  start_lt : start < stop.index
  le_length : stop.index ≤ text.length
  eq_ofText : stop = ofText text stop.index

/-- A place that is further on from an offset within a text is one of the text. -/
theorem LeadsOn.movesOn {text : String} {start : Nat} (hstart : start ≤ text.length)
    {stop : Cursor} (h : (ofText text start).LeadsOn stop) : MovesOn text start stop := by
  have hadd := h.index_add
  have hsuffix : stop.rest <:+ text.toList := h.isSuffix.trans (List.drop_suffix start text.toList)
  have hle := hsuffix.length_le
  simp only [ofText, List.length_drop] at hadd
  rw [String.length_toList] at hadd hle
  refine ⟨h.index_lt, by omega, ?_⟩
  obtain ⟨index, rest⟩ := stop
  have hindex : index = text.toList.length - rest.length := by
    rw [String.length_toList]
    change index + rest.length = _ at hadd
    omega
  simp only [ofText, Cursor.mk.injEq, true_and]
  rw [hindex, ← List.suffix_iff_eq_drop.1 hsuffix]

end Cursor

namespace Parser

open Cursor (ofText MovesOn)

/-- Reading ends on every text and from every offset of it, because it moves on.  An expression or a
definition that is read ends further on and within the text, and the expressions that are tried
inside of it start further on.  So the recursion and the repetitions of the grammar, which have no
bound, end, and do so with what the parsers answer. -/
theorem reading_ends (text : String) {start : Nat} (hstart : start ≤ text.length) :
    (∀ e stop f, expression (ofText text start) = .read e stop f → MovesOn text start stop) ∧
    (∀ d stop f, definition expression (ofText text start) = .read d stop f →
      MovesOn text start stop) ∧
    (∀ part, Uses expression (ofText text start) part → MovesOn text start part) ∧
    (∀ part, Reads (do let _ ← symbol "("
                       let _ ← keyword Keyword.defWord.text
                       name) (ofText text start) part → MovesOn text start part) ∧
    (∀ answer, Ends (ofText text start) answer ↔ answer = expression (ofText text start)) ∧
    (∀ answer, Repeats expression (ofText text start) answer ↔
      answer = many expression (ofText text start)) ∧
    (∀ e stop f, expression (ofText text start) = .read e stop f →
      ∃ answer, Repeats expression stop answer ∧
        atLeastOne expression (ofText text start) = (answer.map (e :: ·)).aggregate f) ∧
    ∀ answer, Repeats (definition expression) (ofText text start) answer ↔
      answer = many (definition expression) (ofText text start) := by
  refine ⟨?_, ?_, ?_, ?_, ?_, ?_, ?_, ?_⟩
  · exact fun e stop f hread => (advances_expression hread).movesOn hstart
  · exact fun d stop f hread => (advances_definition advances_expression.moves hread).movesOn hstart
  · exact fun part huse => huse.leadsOn.movesOn hstart
  · intro part hread
    have hhead := (advances_symbol "(").bind fun _ =>
      (advances_keyword_text .defWord).moves.bind fun _ => advances_name.moves
    exact (hhead.leadsOn hread).movesOn hstart
  · exact fun answer => ends_iff
  · exact fun answer => advances_expression.repeats_iff
  · intro e stop f hread
    refine ⟨many expression stop, advances_expression.repeats_iff.2 rfl, ?_⟩
    rw [atLeastOne, bind_of_read hread, bind_pure_eq_map]
  · exact fun answer => (advances_definition advances_expression.moves).repeats_iff

/-- How many values a repetition has read, and up to which place. -/
def Answer.extent? : Answer (List α) → Option (Nat × Cursor)
  | .read values stop _ => some (values.length, stop)
  | _ => none

/-- How many values were read and where they end tells that they were read. -/
theorem Answer.eq_read_of_extent? {answer : Answer (List α)} {n : Nat} {stop : Cursor}
    (h : answer.extent? = some (n, stop)) :
    ∃ values furthest, values.length = n ∧ answer = .read values stop furthest := by
  cases answer with
  | read values stop' furthest =>
      cases h
      exact ⟨values, furthest, rfl, rfl⟩
  | failed _ => cases h
  | aborted _ => cases h

/-- A repetition tries the function that is not finished, as a form and as an application, and ends
in front of it. -/
theorem reading_ends_halfForm :
    2 ≤ "1 (lam x".length ∧
      Uses expression (ofText "1 (lam x" 2) (ofText "1 (lam x" 3) ∧
      MovesOn "1 (lam x" 2 (ofText "1 (lam x" 3) ∧
      ∃ es f, es.length = 1 ∧
        Repeats expression (ofText "1 (lam x" 0) (.read es (ofText "1 (lam x" 2) f) := by
  have huse : Uses expression (ofText "1 (lam x" 2) (ofText "1 (lam x" 3) :=
    .function ⟨"(", none, rfl⟩
  have hstart : 2 ≤ "1 (lam x".length := by decide
  obtain ⟨-, -, huses, -⟩ := reading_ends "1 (lam x" hstart
  obtain ⟨-, -, -, -, -, hrepeats, -⟩ := reading_ends "1 (lam x" (Nat.zero_le _)
  have hextent : (many expression (ofText "1 (lam x" 0)).extent? =
      some (1, ofText "1 (lam x" 2) := by decide +kernel
  obtain ⟨es, f, hlength, hread⟩ := Answer.eq_read_of_extent? hextent
  exact ⟨hstart, huse, huses _ huse, es, f, hlength, (hrepeats _).2 hread.symm⟩

end Parser
end LetPoly
