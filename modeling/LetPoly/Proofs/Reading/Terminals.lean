import LetPoly.Proofs.Reading.Exactness
import LetPoly.Proofs.Reading.Sentences

/-!
# The parsers of tokens

The parsers of single tokens look at the characters and do not cut the text into tokens first.  At a
place where no white space stands, each of them takes what is there if the longest token there is
one that it reads, and fails otherwise.  The minus sign is an exception: in front of digits it is
read too, so that it has to be tried after the integers.

Main results:

- Theorems {lit}`outcome_of_scan` and {lit}`outcome_of_not_scan`: what a parser of one kind of token
  has to answer.
- Theorems {lit}`exact_symbol`, {lit}`exact_reserved`, {lit}`exact_name` and {lit}`exact_integer`:
  the parsers of tokens are exact.
- Theorem {lit}`outcome_operator`: operators are read right where no integer stands.
-/

namespace LetPoly

open Token (Lexes Spells scan? skipBlanks takeWord? takeKeyword? takeInteger? isWordChar
  isWordStart)

/-- Going forward twice is going forward once. -/
theorem Cursor.before_before (pos : Cursor) {after rest : List Char}
    (hafter : after.length ≤ pos.rest.length) (hrest : rest.length ≤ after.length) :
    (pos.before after).before rest = pos.before rest := by
  simp only [before, Cursor.mk.injEq, and_true]
  omega

/-- A token that is found at a place stands between it and the place behind the white space that
follows. -/
theorem Cursor.Spans.of_scan {start : Cursor} {t : Token} {after : List Char}
    (hsettled : start.Settled) (hscan : scan? start.rest = some (t, after)) :
    start.Spans [t] (start.before (skipBlanks false after)) where
  lexes := by
    refine Lexes.cons_iff.2 ⟨after, ?_, Lexes.nil_iff.2 rfl⟩
    rwa [hsettled]
  index_add := by
    have hafter := Token.length_lt_of_scan? hscan
    have hskip := Token.length_skipBlanks_le false after
    simp only [before]
    omega

/-- What stands at a place starts with the token that is found there. -/
theorem Cursor.Spans.exists_scan {start stop : Cursor} {t : Token} {tokens : List Token}
    (hsettled : start.Settled) (h : start.Spans (t :: tokens) stop) :
    ∃ after, scan? start.rest = some (t, after) := by
  obtain ⟨after, hscan, -⟩ := Lexes.cons_iff.1 h.lexes
  rw [hsettled] at hscan
  exact ⟨after, hscan⟩

namespace Parser

variable {α : Type} {start : Cursor}

/-! ## Parsers of one kind of token -/

section Terminal

variable {L : Language α} {kind : TokenKind}

/-- The answer where the token that is found is a word. -/
theorem outcome_of_scan (hL : L.IsTerminal kind) (hsettled : start.Settled) {t : Token}
    {after : List Char} (hscan : scan? start.rest = some (t, after)) {a : α} (hword : L.Word [t] a)
    (hshort : t.IsShort) :
    Outcome L start (.read a (start.before (skipBlanks false after)) none) := by
  have hspans := Cursor.Spans.of_scan hsettled hscan
  have hlongest : ∀ ⦃other place⦄, start.Spans other place → L.Viable other → other <+: [t] := by
    rintro other place hother ⟨more, b, -, hlonger⟩
    obtain ⟨t', htokens, -⟩ := hL.exists_token hlonger
    rcases hother.isPrefix_or_isPrefix hspans with hle | ⟨rest, rfl⟩
    · exact hle
    · obtain ⟨rfl, hnil⟩ := List.cons.inj htokens
      rw [(List.append_eq_nil_iff.1 (List.append_eq_nil_iff.1 hnil).1).2]
      exact List.prefix_rfl
  refine .read hspans hword (List.forall_mem_singleton.2 hshort) ?_
    ⟨hspans, Language.viable_of_word hword, fun _ _ => @hlongest _ _, Furthest.within_none,
      fun description => ?_⟩
  · intro other place b hother hword'
    refine ⟨hlongest hother (Language.viable_of_word hword'), ?_⟩
    rintro rfl
    exact hL.unique hword' hword
  · refine iff_of_false List.not_mem_nil ?_
    rintro ⟨_, -, s, -, -, more, b, -, hlonger⟩
    obtain ⟨t', htokens, -⟩ := hL.exists_token hlonger
    simp at htokens

/-- The answer where the token that is found is no word. -/
theorem outcome_of_not_scan (hL : L.IsTerminal kind) (hsettled : start.Settled)
    (hscan : ∀ t after a, scan? start.rest = some (t, after) → ¬ L.Word [t] a) :
    Outcome L start (.failed ⟨start.index, [kind.text]⟩) := by
  have hnone : ∀ ⦃t tokens place⦄, start.Spans (t :: tokens) place → ¬ L.Viable (t :: tokens) := by
    rintro t tokens place hspans ⟨more, a, -, hword⟩
    obtain ⟨after, ht⟩ := hspans.exists_scan hsettled
    obtain ⟨t', htokens, -⟩ := hL.exists_token hword
    obtain ⟨rfl, -⟩ := List.cons.inj htokens
    rw [htokens] at hword
    exact hscan _ after a ht hword
  refine .failed ?_ ⟨.refl hsettled, hL.hasWord.viable_nil, ?_, ?_, fun description => ?_⟩
  · intro other place a hspans hword
    obtain ⟨t, rfl, -⟩ := hL.exists_token hword
    exact hnone hspans (Language.viable_of_word hword)
  · intro other place hspans hviable
    cases other with
    | nil => exact List.prefix_rfl
    | cons t tokens => exact absurd hviable (hnone hspans)
  · rintro f ⟨⟩
    exact Nat.le_refl _
  · simp only [Furthest.expectedAt, if_true, List.mem_singleton]
    constructor
    · rintro rfl
      obtain ⟨tokens, a, hspelled, hword⟩ := hL.hasWord
      obtain ⟨t, rfl, ht⟩ := hL.exists_token hword
      exact ⟨kind, rfl, t, hspelled t (by simp), ht, Language.viable_of_word hword⟩
    · rintro ⟨_, rfl, t, -, rfl, more, a, -, hword⟩
      obtain ⟨t', htokens, rfl⟩ := hL.exists_token hword
      rw [(List.cons.inj htokens).1]

end Terminal

/-! ## Patterns and tokens -/

/-- Characters are taken off exactly where they stand. -/
theorem stripChars?_eq_some_iff {text cs after : List Char} :
    stripChars? text cs = some after ↔ cs = text ++ after := by
  induction text generalizing cs with
  | nil => simp [stripChars?]
  | cons c text ih =>
      cases cs with
      | nil => simp [stripChars?]
      | cons d cs =>
          rw [stripChars?, List.cons_append, List.cons.injEq]
          split_ifs with h
          · rw [ih]
            exact ⟨fun hcs => ⟨h.symm, hcs⟩, And.right⟩
          · simp [Ne.symm h]

end Parser

namespace Token

/-- A token is spelled in one way. -/
theorem Spells.eq_of_spells {t : Token} {lexeme lexeme' : List Char} (h : Spells t lexeme)
    (h' : Spells t lexeme') : lexeme = lexeme' := by
  cases h <;> cases h' <;> rfl

/-- A token that is found at the start of a text is spelled there. -/
theorem Spells.eq_append_of_scan? {t : Token} {lexeme cs after : List Char} (h : Spells t lexeme)
    (hscan : scan? cs = some (t, after)) : cs = lexeme ++ after := by
  obtain ⟨lexeme', rfl, h'⟩ := exists_spells_of_scan? hscan
  rw [h.eq_of_spells h']

/-- A class of characters that does not go on at the start of a text takes nothing. -/
theorem takeWhile_of_head {p : Char → Bool} {cs : List Char} (h : ∀ c ∈ cs.head?, p c = false) :
    cs.takeWhile p = [] ∧ cs.dropWhile p = cs := by
  cases cs with
  | nil => exact ⟨rfl, rfl⟩
  | cons c cs => simp [h c rfl]

/-- Behind a class of characters the class does not go on. -/
theorem head_dropWhile (p : Char → Bool) (cs : List Char) :
    ∀ c ∈ (cs.dropWhile p).head?, p c = false := by
  intro c hc
  have hstop := List.head?_dropWhile_not p cs
  rwa [Option.mem_def.1 hc] at hstop

/-- Where nothing is dropped, the class does not go on. -/
theorem head_of_dropWhile {p : Char → Bool} {cs : List Char} (h : cs.dropWhile p = cs) :
    ∀ c ∈ cs.head?, p c = false := by
  have hstop := head_dropWhile p cs
  rwa [h] at hstop

/-- A word is taken if it is the longest one. -/
theorem takeKeyword?_eq_some_iff {text : String} {cs taken after : List Char}
    (hword : IsWord text.toList) :
    takeKeyword? text cs = some (taken, after) ↔
      taken = text.toList ∧ scan? cs = some (ofWord text, after) := by
  have hspells : Spells (ofWord text) text.toList := by simpa using spells_ofWord hword
  constructor
  · intro h
    rw [takeKeyword?] at h
    split at h
    case h_1 rest hrest =>
      obtain rfl := Parser.stripChars?_eq_some_iff.1 hrest
      split_ifs at h with hmore
      cases h
      have hstop : ∀ c ∈ after.head?, isWordChar c = false := by
        intro c hc
        simpa [Option.mem_def.1 hc] using hmore
      obtain ⟨htake, hdrop⟩ := takeWhile_of_head hstop
      refine ⟨rfl, ?_⟩
      rw [scan?_word hword, htake, hdrop, List.append_nil, String.ofList_toList]
    case h_2 => cases h
  · rintro ⟨rfl, hscan⟩
    obtain rfl := hspells.eq_append_of_scan? hscan
    rw [scan?_word hword] at hscan
    have hstop := head_of_dropWhile (Prod.mk.inj (Option.some.inj hscan)).2
    rw [takeKeyword?, Parser.stripChars?_eq_some_iff.2 rfl]
    cases after with
    | nil => simp
    | cons c after => simp [hstop c rfl]

/-- The word at the start of a text, as a token. -/
theorem takeWord?_eq_some_iff {cs taken after : List Char} :
    takeWord? cs = some (taken, after) ↔
      IsWord taken ∧ scan? cs = some (ofWord (String.ofList taken), after) := by
  constructor
  · intro h
    cases cs with
    | nil => cases h
    | cons c cs =>
        rw [takeWord?] at h
        split_ifs at h with hc
        cases h
        exact ⟨⟨hc, fun d hd => List.mem_takeWhile_imp hd⟩, scan?_of_isWordStart cs hc⟩
  · rintro ⟨hword, hscan⟩
    obtain rfl := (spells_ofWord hword).eq_append_of_scan? hscan
    rw [scan?_word hword] at hscan
    cases taken with
    | nil => cases hword
    | cons c rest =>
        obtain ⟨hc, hrest⟩ := hword
        have hdrop := (Prod.mk.inj (Option.some.inj hscan)).2
        have htake := (takeWhile_of_head (head_of_dropWhile hdrop)).1
        simp [takeWord?, hc, List.takeWhile_append_of_pos hrest, List.dropWhile_append_of_pos hrest,
          htake, hdrop]

/-- As many digits are taken as there are. -/
theorem takeDigits?_eq_some_iff {cs digits after : List Char} :
    takeDigits? cs = some (digits, after) ↔
      digits ≠ [] ∧ (∀ c ∈ digits, c.isDigit = true) ∧ cs = digits ++ after ∧
        ∀ c ∈ after.head?, c.isDigit = false := by
  constructor
  · intro h
    simp only [takeDigits?] at h
    split_ifs at h with hempty
    cases h
    refine ⟨by simpa using hempty, fun c hc => List.mem_takeWhile_imp hc,
      List.takeWhile_append_dropWhile.symm, head_dropWhile _ _⟩
  · rintro ⟨hne, hdigits, rfl, hstop⟩
    obtain ⟨htake, hdrop⟩ := takeWhile_of_head hstop
    simp [takeDigits?, List.takeWhile_append_of_pos hdigits, List.dropWhile_append_of_pos hdigits,
      htake, hdrop, hne]

/-- The integer at the start of a text, as a token. -/
theorem takeInteger?_eq_some_iff {cs taken after : List Char} :
    takeInteger? cs = some (taken, after) ↔
      ∃ negative digits, Spells (integer negative digits) taken ∧
        scan? cs = some (integer negative digits, after) := by
  constructor
  · intro h
    unfold takeInteger? at h
    split at h
    case h_1 cs =>
      obtain ⟨⟨digits, rest⟩, htaken, heq⟩ := Option.map_eq_some_iff.1 h
      cases heq
      obtain ⟨hne, hdigits, rfl, hstop⟩ := takeDigits?_eq_some_iff.1 htaken
      obtain ⟨htake, hdrop⟩ := takeWhile_of_head hstop
      refine ⟨true, digits, .negative hne hdigits, ?_⟩
      simp [scan?, List.takeWhile_append_of_pos hdigits, List.dropWhile_append_of_pos hdigits,
        htake, hdrop, hne]
    case h_2 cs hsign =>
      obtain ⟨hne, hdigits, rfl, hstop⟩ := takeDigits?_eq_some_iff.1 h
      obtain ⟨htake, hdrop⟩ := takeWhile_of_head hstop
      refine ⟨false, taken, .integer hne hdigits, ?_⟩
      rw [scan?_digits hne hdigits, htake, hdrop, List.append_nil]
  · rintro ⟨negative, digits, hspells, hscan⟩
    obtain rfl := hspells.eq_append_of_scan? hscan
    cases hspells with
    | integer hne hdigits =>
        rw [scan?_digits hne hdigits] at hscan
        have hstop := head_of_dropWhile (Prod.mk.inj (Option.some.inj hscan)).2
        have htake := takeDigits?_eq_some_iff.2 ⟨hne, hdigits, rfl, hstop⟩
        rw [takeInteger?]
        · exact htake
        · intro rest heq
          obtain ⟨c, tail, rfl⟩ := List.exists_cons_of_ne_nil hne
          have hc := hdigits c List.mem_cons_self
          rw [(List.cons.inj heq).1] at hc
          cases hc
    | negative hne hdigits =>
        have hstop : ∀ c ∈ after.head?, c.isDigit = false := by
          refine head_of_dropWhile ?_
          simpa [scan?, List.takeWhile_append_of_pos hdigits, hne,
            List.dropWhile_append_of_pos hdigits] using hscan
        have htake := takeDigits?_eq_some_iff.2 ⟨hne, hdigits, rfl, hstop⟩
        simp [takeInteger?, htake]

end Token

namespace Parser

variable {α : Type} {start : Cursor} {limit : Nat}

/-- Behind what was read, white space is skipped. -/
theorem lexeme_of_read {p : Parser α} {pos stop : Cursor} {value : α} {f : Option Furthest}
    (h : p pos = .read value stop f) :
    lexeme p pos = .read value (stop.before (skipBlanks false stop.rest)) f := by
  rw [lexeme, bind_of_read h, bind_of_read rfl]
  simp [pure, Answer.aggregate]

/-- Where nothing is read, nothing is skipped. -/
theorem lexeme_of_failed {p : Parser α} {pos : Cursor} {f : Furthest} (h : p pos = .failed f) :
    lexeme p pos = .failed f :=
  bind_of_failed h

section Regex

variable {pattern : String} {take? : List Char → Option (List Char × List Char)} {pos : Cursor}

/-- A pattern that takes something reads it. -/
theorem regex_of_some {taken after : List Char} (h : take? pos.rest = some (taken, after)) :
    regex pattern take? pos = .read taken (pos.before after) none := by
  simp only [regex, h]

/-- A pattern that takes nothing fails at its start. -/
theorem regex_of_none (h : take? pos.rest = none) :
    regex pattern take? pos = .failed ⟨pos.index, [pattern]⟩ := by
  simp only [regex, h]

end Regex

/-- A description does not change what is read. -/
theorem desc_of_read {description : String} {p : Parser α} {pos stop : Cursor} {value : α}
    {f : Option Furthest} (h : p pos = .read value stop f) :
    desc description p pos = .read value stop f := by
  simp only [desc, h]

/-- A failure is described as a whole, and at the start. -/
theorem desc_of_failed {description : String} {p : Parser α} {pos : Cursor} {f : Furthest}
    (h : p pos = .failed f) : desc description p pos = .failed ⟨pos.index, [description]⟩ := by
  simp only [desc, h]

/-- White space behind a token is skipped in one step. -/
theorem before_skipBlanks {t : Token} {pos : Cursor} {after : List Char}
    (hscan : scan? pos.rest = some (t, after)) :
    (pos.before after).before (skipBlanks false (pos.before after).rest) =
      pos.before (skipBlanks false after) :=
  pos.before_before (Token.length_lt_of_scan? hscan).le (Token.length_skipBlanks_le false after)

/-! ## Brackets, parentheses and signs -/

/-- A text is read as a symbol where the longest token is that symbol. -/
theorem outcome_symbol {t : Token} (hspells : Spells t t.kind.text.toList) (hshort : t.IsShort)
    (hsettled : start.Settled)
    (hscan : ∀ after, start.rest = t.kind.text.toList ++ after →
      scan? start.rest = some (t, after)) :
    Outcome (Language.symbol t) start (symbol t.kind.text start) := by
  have hterminal : (Language.symbol t).IsTerminal t.kind := Language.isTerminal_token ⟨_, hspells⟩ _
  rw [symbol]
  cases hstrip : stripChars? t.kind.text.toList start.rest with
  | none =>
      have hfails : string t.kind.text start = .failed ⟨start.index, [t.kind.text]⟩ := by
        simp [string, hstrip]
      rw [lexeme_of_failed hfails]
      refine outcome_of_not_scan hterminal hsettled ?_
      rintro t' after _ hfound ⟨ht, -⟩
      obtain rfl := List.singleton_inj.1 ht
      rw [stripChars?_eq_some_iff.2 (hspells.eq_append_of_scan? hfound)] at hstrip
      cases hstrip
  | some after =>
      have hfound := hscan after (stripChars?_eq_some_iff.1 hstrip)
      have hreads : string t.kind.text start = .read t.kind.text (start.before after) none := by
        simp [string, hstrip]
      rw [lexeme_of_read hreads, before_skipBlanks hfound]
      exact outcome_of_scan hterminal hsettled hfound ⟨rfl, rfl⟩ hshort

/-- The tokens that no other token starts with. -/
def symbols : List Token :=
  [.openParen, .closeParen, .openBracket, .closeBracket, .prim .eql, .prim .add, .prim .mul]

/-- Symbols are tokens on their own, whatever follows them. -/
theorem spells_symbol {t : Token} (ht : t ∈ symbols) :
    Spells t t.kind.text.toList ∧ t.IsShort ∧
      ∀ after, scan? (t.kind.text.toList ++ after) = some (t, after) := by
  simp only [symbols, List.mem_cons, List.not_mem_nil, or_false] at ht
  rcases ht with rfl | rfl | rfl | rfl | rfl | rfl | rfl <;>
    exact ⟨by constructor, trivial, fun _ => rfl⟩

theorem isTerminal_symbol {t : Token} (ht : t ∈ symbols) : (Language.symbol t).IsTerminal t.kind :=
  Language.isTerminal_token ⟨_, (spells_symbol ht).1⟩ _

/-- Symbols are read exactly. -/
theorem exact_symbol {t : Token} (ht : t ∈ symbols) :
    Exact limit (symbol t.kind.text) (Language.symbol t) := by
  obtain ⟨hspells, hshort, hscan⟩ := spells_symbol ht
  refine ⟨fun start hsettled _ => outcome_symbol hspells hshort hsettled fun after h => ?_,
    (isTerminal_symbol ht).hasWord⟩
  rw [h, hscan]

/-! ## Words -/

/-- A reserved word is read where it is the longest word. -/
theorem exact_reserved {t : Token} (hword : Token.IsWord t.kind.text.toList)
    (ht : Token.ofWord t.kind.text = t) (hshort : t.IsShort) :
    Exact limit (keyword t.kind.text) (Language.reserved t) := by
  have hspells : Spells t t.kind.text.toList := by
    simpa [ht] using Token.spells_ofWord hword
  have hterminal : (Language.reserved t).IsTerminal t.kind :=
    Language.isTerminal_token ⟨_, hspells⟩ _
  refine ⟨fun start hsettled _ => ?_, hterminal.hasWord⟩
  cases htake : takeKeyword? t.kind.text start.rest with
  | none =>
      rw [keyword, desc_of_failed (lexeme_of_failed (regex_of_none htake))]
      refine outcome_of_not_scan hterminal hsettled ?_
      rintro t' after _ hfound ⟨ht', -⟩
      obtain rfl := List.singleton_inj.1 ht'
      rw [(Token.takeKeyword?_eq_some_iff hword).2 ⟨rfl, by rwa [ht]⟩] at htake
      cases htake
  | some result =>
      obtain ⟨taken, after⟩ := result
      obtain ⟨rfl, hfound⟩ := (Token.takeKeyword?_eq_some_iff hword).1 htake
      rw [ht] at hfound
      rw [keyword, desc_of_read (lexeme_of_read (regex_of_some htake)), before_skipBlanks hfound]
      exact outcome_of_scan hterminal hsettled hfound ⟨rfl, rfl⟩ hshort

/-- Keywords are read exactly: a longer word is not taken apart. -/
theorem exact_keyword (k : Keyword) :
    Exact limit (keyword k.text) (Language.reserved (.keyword k)) :=
  exact_reserved (t := .keyword k) (by cases k <;> decide) (Token.ofWord_text k) trivial

/-- Which words are names. -/
theorem ofWord_eq_name_iff {x y : String} :
    Token.ofWord x = .name y ↔ isReserved x = false ∧ x = y := by
  unfold Token.ofWord isReserved
  cases Keyword.ofText? x with
  | some k => simp
  | none =>
      cases Primitive.ofSymbol? x with
      | some p => simp
      | none => simp

/-- Names are read exactly: a reserved word is not a name. -/
theorem exact_name : Exact limit name Language.names := by
  refine ⟨fun start hsettled _ => ?_, Language.isTerminal_names.hasWord⟩
  cases htake : takeWord? start.rest with
  | none =>
      have hfails : word start = .failed ⟨start.index, ["[A-Za-z_][A-Za-z0-9_]*"]⟩ :=
        lexeme_of_failed (regex_of_none htake)
      rw [name, desc_of_failed (bind_of_failed hfails)]
      refine outcome_of_not_scan Language.isTerminal_names hsettled ?_
      rintro t after x hfound hname
      obtain rfl := List.singleton_inj.1 hname
      obtain ⟨lexeme, -, hspells⟩ := Token.exists_spells_of_scan? hfound
      cases hspells with
      | name hx =>
          rw [Token.takeWord?_eq_some_iff.2
            ⟨hx.word, by rw [String.ofList_toList, Token.ofWord_name hx, hfound]⟩] at htake
          cases htake
  | some result =>
      obtain ⟨taken, after⟩ := result
      obtain ⟨hword, hfound⟩ := Token.takeWord?_eq_some_iff.1 htake
      have hreads : word start = .read taken (start.before (skipBlanks false after)) none := by
        rw [word, lexeme_of_read (regex_of_some htake), before_skipBlanks hfound]
      cases hreserved : isReserved (String.ofList taken) with
      | true =>
          have hfails : (word >>= nameOf) start =
              .failed ⟨(start.before (skipBlanks false after)).index, ["name"]⟩ := by
            rw [bind_of_read hreads, nameOf, if_pos hreserved]
            rfl
          rw [name, desc_of_failed hfails]
          refine outcome_of_not_scan Language.isTerminal_names hsettled ?_
          rintro t after' x hother hname
          obtain rfl := List.singleton_inj.1 hname
          rw [hfound] at hother
          have hnot := (ofWord_eq_name_iff.1 (Prod.mk.inj (Option.some.inj hother)).1).1
          rw [hreserved] at hnot
          cases hnot
      | false =>
          have hname : (word >>= nameOf) start =
              .read (String.ofList taken) (start.before (skipBlanks false after)) none := by
            rw [bind_of_read hreads, nameOf, if_neg (by simp [hreserved])]
            rfl
          rw [ofWord_eq_name_iff.2 ⟨hreserved, rfl⟩] at hfound
          rw [name, desc_of_read hname]
          exact outcome_of_scan Language.isTerminal_names hsettled hfound rfl trivial

/-! ## Integers -/

/-- The spelling of an integer has its sign and its digits. -/
theorem toInt_of_spells {negative : Bool} {digits taken : List Char}
    (h : Spells (.integer negative digits) taken) :
    Token.toInt taken = Text.readInt negative digits := by
  cases h with
  | integer hne hdigits =>
      rw [Token.toInt]
      intro rest heq
      obtain ⟨c, tail, rfl⟩ := List.exists_cons_of_ne_nil hne
      have hc := hdigits c List.mem_cons_self
      rw [(List.cons.inj heq).1] at hc
      cases hc
  | negative hne hdigits => rfl

/-- Integers are read exactly: a minus sign in front of digits belongs to them. -/
theorem exact_integer : Exact limit integer Language.integers := by
  refine ⟨fun start hsettled _ => ?_, Language.isTerminal_integers.hasWord⟩
  cases htake : takeInteger? start.rest with
  | none =>
      rw [integer, bind_of_failed (lexeme_of_failed (desc_of_failed (regex_of_none htake)))]
      refine outcome_of_not_scan Language.isTerminal_integers hsettled ?_
      rintro t after _ hfound ⟨negative, digits, ht, -⟩
      obtain rfl := List.singleton_inj.1 ht
      obtain ⟨lexeme, -, hspells⟩ := Token.exists_spells_of_scan? hfound
      rw [Token.takeInteger?_eq_some_iff.2 ⟨negative, digits, hspells, hfound⟩] at htake
      cases htake
  | some result =>
      obtain ⟨taken, after⟩ := result
      obtain ⟨negative, digits, hspells, hfound⟩ := Token.takeInteger?_eq_some_iff.1 htake
      rw [integer, bind_of_read (lexeme_of_read (desc_of_read (regex_of_some htake))),
        before_skipBlanks hfound, integerOf, toInt_of_spells hspells, Text.readInt]
      by_cases hshort : digits.length ≤ Text.maxDigits
      · rw [if_pos hshort]
        exact outcome_of_scan Language.isTerminal_integers hsettled hfound
          ⟨negative, digits, rfl, rfl⟩ hshort
      · rw [if_neg hshort]
        exact .digits (.of_scan hsettled hfound) List.mem_cons_self hshort

/-! ## Operators, truth values and variables -/

/-- Where no integer stands, a minus sign is the longest token. -/
theorem scan?_sub_of_integer_failed {f : Furthest} (hinteger : integer start = .failed f)
    {after : List Char} (hrest : start.rest = '-' :: after) :
    scan? start.rest = some (.prim .sub, after) := by
  rw [hrest, scan?]
  by_cases hdigits : (after.takeWhile Char.isDigit).isEmpty = true
  · simp [hdigits]
  · -- with digits behind it, it would have been read as the sign of an integer
    have hscan : scan? start.rest =
        some (.integer true (after.takeWhile Char.isDigit), after.dropWhile Char.isDigit) := by
      rw [hrest, scan?]
      simp [hdigits]
    obtain ⟨lexeme, -, hspells⟩ := Token.exists_spells_of_scan? hscan
    have htake := Token.takeInteger?_eq_some_iff.2 ⟨true, _, hspells, hscan⟩
    rw [integer, bind_of_read (lexeme_of_read (desc_of_read (regex_of_some htake))),
      integerOf, toInt_of_spells hspells, Text.readInt] at hinteger
    split_ifs at hinteger <;> cases hinteger

/-- A sign that is an operator is read right where no integer stands. -/
theorem outcome_operatorSign (hsettled : start.Settled) {f : Furthest}
    (hinteger : integer start = .failed f) {p : Primitive} (hp : p ∈ Language.signs) :
    Outcome (Language.operatorSign p) start (operatorSign p start) := by
  have hsymbol : Outcome (Language.symbol (.prim p)) start (symbol p.symbol start) := by
    by_cases hsub : p = .sub
    · subst hsub
      exact outcome_symbol (t := .prim .sub) (.prim .sub) trivial hsettled
        fun after h => scan?_sub_of_integer_failed hinteger h
    · have hp' : Token.prim p ∈ symbols := by
        revert hp hsub
        cases p <;> decide
      exact (exact_symbol hp').outcome start hsettled (Nat.lt_succ_self _)
  refine hsymbol.bind ((Language.isTerminal_token (Token.isSpelled_prim p) _).prefixFree.greedy _)
    (fun _ => Language.hasWord_pure _) fun _ _ mid hspans _ => .pure hspans.settled _

/-- Operators that are signs are read right where no integer stands. -/
theorem outcome_operator (hsettled : start.Settled) {f : Furthest}
    (hinteger : integer start = .failed f) :
    Outcome (.anyOf Language.operatorSign Language.signs) start (operator start) :=
  .choice (p := operatorSign) .eql [.add, .sub, .mul]
    (fun _ hp => outcome_operatorSign hsettled hinteger hp)
    (Language.StartsIn.pairwise_apart Language.startsIn_operatorSign (by decide))

/-- Operators that are words are read exactly. -/
theorem exact_operatorWord (limit : Nat) {p : Primitive} (hp : p ∈ Language.words) :
    Exact limit (operatorWord p) (Language.operatorWord p) := by
  have hword : Token.IsWord p.symbol.toList := by
    revert hp
    cases p <;> decide
  exact (exact_reserved (t := .prim p) hword (Token.ofWord_symbol p) trivial).bind
    ((Language.isTerminal_token (Token.isSpelled_prim p) _).prefixFree.greedy _)
    fun _ => exact_pure limit _

/-- One of the operators that are words is read, and the others are expected as well. -/
theorem exact_namedPrimitive :
    Exact limit namedPrimitive (.anyOf Language.operatorWord Language.words) where
  outcome start hsettled hlimit :=
    .choice (p := operatorWord) .null [.map, .foldl, .pair, .fst, .snd, .cons, .nil]
      (fun _ hp => (exact_operatorWord limit hp).outcome start hsettled hlimit)
      (Language.StartsIn.pairwise_apart Language.startsIn_operatorWord (by decide))
  hasWord :=
    Language.hasWord_anyOf List.mem_cons_self (exact_operatorWord limit (by decide)).hasWord

/-- The words of truth values are read exactly. -/
theorem exact_booleanWord (limit : Nat) (value : Bool) :
    Exact limit (booleanWord value) (Language.truthValue value) :=
  (exact_keyword _).bind
    ((Language.isTerminal_token (Token.isSpelled_keyword _) _).prefixFree.greedy _)
    fun _ => exact_pure limit _

/-- One of the truth values is read, and the other one is expected as well. -/
theorem exact_boolean : Exact limit boolean (.anyOf Language.truthValue [true, false]) where
  outcome start hsettled hlimit :=
    .choice (p := booleanWord) true [false]
      (fun value _ => (exact_booleanWord limit value).outcome start hsettled hlimit)
      (Language.StartsIn.pairwise_apart Language.startsIn_truthValue (by decide))
  hasWord := Language.hasWord_anyOf List.mem_cons_self (exact_booleanWord limit true).hasWord

/-- Variables are read exactly. -/
theorem exact_nameExpression : Exact limit nameExpression Language.variableNames :=
  exact_name.bind (Language.greedy_pure _ _) fun _ => exact_pure limit _

end Parser
end LetPoly
