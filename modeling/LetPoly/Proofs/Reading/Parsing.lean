import LetPoly.Proofs.Reading.Forms

/-!
# Parsing texts

What the parsers answer on a text, in terms of its tokens and of the grammar.

Main results:

- Theorem {lit}`parse_eq_ok_iff_derives`: the parsers accept exactly the texts whose tokens
  are a sentence, and give what the only derivation of the sentence stands for.
- Theorem {lit}`parse_error_at_longest_viable`: a rejected text is reported at the end of
  its longest beginning that begins a sentence, with exactly what could have followed.
-/

namespace LetPoly

open Token (Lexes Gap skipBlanks)

/-! ## The tokens of a text -/

namespace Token.Lexes

/-- There are no tokens in an empty text. -/
theorem eq_nil_of_nil {rest : List Char} {tokens : List Token} (h : Lexes [] tokens rest) :
    tokens = [] ∧ rest = [] := by
  cases tokens with
  | nil => exact ⟨rfl, (nil_iff.1 h).symm⟩
  | cons t tokens =>
      obtain ⟨after, hscan, -⟩ := cons_iff.1 h
      cases hscan

/-- The tokens of all of a text are those of its beginning and those of the rest. -/
theorem whole_iff {cs after : List Char} {tokens all : List Token} (h : Lexes cs tokens after) :
    Lexes cs all [] ↔ ∃ more, all = tokens ++ more ∧ Lexes after more [] := by
  constructor
  · intro hall
    rcases h.isPrefix_or_isPrefix hall with ⟨more, rfl⟩ | ⟨more, rfl⟩
    · obtain ⟨mid, hmid, hmore⟩ := append_iff.1 hall
      rw [hmid.eq_right h] at hmore
      exact ⟨more, rfl, hmore⟩
    · obtain ⟨mid, hmid, hmore⟩ := append_iff.1 h
      rw [hmid.eq_right hall] at hmore
      obtain ⟨rfl, rfl⟩ := eq_nil_of_nil hmore
      exact ⟨[], by simp, hmore⟩
  · rintro ⟨more, rfl, hmore⟩
    exact append_iff.2 ⟨after, h, hmore⟩

end Token.Lexes

/-- No integer of the text has too many digits to be read. -/
def ShortIntegers (text : String) : Prop :=
  ∀ tokens rest, Lexes text.toList tokens rest → ∀ t ∈ tokens, t.IsShort

/-- A text that is not longer than an integer may be has no integer that is too long. -/
theorem shortIntegers_of_length_le {text : String} (h : text.toList.length ≤ Text.maxDigits) :
    ShortIntegers text := by
  intro tokens rest hlexes
  generalize text.toList = cs at h hlexes
  induction hlexes with
  | stop _ => simp
  | @token cs lexeme after rest token tokens hgap hlongest _ ih =>
      have hlength := hgap.isSuffix.length_le
      rw [List.length_append] at hlength
      refine List.forall_mem_cons.2 ⟨?_, ih (by omega)⟩
      cases hlongest.spells with
      | integer _ _ =>
          change lexeme.length ≤ Text.maxDigits
          omega
      | @negative digits _ _ =>
          change digits.length ≤ Text.maxDigits
          rw [List.length_cons] at hlength
          omega
      | _ => trivial

namespace Cursor

/-- The first place of a text behind white space and comments. -/
def first (text : String) : Cursor :=
  (start text).before (skipBlanks false text.toList)

/-- At the first place no white space is left. -/
theorem settled_first (text : String) : (first text).Settled :=
  (Token.gap_skipBlanks text.toList).refl_right.skipBlanks_eq

/-- The tokens at the first place are those of the text. -/
theorem spans_first_iff {text : String} {tokens : List Token} {stop : Cursor} :
    (first text).Spans tokens stop ↔
      Lexes text.toList tokens stop.rest ∧ stop.index + stop.rest.length = text.length := by
  have hle := Token.length_skipBlanks_le false text.toList
  have hindex : (first text).index + (first text).rest.length = text.length := by
    rw [← String.length_toList]
    change 0 + (text.toList.length - (skipBlanks false text.toList).length) +
      (skipBlanks false text.toList).length = text.toList.length
    omega
  constructor
  · rintro ⟨hlexes, hadd⟩
    exact ⟨Lexes.skipBlanks_left_iff.1 hlexes, hadd.trans hindex⟩
  · rintro ⟨hlexes, hadd⟩
    exact ⟨Lexes.skipBlanks_left_iff.2 hlexes, hadd.trans hindex.symm⟩

/-- Where tokens of a text end, there is a place. -/
theorem spans_first_before {text : String} {tokens : List Token} {rest : List Char}
    (h : Lexes text.toList tokens rest) :
    (first text).Spans tokens ((start text).before rest) := by
  refine spans_first_iff.2 ⟨h, ?_⟩
  have hle := h.isSuffix.length_le
  rw [← String.length_toList]
  change 0 + (text.toList.length - rest.length) + rest.length = text.toList.length
  omega

end Cursor

/-! ## Texts that are accepted -/

namespace Parser

variable {α : Type} {p : Parser α} {L : Language α} {text : String}

/-- The failure where a text should have ended. -/
def missedEnd (before : Option Furthest) (stop : Cursor) : Furthest :=
  (before.map (·.merge ⟨stop.index, ["EOF"]⟩)).getD ⟨stop.index, ["EOF"]⟩

/-- What is answered on a text, by the answer at its first place. -/
theorem parseText_eq (p : Parser α) (text : String) :
    parseText p text =
      match p (.first text) with
      | .read value stop f =>
          if stop.rest.isEmpty then .ok value
          else .error (.syntaxError (missedEnd f stop).report)
      | .failed f => .error (.syntaxError f.report)
      | .aborted reason => .error (.aborted reason) := by
  have hstart : (do whitespace; p : Parser α) (.start text) = p (.first text) := by
    rw [bind_of_read rfl]
    change (p (.first text)).aggregate none = _
    cases p (.first text) <;> simp [Answer.aggregate]
  simp only [parseText, parse]
  cases hp : p (.first text) with
  | read value stop f =>
      rw [hp] at hstart
      rw [bind_of_read hstart]
      by_cases hend : stop.rest.isEmpty = true
      · simp [bind, pure, endOfText, hend, Answer.aggregate]
      · simp [bind, endOfText, hend, Answer.aggregate, missedEnd]
  | failed f =>
      rw [hp] at hstart
      rw [bind_of_failed hstart]
  | aborted reason =>
      rw [hp] at hstart
      rw [bind_of_aborted hstart]

/-- An exact parser gives one of three answers on a text. -/
theorem outcome_first (hp : ∀ limit, Exact limit p L) (text : String) :
    Outcome L (.first text) (p (.first text)) :=
  (hp _).outcome _ (Cursor.settled_first text) (Nat.lt_succ_self _)

/-- A text is accepted if its tokens are a word without an integer that is too long. -/
theorem parseText_eq_ok_iff_shortWord (hp : ∀ limit, Exact limit p L) (hL : L.PrefixFree) {a : α} :
    parseText p text = .ok a ↔ ∃ tokens, Lexes text.toList tokens [] ∧
      (∀ t ∈ tokens, t.IsShort) ∧ L.Word tokens a := by
  have houtcome := outcome_first hp text
  rw [parseText_eq]
  generalize p (.first text) = answer at houtcome
  constructor
  · intro h
    cases houtcome with
    | @read used _ stop _ b f hspans hword hshort _ _ =>
        dsimp only at h
        split_ifs at h with hend
        cases h
        obtain ⟨hlexes, -⟩ := Cursor.spans_first_iff.1 hspans
        rw [List.isEmpty_iff.1 hend] at hlexes
        exact ⟨used, hlexes, hshort, hword⟩
    | failed _ _ => cases h
    | digits _ _ _ => cases h
  · rintro ⟨tokens, hlexes, hshort, hword⟩
    have hall := Cursor.spans_first_before hlexes
    cases houtcome with
    | @read used _ stop _ b f hspans hused _ hlongest _ =>
        obtain ⟨⟨more, rfl⟩, heq⟩ := hlongest hall hword
        obtain rfl := hL.eq_nil hword hused
        rw [List.append_nil] at hspans heq
        obtain rfl := hall.eq_right hspans
        obtain rfl := heq rfl
        rfl
    | failed hnone _ => exact absurd hword (hnone hall)
    | @digits used place t error hspans ht hlong =>
        -- the integer that is too long is one of the tokens of the text
        obtain ⟨more, rfl, -⟩ := (Cursor.spans_first_iff.1 hspans).1.whole_iff.1 hlexes
        exact absurd (hshort t (List.mem_append_left more ht)) hlong

/-- A text without an integer that is too long is accepted if its tokens are a word. -/
theorem parseText_eq_ok_iff_word (hp : ∀ limit, Exact limit p L) (hL : L.PrefixFree)
    (hshort : ShortIntegers text) {a : α} :
    parseText p text = .ok a ↔ ∃ tokens, Lexes text.toList tokens [] ∧ L.Word tokens a := by
  rw [parseText_eq_ok_iff_shortWord hp hL]
  constructor
  · rintro ⟨tokens, hlexes, -, hword⟩
    exact ⟨tokens, hlexes, hword⟩
  · rintro ⟨tokens, hlexes, hword⟩
    exact ⟨tokens, hlexes, hshort tokens [] hlexes, hword⟩

/-- Answers with the same values are the same up to the errors. -/
theorem toOption_eq_of_forall_iff {x y : Except ReadError α} (h : ∀ a, x = .ok a ↔ y = .ok a) :
    x.toOption = y.toOption := by
  cases x with
  | ok a => rw [(h a).1 rfl]
  | error _ =>
      cases y with
      | ok b => cases (h b).2 rfl
      | error _ => rfl

/-- White space and comments between tokens do not change what is read. -/
theorem parseText_insert_gap (hp : ∀ limit, Exact limit p L) (hL : L.PrefixFree)
    {before gap after : List Char} {tokens : List Token}
    (hlexes : Lexes (before ++ after) tokens after) (hgap : Gap (gap ++ after) after) :
    (parseText p (.ofList (before ++ (gap ++ after)))).toOption =
      (parseText p (.ofList (before ++ after))).toOption := by
  refine toOption_eq_of_forall_iff fun a => ?_
  simp only [parseText_eq_ok_iff_shortWord hp hL, String.toList_ofList,
    (hlexes.insert_gap hgap).whole_iff, hlexes.whole_iff]

end Parser

/-! ## Texts that are rejected -/

/-- The tokens may be followed by a token of the given kind, or by the end of the text. -/
def Language.Continues {α : Type} (L : Language α) (tokens : List Token) : TokenKind → Prop
  | .endOfText => ∃ a, L.Word tokens a
  | kind => L.Follows tokens kind

/-- The error is reported after the longest beginning of the text that begins a word, with
what may follow there. -/
structure ReportedAfter {α : Type} (L : Language α) (text : String) (error : ParseError)
    (tokens : List Token) (rest : List Char) : Prop where
  lexes : Lexes text.toList tokens rest
  viable : L.Viable tokens
  longest : ∀ tokens' rest', Lexes text.toList tokens' rest' → L.Viable tokens' →
    tokens' <+: tokens
  index_eq : error.index = text.length - rest.length
  mem_expected_iff : ∀ description, description ∈ error.expected ↔
    ∃ kind : TokenKind, kind.text = description ∧ L.Continues tokens kind

namespace Text

theorem mem_insertText {text other : String} {texts : List String} :
    other ∈ insertText text texts ↔ other = text ∨ other ∈ texts := by
  induction texts with
  | nil => simp [insertText]
  | cons first rest ih =>
      unfold insertText
      split_ifs
      · simp
      · simp only [List.mem_cons, ih]
        exact or_left_comm

/-- Sorting keeps the members. -/
theorem mem_sortTexts {text : String} {texts : List String} :
    text ∈ sortTexts texts ↔ text ∈ texts := by
  induction texts with
  | nil => rfl
  | cons first rest ih =>
      change text ∈ insertText first (sortTexts rest) ↔ _
      rw [mem_insertText, ih, List.mem_cons]

end Text

namespace Language

variable {α : Type} {L : Language α} {tokens : List Token} {kind : TokenKind}

/-- No token is the end of the text. -/
theorem not_follows_endOfText : ¬ L.Follows tokens .endOfText := by
  rintro ⟨t, -, hkind, -⟩
  cases t <;> cases hkind

/-- A reading goes on with the end of the text behind a word, and with tokens otherwise. -/
theorem continues_iff :
    L.Continues tokens kind ↔
      (kind = .endOfText ∧ ∃ a, L.Word tokens a) ∨ L.Follows tokens kind := by
  cases kind with
  | endOfText => simp [Continues, not_follows_endOfText]
  | _ => simp [Continues]

/-- What begins a word is one, or something follows it. -/
theorem Viable.word_or_follows (h : L.Viable tokens) :
    (∃ a, L.Word tokens a) ∨ ∃ kind, L.Follows tokens kind := by
  obtain ⟨more, a, hspelled, hword⟩ := h
  cases more with
  | nil => exact .inl ⟨a, by rwa [List.append_nil] at hword⟩
  | cons t more =>
      obtain ⟨ht, hmore⟩ := List.forall_mem_cons.1 hspelled
      exact .inr ⟨t.kind, t, ht, rfl, more, a, hmore, by rwa [List.append_assoc]⟩

/-- No token follows a word. -/
theorem PrefixFree.not_follows (hL : L.PrefixFree) {a : α} (hword : L.Word tokens a) :
    ¬ L.Follows tokens kind := by
  rintro ⟨t, -, -, more, b, -, hlonger⟩
  rw [List.append_assoc] at hlonger
  cases hL.eq_nil hword hlonger

/-- What begins a word and has a word as its beginning is that word. -/
theorem PrefixFree.eq_of_viable (hL : L.PrefixFree) {a : α} {longer : List Token}
    (hword : L.Word tokens a) (hle : tokens <+: longer) (hviable : L.Viable longer) :
    longer = tokens := by
  obtain ⟨more, rfl⟩ := hle
  obtain ⟨rest, b, -, hlonger⟩ := hviable
  rw [List.append_assoc] at hlonger
  rw [(List.append_eq_nil_iff.1 (hL.eq_nil hword hlonger)).1, List.append_nil]

end Language

namespace Parser

variable {α : Type} {p : Parser α} {L : Language α} {text : String}

/-- Reporting sorts what was expected and drops what is there twice. -/
theorem Furthest.mem_expected_report {f : Furthest} {description : String} :
    description ∈ f.report.expected ↔ description ∈ f.expected := by
  rw [report, Text.mem_sortTexts, List.mem_eraseDups]

/-- A failure is reported after the longest beginning that begins a word, if what was expected there
is what may follow. -/
theorem reportedAfter_of_expectedAt {f : Furthest} {tokens : List Token} {stop : Cursor}
    (hspans : Cursor.Spans (.first text) tokens stop) (hviable : L.Viable tokens)
    (hlongest : ∀ other place, Cursor.Spans (.first text) other place → L.Viable other →
      other <+: tokens)
    (hmem : ∀ description, description ∈ Furthest.expectedAt (some f) stop.index ↔
      ∃ kind : TokenKind, kind.text = description ∧ L.Continues tokens kind)
    (hsome : ∃ kind, L.Continues tokens kind) :
    ReportedAfter L text f.report tokens stop.rest := by
  obtain ⟨hlexes, hadd⟩ := Cursor.spans_first_iff.1 hspans
  -- something is expected at the place, so that the failure lies there
  have hindex : f.index = stop.index := by
    obtain ⟨kind, hkind⟩ := hsome
    have hexpected := (hmem kind.text).2 ⟨kind, rfl, hkind⟩
    by_contra hne
    rw [Furthest.expectedAt, if_neg hne] at hexpected
    cases hexpected
  refine ⟨hlexes, hviable, fun tokens' rest' hlexes' => ?_, ?_, fun description => ?_⟩
  · exact hlongest tokens' _ (Cursor.spans_first_before hlexes')
  · change f.index = _
    omega
  · rw [Furthest.mem_expected_report, ← hmem, Furthest.expectedAt, if_pos hindex]

/-- An exact parser reports a rejected text where no word goes on. -/
theorem reportedAfter_of_syntaxError (hp : ∀ limit, Exact limit p L) (hL : L.PrefixFree)
    {error : ParseError} (h : parseText p text = .error (.syntaxError error)) :
    ∃ tokens rest, ReportedAfter L text error tokens rest := by
  have houtcome := outcome_first hp text
  rw [parseText_eq] at h
  generalize p (.first text) = answer at houtcome h
  cases houtcome with
  | @read used tokens stop place a f hspans hword _ _ hreports =>
      dsimp only at h
      split_ifs at h
      cases h
      -- the text is followed as far as it was read
      obtain rfl := hL.eq_of_viable hword
        (hreports.longest _ _ hspans (Language.viable_of_word hword)) hreports.viable
      obtain rfl := hspans.eq_right hreports.spans
      have hcontinues : ∀ kind, L.Continues tokens kind ↔ kind = .endOfText := by
        intro kind
        rw [Language.continues_iff, or_iff_left (hL.not_follows hword),
          and_iff_left ⟨a, hword⟩]
      have hend : Furthest.Within (some ⟨stop.index, ["EOF"]⟩) stop.index := by
        rintro g ⟨⟩
        exact Nat.le_refl _
      refine ⟨tokens, stop.rest, reportedAfter_of_expectedAt hspans hreports.viable hreports.longest
        (fun description => ?_) ⟨.endOfText, (hcontinues _).2 rfl⟩⟩
      rw [missedEnd, ← Furthest.merge_some, Furthest.mem_expectedAt_merge hreports.within hend,
        hreports.mem_iff]
      simp only [hcontinues, Furthest.expectedAt, if_true, List.mem_singleton]
      constructor
      · rintro (⟨kind, -, hfollows⟩ | rfl)
        · exact absurd hfollows (hL.not_follows hword)
        · exact ⟨.endOfText, rfl, rfl⟩
      · rintro ⟨_, rfl, rfl⟩
        exact .inr rfl
  | @failed tokens place f hnone hreports =>
      cases h
      have hcontinues : ∀ kind, L.Continues tokens kind ↔ L.Follows tokens kind := by
        intro kind
        rw [Language.continues_iff, or_iff_right]
        rintro ⟨-, a, hword⟩
        exact hnone hreports.spans hword
      refine ⟨tokens, place.rest, reportedAfter_of_expectedAt hreports.spans hreports.viable
        hreports.longest (fun description => ?_) ?_⟩
      · simp only [hreports.mem_iff, hcontinues]
      · rcases hreports.viable.word_or_follows with ⟨a, hword⟩ | ⟨kind, hfollows⟩
        · exact absurd hword (hnone hreports.spans)
        · exact ⟨kind, (hcontinues kind).2 hfollows⟩
  | digits _ _ _ => cases h

/-- An exact parser gives up only at an integer that is too long. -/
theorem exists_long_of_aborted (hp : ∀ limit, Exact limit p L) {reason : Abort}
    (h : parseText p text = .error (.aborted reason)) :
    (∃ error, reason = .digits error) ∧
      ∃ tokens rest, Lexes text.toList tokens rest ∧ ∃ t ∈ tokens, ¬ t.IsShort := by
  have houtcome := outcome_first hp text
  rw [parseText_eq] at h
  generalize p (.first text) = answer at houtcome h
  cases houtcome with
  | read _ _ _ _ _ =>
      dsimp only at h
      split_ifs at h
      cases h
  | failed _ _ => cases h
  | @digits tokens place t error hspans ht hlong =>
      cases h
      exact ⟨⟨error, rfl⟩, tokens, place.rest, (Cursor.spans_first_iff.1 hspans).1, t, ht, hlong⟩

/-- An exact parser reports a rejected text without an integer that is too long. -/
theorem exists_report (hp : ∀ limit, Exact limit p L) (hL : L.PrefixFree)
    (hshort : ShortIntegers text) {failure : ReadError} (h : parseText p text = .error failure) :
    ∃ error tokens rest, failure = .syntaxError error ∧
      ReportedAfter L text error tokens rest := by
  cases failure with
  | syntaxError error =>
      obtain ⟨tokens, rest, hreported⟩ := reportedAfter_of_syntaxError hp hL h
      exact ⟨error, tokens, rest, rfl, hreported⟩
  | aborted reason =>
      obtain ⟨-, tokens, rest, hlexes, t, ht, hlong⟩ := exists_long_of_aborted hp h
      exact absurd (hshort tokens rest hlexes t ht) hlong

end Parser

/-! ## The three parsers -/

/-- A text is parsed if and only if it consists of the tokens of a sentence, and what is
parsed is what the sentence's derivation stands for.  No two derivations have the same
tokens, and white space and comments between tokens do not matter. -/
theorem parse_eq_ok_iff_derives {text : String} (hshort : ShortIntegers text) :
    (∀ e, Expr.parse text = .ok e ↔
      ∃ tokens, Lexes text.toList tokens [] ∧ ∃ p : Phrase, p.tokens = tokens ∧ p.expr = e) ∧
    (∀ program, Program.parse text = .ok program ↔
      ∃ tokens, Lexes text.toList tokens [] ∧
        ∃ p : ProgramPhrase, p.tokens = tokens ∧ p.program = program) ∧
    (∀ form, Parser.Form.parse text = .ok form ↔
      ∃ tokens, Lexes text.toList tokens [] ∧
        ∃ p : FormPhrase, p.tokens = tokens ∧ p.form = form) ∧
    Function.Injective Phrase.tokens ∧ Function.Injective ProgramPhrase.tokens ∧
    Function.Injective FormPhrase.tokens ∧
    ∀ before gap after tokens, text = .ofList (before ++ after) →
      Lexes (before ++ after) tokens after → Gap (gap ++ after) after →
      (Expr.parse (.ofList (before ++ (gap ++ after)))).toOption = (Expr.parse text).toOption ∧
      (Program.parse (.ofList (before ++ (gap ++ after)))).toOption =
        (Program.parse text).toOption ∧
      (Parser.Form.parse (.ofList (before ++ (gap ++ after)))).toOption =
        (Parser.Form.parse text).toOption := by
  refine ⟨fun e => ?_, fun program => ?_, fun form => ?_, fun p q h => ?_, fun p q h => ?_,
    fun f g h => ?_, fun before gap after tokens htext hlexes hgap => ?_⟩
  · exact Parser.parseText_eq_ok_iff_word Parser.exact_expression
      Language.prefixFree_expressions hshort
  · exact Parser.parseText_eq_ok_iff_word Parser.exact_programs
      Language.prefixFree_programs hshort
  · exact Parser.parseText_eq_ok_iff_word Parser.exact_forms
      Language.prefixFree_forms hshort
  · exact (Phrase.tokens_append_inj (congrArg (· ++ []) h)).1
  · exact (ProgramPhrase.tokens_append_inj (congrArg (· ++ []) h)).1
  · exact (FormPhrase.tokens_append_inj (congrArg (· ++ []) h)).1
  · subst htext
    exact ⟨
      Parser.parseText_insert_gap Parser.exact_expression Language.prefixFree_expressions hlexes
        hgap,
      Parser.parseText_insert_gap Parser.exact_programs Language.prefixFree_programs hlexes hgap,
      Parser.parseText_insert_gap Parser.exact_forms Language.prefixFree_forms hlexes hgap⟩

/-- Signs that touch other tokens, and a comment. -/
def touchingSigns : String :=
  "(f-1--1 ;x\n)"

/-- Signs that touch digits and other signs are taken apart. -/
theorem lexes_touchingSigns :
    Lexes touchingSigns.toList [.openParen, .name "f", .integer true ['1'], .prim .sub,
      .integer true ['1'], .closeParen] [] := by
  refine Lexes.cons_iff.2 ⟨"f-1--1 ;x\n)".toList, by decide +kernel, ?_⟩
  refine Lexes.cons_iff.2 ⟨"-1--1 ;x\n)".toList, by decide +kernel, ?_⟩
  refine Lexes.cons_iff.2 ⟨"--1 ;x\n)".toList, by decide +kernel, ?_⟩
  refine Lexes.cons_iff.2 ⟨"-1 ;x\n)".toList, by decide +kernel, ?_⟩
  refine Lexes.cons_iff.2 ⟨" ;x\n)".toList, by decide +kernel, ?_⟩
  exact Lexes.cons_iff.2 ⟨[], by decide +kernel, Lexes.nil_iff.2 rfl⟩

/-- A minus sign in front of digits belongs to them, and any other one is an operator. -/
theorem parse_eq_ok_iff_derives_touchingSigns :
    ShortIntegers touchingSigns ∧
      Expr.parse touchingSigns = .ok ((Expr.var "f").apps [.int (-1), .prim .sub, .int (-1)]) := by
  have hshort : ShortIntegers touchingSigns := shortIntegers_of_length_le (by decide)
  exact ⟨hshort, ((parse_eq_ok_iff_derives hshort).1 _).2 ⟨_, lexes_touchingSigns,
    .app (.name "f") (.integer true ['1']) [.prim .sub, .integer true ['1']], rfl, rfl⟩⟩

/-- A text that is rejected is reported after the longest run of its first tokens that
begins a sentence, with what may follow this run in a sentence. -/
theorem parse_error_at_longest_viable {text : String} (hshort : ShortIntegers text)
    (failure : ReadError) :
    (Expr.parse text = .error failure →
      ∃ error tokens rest, failure = .syntaxError error ∧
        ReportedAfter Language.expressions text error tokens rest) ∧
    (Program.parse text = .error failure →
      ∃ error tokens rest, failure = .syntaxError error ∧
        ReportedAfter Language.programs text error tokens rest) ∧
    (Parser.Form.parse text = .error failure →
      ∃ error tokens rest, failure = .syntaxError error ∧
        ReportedAfter Language.forms text error tokens rest) := by
  refine ⟨fun h => ?_, fun h => ?_, fun h => ?_⟩
  · exact Parser.exists_report Parser.exact_expression Language.prefixFree_expressions hshort h
  · exact Parser.exists_report Parser.exact_programs Language.prefixFree_programs hshort h
  · exact Parser.exists_report Parser.exact_forms Language.prefixFree_forms hshort h

/-- A list that is not closed, in a definition. -/
def unclosedList : String :=
  "(def x [1 2)"

/-- The answer of a parser, if it is an error. -/
def ReadError.of? {α : Type} : Except ReadError α → Option ReadError
  | .ok _ => none
  | .error error => some error

/-- An error that was answered can be told from the answer. -/
theorem ReadError.eq_error_of_of? {α : Type} {answer : Except ReadError α} {error : ReadError}
    (h : of? answer = some error) : answer = .error error := by
  cases answer with
  | ok _ => cases h
  | error _ => rw [Option.some.inj h]

/-- A list that is not closed is reported behind its last element. -/
theorem parse_error_at_longest_viable_unclosedList :
    ShortIntegers unclosedList ∧
      ∃ error tokens rest, Program.parse unclosedList = .error (.syntaxError error) ∧
        error.index = 11 ∧ ReportedAfter Language.programs unclosedList error tokens rest := by
  have hshort : ShortIntegers unclosedList := shortIntegers_of_length_le (by decide)
  have hparse : Program.parse unclosedList = .error (.syntaxError
      { index := 11
        expected := ["(", "*", "+", "-", "==", "[", "]", "cons", "false", "foldl", "fst",
          "integer", "map", "name", "nil", "null", "pair", "snd", "true"] }) :=
    ReadError.eq_error_of_of? (by decide +kernel)
  obtain ⟨error, tokens, rest, heq, hreported⟩ :=
    (parse_error_at_longest_viable hshort _).2.1 hparse
  cases heq
  exact ⟨hshort, _, tokens, rest, hparse, rfl, hreported⟩

end LetPoly
