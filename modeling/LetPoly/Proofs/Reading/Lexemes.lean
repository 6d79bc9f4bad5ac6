import LetPoly.Token
import Mathlib.Data.List.TakeWhile
import Mathlib.Tactic.Cases

/-!
# Tokens by longest match

What the characters of a text say, without reference to the parsers: which characters spell a
token, which of the spellings at the start of a text is the longest, and what counts as white space
and comments between tokens.

Main results:

- Theorem {lit}`scan?_eq_some_iff`: the function {lit}`scan?` finds the token with the longest
  spelling.
- Theorem {lit}`skipBlanks_eq_iff`: what is skipped in front of a token is white space and comments.
- Theorem {lit}`Lexes.append_iff`: the tokens of a text are found one after another.
-/

namespace LetPoly

/-- A token of the language. -/
inductive Token where
  /-- A sign and the digits after it. -/
  | integer (negative : Bool) (digits : List Char)
  /-- An operator, by symbol or by word. -/
  | prim (primitive : Primitive)
  /-- A keyword. -/
  | keyword (keyword : Keyword)
  /-- A word that is neither a keyword nor an operator. -/
  | name (name : String)
  | openParen
  | closeParen
  | openBracket
  | closeBracket
deriving DecidableEq, Inhabited

/-- What may be expected at a place: a kind of token, or the end of the text. -/
inductive TokenKind where
  | integer
  | prim (primitive : Primitive)
  | keyword (keyword : Keyword)
  | name
  | openParen
  | closeParen
  | openBracket
  | closeBracket
  | endOfText
deriving DecidableEq, Inhabited

/-- The text by which a report names a kind of token. -/
def TokenKind.text : TokenKind → String
  | .integer => "integer"
  | .prim p => p.symbol
  | .keyword k => k.text
  | .name => "name"
  | .openParen => "("
  | .closeParen => ")"
  | .openBracket => "["
  | .closeBracket => "]"
  | .endOfText => "EOF"

/-- Every keyword is listed. -/
theorem Keyword.mem_all (k : Keyword) : k ∈ all := by
  cases k <;> decide

namespace Token

/-- The kind of a token. -/
def kind : Token → TokenKind
  | integer _ _ => .integer
  | prim p => .prim p
  | keyword k => .keyword k
  | name _ => .name
  | openParen => .openParen
  | closeParen => .closeParen
  | openBracket => .openBracket
  | closeBracket => .closeBracket

/-- The token that a word is. -/
def ofWord (word : String) : Token :=
  match Keyword.ofText? word with
  | some k => keyword k
  | none =>
      match Primitive.ofSymbol? word with
      | some p => prim p
      | none => name word

/-- The longest token at the start of some characters, with the characters after it. -/
def scan? : List Char → Option (Token × List Char)
  | [] => none
  | '(' :: rest => some (openParen, rest)
  | ')' :: rest => some (closeParen, rest)
  | '[' :: rest => some (openBracket, rest)
  | ']' :: rest => some (closeBracket, rest)
  | '+' :: rest => some (prim .add, rest)
  | '*' :: rest => some (prim .mul, rest)
  | '=' :: '=' :: rest => some (prim .eql, rest)
  | '-' :: rest =>
      let digits := rest.takeWhile Char.isDigit
      if digits.isEmpty then some (prim .sub, rest)
      else some (integer true digits, rest.dropWhile Char.isDigit)
  | c :: rest =>
      if c.isDigit then
        some (integer false (c :: rest.takeWhile Char.isDigit), rest.dropWhile Char.isDigit)
      else if isWordStart c then
        some (ofWord (String.ofList (c :: rest.takeWhile isWordChar)),
          rest.dropWhile isWordChar)
      else none

/-! ## Spellings -/

/-- A word: a letter or an underscore, then letters, digits and underscores. -/
def IsWord : List Char → Prop
  | [] => False
  | c :: rest => isWordStart c = true ∧ ∀ d ∈ rest, isWordChar d = true

instance : DecidablePred IsWord
  | [] => inferInstanceAs (Decidable False)
  | c :: rest =>
      decidable_of_iff (isWordStart c = true ∧ rest.all isWordChar = true)
        (by rw [IsWord, List.all_eq_true])

/-- A name: a word that is neither a keyword nor the text of an operator. -/
structure IsName (x : String) : Prop where
  word : IsWord x.toList
  not_keyword : ∀ k : Keyword, k.text ≠ x
  not_prim : ∀ p : Primitive, p.symbol ≠ x

instance (x : String) : Decidable (IsName x) :=
  decidable_of_iff
    (IsWord x.toList ∧ (∀ k ∈ Keyword.all, k.text ≠ x) ∧ ∀ p ∈ Primitive.all, p.symbol ≠ x)
    ⟨fun ⟨hword, hkeyword, hprim⟩ =>
      ⟨hword, fun k => hkeyword k k.mem_all, fun p => hprim p p.mem_all⟩,
     fun ⟨hword, hkeyword, hprim⟩ => ⟨hword, fun k _ => hkeyword k, fun p _ => hprim p⟩⟩

/-- The characters spell the token. -/
inductive Spells : Token → List Char → Prop where
  | integer {digits : List Char} (hne : digits ≠ []) (hdigits : ∀ c ∈ digits, c.isDigit = true) :
      Spells (.integer false digits) digits
  | negative {digits : List Char} (hne : digits ≠ [])
      (hdigits : ∀ c ∈ digits, c.isDigit = true) :
      Spells (.integer true digits) ('-' :: digits)
  | prim (p : Primitive) : Spells (.prim p) p.symbol.toList
  | keyword (k : Keyword) : Spells (.keyword k) k.text.toList
  | name {x : String} (h : IsName x) : Spells (.name x) x.toList
  | openParen : Spells .openParen ['(']
  | closeParen : Spells .closeParen [')']
  | openBracket : Spells .openBracket ['[']
  | closeBracket : Spells .closeBracket [']']

/-- Whether some characters spell a token. -/
def IsSpelled (token : Token) : Prop :=
  ∃ lexeme, Spells token lexeme

/-- The characters spell the token, and no more of the characters after them could be part
of a token. -/
structure Longest (token : Token) (lexeme after : List Char) : Prop where
  spells : Spells token lexeme
  longest : ∀ other longer, Spells other longer → longer <+: lexeme ++ after →
    longer.length ≤ lexeme.length

/-! ## Scanning one token -/

/-- The letters by their code points. -/
theorem isAlpha_iff {c : Char} :
    c.isAlpha = true ↔ (65 ≤ c.toNat ∧ c.toNat ≤ 90) ∨ (97 ≤ c.toNat ∧ c.toNat ≤ 122) := by
  delta Char.isAlpha Char.isUpper Char.isLower
  simp only [Bool.or_eq_true, Bool.and_eq_true, decide_eq_true_eq, ge_iff_le,
    UInt32.le_iff_toNat_le]
  rfl

/-- The digits by their code points. -/
theorem isDigit_iff {c : Char} : c.isDigit = true ↔ 48 ≤ c.toNat ∧ c.toNat ≤ 57 := by
  delta Char.isDigit
  simp only [Bool.and_eq_true, decide_eq_true_eq, ge_iff_le, UInt32.le_iff_toNat_le]
  rfl

/-- No word starts with a digit. -/
theorem isDigit_of_isWordStart {c : Char} (h : isWordStart c = true) : c.isDigit = false := by
  by_contra hdigit
  rw [Bool.not_eq_false, isDigit_iff] at hdigit
  simp only [isWordStart, Bool.or_eq_true, decide_eq_true_eq, isAlpha_iff] at h
  rcases h with h | rfl
  · omega
  · exact absurd hdigit (by decide)

/-- A digit starts an integer that takes all digits behind it. -/
theorem scan?_of_isDigit {c : Char} (rest : List Char) (h : c.isDigit = true) :
    scan? (c :: rest) =
      some (integer false (c :: rest.takeWhile Char.isDigit), rest.dropWhile Char.isDigit) := by
  unfold scan?
  split
  case h_10 heq =>
    cases heq
    rw [if_pos h]
  all_goals
    rename_i heq
    cases heq
    try exact absurd h (by decide)

/-- A letter starts a word that takes all letters, digits and underscores behind it. -/
theorem scan?_of_isWordStart {c : Char} (rest : List Char) (h : isWordStart c = true) :
    scan? (c :: rest) =
      some (ofWord (String.ofList (c :: rest.takeWhile isWordChar)),
        rest.dropWhile isWordChar) := by
  have hdigit : c.isDigit = false := isDigit_of_isWordStart h
  unfold scan?
  split
  case h_10 heq =>
    cases heq
    simp [h, hdigit]
  all_goals
    rename_i heq
    cases heq
    try exact absurd h (by decide)

/-- Digits are read together with those after them. -/
theorem scan?_digits {digits : List Char} (hne : digits ≠ [])
    (hdigits : ∀ c ∈ digits, c.isDigit = true) (after : List Char) :
    scan? (digits ++ after) =
      some (integer false (digits ++ after.takeWhile Char.isDigit),
        after.dropWhile Char.isDigit) := by
  obtain ⟨c, rest, rfl⟩ := List.exists_cons_of_ne_nil hne
  have hrest : ∀ d ∈ rest, d.isDigit = true := fun d hd => hdigits d (List.mem_cons_of_mem c hd)
  rw [List.cons_append, scan?_of_isDigit _ (hdigits c List.mem_cons_self),
    List.takeWhile_append_of_pos hrest, List.dropWhile_append_of_pos hrest, List.cons_append]

/-- A word is read together with the characters that continue it. -/
theorem scan?_word {word : List Char} (h : IsWord word) (after : List Char) :
    scan? (word ++ after) =
      some (ofWord (String.ofList (word ++ after.takeWhile isWordChar)),
        after.dropWhile isWordChar) := by
  match word, h with
  | c :: rest, ⟨hc, hrest⟩ =>
      rw [List.cons_append, scan?_of_isWordStart _ hc, List.takeWhile_append_of_pos hrest,
        List.dropWhile_append_of_pos hrest, List.cons_append]

/-- The symbol of an operator is its token. -/
theorem ofWord_symbol (p : Primitive) : ofWord p.symbol = prim p := by
  cases p <;> decide

/-- The text of a keyword is its token. -/
theorem ofWord_text (k : Keyword) : ofWord k.text = keyword k := by
  cases k <;> decide

/-- Every other word is a name. -/
theorem ofWord_name {x : String} (h : IsName x) : ofWord x = name x := by
  have hkeyword : Keyword.ofText? x = none := by
    simpa [Keyword.ofText?] using fun k _ => h.not_keyword k
  have hprim : Primitive.ofSymbol? x = none := by
    simpa [Primitive.ofSymbol?] using fun p _ => h.not_prim p
  simp only [ofWord, hkeyword, hprim]

/-- A word spells the token that it is taken for. -/
theorem spells_ofWord {word : List Char} (h : IsWord word) :
    Spells (ofWord (String.ofList word)) word := by
  unfold ofWord
  split
  case h_1 k hk =>
    have htext : k.text = String.ofList word := by simpa using List.find?_some hk
    simpa [htext] using Spells.keyword k
  case h_2 hkeyword =>
    split
    case h_1 p hp =>
      have hsymbol : p.symbol = String.ofList word := by simpa using List.find?_some hp
      simpa [hsymbol] using Spells.prim p
    case h_2 hprim =>
      have hname : IsName (String.ofList word) :=
        { word := by simpa using h
          not_keyword := fun k hk => by rw [← hk, Keyword.ofText?_text] at hkeyword; cases hkeyword
          not_prim := fun p hp => by rw [← hp, Primitive.ofSymbol?_symbol] at hprim; cases hprim }
      simpa using Spells.name hname

/-- A run of characters of a class either stops at once or shortens the rest. -/
theorem takeWhile_eq_nil_or_length_lt (p : Char → Bool) (cs : List Char) :
    (cs.takeWhile p = [] ∧ cs.dropWhile p = cs) ∨
      (cs.takeWhile p ≠ [] ∧ (cs.dropWhile p).length < cs.length) := by
  cases cs with
  | nil => exact .inl ⟨rfl, rfl⟩
  | cons c rest =>
      by_cases hc : p c = true
      · right
        rw [List.takeWhile_cons_of_pos hc, List.dropWhile_cons_of_pos hc, List.length_cons]
        exact ⟨List.cons_ne_nil _ _, Nat.lt_succ_of_le (List.dropWhile_sublist p).length_le⟩
      · exact .inl ⟨List.takeWhile_cons_of_neg hc, List.dropWhile_cons_of_neg hc⟩

/-- What is found at the start of a text is spelled there. -/
theorem exists_spells_of_scan? {cs after : List Char} {token : Token}
    (h : scan? cs = some (token, after)) :
    ∃ lexeme, cs = lexeme ++ after ∧ Spells token lexeme := by
  unfold scan? at h
  split at h
  case h_1 => cases h
  case h_2 => cases h; exact ⟨['('], rfl, .openParen⟩
  case h_3 => cases h; exact ⟨[')'], rfl, .closeParen⟩
  case h_4 => cases h; exact ⟨['['], rfl, .openBracket⟩
  case h_5 => cases h; exact ⟨[']'], rfl, .closeBracket⟩
  case h_6 => cases h; exact ⟨['+'], rfl, .prim .add⟩
  case h_7 => cases h; exact ⟨['*'], rfl, .prim .mul⟩
  case h_8 => cases h; exact ⟨['=', '='], rfl, .prim .eql⟩
  case h_9 rest =>
    dsimp only at h
    split_ifs at h with hdigits
    · cases h
      exact ⟨['-'], rfl, .prim .sub⟩
    · cases h
      exact ⟨'-' :: rest.takeWhile Char.isDigit, by simp [List.takeWhile_append_dropWhile],
        .negative (by simpa using hdigits) fun c hc => List.mem_takeWhile_imp hc⟩
  case h_10 c rest _ _ _ _ _ _ _ _ =>
    split_ifs at h with hdigit hword
    · cases h
      exact ⟨c :: rest.takeWhile Char.isDigit, by simp [List.takeWhile_append_dropWhile],
        .integer (List.cons_ne_nil _ _) <| List.forall_mem_cons.2
          ⟨hdigit, fun d hd => List.mem_takeWhile_imp hd⟩⟩
    · cases h
      exact ⟨c :: rest.takeWhile isWordChar, by simp [List.takeWhile_append_dropWhile],
        spells_ofWord ⟨hword, fun d hd => List.mem_takeWhile_imp hd⟩⟩

/-- The given token is found before the given rest, or a longer one is. -/
def ReadsAtLeast (token : Token) (after : List Char) (cs : List Char) : Prop :=
  scan? cs = some (token, after) ∨
    ∃ other shorter, scan? cs = some (other, shorter) ∧ shorter.length < after.length

/-- A word is taken as a whole, or more of the text is. -/
theorem readsAtLeast_word {word : List Char} {token : Token} (h : IsWord word)
    (htoken : ofWord (String.ofList word) = token) (after : List Char) :
    ReadsAtLeast token after (word ++ after) := by
  unfold ReadsAtLeast
  rw [scan?_word h]
  rcases takeWhile_eq_nil_or_length_lt isWordChar after with ⟨htake, hdrop⟩ | ⟨-, hlt⟩
  · left
    rw [htake, hdrop, List.append_nil, htoken]
  · exact .inr ⟨_, _, rfl, hlt⟩

/-- Digits are taken as a whole, or more of the text is. -/
theorem readsAtLeast_digits {digits : List Char} (hne : digits ≠ [])
    (hdigits : ∀ c ∈ digits, c.isDigit = true) (after : List Char) :
    ReadsAtLeast (integer false digits) after (digits ++ after) := by
  unfold ReadsAtLeast
  rw [scan?_digits hne hdigits]
  rcases takeWhile_eq_nil_or_length_lt Char.isDigit after with ⟨htake, hdrop⟩ | ⟨-, hlt⟩
  · left
    rw [htake, hdrop, List.append_nil]
  · exact .inr ⟨_, _, rfl, hlt⟩

/-- A minus sign is taken together with the digits behind it. -/
theorem readsAtLeast_minus {digits : List Char} (hdigits : ∀ c ∈ digits, c.isDigit = true)
    (after : List Char) :
    ReadsAtLeast (if digits.isEmpty then prim .sub else integer true digits) after
      ('-' :: digits ++ after) := by
  unfold ReadsAtLeast
  rw [List.cons_append, scan?, List.takeWhile_append_of_pos hdigits,
    List.dropWhile_append_of_pos hdigits]
  rcases takeWhile_eq_nil_or_length_lt Char.isDigit after with ⟨htake, hdrop⟩ | ⟨hne, hlt⟩
  · left
    cases digits with
    | nil => simp [htake]
    | cons d rest => simp [htake, hdrop]
  · exact .inr ⟨_, _, if_neg (by simp [hne]), hlt⟩

/-- At a spelling, its token is found or a longer one. -/
theorem Spells.readsAtLeast {token : Token} {lexeme : List Char} (h : Spells token lexeme)
    (after : List Char) : ReadsAtLeast token after (lexeme ++ after) := by
  cases h with
  | integer hne hdigits => exact readsAtLeast_digits hne hdigits after
  | negative hne hdigits => simpa [hne] using readsAtLeast_minus hdigits after
  | prim p =>
      cases p with
      | add => exact .inl rfl
      | sub => exact readsAtLeast_minus (by simp) after
      | mul => exact .inl rfl
      | eql => exact .inl rfl
      | _ => exact readsAtLeast_word (by decide) (by rw [String.ofList_toList, ofWord_symbol]) after
  | keyword k =>
      have hword : IsWord k.text.toList := by cases k <;> decide
      exact readsAtLeast_word hword (by rw [String.ofList_toList, ofWord_text]) after
  | name h =>
      exact readsAtLeast_word h.word (by rw [String.ofList_toList, ofWord_name h]) after
  | _ => exact .inl rfl

/-- What is found at the start of a text is the token with the longest spelling. -/
theorem scan?_eq_some_iff {cs after : List Char} {token : Token} :
    scan? cs = some (token, after) ↔
      ∃ lexeme, cs = lexeme ++ after ∧ Longest token lexeme after := by
  constructor
  · intro h
    obtain ⟨lexeme, rfl, hspells⟩ := exists_spells_of_scan? h
    refine ⟨lexeme, rfl, hspells, ?_⟩
    rintro other longer hother ⟨rest, hrest⟩
    have hlength := congrArg List.length hrest
    simp only [List.length_append] at hlength
    rcases hother.readsAtLeast rest with hscan | ⟨_, shorter, hscan, hlt⟩
    · rw [hrest, h] at hscan
      cases hscan
      omega
    · rw [hrest, h] at hscan
      cases hscan
      omega
  · rintro ⟨lexeme, rfl, hlongest⟩
    rcases hlongest.spells.readsAtLeast after with hscan | ⟨other, shorter, hscan, hlt⟩
    · exact hscan
    · obtain ⟨longer, heq, hlonger⟩ := exists_spells_of_scan? hscan
      have hle := hlongest.longest other longer hlonger ⟨shorter, heq.symm⟩
      have hlength := congrArg List.length heq
      simp only [List.length_append] at hlength
      omega

/-- The longest spelling is the token that is taken. -/
theorem Longest.scan?_eq {token : Token} {lexeme after : List Char}
    (h : Longest token lexeme after) : scan? (lexeme ++ after) = some (token, after) :=
  scan?_eq_some_iff.2 ⟨lexeme, rfl, h⟩

/-- No token is spelled without characters. -/
theorem Spells.ne_nil {token : Token} {lexeme : List Char} (h : Spells token lexeme) :
    lexeme ≠ [] := by
  cases h with
  | integer hne _ => exact hne
  | prim p => cases p <;> decide
  | keyword k => cases k <;> decide
  | name h =>
      intro hnil
      have hword := h.word
      rw [hnil] at hword
      exact hword
  | _ => exact List.cons_ne_nil _ _

/-- A token takes a character. -/
theorem length_lt_of_scan? {cs after : List Char} {token : Token}
    (h : scan? cs = some (token, after)) : after.length < cs.length := by
  obtain ⟨lexeme, rfl, hspells⟩ := exists_spells_of_scan? h
  have hpos : 0 < lexeme.length := List.length_pos_iff.2 hspells.ne_nil
  rw [List.length_append]
  omega

/-- Whether a character could continue a spelling. -/
def continues (c : Char) : Bool :=
  isWordChar c || c = '='

theorem continues_of_isDigit {c : Char} (h : c.isDigit = true) : continues c = true := by
  simp [continues, isWordChar, Char.isAlphanum, h]

/-- Behind its first character, the spelling of a token goes on with letters, digits, underscores or
an equals sign. -/
theorem Spells.continues_tail {token : Token} {lexeme : List Char} (h : Spells token lexeme) :
    ∀ c ∈ lexeme.tail, continues c = true := by
  cases h with
  | integer _ hdigits =>
      exact fun c hc => continues_of_isDigit (hdigits c (List.mem_of_mem_tail hc))
  | negative _ hdigits => exact fun c hc => continues_of_isDigit (hdigits c hc)
  | prim p => cases p <;> exact List.all_eq_true.1 (by decide)
  | keyword k => cases k <;> exact List.all_eq_true.1 (by decide)
  | @name x h =>
      intro c hc
      have hword := h.word
      match hx : x.toList, hword with
      | first :: rest, ⟨_, hrest⟩ =>
          rw [hx] at hc
          simp [continues, hrest c hc]
  | _ => exact fun c hc => absurd hc List.not_mem_nil

/-- No spelling goes on past a character that cannot continue one. -/
theorem Spells.isPrefix {token : Token} {lexeme cs after : List Char} (h : Spells token lexeme)
    (hcs : cs ≠ []) (hafter : ∀ c ∈ after.head?, continues c = false)
    (hlexeme : lexeme <+: cs ++ after) : lexeme <+: cs := by
  rcases List.prefix_or_prefix_of_prefix hlexeme (List.prefix_append cs after) with
    hle | ⟨more, rfl⟩
  · exact hle
  · have hmore : more <+: after := (List.prefix_append_right_inj cs).1 hlexeme
    cases more with
    | nil => simp
    | cons c more =>
        obtain ⟨rest, rfl⟩ := hmore
        have hc : c ∈ (cs ++ c :: more).tail := by
          rw [List.tail_append_of_ne_nil hcs]
          simp
        have hcontinues := h.continues_tail c hc
        rw [hafter c rfl] at hcontinues
        cases hcontinues

/-- A spelling is the longest where the next character cannot continue one. -/
theorem Spells.longest {token : Token} {lexeme after : List Char} (h : Spells token lexeme)
    (hafter : ∀ c ∈ after.head?, continues c = false) : Longest token lexeme after :=
  ⟨h, fun _ _ hother hlonger => (hother.isPrefix h.ne_nil hafter hlonger).length_le⟩

/-- Whether a spelling is the longest does not depend on what stands after a character that
cannot continue one. -/
theorem Longest.append_separated {token : Token} {lexeme mid after after' : List Char}
    (h : Longest token lexeme (mid ++ after)) (hafter' : ∀ c ∈ after'.head?, continues c = false) :
    Longest token lexeme (mid ++ after') := by
  refine ⟨h.spells, fun other longer hother hlonger => h.longest other longer hother ?_⟩
  have hne : lexeme ++ mid ≠ [] := List.append_ne_nil_of_left_ne_nil h.spells.ne_nil mid
  rw [← List.append_assoc] at hlonger ⊢
  exact (hother.isPrefix hne hafter' hlonger).trans (List.prefix_append _ _)

/-! ## White space and comments -/

/-- The second characters are the first without the white space and the comments in front
of them.  A comment runs from a semicolon to the end of the line. -/
inductive Gap : List Char → List Char → Prop where
  | stop {cs : List Char} (h : ∀ c ∈ cs.head?, Text.isBlank c = false ∧ c ≠ ';') : Gap cs cs
  | blank {c : Char} {cs rest : List Char} (hc : Text.isBlank c = true) (h : Gap cs rest) :
      Gap (c :: cs) rest
  | comment {body cs rest : List Char} (hbody : '\n' ∉ body) (hend : ∀ c ∈ cs.head?, c = '\n')
      (h : Gap cs rest) : Gap (';' :: body ++ cs) rest

/-- A comment is skipped up to the end of the line. -/
theorem skipBlanks_comment {body cs : List Char} (hbody : '\n' ∉ body)
    (hend : ∀ c ∈ cs.head?, c = '\n') : skipBlanks true (body ++ cs) = skipBlanks false cs := by
  induction body with
  | nil =>
      cases cs with
      | nil => rfl
      | cons c rest =>
          obtain rfl : c = '\n' := hend c rfl
          rfl
  | cons c body ih =>
      rw [List.mem_cons, not_or] at hbody
      have hc : (c != '\n') = true := by simpa using Ne.symm hbody.1
      rw [List.cons_append, skipBlanks, if_pos rfl, hc, ih hbody.2]

/-- White space and comments are skipped, whatever they are made of. -/
theorem Gap.skipBlanks_eq {cs rest : List Char} (h : Gap cs rest) : skipBlanks false cs = rest := by
  induction h with
  | @stop cs h =>
      cases cs with
      | nil => rfl
      | cons c rest =>
          obtain ⟨hblank, hcomment⟩ := h c rfl
          simp [skipBlanks, hblank, hcomment]
  | blank hc _ ih => simpa [skipBlanks, hc] using ih
  | @comment body cs rest hbody hend _ ih =>
      have hblank : Text.isBlank ';' = false := by decide
      rw [← ih, ← skipBlanks_comment hbody hend]
      simp [skipBlanks, hblank]

/-- An open comment is one character longer than what follows its first character. -/
theorem Gap.comment_cons {c : Char} {cs rest : List Char} (hc : c ≠ '\n')
    (h : Gap (';' :: cs) rest) : Gap (';' :: c :: cs) rest := by
  generalize hsemicolon : ';' :: cs = text at h
  cases h with
  | stop h =>
      subst hsemicolon
      exact absurd rfl (h ';' rfl).2
  | blank hblank _ =>
      cases hsemicolon
      exact absurd hblank (by decide)
  | @comment body line _ hbody hend h =>
      cases hsemicolon
      have hbody' : '\n' ∉ c :: body := by simp [Ne.symm hc, hbody]
      exact .comment hbody' hend h

/-- What is skipped is white space and comments, within a comment and outside of one. -/
theorem gap_skipBlanks_both (cs : List Char) :
    Gap cs (skipBlanks false cs) ∧ Gap (';' :: cs) (skipBlanks true cs) := by
  induction cs with
  | nil =>
      have hstop : Gap [] [] := .stop (by simp)
      exact ⟨hstop, .comment List.not_mem_nil (by simp) hstop⟩
  | cons c cs ih =>
      constructor
      · rw [skipBlanks, if_neg Bool.false_ne_true]
        split_ifs with hblank hcomment
        · exact .blank hblank ih.1
        · exact hcomment ▸ ih.2
        · refine .stop fun d hd => ?_
          obtain rfl : c = d := by simpa using hd
          exact ⟨by simpa using hblank, hcomment⟩
      · rw [skipBlanks, if_pos rfl]
        by_cases hc : c = '\n'
        · subst hc
          exact .comment List.not_mem_nil (by simp) (.blank (by decide) ih.1)
        · have hopen : (c != '\n') = true := by simpa using hc
          rw [hopen]
          exact ih.2.comment_cons hc

/-- What is skipped is white space and comments. -/
theorem gap_skipBlanks (cs : List Char) : Gap cs (skipBlanks false cs) :=
  (gap_skipBlanks_both cs).1

/-- What is skipped in front of a token is white space and comments. -/
theorem skipBlanks_eq_iff {cs rest : List Char} : skipBlanks false cs = rest ↔ Gap cs rest :=
  ⟨fun h => h ▸ gap_skipBlanks cs, Gap.skipBlanks_eq⟩

/-- What stands behind white space is an end of the text. -/
theorem Gap.isSuffix {cs rest : List Char} (h : Gap cs rest) : rest <:+ cs := by
  induction h with
  | stop _ => exact List.suffix_rfl
  | blank _ _ ih => exact ih.trans (List.suffix_cons _ _)
  | comment _ _ _ ih => exact ih.trans (List.suffix_append _ _)

/-- What follows a gap is followed by no further gap. -/
theorem Gap.refl_right {cs rest : List Char} (h : Gap cs rest) : Gap rest rest := by
  induction h with
  | stop h => exact .stop h
  | blank _ _ ih => exact ih
  | comment _ _ _ ih => exact ih

/-- Where the characters lie with which a token may go on. -/
theorem toNat_of_continues {c : Char} (h : continues c = true) : 48 ≤ c.toNat ∧ c.toNat ≤ 122 := by
  simp only [continues, isWordChar, Char.isAlphanum, Bool.or_eq_true, decide_eq_true_eq,
    isAlpha_iff, isDigit_iff] at h
  rcases h with ((h | h) | rfl) | rfl
  · omega
  · omega
  · decide
  · decide

/-- Where the blank characters lie. -/
theorem toNat_of_isBlank {c : Char} (h : Text.isBlank c = true) : c.toNat ≤ 32 ∨ 133 ≤ c.toNat := by
  simp only [Text.isBlank, Bool.or_eq_true, Bool.and_eq_true, decide_eq_true_eq,
    List.contains_iff_mem] at h
  rcases h with h | h
  · omega
  · right
    have hwide : ∀ n ∈ Text.wideBlanks, 133 ≤ n := by decide
    exact hwide _ h

/-- A blank ends every token. -/
theorem continues_of_isBlank {c : Char} (h : Text.isBlank c = true) : continues c = false := by
  by_contra hcontinues
  rw [Bool.not_eq_false] at hcontinues
  have hrange := toNat_of_continues hcontinues
  have hblank := toNat_of_isBlank h
  omega

/-- A gap starts with a character that cannot continue a token. -/
theorem Gap.continues_head {c : Char} {cs rest : List Char} (h : Gap (c :: cs) rest)
    (hne : rest ≠ c :: cs) : continues c = false := by
  generalize htext : c :: cs = text at h
  cases h with
  | stop h => exact absurd htext.symm hne
  | blank hblank _ =>
      cases htext
      exact continues_of_isBlank hblank
  | comment _ _ _ =>
      cases htext
      decide

/-- A character is skipped whatever stands after it, or it ends the gap whatever stands
after it. -/
theorem skipBlanks_cons_cases (inComment : Bool) (c : Char) :
    (∃ next, ∀ cs, skipBlanks inComment (c :: cs) = skipBlanks next cs) ∨
      ∀ cs, skipBlanks inComment (c :: cs) = c :: cs := by
  simp only [skipBlanks]
  split_ifs
  · exact .inl ⟨_, fun _ => rfl⟩
  · exact .inl ⟨_, fun _ => rfl⟩
  · exact .inl ⟨_, fun _ => rfl⟩
  · exact .inr fun _ => rfl

/-- Skipping does not add characters. -/
theorem length_skipBlanks_le (inComment : Bool) (cs : List Char) :
    (skipBlanks inComment cs).length ≤ cs.length := by
  induction cs generalizing inComment with
  | nil => exact Nat.le_refl _
  | cons c cs ih =>
      rcases skipBlanks_cons_cases inComment c with ⟨next, h⟩ | h
      · rw [h]
        exact Nat.le_succ_of_le (ih next)
      · rw [h]

/-- What comes before the end of a gap decides only whether a comment is open there. -/
theorem exists_skipBlanks_append {inComment : Bool} {before after : List Char}
    (h : skipBlanks inComment (before ++ after) = after) :
    ∃ next, skipBlanks next after = after ∧
      ∀ cs, skipBlanks inComment (before ++ cs) = skipBlanks next cs := by
  induction before generalizing inComment with
  | nil => exact ⟨inComment, h, fun _ => rfl⟩
  | cons c before ih =>
      rcases skipBlanks_cons_cases inComment c with ⟨next, hnext⟩ | hstop
      · simp only [List.cons_append, hnext] at h ⊢
        exact ih h
      · rw [List.cons_append, hstop] at h
        have hlength := congrArg List.length h
        simp only [List.length_cons, List.length_append] at hlength
        omega

/-- If only white space is left, then so in a comment. -/
theorem skipBlanks_true_eq_nil {cs : List Char} (h : skipBlanks false cs = []) :
    skipBlanks true cs = [] := by
  induction cs with
  | nil => rfl
  | cons c cs ih =>
      rw [skipBlanks, if_pos rfl]
      rw [skipBlanks, if_neg Bool.false_ne_true] at h
      split_ifs at h with hblank hcomment
      · by_cases hc : (c != '\n') = true
        · rw [hc, ih h]
        · rw [Bool.not_eq_true] at hc
          rw [hc, h]
      · rw [hcomment]
        exact h

/-- Where a gap ends, another one may be put in. -/
theorem Gap.insert_gap {before gap after : List Char} (hbefore : Gap (before ++ after) after)
    (hgap : Gap (gap ++ after) after) : Gap (before ++ (gap ++ after)) after := by
  obtain ⟨next, hafter, hnext⟩ := exists_skipBlanks_append hbefore.skipBlanks_eq
  rw [← skipBlanks_eq_iff, hnext]
  cases next with
  | false => exact hgap.skipBlanks_eq
  | true =>
      -- a comment can only be open at the end of the text
      obtain rfl : after = [] := by
        cases after with
        | nil => rfl
        | cons c after =>
            have hle := length_skipBlanks_le (c != '\n') after
            rw [skipBlanks, if_pos rfl] at hafter
            rw [hafter, List.length_cons] at hle
            omega
      rw [List.append_nil] at hgap ⊢
      exact skipBlanks_true_eq_nil hgap.skipBlanks_eq

/-- Where a gap ends, only the next character matters. -/
theorem Gap.change_tail {before : List Char} {c : Char} {after : List Char}
    (h : Gap (before ++ c :: after) (c :: after)) (after' : List Char) :
    Gap (before ++ c :: after') (c :: after') := by
  obtain ⟨next, hafter, hnext⟩ := exists_skipBlanks_append h.skipBlanks_eq
  rw [← skipBlanks_eq_iff, hnext]
  rcases skipBlanks_cons_cases next c with ⟨other, hskip⟩ | hstop
  · have hle := length_skipBlanks_le other after
    rw [hskip] at hafter
    rw [hafter, List.length_cons] at hle
    omega
  · exact hstop after'

/-! ## The tokens of a text -/

/-- The text starts with the given tokens, and the given characters follow them and the
white space and comments after them. -/
inductive Lexes : List Char → List Token → List Char → Prop where
  | stop {cs rest : List Char} (hgap : Gap cs rest) : Lexes cs [] rest
  | token {cs lexeme after rest : List Char} {token : Token} {tokens : List Token}
      (hgap : Gap cs (lexeme ++ after)) (hlongest : Longest token lexeme after)
      (h : Lexes after tokens rest) : Lexes cs (token :: tokens) rest

namespace Lexes

/-- What is left behind some tokens is an end of the text. -/
theorem isSuffix {cs rest : List Char} {tokens : List Token} (h : Lexes cs tokens rest) :
    rest <:+ cs := by
  induction h with
  | stop hgap => exact hgap.isSuffix
  | token hgap _ _ ih => exact ih.trans ((List.suffix_append _ _).trans hgap.isSuffix)

/-- The first token is what is found behind the white space in front. -/
theorem cons_iff {cs rest : List Char} {token : Token} {tokens : List Token} :
    Lexes cs (token :: tokens) rest ↔
      ∃ after, scan? (skipBlanks false cs) = some (token, after) ∧ Lexes after tokens rest := by
  constructor
  · rintro (_ | ⟨hgap, hlongest, h⟩)
    exact ⟨_, by rw [hgap.skipBlanks_eq, hlongest.scan?_eq], h⟩
  · rintro ⟨after, hscan, h⟩
    obtain ⟨lexeme, heq, hlongest⟩ := scan?_eq_some_iff.1 hscan
    exact .token (skipBlanks_eq_iff.1 heq) hlongest h

/-- Without tokens, there is white space only. -/
theorem nil_iff {cs rest : List Char} : Lexes cs [] rest ↔ skipBlanks false cs = rest := by
  rw [skipBlanks_eq_iff]
  exact ⟨fun | .stop h => h, .stop⟩

/-- White space in front of the tokens does not matter. -/
theorem skipBlanks_left_iff {cs rest : List Char} {tokens : List Token} :
    Lexes (skipBlanks false cs) tokens rest ↔ Lexes cs tokens rest := by
  have hidem : skipBlanks false (skipBlanks false cs) = skipBlanks false cs :=
    (gap_skipBlanks cs).refl_right.skipBlanks_eq
  cases tokens with
  | nil => rw [nil_iff, nil_iff, hidem]
  | cons token tokens => rw [cons_iff, cons_iff, hidem]

/-- The tokens of a text, one after another. -/
theorem append_iff {cs rest : List Char} {first second : List Token} :
    Lexes cs (first ++ second) rest ↔ ∃ mid, Lexes cs first mid ∧ Lexes mid second rest := by
  induction first generalizing cs with
  | nil => simp only [List.nil_append, nil_iff, exists_eq_left', skipBlanks_left_iff]
  | cons token first ih =>
      simp only [List.cons_append, cons_iff, ih]
      constructor
      · rintro ⟨after, hscan, mid, hfirst, hsecond⟩
        exact ⟨mid, ⟨after, hscan, hfirst⟩, hsecond⟩
      · rintro ⟨mid, ⟨after, hscan, hfirst⟩, hsecond⟩
        exact ⟨after, hscan, mid, hfirst, hsecond⟩

/-- The tokens tell what is left behind them. -/
theorem eq_right {cs rest rest' : List Char} {tokens : List Token} (h : Lexes cs tokens rest)
    (h' : Lexes cs tokens rest') : rest = rest' := by
  induction tokens generalizing cs with
  | nil => exact (nil_iff.1 h).symm.trans (nil_iff.1 h')
  | cons token tokens ih =>
      obtain ⟨after, hscan, h⟩ := cons_iff.1 h
      obtain ⟨after', hscan', h'⟩ := cons_iff.1 h'
      rw [hscan] at hscan'
      cases hscan'
      exact ih h h'

/-- Of two beginnings of a text, one is part of the other. -/
theorem isPrefix_or_isPrefix {cs rest rest' : List Char} {tokens tokens' : List Token}
    (h : Lexes cs tokens rest) (h' : Lexes cs tokens' rest') :
    tokens <+: tokens' ∨ tokens' <+: tokens := by
  induction tokens generalizing cs tokens' with
  | nil => exact .inl (List.nil_prefix)
  | cons token tokens ih =>
      cases tokens' with
      | nil => exact .inr (List.nil_prefix)
      | cons token' tokens' =>
          obtain ⟨after, hscan, h⟩ := cons_iff.1 h
          obtain ⟨after', hscan', h'⟩ := cons_iff.1 h'
          rw [hscan] at hscan'
          cases hscan'
          simpa [List.cons_prefix_cons] using ih h h'

/-- White space and comments may be put in front of a token or at the end. -/
theorem insert_gap {before gap after : List Char} {tokens : List Token}
    (h : Lexes (before ++ after) tokens after) (hgap : Gap (gap ++ after) after) :
    Lexes (before ++ (gap ++ after)) tokens after := by
  induction tokens generalizing before with
  | nil =>
      rcases h with ⟨hbefore⟩
      exact .stop (hbefore.insert_gap hgap)
  | cons token tokens ih =>
      rcases h with _ | @⟨_, lexeme, _, _, _, _, hblanks, hlongest, h⟩
      obtain ⟨mid, rfl⟩ := h.isSuffix
      obtain ⟨blanks, heq⟩ := hblanks.isSuffix
      obtain rfl : blanks ++ (lexeme ++ mid) = before := by
        simpa only [← List.append_assoc, List.append_cancel_right_eq] using heq
      have hlongest' : Longest token lexeme (mid ++ (gap ++ after)) := by
        cases gap with
        | nil => exact hlongest
        | cons c gap =>
            have hgap' : Gap (c :: (gap ++ after)) after := hgap
            refine hlongest.append_separated fun d hd => ?_
            obtain rfl : c = d := by simpa using hd
            refine hgap'.continues_head fun hafter => ?_
            have hlength := congrArg List.length hafter
            simp only [List.length_append, List.length_cons] at hlength
            omega
      obtain ⟨c, lexeme, rfl⟩ := List.exists_cons_of_ne_nil hlongest.spells.ne_nil
      simp only [List.append_assoc, List.cons_append] at hblanks ⊢
      exact .token (hblanks.change_tail _) hlongest' (ih h)

/-- Tokens of a text can be spelled. -/
theorem isSpelled {cs rest : List Char} {tokens : List Token} (h : Lexes cs tokens rest) :
    ∀ t ∈ tokens, t.IsSpelled := by
  induction h with
  | stop _ => simp
  | token _ hlongest _ ih => exact List.forall_mem_cons.2 ⟨⟨_, hlongest.spells⟩, ih⟩

/-- Tokens take characters. -/
theorem length_lt {cs rest : List Char} {tokens : List Token} (h : Lexes cs tokens rest)
    (hne : tokens ≠ []) : rest.length < cs.length := by
  cases h with
  | stop _ => exact absurd rfl hne
  | @token _ lexeme after _ _ _ hgap hlongest h =>
      have hpos := List.length_pos_iff.2 hlongest.spells.ne_nil
      have hlexeme := hgap.isSuffix.length_le
      have hafter := h.isSuffix.length_le
      rw [List.length_append] at hlexeme
      omega

/-- No white space or comment follows the tokens that were found. -/
theorem skipBlanks_right {cs rest : List Char} {tokens : List Token} (h : Lexes cs tokens rest) :
    skipBlanks false rest = rest := by
  induction h with
  | stop hgap => exact hgap.refl_right.skipBlanks_eq
  | token _ _ _ ih => exact ih

end Lexes

end Token

end LetPoly
