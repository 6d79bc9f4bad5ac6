import LetPoly.Proofs.Reading.Lexemes

/-!
# Languages

A language is a set of token sequences, its words, each with a value.  Languages are put together
as parsers are: in sequence, by choice and by repetition.

Some tokens are viable in a language if they begin a word of it.  What is viable in a sequence of
languages, and which kinds of token may follow there, is found in the languages that it is made of.

Main results:

- Theorems {lit}`viable_bind_iff` and {lit}`follows_bind_iff`: what begins a word of two languages
  in sequence, and what follows.
- Theorem {lit}`greedy_of_prefixFree_bind`: a language may be read greedily in front of a closing
  token if no word of both is the beginning of another.
- Theorem {lit}`word_star_iff`: a repetition is empty, or a word and a repetition.
-/

namespace LetPoly

/-- Whether a token is no integer with too many digits. -/
def Token.IsShort : Token → Prop
  | .integer _ digits => digits.length ≤ Text.maxDigits
  | _ => True

/-- A language: token sequences with their values. -/
structure Language (α : Type) where
  /-- The tokens are a word with the value. -/
  Word : List Token → α → Prop

namespace Language

variable {α β : Type}

/-- Languages in sequence: a word of the second, which may depend on the value of the
first, follows a word of the first. -/
instance : Monad Language where
  pure a := ⟨fun tokens b => tokens = [] ∧ a = b⟩
  bind L K :=
    ⟨fun tokens b => ∃ first second a, first ++ second = tokens ∧ L.Word first a ∧
      (K a).Word second b⟩

/-- The empty word is the only word of a value. -/
theorem word_pure {a b : α} {tokens : List Token} :
    (pure a : Language α).Word tokens b ↔ tokens = [] ∧ a = b :=
  Iff.rfl

/-- The language of one token. -/
def token (t : Token) (a : α) : Language α where
  Word tokens b := tokens = [t] ∧ a = b

/-- The words of two languages. -/
def union (L K : Language α) : Language α where
  Word tokens a := L.Word tokens a ∨ K.Word tokens a

/-- The words of some of the languages of a family. -/
def anyOf {ι : Type} (L : ι → Language α) (is : List ι) : Language α where
  Word tokens a := ∃ i ∈ is, (L i).Word tokens a

/-- Words of a language one after another. -/
inductive Star (L : Language α) : List Token → List α → Prop where
  | nil : Star L [] []
  | cons {first rest : List Token} {a : α} {as : List α} (hfirst : L.Word first a)
      (hrest : Star L rest as) : Star L (first ++ rest) (a :: as)

/-- The repetition of a language. -/
def star (L : Language α) : Language (List α) where
  Word := Star L

/-! ## Beginnings of words -/

/-- Some word can be spelled. -/
def HasWord (L : Language α) : Prop :=
  ∃ tokens a, (∀ t ∈ tokens, t.IsSpelled) ∧ L.Word tokens a

/-- The tokens begin a word. -/
def Viable (L : Language α) (tokens : List Token) : Prop :=
  ∃ more a, (∀ t ∈ more, t.IsSpelled) ∧ L.Word (tokens ++ more) a

/-- The tokens and one of the given kind begin a word. -/
def Follows (L : Language α) (tokens : List Token) (kind : TokenKind) : Prop :=
  ∃ token : Token, token.IsSpelled ∧ token.kind = kind ∧ L.Viable (tokens ++ [token])

section Beginnings

variable {L : Language α} {tokens more : List Token} {kind : TokenKind} {a : α}

/-- A word begins itself. -/
theorem viable_of_word (h : L.Word tokens a) : L.Viable tokens :=
  ⟨[], a, by simp, by rwa [List.append_nil]⟩

/-- The empty word begins every word. -/
theorem HasWord.viable_nil (h : L.HasWord) : L.Viable [] := by
  obtain ⟨tokens, a, hspelled, hword⟩ := h
  exact ⟨tokens, a, hspelled, hword⟩

/-- What begins a beginning of a word begins the word. -/
theorem Viable.of_append (h : L.Viable (tokens ++ more)) (hspelled : ∀ t ∈ more, t.IsSpelled) :
    L.Viable tokens := by
  obtain ⟨more', a, hspelled', hword⟩ := h
  rw [List.append_assoc] at hword
  exact ⟨more ++ more', a, List.forall_mem_append.2 ⟨hspelled, hspelled'⟩, hword⟩

/-- What can be followed begins a word. -/
theorem Follows.viable (h : L.Follows tokens kind) : L.Viable tokens := by
  obtain ⟨t, hspelled, -, hviable⟩ := h
  exact hviable.of_append (List.forall_mem_singleton.2 hspelled)

/-- A beginning of a word of one of two languages. -/
theorem viable_union_iff {K : Language α} :
    (L.union K).Viable tokens ↔ L.Viable tokens ∨ K.Viable tokens := by
  constructor
  · rintro ⟨more, a, hspelled, hword | hword⟩
    · exact .inl ⟨more, a, hspelled, hword⟩
    · exact .inr ⟨more, a, hspelled, hword⟩
  · rintro (⟨more, a, hspelled, hword⟩ | ⟨more, a, hspelled, hword⟩)
    · exact ⟨more, a, hspelled, .inl hword⟩
    · exact ⟨more, a, hspelled, .inr hword⟩

/-- What follows in one of two languages. -/
theorem follows_union_iff {K : Language α} :
    (L.union K).Follows tokens kind ↔ L.Follows tokens kind ∨ K.Follows tokens kind := by
  simp only [Follows, viable_union_iff]
  constructor
  · rintro ⟨t, hspelled, hkind, hviable | hviable⟩
    · exact .inl ⟨t, hspelled, hkind, hviable⟩
    · exact .inr ⟨t, hspelled, hkind, hviable⟩
  · rintro (⟨t, hspelled, hkind, hviable⟩ | ⟨t, hspelled, hkind, hviable⟩)
    · exact ⟨t, hspelled, hkind, .inl hviable⟩
    · exact ⟨t, hspelled, hkind, .inr hviable⟩

/-- A word of two languages in sequence is begun by what begins a word of the first, or by a word
of the first and what begins a word of the second. -/
theorem viable_bind_iff {K : α → Language β} (hK : ∀ a, (K a).HasWord) :
    (L >>= K).Viable tokens ↔ L.Viable tokens ∨
      ∃ first second a, tokens = first ++ second ∧ L.Word first a ∧ (K a).Viable second := by
  constructor
  · rintro ⟨more, b, hspelled, first, second, a, h, hfirst, hsecond⟩
    rcases List.append_eq_append_iff.1 h with ⟨tail, rfl, rfl⟩ | ⟨tail, rfl, rfl⟩
    · exact .inr ⟨first, tail, a, rfl, hfirst, more, b, hspelled, hsecond⟩
    · exact .inl ⟨tail, a, fun t ht => hspelled t (List.mem_append_left second ht), hfirst⟩
  · rintro (⟨more, a, hspelled, hword⟩ | ⟨first, second, a, rfl, hfirst, h⟩)
    · obtain ⟨second, b, hspelled', hsecond⟩ := hK a
      exact ⟨more ++ second, b, List.forall_mem_append.2 ⟨hspelled, hspelled'⟩, _, second, a,
        List.append_assoc _ _ _, hword, hsecond⟩
    · obtain ⟨more, b, hspelled, hsecond⟩ := h
      exact ⟨more, b, hspelled, first, _, a, (List.append_assoc _ _ _).symm, hfirst, hsecond⟩

/-- What follows in a sequence of two languages follows in the first, or behind a word of the first
in the second. -/
theorem follows_bind_iff {K : α → Language β} (hK : ∀ a, (K a).HasWord) :
    (L >>= K).Follows tokens kind ↔ L.Follows tokens kind ∨
      ∃ first second a, tokens = first ++ second ∧ L.Word first a ∧
        (K a).Follows second kind := by
  constructor
  · rintro ⟨t, hspelled, hkind, hviable⟩
    rcases (viable_bind_iff hK).1 hviable with hviable | ⟨first, second, a, h, hfirst, hsecond⟩
    · exact .inl ⟨t, hspelled, hkind, hviable⟩
    · rcases List.eq_nil_or_concat second with rfl | ⟨second, last, rfl⟩
      · -- the token is the last one of a word of the first language
        rw [List.append_nil] at h
        exact .inl ⟨t, hspelled, hkind, h ▸ viable_of_word hfirst⟩
      · rw [List.concat_eq_append, ← List.append_assoc] at h
        obtain ⟨rfl, hlast⟩ := List.append_inj' h rfl
        obtain rfl := List.singleton_inj.1 hlast
        exact .inr ⟨first, second, a, rfl, hfirst, t, hspelled, hkind, by simpa using hsecond⟩
  · rintro (⟨t, hspelled, hkind, hviable⟩ |
      ⟨first, second, a, rfl, hfirst, t, hspelled, hkind, hviable⟩)
    · exact ⟨t, hspelled, hkind, (viable_bind_iff hK).2 (.inl hviable)⟩
    · exact ⟨t, hspelled, hkind,
        (viable_bind_iff hK).2 (.inr ⟨first, _, a, List.append_assoc _ _ _, hfirst, hviable⟩)⟩

end Beginnings

theorem hasWord_pure (a : α) : (pure a : Language α).HasWord :=
  ⟨[], a, by simp, rfl, rfl⟩

/-- Nothing but the empty word begins the empty word. -/
theorem viable_pure_iff {a : α} {tokens : List Token} :
    (pure a : Language α).Viable tokens ↔ tokens = [] := by
  constructor
  · rintro ⟨more, b, -, hnil, -⟩
    exact (List.append_eq_nil_iff.1 hnil).1
  · rintro rfl
    exact (hasWord_pure a).viable_nil

/-- There is a word in sequence if there are words of all parts. -/
theorem HasWord.bind {L : Language α} {K : α → Language β} (hL : L.HasWord)
    (hK : ∀ a, (K a).HasWord) : (L >>= K).HasWord := by
  obtain ⟨first, a, hspelled, hfirst⟩ := hL
  obtain ⟨second, b, hspelled', hsecond⟩ := hK a
  exact ⟨first ++ second, b, List.forall_mem_append.2 ⟨hspelled, hspelled'⟩, first, second, a, rfl,
    hfirst, hsecond⟩

theorem HasWord.union_left {L K : Language α} (h : L.HasWord) : (L.union K).HasWord := by
  obtain ⟨tokens, a, hspelled, hword⟩ := h
  exact ⟨tokens, a, hspelled, .inl hword⟩

/-- One member with a word is enough. -/
theorem hasWord_anyOf {ι : Type} {L : ι → Language α} {i : ι} {is : List ι} (hi : i ∈ is)
    (h : (L i).HasWord) : (anyOf L is).HasWord := by
  obtain ⟨tokens, a, hspelled, hword⟩ := h
  exact ⟨tokens, a, hspelled, i, hi, hword⟩

/-- The empty word is a repetition. -/
theorem hasWord_star (L : Language α) : L.star.HasWord :=
  ⟨[], [], by simp, .nil⟩

/-- A repetition is empty, or a word and a repetition. -/
theorem word_star_iff {L : Language α} {tokens : List Token} {as : List α} :
    L.star.Word tokens as ↔
      (union
        (do let a ← L
            let as ← L.star
            pure (a :: as))
        (pure [])).Word tokens as := by
  constructor
  · rintro (_ | ⟨hfirst, hrest⟩)
    · exact .inr ⟨rfl, rfl⟩
    · exact .inl ⟨_, _, _, rfl, hfirst, _, [], _, List.append_nil _, hrest, rfl, rfl⟩
  · rintro (⟨first, _, a, rfl, hfirst, rest, _, as, rfl, hrest, rfl, rfl⟩ | ⟨rfl, rfl⟩)
    · rw [List.append_nil]
      exact .cons hfirst hrest
    · exact .nil

/-- The words of a language behind some tokens. -/
def behind (L : Language α) (used : List Token) : Language α where
  Word tokens a := ∃ word, tokens = used ++ word ∧ L.Word word a

/-- Tokens in front are passed over. -/
theorem viable_behind_iff {L : Language α} {used tokens : List Token} :
    (L.behind used).Viable (used ++ tokens) ↔ L.Viable tokens := by
  constructor
  · rintro ⟨more, a, hspelled, word, h, hword⟩
    rw [List.append_assoc] at h
    obtain rfl := List.append_cancel_left h
    exact ⟨more, a, hspelled, hword⟩
  · rintro ⟨more, a, hspelled, hword⟩
    exact ⟨more, a, hspelled, _, List.append_assoc _ _ _, hword⟩

/-- The same for what follows. -/
theorem follows_behind_iff {L : Language α} {used tokens : List Token} {kind : TokenKind} :
    (L.behind used).Follows (used ++ tokens) kind ↔ L.Follows tokens kind := by
  simp only [Follows, List.append_assoc, viable_behind_iff]

/-! ## First tokens -/

/-- No word of one language is the beginning of a word of the other. -/
def Apart (L : Language α) (K : Language β) : Prop :=
  ∀ ⦃first second rest rest' a b⦄, L.Word first a → K.Word second b →
    first ++ rest ≠ second ++ rest'

/-- A word of one language begins no word of the other. -/
theorem Apart.not_viable {L : Language α} {K : Language β} (h : L.Apart K) {tokens : List Token}
    {a : α} (hword : L.Word tokens a) : ¬ K.Viable tokens := by
  rintro ⟨more, b, -, hlonger⟩
  exact h hword hlonger (List.append_nil _).symm

/-- Every word starts with a token of one of the given kinds. -/
def StartsIn (L : Language α) (kinds : List TokenKind) : Prop :=
  ∀ ⦃tokens a⦄, L.Word tokens a → ∃ t rest, tokens = t :: rest ∧ t.kind ∈ kinds

namespace StartsIn

variable {L : Language α} {kinds kinds' : List TokenKind}

/-- Words with a first token are not empty. -/
theorem ne_nil (h : L.StartsIn kinds) (tokens : List Token) (a : α) (hword : L.Word tokens a) :
    tokens ≠ [] := by
  obtain ⟨t, rest, rfl, -⟩ := h hword
  exact List.cons_ne_nil t rest

/-- The first token of a sequence is one of its first part. -/
theorem bind (h : L.StartsIn kinds) (K : α → Language β) : (L >>= K).StartsIn kinds := by
  rintro _ b ⟨first, second, a, rfl, hfirst, -⟩
  obtain ⟨t, rest, rfl, ht⟩ := h hfirst
  exact ⟨t, rest ++ second, rfl, ht⟩

/-- The first tokens of two languages are put together. -/
theorem union {K : Language α} (h : L.StartsIn kinds) (h' : K.StartsIn kinds') :
    (L.union K).StartsIn (kinds ++ kinds') := by
  rintro tokens a (hword | hword)
  · obtain ⟨t, rest, rfl, ht⟩ := h hword
    exact ⟨t, rest, rfl, List.mem_append_left kinds' ht⟩
  · obtain ⟨t, rest, rfl, ht⟩ := h' hword
    exact ⟨t, rest, rfl, List.mem_append_right kinds ht⟩

/-- The first tokens of a family are put together. -/
theorem anyOf {ι : Type} {L : ι → Language α} {kind : ι → TokenKind}
    (h : ∀ i, (L i).StartsIn [kind i]) (is : List ι) :
    (Language.anyOf L is).StartsIn (is.map kind) := by
  rintro tokens a ⟨i, hi, hword⟩
  obtain ⟨t, rest, rfl, ht⟩ := h i hword
  exact ⟨t, rest, rfl, List.mem_map.2 ⟨i, hi, (List.mem_singleton.1 ht).symm⟩⟩

/-- Languages whose words start with other kinds of token are apart. -/
theorem apart {K : Language β} (h : L.StartsIn kinds) (h' : K.StartsIn kinds')
    (hdisjoint : ∀ kind ∈ kinds, kind ∉ kinds') : L.Apart K := by
  intro first second rest rest' a b hword hword' heq
  obtain ⟨t, tail, rfl, ht⟩ := h hword
  obtain ⟨t', tail', rfl, ht'⟩ := h' hword'
  obtain ⟨rfl, -⟩ := List.cons.inj heq
  exact hdisjoint t.kind ht ht'

/-- Languages that start differently share no beginnings. -/
theorem not_viable {K : Language β} (h : L.StartsIn kinds) (h' : K.StartsIn kinds')
    (hdisjoint : ∀ kind ∈ kinds, kind ∉ kinds') (tokens : List Token) (a : α)
    (hword : L.Word tokens a) : ¬ K.Viable tokens :=
  (h.apart h' hdisjoint).not_viable hword

/-- Languages whose words start with different kinds of token are apart from each other. -/
theorem pairwise_apart {ι : Type} {L : ι → Language α} {kind : ι → TokenKind}
    (h : ∀ i, (L i).StartsIn [kind i]) {is : List ι} (hnodup : (is.map kind).Nodup) :
    is.Pairwise fun i j => (L i).Apart (L j) := by
  refine (List.pairwise_map.1 hnodup).imp fun {i j} hne => (h i).apart (h j) ?_
  simpa using hne

end StartsIn

/-! ## Reading greedily -/

/-- No word is the beginning of another, and a word has one value. -/
def PrefixFree (L : Language α) : Prop :=
  ∀ ⦃first second rest rest' a b⦄, L.Word first a → L.Word second b →
    first ++ rest = second ++ rest' → first = second ∧ rest = rest' ∧ a = b

/-- The longest word of a language is the right one to take in front of another language: what
makes a word longer begins no word of the other, and no word of the other begins it, unless the
other may be left out. -/
structure Greedy (L : Language α) (K : α → Language β) : Prop where
  not_viable : ∀ ⦃tokens a more b⦄, L.Word tokens a → L.Word (tokens ++ more) b → more ≠ [] →
    ¬ (K a).Viable more
  word_nil : ∀ ⦃tokens a more b word c⦄, L.Word tokens a → L.Word (tokens ++ more) b → more ≠ [] →
    (K a).Word word c → word <+: more → ∃ d, (K b).Word [] d

/-- No word goes on with more tokens. -/
theorem PrefixFree.eq_nil {L : Language α} (h : L.PrefixFree) {tokens more : List Token} {a b : α}
    (hword : L.Word tokens a) (hlonger : L.Word (tokens ++ more) b) : more = [] :=
  (h hword hlonger (List.append_nil _).symm).2.1

/-- A language in which no word begins another one may be read greedily. -/
theorem PrefixFree.greedy {L : Language α} (h : L.PrefixFree) (K : α → Language β) :
    Greedy L K where
  not_viable _ _ _ _ hword hlonger hne := absurd (h.eq_nil hword hlonger) hne
  word_nil _ _ _ _ _ _ hword hlonger hne := absurd (h.eq_nil hword hlonger) hne

/-- Greedy reading is right where nothing follows. -/
theorem greedy_pure (L : Language α) (f : α → β) : Greedy L fun a => pure (f a) where
  not_viable _ _ _ _ _ _ hne hviable := hne (viable_pure_iff.1 hviable)
  word_nil _ _ _ b _ _ _ _ _ _ _ := ⟨f b, rfl, rfl⟩

/-- The words are single tokens of one kind, and a word has one value. -/
structure IsTerminal (L : Language α) (kind : TokenKind) : Prop where
  exists_token : ∀ ⦃tokens a⦄, L.Word tokens a → ∃ t, tokens = [t] ∧ t.kind = kind
  unique : ∀ ⦃t a b⦄, L.Word [t] a → L.Word [t] b → a = b
  hasWord : L.HasWord

namespace IsTerminal

variable {L : Language α} {kind : TokenKind}

/-- Single tokens do not begin one another. -/
theorem prefixFree (h : L.IsTerminal kind) : L.PrefixFree := by
  intro first second rest rest' a b hfirst hsecond heq
  obtain ⟨t, rfl, -⟩ := h.exists_token hfirst
  obtain ⟨t', rfl, -⟩ := h.exists_token hsecond
  obtain ⟨rfl, hrest⟩ := List.cons.inj heq
  exact ⟨rfl, hrest, h.unique hfirst hsecond⟩

/-- A single token starts with itself. -/
theorem startsIn (h : L.IsTerminal kind) : L.StartsIn [kind] := by
  intro tokens a hword
  obtain ⟨t, rfl, ht⟩ := h.exists_token hword
  exact ⟨t, [], rfl, List.mem_singleton.2 ht⟩

end IsTerminal

theorem isTerminal_token {t : Token} (ht : t.IsSpelled) (a : α) :
    (token t a).IsTerminal t.kind where
  exists_token := by
    rintro _ b ⟨rfl, -⟩
    exact ⟨t, rfl, rfl⟩
  unique := by
    rintro _ b c ⟨-, rfl⟩ ⟨-, rfl⟩
    rfl
  hasWord := ⟨[t], a, List.forall_mem_singleton.2 ht, rfl, rfl⟩

/-- What makes a repetition longer is a repetition. -/
theorem Star.exists_of_append {L : Language α} (hfree : L.PrefixFree)
    (hne : ∀ tokens a, L.Word tokens a → tokens ≠ []) {tokens more : List Token} {as bs : List α}
    (h : L.Star tokens as) (hlonger : L.Star (tokens ++ more) bs) : ∃ cs, L.Star more cs := by
  induction h generalizing bs with
  | nil => exact ⟨bs, hlonger⟩
  | @cons first rest a as hfirst hrest ih =>
      generalize heq : first ++ rest ++ more = all at hlonger
      cases hlonger with
      | nil =>
          rw [List.append_assoc] at heq
          exact absurd (List.append_eq_nil_iff.1 heq).1 (hne first a hfirst)
      | cons hfirst' hrest' =>
          rw [List.append_assoc] at heq
          obtain ⟨-, rfl, -⟩ := hfree hfirst hfirst' heq
          exact ih hrest'

/-- A repetition may be read greedily in front of a language that is apart from the one that is
repeated. -/
theorem greedy_star {L : Language α} {K : List α → Language β} (hfree : L.PrefixFree)
    (hne : ∀ tokens a, L.Word tokens a → tokens ≠ []) (hapart : ∀ as, L.Apart (K as)) :
    Greedy L.star K := by
  -- what makes a repetition longer starts with a word
  have hstarts : ∀ {tokens more as bs}, L.Star tokens as → L.Star (tokens ++ more) bs →
      more ≠ [] → ∃ first rest a, more = first ++ rest ∧ L.Word first a := by
    intro tokens more as bs hword hlonger hmore
    obtain ⟨cs, hstar⟩ := hword.exists_of_append hfree hne hlonger
    cases hstar with
    | nil => exact absurd rfl hmore
    | @cons first rest a _ hfirst _ => exact ⟨first, rest, a, rfl, hfirst⟩
  constructor
  · rintro tokens as more bs hword hlonger hmore ⟨more', c, -, hK⟩
    obtain ⟨first, rest, a, rfl, hfirst⟩ := hstarts hword hlonger hmore
    have heq : first ++ (rest ++ more') = first ++ rest ++ more' ++ [] := by simp
    exact hapart as hfirst hK heq
  · rintro tokens as more bs word c hword hlonger hmore hK ⟨rest', rfl⟩
    obtain ⟨first, rest, a, heq, hfirst⟩ := hstarts hword hlonger hmore
    exact absurd heq.symm (hapart as hfirst hK)

/-- A language may be read greedily in front of a closing token, if no word of both is the
beginning of another. -/
theorem greedy_of_prefixFree_bind {γ : Type} {L : Language α} {t : Token} {x : β}
    {f : α → β → γ}
    (h : (do let a ← L
             let x ← token t x
             pure (f a x) : Language γ).PrefixFree) :
    Greedy L fun a => (do let x ← token t x
                          pure (f a x) : Language γ) := by
  have hclose : ∀ a, (do let x ← token t x
                         pure (f a x) : Language γ).Word [t] (f a x) := fun a =>
    ⟨[t], [], x, rfl, ⟨rfl, rfl⟩, rfl, rfl⟩
  -- behind a word the closing token ends all that can stand there
  have hnot : ∀ {tokens a rest b}, L.Word tokens a → ¬ L.Word (tokens ++ t :: rest) b := by
    intro tokens a rest b hword hlonger
    have heq : (tokens ++ [t]) ++ (rest ++ [t]) = (tokens ++ t :: rest ++ [t]) ++ [] := by simp
    obtain ⟨-, hnil, -⟩ := h ⟨tokens, [t], a, rfl, hword, hclose a⟩
      ⟨tokens ++ t :: rest, [t], b, rfl, hlonger, hclose b⟩ heq
    simp at hnil
  constructor
  · rintro tokens a more b hword hlonger hne ⟨more', _, -, _, _, _, heq, ⟨rfl, rfl⟩, rfl, rfl⟩
    obtain ⟨first, rest, rfl⟩ := List.exists_cons_of_ne_nil hne
    obtain ⟨rfl, -⟩ := List.cons.inj heq
    exact hnot hword hlonger
  · rintro tokens a more b _ c hword hlonger hne ⟨_, _, _, rfl, ⟨rfl, rfl⟩, rfl, rfl⟩ ⟨rest, rfl⟩
    exact absurd hlonger (hnot hword)

end Language
end LetPoly
