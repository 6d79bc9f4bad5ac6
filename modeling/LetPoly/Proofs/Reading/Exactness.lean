import LetPoly.Proofs.Reading.Languages

/-!
# Parsers that read a language

A parser reads a language exactly if it takes the longest word of the language that stands at a
place, and fails where there is none.  In both cases its furthest failure must tell how far the text
can be followed in the language: it lies behind the longest tokens that begin a word, and what was
expected there are the kinds of token with which a word goes on.

That is why furthest failures are put together as they are.  In a choice, the text can be followed
as far as in one of the alternatives, and in a sequence as far as in the first part, or in the
second part behind the first.

Main results:

- Theorem {lit}`Outcome.bind`: parsers in sequence read the languages in sequence, if the first may
  be read greedily in front of the second.
- Theorem {lit}`Outcome.orElse`: an ordered choice reads the words of both languages, if a word of
  the first is never followed as far in the second.
- Theorem {lit}`Exact.many`: a repetition that ends with the first failure reads the repetition of a
  language in which no word is the beginning of another.
-/

namespace LetPoly

open Token (Lexes skipBlanks)

/-! ## Places -/

namespace Cursor

/-- No white space or comment stands at the place. -/
def Settled (pos : Cursor) : Prop :=
  skipBlanks false pos.rest = pos.rest

/-- Some tokens stand between two places of a text; the second place is behind the white space that
follows them. -/
structure Spans (start : Cursor) (tokens : List Token) (stop : Cursor) : Prop where
  lexes : Lexes start.rest tokens stop.rest
  index_add : stop.index + stop.rest.length = start.index + start.rest.length

namespace Spans

variable {start mid stop stop' : Cursor} {tokens tokens' first second : List Token}

/-- Behind tokens no white space is left. -/
theorem settled (h : start.Spans tokens stop) : stop.Settled :=
  h.lexes.skipBlanks_right

/-- The tokens between two places can be spelled. -/
theorem isSpelled (h : start.Spans tokens stop) : ∀ t ∈ tokens, t.IsSpelled :=
  h.lexes.isSpelled

/-- The tokens tell where they end. -/
theorem eq_right (h : start.Spans tokens stop) (h' : start.Spans tokens stop') : stop = stop' := by
  obtain ⟨index, rest⟩ := stop
  obtain ⟨index', rest'⟩ := stop'
  obtain rfl : rest = rest' := h.lexes.eq_right h'.lexes
  have hindex : index = index' := Nat.add_right_cancel (h.index_add.trans h'.index_add.symm)
  rw [hindex]

/-- No tokens lie between a place and itself. -/
theorem refl (h : start.Settled) : start.Spans [] start :=
  ⟨Lexes.nil_iff.2 h, rfl⟩

/-- Tokens one behind the other. -/
theorem trans (h : start.Spans first mid) (h' : mid.Spans second stop) :
    start.Spans (first ++ second) stop :=
  ⟨Lexes.append_iff.2 ⟨mid.rest, h.lexes, h'.lexes⟩, h'.index_add.trans h.index_add⟩

/-- Tokens one after another have a place between them. -/
theorem exists_mid (h : start.Spans (first ++ second) stop) :
    ∃ mid, start.Spans first mid ∧ mid.Spans second stop := by
  obtain ⟨rest, hfirst, hsecond⟩ := Lexes.append_iff.1 h.lexes
  have hle := hfirst.isSuffix.length_le
  have hindex : (start.before rest).index + rest.length = start.index + start.rest.length := by
    change start.index + (start.rest.length - rest.length) + rest.length = _
    omega
  exact ⟨start.before rest, ⟨hfirst, hindex⟩, hsecond, h.index_add.trans hindex.symm⟩

/-- Behind the first tokens stand the others. -/
theorem of_append (h : start.Spans first mid) (h' : start.Spans (first ++ second) stop) :
    mid.Spans second stop := by
  obtain ⟨mid', hfirst, hsecond⟩ := h'.exists_mid
  rwa [h.eq_right hfirst]

/-- Of the tokens from one place on, some begin the others. -/
theorem isPrefix_or_isPrefix (h : start.Spans tokens stop) (h' : start.Spans tokens' stop') :
    tokens <+: tokens' ∨ tokens' <+: tokens :=
  h.lexes.isPrefix_or_isPrefix h'.lexes

/-- Tokens take characters. -/
theorem index_lt (h : start.Spans tokens stop) (hne : tokens ≠ []) : start.index < stop.index := by
  have hlt := h.lexes.length_lt hne
  have hadd := h.index_add
  omega

/-- Behind tokens fewer characters are left. -/
theorem length_le (h : start.Spans tokens stop) : stop.rest.length ≤ start.rest.length :=
  h.lexes.isSuffix.length_le

end Spans
end Cursor

namespace Parser

/-! ## Furthest failures -/

namespace Furthest

/-- What was expected at an offset. -/
def expectedAt (furthest : Option Furthest) (index : Nat) : List String :=
  match furthest with
  | some f => if f.index = index then f.expected else []
  | none => []

/-- No failure lies behind an offset. -/
def Within (furthest : Option Furthest) (index : Nat) : Prop :=
  ∀ f ∈ furthest, f.index ≤ index

variable {f g : Option Furthest} {index index' : Nat}

theorem within_none : Within none index :=
  fun _ h => absurd h (by simp)

/-- Failures that lie in front of an offset lie in front of later ones. -/
theorem Within.mono (h : Within f index) (hle : index ≤ index') : Within f index' :=
  fun x hx => (h x hx).trans hle

/-- Nothing was expected behind all failures. -/
theorem Within.expectedAt_eq_nil (h : Within f index) (hlt : index < index') :
    expectedAt f index' = [] := by
  cases f with
  | none => rfl
  | some f => exact if_neg (Nat.ne_of_lt (Nat.lt_of_le_of_lt (h f rfl) hlt))

/-- Two failures in front of an offset are put together in front of it. -/
theorem Within.merge (hf : Within f index) (hg : Within g index) :
    Within (f.merge Furthest.merge g) index := by
  cases f with
  | none => simpa using hg
  | some f =>
      cases g with
      | none => simpa using hf
      | some g =>
          rintro _ ⟨⟩
          unfold Furthest.merge
          split_ifs
          · exact hg g rfl
          · exact hf f rfl
          · exact hf f rfl

/-- How a failure is added to those before it. -/
theorem merge_some (f : Option Furthest) (g : Furthest) :
    f.merge Furthest.merge (some g) = some ((f.map (·.merge g)).getD g) := by
  cases f <;> rfl

/-- Failures that are put together expect what either of them expects. -/
theorem mem_expectedAt_merge (hf : Within f index) (hg : Within g index) {description : String} :
    description ∈ expectedAt (f.merge Furthest.merge g) index ↔
      description ∈ expectedAt f index ∨ description ∈ expectedAt g index := by
  cases f with
  | none => simp [expectedAt]
  | some f =>
      cases g with
      | none => simp [expectedAt]
      | some g =>
          have hle := hf f rfl
          have hle' := hg g rfl
          simp only [expectedAt, Option.merge, Furthest.merge]
          rcases Nat.lt_trichotomy f.index g.index with hlt | heq | hlt
          · have hne : f.index ≠ index := by omega
            simp [hlt, hne]
          · by_cases hg : g.index = index <;> simp [heq, hg]
          · have hne : g.index ≠ index := by omega
            simp [hlt, hlt.not_gt, hne]

end Furthest

open Furthest

variable {α β : Type}

/-! ## How far a text is followed -/

/-- The failure lies behind the longest tokens of the text that begin a word, and expects what
follows there. -/
structure Reports (L : Language α) (start : Cursor) (furthest : Option Furthest)
    (tokens : List Token) (stop : Cursor) : Prop where
  spans : start.Spans tokens stop
  viable : L.Viable tokens
  longest : ∀ other place, start.Spans other place → L.Viable other → other <+: tokens
  within : Within furthest stop.index
  mem_iff : ∀ description, description ∈ expectedAt furthest stop.index ↔
    ∃ kind : TokenKind, kind.text = description ∧ L.Follows tokens kind

namespace Reports

variable {L : Language α} {start stop : Cursor} {f : Option Furthest} {tokens : List Token}

/-- Behind the tokens nothing is expected, and nothing follows. -/
theorem beyond (h : Reports L start f tokens stop) {longer : List Token} {place : Cursor}
    (hspans : start.Spans longer place) (hle : tokens <+: longer) :
    Within f place.index ∧ ∀ description, description ∈ expectedAt f place.index ↔
      ∃ kind : TokenKind, kind.text = description ∧ L.Follows longer kind := by
  obtain ⟨more, rfl⟩ := hle
  rcases eq_or_ne more [] with rfl | hne
  · rw [List.append_nil] at hspans ⊢
    obtain rfl := h.spans.eq_right hspans
    exact ⟨h.within, h.mem_iff⟩
  · have hlt := (h.spans.of_append hspans).index_lt hne
    refine ⟨h.within.mono hlt.le, fun description => ?_⟩
    rw [h.within.expectedAt_eq_nil hlt]
    refine iff_of_false List.not_mem_nil ?_
    rintro ⟨kind, -, hfollows⟩
    have hle := (h.longest _ _ hspans hfollows.viable).length_le
    rw [List.length_append] at hle
    have hpos := List.length_pos_iff.2 hne
    omega

/-- Two failures put together report how far a text is followed in a language whose words begin as
those of one of two others do, if what follows behind both is what follows in either. -/
theorem join {γ : Type} {K : Language β} {M : Language γ} {g : Option Furthest}
    {tokens' : List Token} {stop' : Cursor} (h : Reports L start f tokens stop)
    (h' : Reports K start g tokens' stop')
    (hviable : ∀ other, L.Viable other ∨ K.Viable other → M.Viable other)
    (hlongest : ∀ other place, start.Spans other place → M.Viable other →
      other <+: tokens ∨ other <+: tokens')
    (hfollows : ∀ other place, start.Spans other place → tokens <+: other → tokens' <+: other →
      ∀ kind, M.Follows other kind ↔ L.Follows other kind ∨ K.Follows other kind) :
    ∃ tokens stop, Reports M start (f.merge Furthest.merge g) tokens stop := by
  -- the longer tokens of the two are those that count
  have hmax : ∀ longer place, start.Spans longer place → tokens <+: longer → tokens' <+: longer →
      M.Viable longer → Reports M start (f.merge Furthest.merge g) longer place := by
    intro longer place hspans hle hle' hviable
    obtain ⟨hwithin, hmem⟩ := h.beyond hspans hle
    obtain ⟨hwithin', hmem'⟩ := h'.beyond hspans hle'
    refine ⟨hspans, hviable, ?_, hwithin.merge hwithin', fun description => ?_⟩
    · intro other place' hother hviable'
      exact (hlongest other place' hother hviable').elim (·.trans hle) (·.trans hle')
    · rw [mem_expectedAt_merge hwithin hwithin', hmem, hmem']
      simp only [hfollows longer place hspans hle hle', and_or_left, exists_or]
  rcases h.spans.isPrefix_or_isPrefix h'.spans with hle | hle
  · exact ⟨tokens', stop', hmax tokens' stop' h'.spans hle List.prefix_rfl
      (hviable _ (.inr h'.viable))⟩
  · exact ⟨tokens, stop, hmax tokens stop h.spans List.prefix_rfl hle (hviable _ (.inl h.viable))⟩

/-- A choice is followed as far as one of its alternatives. -/
theorem union {K : Language α} {g : Option Furthest} {tokens' : List Token} {stop' : Cursor}
    (h : Reports L start f tokens stop) (h' : Reports K start g tokens' stop') :
    ∃ tokens stop, Reports (L.union K) start (f.merge Furthest.merge g) tokens stop := by
  refine h.join h' (fun _ => Language.viable_union_iff.2) (fun other place hspans hviable => ?_)
    fun _ _ _ _ _ _ => Language.follows_union_iff
  exact (Language.viable_union_iff.1 hviable).imp (h.longest other place hspans)
    (h'.longest other place hspans)

/-- An alternative that is not tried does not count, if it is not followed as far as what was
read. -/
theorem union_left {K : Language α} {used : List Token} {place : Cursor}
    (h : Reports L start f tokens stop) (hspans : start.Spans used place) (hused : L.Viable used)
    (hK : ¬ K.Viable used) : Reports (L.union K) start f tokens stop := by
  have hle : used <+: tokens := h.longest used place hspans hused
  have hspelled := h.spans.isSpelled
  have hnot : ∀ more, (∀ t ∈ more, t.IsSpelled) → ¬ K.Viable (tokens ++ more) := by
    intro more hmore hviable
    obtain ⟨rest, rfl⟩ := hle
    rw [List.append_assoc] at hviable
    exact hK (hviable.of_append
      (List.forall_mem_append.2 ⟨fun t ht => hspelled t (List.mem_append_right used ht), hmore⟩))
  refine ⟨h.spans, Language.viable_union_iff.2 (.inl h.viable), ?_, h.within, fun description => ?_⟩
  · intro other place' hother hviable
    rcases Language.viable_union_iff.1 hviable with hviable | hviable
    · exact h.longest other place' hother hviable
    · rcases hother.isPrefix_or_isPrefix h.spans with hle' | ⟨more, rfl⟩
      · exact hle'
      · refine absurd hviable (hnot more fun t ht => ?_)
        exact hother.isSpelled t (List.mem_append_right tokens ht)
  · rw [h.mem_iff]
    refine exists_congr fun kind => and_congr_right fun _ => ?_
    rw [Language.follows_union_iff, or_iff_left]
    rintro ⟨t, ht, -, hviable⟩
    exact hnot [t] (List.forall_mem_singleton.2 ht) hviable

/-- The text is followed no further where the first part of a sequence fails. -/
theorem bind_left {K : α → Language β} (hK : ∀ a, (K a).HasWord)
    (h : Reports L start f tokens stop)
    (hnone : ∀ other place a, start.Spans other place → ¬ L.Word other a) :
    Reports (L >>= K) start f tokens stop := by
  refine ⟨h.spans, (Language.viable_bind_iff hK).2 (.inl h.viable), ?_, h.within,
    fun description => ?_⟩
  · intro other place hspans hviable
    rcases (Language.viable_bind_iff hK).1 hviable with hviable | ⟨first, second, a, rfl, hfirst, -⟩
    · exact h.longest other place hspans hviable
    · obtain ⟨mid, hmid, -⟩ := hspans.exists_mid
      exact absurd hfirst (hnone first mid a hmid)
  · rw [h.mem_iff]
    refine exists_congr fun kind => and_congr_right fun _ => ?_
    rw [Language.follows_bind_iff hK, or_iff_left]
    rintro ⟨first, second, a, rfl, hfirst, -⟩
    obtain ⟨mid, hmid, -⟩ := h.spans.exists_mid
    exact hnone first mid a hmid hfirst

end Reports

/-- The second part of a sequence is followed behind what was read. -/
theorem Reports.behind {L : Language α} {start mid stop : Cursor} {f : Option Furthest}
    {used tokens : List Token} (hused : start.Spans used mid) (h : Reports L mid f tokens stop) :
    Reports (L.behind used) start f (used ++ tokens) stop := by
  refine ⟨hused.trans h.spans, Language.viable_behind_iff.2 h.viable, ?_, h.within,
    fun description => ?_⟩
  · intro other place hspans hviable
    rcases hspans.isPrefix_or_isPrefix hused with hle | ⟨more, rfl⟩
    · exact hle.trans (List.prefix_append used tokens)
    · refine (List.prefix_append_right_inj used).2 ?_
      exact h.longest more place (hused.of_append hspans) (Language.viable_behind_iff.1 hviable)
  · rw [h.mem_iff]
    refine exists_congr fun kind => and_congr_right fun _ => ?_
    rw [Language.follows_behind_iff]

/-! ## Exact parsers -/

/-- No longer word stands at a place, and the word there has no other value. -/
def Longest (L : Language α) (start : Cursor) (used : List Token) (a : α) : Prop :=
  ∀ ⦃other place b⦄, start.Spans other place → L.Word other b → other <+: used ∧
    (other = used → b = a)

/-- What an exact parser of a language answers at a place: the longest word, or that there is
none, and how far the text is followed; or that the text has an integer that is too long. -/
inductive Outcome (L : Language α) (start : Cursor) : Answer α → Prop where
  | read {used tokens : List Token} {stop place : Cursor} {a : α} {furthest : Option Furthest}
      (hspans : start.Spans used stop) (hword : L.Word used a) (hshort : ∀ t ∈ used, t.IsShort)
      (hlongest : Longest L start used a) (hreports : Reports L start furthest tokens place) :
      Outcome L start (.read a stop furthest)
  | failed {tokens : List Token} {place : Cursor} {furthest : Furthest}
      (hnone : ∀ ⦃other place a⦄, start.Spans other place → ¬ L.Word other a)
      (hreports : Reports L start (some furthest) tokens place) :
      Outcome L start (.failed furthest)
  | digits {tokens : List Token} {place : Cursor} {t : Token} {error : Text.DigitError}
      (hspans : start.Spans tokens place) (ht : t ∈ tokens) (hlong : ¬ t.IsShort) :
      Outcome L start (.aborted (.digits error))

namespace Outcome

variable {start : Cursor} {L : Language α}

/-- The answer may be given for another language with the same words. -/
theorem of_word_iff {K : Language α} {answer : Answer α} (h : Outcome K start answer)
    (hword : ∀ tokens a, L.Word tokens a ↔ K.Word tokens a) : Outcome L start answer := by
  have heq : L = K := by
    obtain ⟨word⟩ := L
    obtain ⟨word'⟩ := K
    congr
    exact funext fun tokens => funext fun a => propext (hword tokens a)
  rwa [heq]

/-- The longest word of two languages in sequence is the longest of the first and the longest of
the second behind it. -/
theorem longest_bind {K : α → Language β} (hgreedy : Language.Greedy L K) {used used' : List Token}
    {mid : Cursor} {a : α} {b : β} (hspans : start.Spans used mid) (hword : L.Word used a)
    (hlongest : Longest L start used a) (hlongest' : Longest (K a) mid used' b) :
    Longest (L >>= K) start (used ++ used') b := by
  rintro _ place c hother ⟨first, second, a', rfl, hfirst, hsecond⟩
  obtain ⟨mid', hmid, hrest⟩ := hother.exists_mid
  obtain ⟨⟨more, rfl⟩, heq⟩ := hlongest hmid hfirst
  rcases eq_or_ne more [] with rfl | hne
  · rw [List.append_nil] at *
    obtain rfl := hmid.eq_right hspans
    obtain rfl := heq rfl
    obtain ⟨hle, heq'⟩ := hlongest' hrest hsecond
    refine ⟨(List.prefix_append_right_inj first).2 hle, fun h => heq' ?_⟩
    exact List.append_cancel_left h
  · -- the second word is shorter than what makes the first one longer
    have hnot : ¬ more <+: second := by
      rintro ⟨rest, rfl⟩
      have hviable := Language.viable_of_word hsecond
      refine hgreedy.not_viable hfirst hword hne (hviable.of_append ?_)
      exact fun t ht => hrest.isSpelled t (List.mem_append_right more ht)
    rcases (hmid.of_append hspans).isPrefix_or_isPrefix hrest with hle | hle
    · exact absurd hle hnot
    · rw [List.append_assoc]
      refine ⟨(List.prefix_append_right_inj first).2 (hle.trans (List.prefix_append more used')),
        fun h => ?_⟩
      exact absurd ⟨used', (List.append_cancel_left h).symm⟩ hnot

/-- Where the second part of a sequence fails behind the longest word of the first, no shorter word
of the first would have helped. -/
theorem none_bind {K : α → Language β} (hgreedy : Language.Greedy L K) {used : List Token}
    {mid : Cursor} {a : α} (hspans : start.Spans used mid) (hword : L.Word used a)
    (hlongest : Longest L start used a)
    (hnone : ∀ ⦃other place b⦄, mid.Spans other place → ¬ (K a).Word other b)
    ⦃other : List Token⦄ ⦃place : Cursor⦄ ⦃b : β⦄ (hother : start.Spans other place) :
    ¬ (L >>= K).Word other b := by
  rintro ⟨first, second, a', rfl, hfirst, hsecond⟩
  obtain ⟨mid', hmid, hrest⟩ := hother.exists_mid
  obtain ⟨⟨more, rfl⟩, heq⟩ := hlongest hmid hfirst
  rcases eq_or_ne more [] with rfl | hne
  · obtain rfl := heq (List.append_nil first).symm
    rw [List.append_nil] at hspans
    exact hnone (hspans.of_append hother) hsecond
  · rcases (hmid.of_append hspans).isPrefix_or_isPrefix hrest with ⟨rest, rfl⟩ | hle
    · refine hgreedy.not_viable hfirst hword hne
        (Language.Viable.of_append (Language.viable_of_word hsecond) ?_)
      exact fun t ht => hrest.isSpelled t (List.mem_append_right more ht)
    · obtain ⟨c, hnil⟩ := hgreedy.word_nil hfirst hword hne hsecond hle
      exact hnone (.refl hspans.settled) hnil

/-- Where the first part was read, a sequence is followed as far as the first part or the second
part behind it. -/
theorem reports_bind {K : α → Language β} (hgreedy : Language.Greedy L K)
    (hK : ∀ a, (K a).HasWord) {used tokens tokens' : List Token} {mid stop stop' : Cursor} {a : α}
    {f g : Option Furthest} (hspans : start.Spans used mid) (hword : L.Word used a)
    (hlongest : Longest L start used a) (hreports : Reports L start f tokens stop)
    (hreports' : Reports (K a) mid g tokens' stop') :
    ∃ tokens stop, Reports (L >>= K) start (f.merge Furthest.merge g) tokens stop := by
  have hbehind := hreports'.behind hspans
  -- a word of the first language that is shorter than the longest one leads nowhere
  have hshorter : ∀ first second place a', start.Spans (first ++ second) place →
      L.Word first a' → (K a').Viable second → used <+: first ++ second →
      first = used ∧ a' = a := by
    intro first second place a' hother hfirst hsecond hle
    obtain ⟨mid', hmid, hrest⟩ := hother.exists_mid
    obtain ⟨⟨more, rfl⟩, heq⟩ := hlongest hmid hfirst
    rcases eq_or_ne more [] with rfl | hne
    · exact ⟨(List.append_nil first).symm, heq (List.append_nil first).symm⟩
    · obtain ⟨rest, rfl⟩ := (List.prefix_append_right_inj first).1 hle
      refine absurd (hsecond.of_append fun t ht => ?_) (hgreedy.not_viable hfirst hword hne)
      exact hrest.isSpelled t (List.mem_append_right more ht)
  have hused : used <+: tokens := hreports.longest used mid hspans (Language.viable_of_word hword)
  refine hreports.join hbehind ?_ ?_ ?_
  · rintro other (hviable | ⟨more, b, hspelled, word, heq, hword'⟩)
    · exact (Language.viable_bind_iff hK).2 (.inl hviable)
    · exact ⟨more, b, hspelled, used, word, a, heq.symm, hword, hword'⟩
  · intro other place hother hviable
    rcases (Language.viable_bind_iff hK).1 hviable with
      hviable | ⟨first, second, a', rfl, hfirst, hsecond⟩
    · exact .inl (hreports.longest other place hother hviable)
    · rcases hother.isPrefix_or_isPrefix hspans with hle | hle
      · exact .inl (hle.trans hused)
      · obtain ⟨rfl, rfl⟩ := hshorter first second place a' hother hfirst hsecond hle
        refine .inr ((List.prefix_append_right_inj first).2 ?_)
        exact hreports'.longest second place (hspans.of_append hother) hsecond
  · intro other place hother hle _ kind
    rw [Language.follows_bind_iff hK]
    refine or_congr_right ⟨?_, ?_⟩
    · rintro ⟨first, second, a', rfl, hfirst, hfollows⟩
      obtain ⟨rfl, rfl⟩ := hshorter first second place a' hother hfirst hfollows.viable
        (hused.trans hle)
      exact Language.follows_behind_iff.2 hfollows
    · intro hfollows
      obtain ⟨second, rfl⟩ := hused.trans hle
      exact ⟨used, second, a, rfl, hword, Language.follows_behind_iff.1 hfollows⟩

/-- Parsers in sequence read the languages in sequence. -/
theorem bind {K : α → Language β} {p : Parser α} {next : α → Parser β}
    (hgreedy : Language.Greedy L K) (hK : ∀ a, (K a).HasWord) (hp : Outcome L start (p start))
    (hnext : ∀ a used mid, start.Spans used mid → L.Word used a →
      Outcome (K a) mid (next a mid)) :
    Outcome (L >>= K) start ((p >>= next) start) := by
  generalize hfirst : p start = answer at hp
  cases hp with
  | @read used tokens mid place a f hspans hword hshort hlongest hreports =>
      have hsecond := hnext a used mid hspans hword
      rw [bind_of_read hfirst]
      generalize next a mid = answer at hsecond
      cases hsecond with
      | @read used' _ stop _ b g hspans' hword' hshort' hlongest' hreports' =>
          obtain ⟨_, _, hboth⟩ :=
            reports_bind hgreedy hK hspans hword hlongest hreports hreports'
          exact .read (hspans.trans hspans') ⟨used, used', a, rfl, hword, hword'⟩
            (List.forall_mem_append.2 ⟨hshort, hshort'⟩)
            (longest_bind hgreedy hspans hword hlongest hlongest') hboth
      | @failed _ _ g hnone hreports' =>
          obtain ⟨_, _, hboth⟩ :=
            reports_bind hgreedy hK hspans hword hlongest hreports hreports'
          rw [merge_some] at hboth
          exact .failed (none_bind hgreedy hspans hword hlongest hnone) hboth
      | digits hspans' ht hlong =>
          exact .digits (hspans.trans hspans') (List.mem_append_right used ht) hlong
  | failed hnone hreports =>
      rw [bind_of_failed hfirst]
      refine .failed ?_ (hreports.bind_left hK hnone)
      rintro _ place b hother ⟨first, second, a, rfl, hword, -⟩
      obtain ⟨mid, hmid, -⟩ := hother.exists_mid
      exact hnone hmid hword
  | digits hspans ht hlong =>
      rw [bind_of_aborted hfirst]
      exact .digits hspans ht hlong

/-- An ordered choice reads the words of both languages. -/
theorem orElse {K : Language α} {p q : Parser α} (hp : Outcome L start (p start))
    (hq : ∀ f, p start = .failed f → Outcome K start (q start))
    (hapart : ∀ tokens a, L.Word tokens a → ¬ K.Viable tokens) :
    Outcome (L.union K) start (orElse p q start) := by
  unfold Parser.orElse
  generalize p start = answer at hp hq
  cases hp with
  | @read used _ _ _ a _ hspans hword hshort hlongest hreports =>
      have hK := hapart used a hword
      refine .read hspans (.inl hword) hshort ?_
        (hreports.union_left hspans (Language.viable_of_word hword) hK)
      rintro other place b hother (hword' | hword')
      · exact hlongest hother hword'
      · rcases hother.isPrefix_or_isPrefix hspans with hle | ⟨more, rfl⟩
        · refine ⟨hle, fun h => ?_⟩
          rw [h] at hword'
          exact absurd (Language.viable_of_word hword') hK
        · refine absurd ((Language.viable_of_word hword').of_append fun t ht => ?_) hK
          exact hother.isSpelled t (List.mem_append_right used ht)
  | @failed _ _ f hnone hreports =>
      have hsecond := hq f rfl
      dsimp only
      generalize q start = answer at hsecond
      cases hsecond with
      | @read used _ _ _ a g hspans hword hshort hlongest hreports' =>
          obtain ⟨_, _, hboth⟩ := hreports.union hreports'
          refine .read hspans (.inr hword) hshort ?_ hboth
          rintro other place b hother (hword' | hword')
          · exact absurd hword' (hnone hother)
          · exact hlongest hother hword'
      | failed hnone' hreports' =>
          obtain ⟨_, _, hboth⟩ := hreports.union hreports'
          refine .failed ?_ hboth
          rintro other place b hother (hword | hword)
          · exact hnone hother hword
          · exact hnone' hother hword
      | digits hspans ht hlong => exact .digits hspans ht hlong
  | digits hspans ht hlong => exact .digits hspans ht hlong

/-- An ordered choice among the parsers of a family reads the words of their languages. -/
theorem choice {ι : Type} {p : ι → Parser α} {L : ι → Language α} (first : ι) (more : List ι)
    (hp : ∀ i ∈ first :: more, Outcome (L i) start (p i start))
    (hapart : (first :: more).Pairwise fun i j => (L i).Apart (L j)) :
    Outcome (.anyOf L (first :: more)) start (choice (p first) (more.map p) start) := by
  induction more generalizing first with
  | nil =>
      refine (hp first List.mem_cons_self).of_word_iff fun tokens a => ?_
      simp [Language.anyOf]
  | cons second more ih =>
      obtain ⟨hfirst, hrest⟩ := List.pairwise_cons.1 hapart
      have hmore := ih second (fun i hi => hp i (List.mem_cons_of_mem first hi)) hrest
      refine Outcome.of_word_iff (K := (L first).union (.anyOf L (second :: more))) ?_ ?_
      · refine (hp first List.mem_cons_self).orElse (fun _ _ => hmore) ?_
        rintro tokens a hword ⟨_, b, -, i, hi, hother⟩
        exact hfirst i hi hword hother (List.append_nil _).symm
      · intro tokens a
        simp [Language.anyOf, Language.union]

/-- Nothing is read, and nothing is expected. -/
theorem pure (hsettled : start.Settled) (a : α) :
    Outcome (Pure.pure a : Language α) start ((Pure.pure a : Parser α) start) := by
  have hreports : Reports (Pure.pure a : Language α) start none [] start := by
    refine ⟨.refl hsettled, (Language.hasWord_pure a).viable_nil, ?_, within_none,
      fun description => ?_⟩
    · intro other place _ hviable
      obtain rfl := Language.viable_pure_iff.1 hviable
      exact List.nil_prefix
    · refine iff_of_false List.not_mem_nil ?_
      rintro ⟨kind, -, t, -, -, hviable⟩
      cases Language.viable_pure_iff.1 hviable
  refine .read (.refl hsettled) ⟨rfl, rfl⟩ (by simp) ?_ hreports
  rintro other place b _ ⟨rfl, rfl⟩
  exact ⟨List.prefix_rfl, fun _ => rfl⟩

end Outcome

/-- The parser reads the language at every place before fewer than so many characters. -/
structure Exact (limit : Nat) (p : Parser α) (L : Language α) : Prop where
  outcome : ∀ start, start.Settled → start.rest.length < limit → Outcome L start (p start)
  hasWord : L.HasWord

section Exact

variable {limit : Nat} {p q : Parser α} {L K : Language α}

/-- Reading nothing is exact. -/
theorem exact_pure (limit : Nat) (a : α) : Exact limit (pure a) (pure a) where
  outcome _ hsettled _ := .pure hsettled a
  hasWord := Language.hasWord_pure a

/-- Parsers in sequence read the languages in sequence. -/
theorem Exact.bind {next : α → Parser β} {K : α → Language β} (hp : Exact limit p L)
    (hgreedy : Language.Greedy L K) (hnext : ∀ a, Exact limit (next a) (K a)) :
    Exact limit (p >>= next) (L >>= K) where
  outcome start hsettled hlimit :=
    (hp.outcome start hsettled hlimit).bind hgreedy (fun a => (hnext a).hasWord)
      fun a _ mid hspans _ =>
        (hnext a).outcome mid hspans.settled (Nat.lt_of_le_of_lt hspans.length_le hlimit)
  hasWord := hp.hasWord.bind fun a => (hnext a).hasWord

/-- Behind a word that takes a token, there are fewer characters. -/
theorem Exact.bind_succ {next : α → Parser β} {K : α → Language β} (hp : Exact (limit + 1) p L)
    (hne : ∀ tokens a, L.Word tokens a → tokens ≠ []) (hgreedy : Language.Greedy L K)
    (hnext : ∀ a, Exact limit (next a) (K a)) : Exact (limit + 1) (p >>= next) (L >>= K) where
  outcome start hsettled hlimit := by
    refine (hp.outcome start hsettled hlimit).bind hgreedy (fun a => (hnext a).hasWord)
      fun a used mid hspans hword => (hnext a).outcome mid hspans.settled ?_
    have hlt := hspans.lexes.length_lt (hne used a hword)
    omega
  hasWord := hp.hasWord.bind fun a => (hnext a).hasWord

/-- An ordered choice is exact if no word of the first language begins one of the second. -/
theorem Exact.orElse (hp : Exact limit p L) (hq : Exact limit q K)
    (hapart : ∀ tokens a, L.Word tokens a → ¬ K.Viable tokens) :
    Exact limit (orElse p q) (L.union K) where
  outcome start hsettled hlimit :=
    (hp.outcome start hsettled hlimit).orElse (fun _ _ => hq.outcome start hsettled hlimit) hapart
  hasWord := hp.hasWord.union_left

/-- It is the words that a parser is exact for. -/
theorem Exact.of_word_iff (h : Exact limit p K)
    (hword : ∀ tokens a, L.Word tokens a ↔ K.Word tokens a) : Exact limit p L where
  outcome start hsettled hlimit := (h.outcome start hsettled hlimit).of_word_iff hword
  hasWord := by
    obtain ⟨tokens, a, hspelled, h⟩ := h.hasWord
    exact ⟨tokens, a, hspelled, (hword tokens a).2 h⟩

end Exact

/-! ## Repetitions -/

/-- A repetition never fails: where nothing can be read, it reads nothing. -/
theorem manyUpTo_ne_failed (p : Parser α) (n : Nat) (pos : Cursor) (f : Furthest) :
    manyUpTo p n pos ≠ .failed f := by
  induction n generalizing pos f with
  | zero => simp [manyUpTo]
  | succ n ih =>
      rw [manyUpTo]
      cases p pos with
      | read value stop furthest =>
          dsimp only
          cases hmore : manyUpTo p n stop with
          | read values stop' furthest' => simp [Answer.map, Answer.aggregate]
          | failed g => exact absurd hmore (ih stop g)
          | aborted reason => simp [Answer.map, Answer.aggregate]
      | failed g => simp
      | aborted reason => simp

/-- A repetition is a choice between one more reading and nothing. -/
theorem manyUpTo_succ (p : Parser α) (n : Nat) :
    manyUpTo p (n + 1) =
      orElse
        (do let a ← p
            let as ← manyUpTo p n
            return a :: as)
        (pure []) := by
  funext pos
  rw [manyUpTo]
  simp only [orElse, bind]
  cases p pos with
  | read value stop furthest =>
      dsimp only
      cases hmore : manyUpTo p n stop with
      | read values stop' furthest' => simp [pure, Answer.map, Answer.aggregate]
      | failed f => exact absurd hmore (manyUpTo_ne_failed p n stop f)
      | aborted reason => rfl
  | failed furthest => rfl
  | aborted reason => rfl

/-- A repetition that ends with the first failure reads the repetition of a language in which no
word is the beginning of another. -/
theorem Exact.many {limit : Nat} {p : Parser α} {L : Language α} (hp : Exact limit p L)
    (hfree : L.PrefixFree) (hne : ∀ tokens a, L.Word tokens a → tokens ≠ []) :
    Exact limit (many p) L.star where
  outcome start hsettled hlimit := by
    suffices h : ∀ n start, start.Settled → start.rest.length < limit → start.rest.length < n →
        Outcome L.star start (manyUpTo p n start) from
      h _ start hsettled hlimit (Nat.lt_succ_self _)
    intro n
    induction n with
    | zero => exact fun _ _ _ hn => absurd hn (Nat.not_lt_zero _)
    | succ n ih =>
        intro start hsettled hlimit hn
        rw [manyUpTo_succ]
        refine Outcome.of_word_iff ?_ fun _ _ => Language.word_star_iff
        refine Outcome.orElse ?_ (fun _ _ => .pure hsettled []) ?_
        · refine (hp.outcome start hsettled hlimit).bind (hfree.greedy _)
            (fun a => (Language.hasWord_star L).bind fun as => Language.hasWord_pure _) ?_
          intro a used mid hspans hword
          -- what was read took a character, so the fuel that is left is enough
          have hlt := hspans.lexes.length_lt (hne used a hword)
          have hmore := ih mid hspans.settled (by omega) (by omega)
          exact hmore.bind (Language.greedy_pure _ _) (fun as => Language.hasWord_pure _)
            fun as _ stop hstop _ => .pure hstop.settled _
        · rintro _ _ ⟨first, second, a, rfl, hfirst, -⟩ hviable
          exact hne first a hfirst (List.append_eq_nil_iff.1 (Language.viable_pure_iff.1 hviable)).1
  hasWord := Language.hasWord_star L

end Parser
end LetPoly
