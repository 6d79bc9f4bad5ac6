import LetPoly.Polymorphism
import Mathlib.Data.List.Nodup
import Mathlib.Data.List.Shortlex

/-!
# The names in normal forms

Variables in normal forms are called by words over the lower-case letters.  The words are
numbered, which tells them apart and puts them in order: shorter words come first, and words
of one length come in the order of the alphabet.

Main results:

- Theorem {lit}`nodup_letterNames`: the names are distinct.
- Theorem {lit}`before_iff_wordNumber_lt`: the order of the words is the order of their
  numbers.
- Theorem {lit}`firstLetterNames_letterNames`: the names are the first words of all.
-/

namespace LetPoly

/-! ## Numbers of words -/

/-- The number of a word over the lower-case letters, last letter first. -/
def wordNumber : List Char → Nat
  | [] => 0
  | c :: rest => c.toNat - 96 + 26 * wordNumber rest

/-- A word of lower-case letters. -/
def IsLowerWord (word : List Char) : Prop :=
  ∀ c ∈ word, 97 ≤ c.toNat ∧ c.toNat ≤ 122

theorem isLowerWord_cons {c : Char} {rest : List Char} :
    IsLowerWord (c :: rest) ↔ (97 ≤ c.toNat ∧ c.toNat ≤ 122) ∧ IsLowerWord rest :=
  List.forall_mem_cons

private theorem toNat_succ {c : Char} (h : c.toNat < 122) :
    (Char.ofNat (c.toNat + 1)).toNat = c.toNat + 1 := by
  have hvalid : (c.toNat + 1).isValidChar := Or.inl (by omega)
  rw [Char.ofNat, dif_pos hvalid]
  rfl

/-- The next word consists of lower-case letters again and has the next number. -/
theorem nextWord_spec {word : List Char} (h : IsLowerWord word) :
    IsLowerWord (nextWord word) ∧ wordNumber (nextWord word) = wordNumber word + 1 := by
  induction word with
  | nil => simp [IsLowerWord, nextWord, wordNumber]
  | cons c rest ih =>
      obtain ⟨hc, hrest⟩ := isLowerWord_cons.1 h
      obtain ⟨ihlower, ihnumber⟩ := ih hrest
      by_cases hz : c = 'z'
      · subst hz
        simp only [nextWord, if_true]
        refine ⟨?_, ?_⟩
        · intro d hd
          rcases List.mem_cons.1 hd with rfl | hd
          · decide
          · exact ihlower d hd
        · simp only [wordNumber, ihnumber]
          have ha : 'a'.toNat = 97 := rfl
          have hz : 'z'.toNat = 122 := rfl
          omega
      · have hlt : c.toNat < 122 := by
          have hne : c.toNat ≠ 122 := fun heq => hz (Char.toNat_inj.1 heq)
          omega
        simp only [nextWord, if_neg hz]
        refine ⟨?_, ?_⟩
        · intro d hd
          rcases List.mem_cons.1 hd with rfl | hd
          · rw [toNat_succ hlt]
            omega
          · exact hrest d hd
        · simp only [wordNumber, toNat_succ hlt]
          omega

/-- The words are numbered from one on. -/
theorem wordAt_spec (number : Nat) :
    IsLowerWord (wordAt number) ∧ wordNumber (wordAt number) = number + 1 := by
  induction number with
  | zero => exact ⟨by simp [IsLowerWord, wordAt], rfl⟩
  | succ number ih =>
      obtain ⟨hlower, hnumber⟩ := nextWord_spec ih.1
      exact ⟨hlower, by rw [wordAt, hnumber, ih.2]⟩

@[simp] theorem length_letterNames (count : Nat) : (letterNames count).length = count := by
  simp [letterNames]

/-- The names in normal forms are distinct. -/
theorem nodup_letterNames (count : Nat) : (letterNames count).Nodup := by
  refine List.Nodup.map ?_ List.nodup_range
  intro m n heq
  have hword : wordAt m = wordAt n :=
    List.reverse_injective (String.ofList_injective heq)
  have hnumber : wordNumber (wordAt m) = wordNumber (wordAt n) := congrArg wordNumber hword
  rw [(wordAt_spec m).2, (wordAt_spec n).2] at hnumber
  omega

/-! ## Order of words -/

/-- A word comes before another one when it is shorter, or as long and earlier in the
alphabet. -/
def WordBefore (v w : List Char) : Prop :=
  List.Shortlex (fun c d => c.toNat < d.toNat) v w

/-- Of two different words one comes before the other. -/
theorem eq_or_before (v w : List Char) : v = w ∨ WordBefore v w ∨ WordBefore w v := by
  have hletters : Std.Trichotomous fun c d : Char => c.toNat < d.toNat :=
    ⟨fun c d hcd hdc => Char.toNat_inj.1 (by omega)⟩
  by_cases hvw : WordBefore v w
  · exact Or.inr (Or.inl hvw)
  · by_cases hwv : WordBefore w v
    · exact Or.inr (Or.inr hwv)
    · exact Or.inl (List.Shortlex.trichotomous.trichotomous v w hvw hwv)

/-- The number of a word that goes on from a numbered one by a letter. -/
def addLetter (number : Nat) (c : Char) : Nat :=
  c.toNat - 96 + 26 * number

/-- The number of a word is worked out from its first letter on. -/
theorem wordNumber_reverse (word : List Char) :
    wordNumber word.reverse = word.foldl addLetter 0 := by
  have hfoldr : ∀ letters, wordNumber letters =
      letters.foldr (fun c number => addLetter number c) 0 := by
    intro letters
    induction letters with
    | nil => rfl
    | cons c rest ih => rw [wordNumber, ih, List.foldr_cons, addLetter]
  rw [hfoldr, List.foldr_reverse]

/-- Letters make the number larger. -/
theorem lt_foldl_addLetter {word : List Char} (h : IsLowerWord word) (hne : word ≠ [])
    (number : Nat) : number < word.foldl addLetter number := by
  induction word generalizing number with
  | nil => exact absurd rfl hne
  | cons c rest ih =>
      obtain ⟨hc, hrest⟩ := isLowerWord_cons.1 h
      have hstep : number < addLetter number c := by
        unfold addLetter
        omega
      rw [List.foldl_cons]
      by_cases hnil : rest = []
      · rw [hnil]
        exact hstep
      · have hlt := ih hrest hnil (addLetter number c)
        omega

/-- Of two words of one length, the one that goes on from a smaller number has the smaller
number: a letter counts less than a place further to the left. -/
theorem foldl_addLetter_lt {v w : List Char} (hv : IsLowerWord v) (hw : IsLowerWord w)
    (hlength : v.length = w.length) {m n : Nat} (h : m < n) :
    v.foldl addLetter m < w.foldl addLetter n := by
  induction v generalizing w m n with
  | nil =>
      rw [List.length_eq_zero_iff.1 hlength.symm]
      exact h
  | cons c v ih =>
      cases w with
      | nil => cases hlength
      | cons d w =>
          obtain ⟨hc, hv⟩ := isLowerWord_cons.1 hv
          obtain ⟨hd, hw⟩ := isLowerWord_cons.1 hw
          have hstep : addLetter m c < addLetter n d := by
            unfold addLetter
            omega
          exact ih hv hw (by simpa using hlength) hstep

theorem foldl_addLetter_lt_of_lex {v w : List Char} (hv : IsLowerWord v) (hw : IsLowerWord w)
    (hlength : v.length = w.length) (h : List.Lex (fun c d => c.toNat < d.toNat) v w)
    (number : Nat) : v.foldl addLetter number < w.foldl addLetter number := by
  induction h generalizing number with
  | nil => cases hlength
  | cons _ ih =>
      exact ih (isLowerWord_cons.1 hv).2 (isLowerWord_cons.1 hw).2 (by simpa using hlength) _
  | @rel c v d w hcd =>
      obtain ⟨hc, hv⟩ := isLowerWord_cons.1 hv
      have hstep : addLetter number c < addLetter number d := by
        unfold addLetter
        omega
      exact foldl_addLetter_lt hv (isLowerWord_cons.1 hw).2 (by simpa using hlength) hstep

theorem foldl_addLetter_lt_of_before {v w : List Char} (hv : IsLowerWord v)
    (hw : IsLowerWord w) (h : WordBefore v w) :
    v.foldl addLetter 0 < w.foldl addLetter 0 := by
  rcases List.shortlex_def.1 h with hlt | ⟨hlength, hlex⟩
  · -- the letters that the longer word has in front already make its number larger
    have hsplit : w = w.take (w.length - v.length) ++ w.drop (w.length - v.length) :=
      (List.take_append_drop _ w).symm
    have hfront : w.take (w.length - v.length) ≠ [] := by
      intro hnil
      have hzero := congrArg List.length hnil
      rw [List.length_take, List.length_nil] at hzero
      omega
    have hpos : 0 < (w.take (w.length - v.length)).foldl addLetter 0 :=
      lt_foldl_addLetter (fun c hc => hw c (List.mem_of_mem_take hc)) hfront 0
    have hback : v.length = (w.drop (w.length - v.length)).length := by
      rw [List.length_drop]
      omega
    rw [hsplit, List.foldl_append]
    exact foldl_addLetter_lt hv (fun c hc => hw c (List.mem_of_mem_drop hc)) hback hpos
  · exact foldl_addLetter_lt_of_lex hv hw hlength hlex 0

/-- The order of the words is the order of their numbers. -/
theorem before_iff_wordNumber_lt {v w : List Char} (hv : IsLowerWord v) (hw : IsLowerWord w) :
    WordBefore v w ↔ wordNumber v.reverse < wordNumber w.reverse := by
  rw [wordNumber_reverse, wordNumber_reverse]
  constructor
  · exact foldl_addLetter_lt_of_before hv hw
  · intro hlt
    rcases eq_or_before v w with heq | hbefore | hafter
    · rw [heq] at hlt
      omega
    · exact hbefore
    · have hgt := foldl_addLetter_lt_of_before hw hv hafter
      omega

/-- Different words have different numbers. -/
theorem eq_of_wordNumber_eq {v w : List Char} (hv : IsLowerWord v) (hw : IsLowerWord w)
    (h : wordNumber v.reverse = wordNumber w.reverse) : v = w := by
  rcases eq_or_before v w with heq | hbefore | hafter
  · exact heq
  · have hlt := (before_iff_wordNumber_lt hv hw).1 hbefore
    omega
  · have hlt := (before_iff_wordNumber_lt hw hv).1 hafter
    omega

/-- A name that is a nonempty word over the lower-case letters. -/
def IsLetterName (name : String) : Prop :=
  name.toList ≠ [] ∧ IsLowerWord name.toList

/-- The first nonempty words over the lower-case letters, ordered by length and then
alphabetically. -/
structure FirstLetterNames (names : List String) : Prop where
  /-- Only such words are listed. -/
  letters : ∀ name ∈ names, IsLetterName name
  /-- They are listed in order, and so none is listed twice. -/
  sorted : names.Pairwise fun a b => WordBefore a.toList b.toList
  /-- Every word that is not listed comes after all that are. -/
  first : ∀ word, IsLetterName word → word ∉ names → ∀ name ∈ names,
    WordBefore name.toList word.toList

theorem isLowerWord_reverse_wordAt (number : Nat) : IsLowerWord (wordAt number).reverse :=
  fun c hc => (wordAt_spec number).1 c (List.mem_reverse.1 hc)

theorem wordNumber_wordAt (number : Nat) :
    wordNumber (wordAt number).reverse.reverse = number + 1 := by
  rw [List.reverse_reverse, (wordAt_spec number).2]

/-- The names in normal forms are the first words over the lower-case letters. -/
theorem firstLetterNames_letterNames (count : Nat) : FirstLetterNames (letterNames count) := by
  have hlower := isLowerWord_reverse_wordAt
  have hnumber := wordNumber_wordAt
  unfold letterNames
  constructor
  · intro name hname
    obtain ⟨number, -, rfl⟩ := List.mem_map.1 hname
    rw [IsLetterName, String.toList_ofList]
    refine ⟨?_, hlower number⟩
    intro hnil
    have hzero := hnumber number
    rw [hnil] at hzero
    exact absurd hzero (by simp [wordNumber])
  · rw [List.pairwise_map]
    refine List.pairwise_lt_range.imp ?_
    intro m n hmn
    rw [String.toList_ofList, String.toList_ofList,
      before_iff_wordNumber_lt (hlower m) (hlower n), hnumber, hnumber]
    omega
  · intro word hword hnot name hname
    obtain ⟨number, hmem, rfl⟩ := List.mem_map.1 hname
    have hlt : number < count := List.mem_range.1 hmem
    rw [String.toList_ofList, before_iff_wordNumber_lt (hlower number) hword.2, hnumber]
    -- the word has a number, and the words with smaller numbers are listed
    have hpos : 0 < wordNumber word.toList.reverse := by
      rw [wordNumber_reverse]
      exact lt_foldl_addLetter hword.2 hword.1 0
    by_contra hle
    refine hnot (List.mem_map.2 ⟨wordNumber word.toList.reverse - 1, ?_, ?_⟩)
    · rw [List.mem_range]
      omega
    · have hsame : (wordAt (wordNumber word.toList.reverse - 1)).reverse = word.toList := by
        refine eq_of_wordNumber_eq (hlower _) hword.2 ?_
        rw [hnumber]
        omega
      rw [hsame, String.ofList_toList]

end LetPoly
