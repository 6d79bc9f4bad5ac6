import LetPoly.ParseReport
import LetPoly.Proofs.Reading.JoinedLines
import Mathlib.Data.List.GetD

/-!
# What a report of a parse error shows

A report names the line and the column of an index, shows the line and puts a caret under the
index.  The line and the column are counted by newlines.  The line that is shown is taken from the
wide splitting, which has further line ends and so may have other lines under the same number.

The line is the right one when all line ends before it are newlines, alone or behind a carriage
return, and when nothing but blanks follows the first line end inside of it.  If there is another
line end before it, an earlier line is shown.

Main results:

- Theorem {lit}`Text.LineOf.positionAt_eq`: the position of an index, by the line it is in.
- Theorem {lit}`Text.LineOf.lineAt_eq_takeWhile`: the line that is shown behind newlines.
- Theorem {lit}`ParseError.message_points_at_index`: what the three lines of a report are.
- Theorem {lit}`ParseError.message_misses_line_after_formFeed`: a report that shows another line.
-/

namespace LetPoly

namespace Text

/-! ## The line of an index -/

/-- The text is empty or ends with a newline. -/
def EndsLine (cs : List Char) : Prop :=
  ∀ c ∈ cs.getLast?, c = '\n'

/-- What ends with a newline does so without its first character. -/
theorem EndsLine.tail {c : Char} {cs : List Char} (h : EndsLine (c :: cs)) : EndsLine cs := by
  intro d hd
  cases cs with
  | nil => cases hd
  | cons first rest => exact h d (by rwa [List.getLast?_cons_cons])

/-- A character other than a newline is not the end. -/
theorem EndsLine.tail_ne_nil {c : Char} {cs : List Char} (h : EndsLine (c :: cs))
    (hc : c ≠ '\n') : cs ≠ [] := by
  rintro rfl
  exact hc (h c rfl)

/-- The line of an index: the characters between the last newline before the index and the next
newline, with what stands before and after them. -/
structure LineOf (cs : List Char) (index : Nat) (before line after : List Char) : Prop where
  chars_eq : cs = before ++ (line ++ after)
  no_newline : '\n' ∉ line
  starts : EndsLine before
  ends : ∀ c ∈ after.head?, c = '\n'
  start_le : before.length ≤ index
  le_end : index ≤ before.length + line.length

/-- A text up to its first newline. -/
theorem exists_first_line (cs : List Char) :
    ∃ line after, cs = line ++ after ∧ '\n' ∉ line ∧ ∀ c ∈ after.head?, c = '\n' := by
  refine ⟨cs.takeWhile fun c => c != '\n', cs.dropWhile fun c => c != '\n',
    List.takeWhile_append_dropWhile.symm, fun h => ?_, fun c hc => ?_⟩
  · simpa using List.mem_takeWhile_imp h
  · have hstop := List.head?_dropWhile_not (fun c => c != '\n') cs
    rw [Option.mem_def.1 hc] at hstop
    simpa using hstop

/-- A text from its last newline on. -/
theorem exists_last_line (cs : List Char) :
    ∃ before line, cs = before ++ line ∧ '\n' ∉ line ∧ EndsLine before := by
  obtain ⟨line, before, hcs, hline, hbefore⟩ := exists_first_line cs.reverse
  refine ⟨before.reverse, line.reverse, ?_, by simpa using hline, by simpa [EndsLine] using hbefore⟩
  rw [← List.reverse_append, ← hcs, List.reverse_reverse]

/-- Every index of a text is in a line. -/
theorem exists_lineOf {cs : List Char} {index : Nat} (h : index ≤ cs.length) :
    ∃ before line after, LineOf cs index before line after := by
  obtain ⟨before, line, hbefore, hline, hstarts⟩ := exists_last_line (cs.take index)
  obtain ⟨line', after, hafter, hline', hends⟩ := exists_first_line (cs.drop index)
  have hlength := congrArg List.length hbefore
  rw [List.length_take, Nat.min_eq_left h, List.length_append] at hlength
  refine ⟨before, line ++ line', after, ?_, ?_, hstarts, hends, by omega, ?_⟩
  · rw [List.append_assoc, ← List.append_assoc, ← hbefore, ← hafter, List.take_append_drop]
  · exact fun hmem => (List.mem_append.1 hmem).elim hline hline'
  · rw [List.length_append]
    omega

namespace LineOf

variable {text : String} {index : Nat} {before line after : List Char}

/-- A position is the number of newlines before the line and the distance from its start. -/
theorem positionAt_eq (h : LineOf text.toList index before line after) :
    positionAt text index = ⟨before.count '\n', index - before.length⟩ := by
  have htake : text.toList.take index = before ++ line.take (index - before.length) := by
    have hline : index - before.length ≤ line.length := by
      have := h.le_end
      omega
    rw [h.chars_eq, List.take_append, List.take_of_length_le h.start_le,
      List.take_append_of_le_length hline]
  have hnewline : '\n' ∉ line.take (index - before.length) :=
    fun hmem => h.no_newline (List.mem_of_mem_take hmem)
  have hcolumn : ((text.toList.take index).reverse.takeWhile fun c => c != '\n') =
      (line.take (index - before.length)).reverse := by
    rw [htake, List.reverse_append, List.takeWhile_append_of_pos]
    · have hstop : (before.reverse.takeWhile fun c => c != '\n') = [] := by
        cases hbefore : before.reverse with
        | nil => rfl
        | cons c cs =>
            have hlast : before.getLast? = some c := by rw [← List.head?_reverse, hbefore]; rfl
            obtain rfl : c = '\n' := h.starts c hlast
            simp
      rw [hstop, List.append_nil]
    · intro c hc
      simpa using fun heq : c = '\n' => hnewline (heq ▸ List.mem_reverse.1 hc)
  have hlength : (line.take (index - before.length)).length = index - before.length := by
    have := h.le_end
    rw [List.length_take]
    omega
  unfold positionAt
  simp only [hcolumn, List.length_reverse, hlength]
  rw [htake, List.count_append, List.count_eq_zero.2 hnewline, Nat.add_zero]

end LineOf

/-! ## The wide splitting -/

/-- Every line end is a newline or a carriage return right before one. -/
def NewlinesOnly : List Char → Prop
  | [] => True
  | c :: rest =>
      (isLineEnd c = true → c = '\n' ∨ c = '\r' ∧ rest.head? = some '\n') ∧ NewlinesOnly rest

instance decidableNewlinesOnly : (cs : List Char) → Decidable (NewlinesOnly cs)
  | [] => inferInstanceAs (Decidable True)
  | _ :: rest =>
      have := decidableNewlinesOnly rest
      inferInstanceAs (Decidable (_ ∧ _))

/-- A line end other than a carriage return before a newline ends one line. -/
theorem splitLines_lineEnd {c : Char} {rest : List Char} (hc : isLineEnd c = true)
    (hpair : ¬ (c = '\r' ∧ rest.head? = some '\n')) :
    splitLines (c :: rest) = [] :: splitLines rest := by
  rw [splitLines]
  · rw [if_pos hc]
  · rintro tail rfl rfl
    exact hpair ⟨rfl, rfl⟩

/-- A text that is not empty has a line. -/
theorem splitLines_ne_nil {cs : List Char} (h : cs ≠ []) : splitLines cs ≠ [] := by
  fun_cases splitLines cs with
  | case1 => exact absurd rfl h
  | _ => simp [*]

/-- The first line goes on to the first line end. -/
theorem headD_splitLines (cs : List Char) :
    (splitLines cs).headD [] = cs.takeWhile fun c => !isLineEnd c := by
  fun_induction splitLines cs with
  | case1 => rfl
  | case2 rest ih => rfl
  | case3 c rest hpair hc ih => simp [hc]
  | case4 c rest hpair hc hrest ih =>
      rw [hrest] at ih
      simp_all
  | case5 c rest hpair hc line lines hrest ih =>
      rw [hrest] at ih
      simp_all

/-- Lines have no line ends in them. -/
theorem isLineEnd_splitLines (cs : List Char) :
    ∀ line ∈ splitLines cs, ∀ c ∈ line, isLineEnd c = false := by
  fun_induction splitLines cs with
  | case1 => simp
  | case2 rest ih => exact List.forall_mem_cons.2 ⟨by simp, ih⟩
  | case3 c rest hpair hc ih => exact List.forall_mem_cons.2 ⟨by simp, ih⟩
  | case4 c rest hpair hc hrest ih => simpa using hc
  | case5 c rest hpair hc line lines hrest ih =>
      rw [hrest] at ih
      obtain ⟨hline, hlines⟩ := List.forall_mem_cons.1 ih
      exact List.forall_mem_cons.2 ⟨List.forall_mem_cons.2 ⟨by simpa using hc, hline⟩, hlines⟩

/-- There is no newline in a line that is shown. -/
theorem newline_notMem_lineAt (text : String) (number : Nat) : '\n' ∉ lineAt text number := by
  intro hmem
  rw [lineAt, List.getD_eq_getElem?_getD] at hmem
  cases hline : (splitLines text.toList)[number]? with
  | none => simp [hline] at hmem
  | some line =>
      rw [hline] at hmem
      exact absurd (isLineEnd_splitLines _ line (List.mem_of_getElem? hline) _ hmem) (by decide)

/-- A newline is a line end. -/
theorem ne_newline_of_not_isLineEnd {c : Char} (h : ¬ isLineEnd c = true) : c ≠ '\n' := by
  rintro rfl
  exact h (by decide)

/-- A text is split in parts behind a newline. -/
theorem splitLines_append {before : List Char} (h : EndsLine before) (rest : List Char) :
    splitLines (before ++ rest) = splitLines before ++ splitLines rest := by
  fun_induction splitLines before with
  | case1 => rfl
  | case2 tail ih =>
      change [] :: splitLines (tail ++ rest) = _
      rw [ih h.tail.tail]
      rfl
  | case3 c tail hpair hc ih =>
      have hhead : ¬ (c = '\r' ∧ (tail ++ rest).head? = some '\n') := by
        rintro ⟨rfl, hnewline⟩
        obtain ⟨first, tail, rfl⟩ := List.exists_cons_of_ne_nil (h.tail_ne_nil (by decide))
        exact hpair tail rfl (by simpa using hnewline)
      rw [List.cons_append, splitLines_lineEnd hc hhead, ih h.tail, List.cons_append]
  | case4 c tail hpair hc htail ih =>
      exact absurd htail (splitLines_ne_nil (h.tail_ne_nil (ne_newline_of_not_isLineEnd hc)))
  | case5 c tail hpair hc line lines htail ih =>
      rw [List.cons_append, splitLines_cons (by simpa using hc), ih h.tail, htail]
      rfl

/-- The splitting has a line for every newline.  It has no more of them when all line ends are
newlines, alone or behind a carriage return. -/
theorem length_splitLines {before : List Char} (h : EndsLine before) :
    before.count '\n' ≤ (splitLines before).length ∧
      ((splitLines before).length = before.count '\n' ↔ NewlinesOnly before) := by
  fun_induction splitLines before with
  | case1 => simp [NewlinesOnly]
  | case2 tail ih =>
      obtain ⟨hle, hiff⟩ := ih h.tail.tail
      simp [NewlinesOnly, hle, hiff]
  | case3 c tail hpair hc ih =>
      obtain ⟨hle, hiff⟩ := ih h.tail
      have hhead : ¬ (c = '\r' ∧ tail.head? = some '\n') := by
        rintro ⟨rfl, hhead⟩
        obtain ⟨rest, rfl⟩ := List.head?_eq_some_iff.1 hhead
        exact hpair rest rfl rfl
      by_cases hnewline : c = '\n'
      · subst hnewline
        simp [NewlinesOnly, hle, hiff]
      · have hcount : (c :: tail).count '\n' = tail.count '\n' := List.count_cons_of_ne hnewline
        have hnot : ¬ NewlinesOnly (c :: tail) := fun honly => (honly.1 hc).elim hnewline hhead
        rw [hcount, List.length_cons]
        exact ⟨by omega, fun heq => by omega, fun honly => absurd honly hnot⟩
  | case4 c tail hpair hc htail ih =>
      exact absurd htail (splitLines_ne_nil (h.tail_ne_nil (ne_newline_of_not_isLineEnd hc)))
  | case5 c tail hpair hc line lines htail ih =>
      obtain ⟨hle, hiff⟩ := ih h.tail
      rw [htail] at hle hiff
      have hcount : (c :: tail).count '\n' = tail.count '\n' :=
        List.count_cons_of_ne (ne_newline_of_not_isLineEnd hc)
      have honly : NewlinesOnly (c :: tail) ↔ NewlinesOnly tail :=
        ⟨And.right, fun hrest => ⟨fun hend => absurd hend hc, hrest⟩⟩
      rw [hcount, honly]
      exact ⟨hle, hiff⟩

/-! ## The line that is shown -/

namespace LineOf

variable {text : String} {index : Nat} {before line after : List Char}

/-- The first line end behind the start of a line lies in it, or directly behind it. -/
theorem takeWhile_line_append (h : LineOf text.toList index before line after) :
    (line ++ after).takeWhile (fun c => !isLineEnd c) = line.takeWhile fun c => !isLineEnd c := by
  have hafter : (after.takeWhile fun c => !isLineEnd c) = [] := by
    cases after with
    | nil => rfl
    | cons c after =>
        obtain rfl : c = '\n' := h.ends c rfl
        rfl
  rw [List.takeWhile_append, hafter]
  split_ifs with hall
  · rw [List.append_nil, (List.takeWhile_prefix _).eq_of_length hall]
  · rfl

/-- Behind newlines, the line is shown up to the first line end in it. -/
theorem lineAt_eq_takeWhile (h : LineOf text.toList index before line after)
    (honly : NewlinesOnly before) :
    lineAt text (before.count '\n') = line.takeWhile fun c => !isLineEnd c := by
  have hlength := (length_splitLines h.starts).2.2 honly
  rw [lineAt, h.chars_eq, splitLines_append h.starts, ← hlength,
    List.getD_append_right _ _ _ _ (Nat.le_refl _), Nat.sub_self, ← h.takeWhile_line_append,
    ← headD_splitLines]
  cases splitLines (line ++ after) <;> rfl

/-- Behind another line end, an earlier line is shown. -/
theorem lineAt_mem_before (h : LineOf text.toList index before line after)
    (honly : ¬ NewlinesOnly before) : lineAt text (before.count '\n') ∈ splitLines before := by
  obtain ⟨hle, hiff⟩ := length_splitLines h.starts
  have hlt : before.count '\n' < (splitLines before).length :=
    Nat.lt_of_le_of_ne hle fun heq => honly (hiff.1 heq.symm)
  rw [lineAt, h.chars_eq, splitLines_append h.starts, List.getD_append _ _ _ _ hlt,
    List.getD_eq_getElem _ _ hlt]
  exact List.getElem_mem hlt

end LineOf

/-! ## Blanks at the end -/

/-- Trimming adds nothing. -/
theorem length_trimEnd_le (cs : List Char) : (trimEnd cs).length ≤ cs.length := by
  have hle := (List.dropWhile_suffix isBlank (l := cs.reverse)).length_le
  simpa [trimEnd] using hle

/-- What is left after trimming was there before. -/
theorem mem_of_mem_trimEnd {c : Char} {cs : List Char} (h : c ∈ trimEnd cs) : c ∈ cs :=
  List.mem_reverse.1 ((List.dropWhile_suffix isBlank).subset (List.mem_reverse.1 h))

/-- What follows is not seen when it is blank. -/
theorem trimEnd_eq_trimEnd_append_iff {cs more : List Char} :
    trimEnd cs = trimEnd (cs ++ more) ↔ ∀ c ∈ more, isBlank c = true := by
  constructor
  · intro h
    by_contra hnot
    have hmore : (more.reverse.dropWhile isBlank).isEmpty = false := by
      rw [List.isEmpty_eq_false_iff, Ne, List.dropWhile_eq_nil_iff]
      simpa using hnot
    have hpos := List.length_pos_iff.2 (List.isEmpty_eq_false_iff.1 hmore)
    have hle := length_trimEnd_le cs
    rw [h, trimEnd, List.reverse_append, List.dropWhile_append, hmore] at hle
    simp only [Bool.false_eq_true, if_false, List.length_reverse, List.length_append] at hle
    omega
  · intro h
    rw [trimEnd, trimEnd, List.reverse_append, List.dropWhile_append_of_pos]
    exact fun c hc => h c (List.mem_reverse.1 hc)

/-- A part of a line is shown as the line is when the rest is blank. -/
theorem trimEnd_takeWhile_eq_iff (p : Char → Bool) (cs : List Char) :
    trimEnd (cs.takeWhile p) = trimEnd cs ↔ ∀ c ∈ cs.dropWhile p, isBlank c = true := by
  rw [← trimEnd_eq_trimEnd_append_iff, List.takeWhile_append_dropWhile]

/-! ## Texts without newlines -/

theorem newline_notMem_append {first second : String} (hfirst : '\n' ∉ first.toList)
    (hsecond : '\n' ∉ second.toList) : '\n' ∉ (first ++ second).toList := by
  rw [String.toList_append, List.mem_append]
  exact not_or.2 ⟨hfirst, hsecond⟩

theorem newline_notMem_intercalate {separator : String} (hseparator : '\n' ∉ separator.toList)
    {texts : List String} (htexts : ∀ text ∈ texts, '\n' ∉ text.toList) :
    '\n' ∉ (separator.intercalate texts).toList := by
  induction texts with
  | nil => simp
  | cons first texts ih =>
      obtain ⟨hfirst, hrest⟩ := List.forall_mem_cons.1 htexts
      cases texts with
      | nil => simpa using hfirst
      | cons second texts =>
          rw [String.intercalate_cons_cons]
          exact newline_notMem_append (newline_notMem_append hfirst hseparator) (ih hrest)

/-- Numbers are written without newlines. -/
theorem newline_notMem_toString (n : Nat) : '\n' ∉ (toString n).toList := by
  change '\n' ∉ n.repr.toList
  rw [Nat.toList_repr]
  intro h
  exact absurd (Nat.isDigit_of_mem_toDigits (by decide) (by decide) h) (by decide)

end Text

/-- Tokens are described without newlines. -/
theorem TokenKind.newline_notMem_text (kind : TokenKind) : '\n' ∉ kind.text.toList := by
  cases kind with
  | prim p => cases p <;> decide
  | keyword k => cases k <;> decide
  | _ => decide

/-! ## Reports -/

namespace ParseError

variable {text : String} {error : ParseError}

/-- One of the parsers rejects the text with the error. -/
def Rejects (error : ParseError) (text : String) : Prop :=
  Expr.parse text = .error (.syntaxError error) ∨
    Program.parse text = .error (.syntaxError error) ∨
    Parser.Form.parse text = .error (.syntaxError error)

/-- The error of a rejected text lies in it, and what was expected are kinds of token. -/
theorem Rejects.index_le_and_exists_kind (h : error.Rejects text) :
    error.index ≤ text.length ∧
      ∀ description ∈ error.expected, ∃ kind : TokenKind, kind.text = description := by
  have hreported : ∀ {α : Type} {L : Language α} {tokens rest},
      ReportedAfter L text error tokens rest → error.index ≤ text.length ∧
        ∀ description ∈ error.expected, ∃ kind : TokenKind, kind.text = description := by
    intro α L tokens rest hreported
    refine ⟨hreported.index_eq ▸ Nat.sub_le _ _, fun description hmem => ?_⟩
    obtain ⟨kind, hkind, -⟩ := (hreported.mem_expected_iff description).1 hmem
    exact ⟨kind, hkind⟩
  rcases h with h | h | h
  · obtain ⟨_, _, h⟩ :=
      Parser.reportedAfter_of_syntaxError Parser.exact_expression Language.prefixFree_expressions h
    exact hreported h
  · obtain ⟨_, _, h⟩ :=
      Parser.reportedAfter_of_syntaxError Parser.exact_programs Language.prefixFree_programs h
    exact hreported h
  · obtain ⟨_, _, h⟩ :=
      Parser.reportedAfter_of_syntaxError Parser.exact_forms Language.prefixFree_forms h
    exact hreported h

/-- A text is rejected at one of its places, or at its end. -/
theorem Rejects.index_le (h : error.Rejects text) : error.index ≤ text.toList.length := by
  rw [String.length_toList]
  exact h.index_le_and_exists_kind.1

/-- What is expected is told in one line. -/
theorem Rejects.newline_notMem_expectedText (h : error.Rejects text) :
    '\n' ∉ error.expectedText.toList := by
  have hexpected : ∀ description ∈ error.expected, '\n' ∉ description.toList := by
    intro description hmem
    obtain ⟨kind, rfl⟩ := h.index_le_and_exists_kind.2 description hmem
    exact kind.newline_notMem_text
  unfold expectedText
  split
  case h_1 only honly => exact hexpected only (by simp [honly])
  case h_2 _ several =>
    exact Text.newline_notMem_append (by decide)
      (Text.newline_notMem_intercalate (by decide) hexpected)

/-- The first line of a report. -/
def headline (error : ParseError) (line column : Nat) : String :=
  "Expected " ++ error.expectedText ++ " at line " ++ toString line ++
    ", column " ++ toString column ++ ":"

/-- The three lines of a report. -/
theorem toList_message {line column : Nat}
    (h : Text.positionAt text error.index = ⟨line, column⟩) :
    (error.message text).toList =
      (error.headline (line + 1) (column + 1)).toList ++ '\n' ::
        (Text.trimEnd (Text.lineAt text line) ++ '\n' :: (List.replicate column ' ' ++ ['^'])) := by
  unfold message headline
  rw [h]
  dsimp only
  -- the numbers are kept closed, or they are unfolded to digits
  generalize toString (line + 1) = lineText
  generalize toString (column + 1) = columnText
  simp only [String.toList_append, String.toList_ofList, List.append_assoc]
  rfl

/-- The first line of a report is one line. -/
theorem Rejects.newline_notMem_headline (h : error.Rejects text) (line column : Nat) :
    '\n' ∉ (error.headline line column).toList := by
  unfold headline
  exact Text.newline_notMem_append (Text.newline_notMem_append (Text.newline_notMem_append
    (Text.newline_notMem_append (Text.newline_notMem_append (Text.newline_notMem_append
      (by decide) h.newline_notMem_expectedText) (by decide)) (Text.newline_notMem_toString line))
    (by decide)) (Text.newline_notMem_toString column)) (by decide)

/-- The report of a rejected text has three lines.  The first one gives the number of the line
that the index is in, counted by newlines, and the place of the index in this line, and in the
third one a caret stands under that place.  The second one shows the line without blanks at the
end, if all line ends before it are newlines, alone or behind a carriage return, and if there are
only blanks behind the first line end in it; where only the latter fails it shows something else,
and behind another line end it shows an earlier line. -/
theorem message_points_at_index (h : error.Rejects text) :
    (∃ before line after, Text.LineOf text.toList error.index before line after) ∧
    ∀ before line after, Text.LineOf text.toList error.index before line after →
      ∃ shown, Text.newlineLines (error.message text).toList =
          [(error.headline (before.count '\n' + 1) (error.index - before.length + 1)).toList,
            shown, List.replicate (error.index - before.length) ' ' ++ ['^']] ∧
        (Text.NewlinesOnly before → (shown = Text.trimEnd line ↔
          ∀ c ∈ line.dropWhile fun c => !Text.isLineEnd c, Text.isBlank c = true)) ∧
        (¬ Text.NewlinesOnly before →
          ∃ earlier ∈ Text.splitLines before, shown = Text.trimEnd earlier) := by
  refine ⟨Text.exists_lineOf h.index_le, fun before line after hline => ?_⟩
  refine ⟨Text.trimEnd (Text.lineAt text (before.count '\n')), ?_, fun honly => ?_,
    fun honly => ?_⟩
  · have hshown : '\n' ∉ Text.trimEnd (Text.lineAt text (before.count '\n')) :=
      fun hmem => Text.newline_notMem_lineAt _ _ (Text.mem_of_mem_trimEnd hmem)
    have hcaret : '\n' ∉ List.replicate (error.index - before.length) ' ' ++ ['^'] := by
      simp [List.mem_replicate]
    rw [toList_message hline.positionAt_eq,
      Text.newlineLines_append_newline (h.newline_notMem_headline _ _),
      Text.newlineLines_append_newline hshown, Text.newlineLines_of_notMem hcaret (by simp)]
  · rw [hline.lineAt_eq_takeWhile honly]
    exact Text.trimEnd_takeWhile_eq_iff _ line
  · exact ⟨_, hline.lineAt_mem_before honly, rfl⟩

/-- A program in two lines, with a character before the newline. -/
def twoLines (c : Char) : String :=
  "(def one 1)" ++ String.ofList [c, '\n'] ++ "(+ one ])"

theorem lineOf_twoLines (c : Char) :
    Text.LineOf (twoLines c).toList 20 ("(def one 1)".toList ++ [c, '\n']) "(+ one ])".toList
      [] where
  chars_eq := by simp [twoLines]
  no_newline := by decide
  starts := by simp [Text.EndsLine]
  ends := by simp
  start_le := by simp
  le_end := by simp

/-- The error in the second line: an argument or the closing parenthesis is expected. -/
def argumentExpected : ParseError where
  index := 20
  expected := ["(", ")", "*", "+", "-", "==", "[", "cons", "false", "foldl", "fst", "integer",
    "map", "name", "nil", "null", "pair", "snd", "true"]

/-- Where a carriage return stands before the newline, the second line is shown. -/
theorem message_points_at_index_carriageReturn :
    argumentExpected.Rejects (twoLines '\r') ∧
    Text.LineOf (twoLines '\r').toList 20 ("(def one 1)".toList ++ ['\r', '\n'])
      "(+ one ])".toList [] ∧
    Text.newlineLines (argumentExpected.message (twoLines '\r')).toList =
      [(argumentExpected.headline 2 8).toList, "(+ one ])".toList, "       ^".toList] := by
  have hrejects : argumentExpected.Rejects (twoLines '\r') :=
    Or.inr (Or.inl (ReadError.eq_error_of_of? (by decide +kernel)))
  refine ⟨hrejects, lineOf_twoLines '\r', ?_⟩
  obtain ⟨shown, hlines, hiff, -⟩ :=
    (message_points_at_index hrejects).2 _ _ _ (lineOf_twoLines '\r')
  have hshown : shown = Text.trimEnd "(+ one ])".toList :=
    (hiff (by decide)).2 (List.all_eq_true.1 (by decide))
  rw [hlines, hshown]
  decide +kernel

/-- Where a form feed stands before the newline, it ends a line of its own in the wide splitting,
and an empty line is shown for the second line of the program. -/
theorem message_misses_line_after_formFeed :
    Program.parse (twoLines '\x0c') = .error (.syntaxError argumentExpected) ∧
    Text.LineOf (twoLines '\x0c').toList 20 ("(def one 1)".toList ++ ['\x0c', '\n'])
      "(+ one ])".toList [] ∧
    Text.newlineLines (argumentExpected.message (twoLines '\x0c')).toList =
      [(argumentExpected.headline 2 8).toList, [], "       ^".toList] ∧
    Text.trimEnd "(+ one ])".toList ≠ Text.trimEnd [] :=
  ⟨ReadError.eq_error_of_of? (by decide +kernel), lineOf_twoLines '\x0c', by decide +kernel,
    by decide⟩

end ParseError
end LetPoly
