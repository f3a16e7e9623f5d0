import Ysh.Proofs.Coverage.Statement
import Ysh.Proofs.Joined.Lexeme
import Ysh.Proofs.Joined.Shift

/-!
# A Text in a Larger Source

The places of a text when it is a part of a larger source: there are bytes in front of
it and lines behind it. A token of the text is a token there, further on. Only where the
text ends is there something else to see, a newline in place of the end.

There is more to see if the text ends with a backslash by itself, because then it goes
on in the next line. The backslash is an error in the text. So wherever the end is seen,
it must be known that nothing is wrong in front of it.

## Main definitions

* `Surroundings`: What stands around a text.
* `Cursor.within`: A place of the text in its surroundings.
* `Cursor.Dangles`: A backslash by itself is left.

## Theorems

* `Cursor.lookahead_eq`: The next token, by one step.
* `Cursor.lookahead_within`: A token is a token in the surroundings.
* `Cursor.lookahead_line`: At the end of the text a newline comes next there.
* `Cursor.isWord_lookahead_within`: No branch comes next there if none comes next in
  the text.
-/

namespace Ysh

/-- What stands around a text in a larger source. -/
structure Surroundings where
  /-- The number of bytes in front. -/
  size : Nat
  /-- What there is to say about the text in front. -/
  reports : List Diagnostic
  /-- The text behind. -/
  behind : List Char
  /-- The text behind stands on lines of its own. -/
  startsLine : StartsLine behind
  /-- It does not go on with a branch of an `if` in front of it. -/
  noBranch : ∀ offset text, text = "elif" ∨ text = "else" →
    (Cursor.lookahead .command true ⟨behind, offset⟩).token.isWord text = false

namespace Cursor

variable (w : Surroundings)

/-- The place of the text in its surroundings. -/
def within (c : Cursor) : Cursor :=
  ⟨c.rest ++ w.behind, c.offset + w.size⟩

/-- What comes next, in the surroundings. -/
def Lookahead.within (l : Lookahead) : Lookahead :=
  ⟨l.token.shift w.size, l.errors.map (LexicalError.shift w.size), l.after.within w⟩

/-- A backslash by itself is all that is left. -/
def Dangles (c : Cursor) : Prop :=
  c.rest.drop (extrasLength c.rest) = ['\\']

variable {w} {c c' : Cursor} {mode : Mode} {overLines : Bool} {n : Nat}

theorem advance_within (h : n ≤ c.rest.length) :
    (c.within w).advance n = (c.advance n).within w := by
  simp only [advance, within, List.drop_append_of_le_length h, List.take_append_of_le_length h,
    Nat.add_right_comm]

theorem textOf_within (h : n ≤ c.rest.length) : (c.within w).textOf n = c.textOf n := by
  simp only [textOf, within, List.take_append_of_le_length h]

theorem spanOf_within (h : n ≤ c.rest.length) :
    (c.within w).spanOf n = (c.spanOf n).shift w.size := by
  simp only [spanOf, within, List.take_append_of_le_length h, Span.shift, Nat.add_right_comm]

/-! ## One token -/

theorem toError_shift (k : Nat) (f : Lexeme.Fault) (text : String) (span : Span) :
    f.toError text (span.shift k) = (f.toError text span).shift k := by
  cases f <;> rfl

/-- A lexeme of a text and what stands behind it are at their place in the surroundings. -/
theorem lexeme_within (mode : Mode) (front : Cursor) (hlone : front.rest = ['\\'] → w.behind = [])
    (hend : front.rest = [] → w.behind = []) :
    Lexeme.ofMode mode (front.within w).rest = Lexeme.ofMode mode front.rest ∧
      (Lexeme.ofMode mode front.rest).length ≤ front.rest.length := by
  by_cases hne : front.rest = []
  · have hwhole : (front.within w).rest = front.rest := by
      change front.rest ++ w.behind = front.rest
      rw [hend hne, List.append_nil]
    rw [hwhole, hne]
    exact ⟨rfl, Nat.le_refl 0⟩
  · exact ⟨Lexeme.ofMode_append w.startsLine mode hne hlone, (Lexeme.length_ofMode mode hne).2⟩

/-- What is left of a text is read as in its surroundings, unless it is at its end or a
    backslash by itself is left. -/
theorem nextToken_within (mode : Mode) (hlone : c.Dangles → w.behind = [])
    (hend : (c.advance (extrasLength c.rest)).rest = [] → w.behind = []) :
    (c.within w).nextToken mode =
      (match (c.nextToken mode).1 with
        | .ok token => .ok (token.shift w.size)
        | .error error => .error (error.shift w.size), (c.nextToken mode).2.within w) := by
  have hskip : extrasLength (c.within w).rest = extrasLength c.rest :=
    extrasLengthFrom_append w.startsLine .between c.rest hlone
  have hfront : (c.within w).advance (extrasLength c.rest)
      = (c.advance (extrasLength c.rest)).within w := advance_within (extrasLength_le c.rest)
  have hlexeme := lexeme_within mode (c.advance (extrasLength c.rest)) hlone hend
  unfold nextToken
  dsimp only
  rw [hskip, hfront]
  generalize c.advance (extrasLength c.rest) = front at hlexeme ⊢
  rw [hlexeme.1, textOf_within hlexeme.2, spanOf_within hlexeme.2, advance_within hlexeme.2]
  rcases (Lexeme.ofMode mode front.rest).verdict with fault | kind
  · dsimp only
    rw [toError_shift]
  · rfl

/-- Behind a backslash by itself there is nothing left. -/
theorem Dangles.nextToken (mode : Mode) (h : c.Dangles) :
    ∃ error, (c.nextToken mode).1 = .error error ∧ (c.nextToken mode).2.rest = [] := by
  have hdrop : (c.advance (extrasLength c.rest)).rest = ['\\'] := h
  unfold Cursor.nextToken
  dsimp only
  generalize c.advance (extrasLength c.rest) = front at hdrop ⊢
  rcases front with ⟨rest, offset⟩
  subst hdrop
  cases mode <;> exact ⟨_, rfl, rfl⟩

/-- The end comes next where only extras are left. -/
theorem nextToken_of_nil (mode : Mode) (h : (c.advance (extrasLength c.rest)).rest = []) :
    ∃ token, c.nextToken mode = (.ok token, c.advance (extrasLength c.rest)) ∧
      token.kind = .endOfInput := by
  unfold nextToken
  dsimp only
  generalize c.advance (extrasLength c.rest) = front at h ⊢
  rcases front with ⟨rest, offset⟩
  subst h
  exact ⟨_, rfl, rfl⟩

theorem nil_of_nextToken {token : Token} (h : c.nextToken mode = (.ok token, c'))
    (hkind : token.kind = .endOfInput) :
    (c.advance (extrasLength c.rest)).rest = [] := by
  unfold nextToken at h
  dsimp only at h
  generalize c.advance (extrasLength c.rest) = front at h ⊢
  rcases hl : Lexeme.ofMode mode front.rest with ⟨verdict | kind, n⟩
  · rw [hl] at h
    cases h
  · rw [hl] at h
    cases h
    cases hkind
    exact Lexeme.eq_nil_of_endOfInput hl

/-- A token or an error takes something. -/
theorem length_lt_of_nextToken (mode : Mode) (h : (c.advance (extrasLength c.rest)).rest ≠ []) :
    (c.nextToken mode).2.rest.length < c.rest.length := by
  have hlength := Lexeme.length_ofMode mode h
  have hle := extrasLength_le c.rest
  have hdrop : (c.advance (extrasLength c.rest)).rest.length
      = c.rest.length - extrasLength c.rest := List.length_drop
  change ((c.advance (extrasLength c.rest)).rest.drop _).length < _
  rw [List.length_drop]
  omega

/-- A newline comes next where the text ends with nothing but extras. -/
theorem nextToken_line (mode : Mode) {more : List Char}
    (hend : (c.advance (extrasLength c.rest)).rest = []) (hbehind : w.behind = '\n' :: more) :
    ∃ token, (c.within w).nextToken mode = (.ok token, ⟨more, c.stop + w.size + 1⟩) ∧
      token.kind = .newline := by
  have hlone : ¬ c.Dangles := fun h => List.cons_ne_nil _ _ (h.symm.trans hend)
  have hskip : extrasLength (c.within w).rest = extrasLength c.rest :=
    extrasLengthFrom_append w.startsLine .between c.rest fun h => absurd h hlone
  have hfront : (c.within w).advance (extrasLength c.rest)
      = (c.advance (extrasLength c.rest)).within w := advance_within (extrasLength_le c.rest)
  have hstop : (c.advance (extrasLength c.rest)).stop = c.stop := stop_advance c _
  unfold nextToken
  dsimp only
  rw [hskip, hfront, ← hstop]
  generalize c.advance (extrasLength c.rest) = front at hend ⊢
  rcases front with ⟨rest, offset⟩
  subst hend
  have hline : within w ⟨[], offset⟩ = ⟨'\n' :: more, offset + w.size⟩ := by
    rw [within, hbehind]
    rfl
  rw [hline]
  exact ⟨_, rfl, rfl⟩

/-! ## The next token -/

/-- What holds of a place if it holds of all places with less left. -/
theorem shorterInduction {P : Cursor → Prop}
    (shorter : ∀ c, (∀ c' : Cursor, c'.rest.length < c.rest.length → P c') → P c) (c : Cursor) :
    P c :=
  shorter c fun c' _ => shorterInduction shorter c'
termination_by c.rest.length

/-- With a clock that outnumbers the characters, its length does not matter. -/
theorem lookaheadFrom_clock (clock : List Char) : ∀ (c : Cursor) (clock' : List Char),
    c.rest.length ≤ clock.length → c.rest.length ≤ clock'.length →
    lookaheadFrom mode overLines clock c = lookaheadFrom mode overLines clock' c := by
  induction clock with
  | nil =>
      intro c clock' hle hle'
      have hnil : (c.advance (extrasLength c.rest)).rest = [] := by
        change c.rest.drop _ = []
        rw [List.eq_nil_of_length_eq_zero (Nat.le_zero.1 hle), List.drop_nil]
      rcases nextToken_of_nil mode hnil with ⟨token, hnext, hkind⟩
      rcases clock' with _ | ⟨x, clock'⟩
      · rfl
      · rw [lookaheadFrom, lookaheadFrom, hnext]
        dsimp only
        rw [hkind, if_neg]
        simp
  | cons x clock ih =>
      intro c clock' hle hle'
      by_cases hnil : (c.advance (extrasLength c.rest)).rest = []
      · rcases nextToken_of_nil mode hnil with ⟨token, hnext, hkind⟩
        rcases clock' with _ | ⟨y, clock'⟩
        · rw [lookaheadFrom, lookaheadFrom, hnext]
          dsimp only
          rw [hkind, if_neg]
          simp
        · rw [lookaheadFrom, lookaheadFrom, hnext]
          dsimp only
          rw [hkind, if_neg (by simp), if_neg (by simp)]
      · have hlt := length_lt_of_nextToken mode hnil
        rcases clock' with _ | ⟨y, clock'⟩
        · exact absurd (Nat.lt_of_lt_of_le hlt hle') (Nat.not_lt_zero _)
        · rw [lookaheadFrom, lookaheadFrom]
          rcases hnext : c.nextToken mode with ⟨error | token, c'⟩
          all_goals
            rw [hnext] at hlt
            have hrest := ih c' clock' (Nat.lt_succ_iff.1 (Nat.lt_of_lt_of_le hlt hle))
              (Nat.lt_succ_iff.1 (Nat.lt_of_lt_of_le hlt hle'))
            dsimp only
            rw [hrest]

/-- The next token with what is in front of it, by one step. -/
theorem lookahead_eq (mode : Mode) (overLines : Bool) (c : Cursor) : c.lookahead mode overLines =
    match c.nextToken mode with
    | (.ok token, after) =>
        if overLines && token.kind == .newline then after.lookahead mode overLines
        else ⟨token, [], after⟩
    | (.error error, after) =>
        { after.lookahead mode overLines with
          errors := error :: (after.lookahead mode overLines).errors } := by
  rcases c with ⟨rest | ⟨x, rest⟩, offset⟩
  · cases mode <;> cases overLines <;> rfl
  · unfold lookahead
    dsimp only
    rw [lookaheadFrom]
    rcases hnext : (⟨x :: rest, offset⟩ : Cursor).nextToken mode with ⟨error | token, c'⟩
    all_goals
      dsimp only
    · have hne : (advance ⟨x :: rest, offset⟩ (extrasLength (x :: rest))).rest ≠ [] := by
        intro hnil
        rcases nextToken_of_nil mode hnil with ⟨token, htoken, -⟩
        cases htoken.symm.trans hnext
      have hlt := length_lt_of_nextToken mode hne
      rw [hnext] at hlt
      rw [lookaheadFrom_clock rest c' c'.rest (Nat.lt_succ_iff.1 hlt) (Nat.le_refl _)]
    · split
      · next hline =>
          have hne : (advance ⟨x :: rest, offset⟩ (extrasLength (x :: rest))).rest ≠ [] := by
            intro hnil
            rcases nextToken_of_nil mode hnil with ⟨token, htoken, hkind⟩
            cases htoken.symm.trans hnext
            rw [hkind] at hline
            simp at hline
          have hlt := length_lt_of_nextToken mode hne
          rw [hnext] at hlt
          rw [lookaheadFrom_clock rest c' c'.rest (Nat.lt_succ_iff.1 hlt) (Nat.le_refl _)]
      · rfl

theorem lookahead_of_nil (h : c.rest = []) :
    (c.lookahead mode overLines).token.kind = .endOfInput := by
  rcases c with ⟨rest, offset⟩
  subst h
  cases mode <;> cases overLines <;> rfl

theorem lookahead_of_end (h : (c.advance (extrasLength c.rest)).rest = []) :
    (c.lookahead mode overLines).token.kind = .endOfInput ∧
      (c.lookahead mode overLines).errors = [] := by
  rcases nextToken_of_nil mode h with ⟨token, hnext, hkind⟩
  rw [lookahead_eq, hnext]
  dsimp only
  rw [if_neg (by simp [hkind])]
  exact ⟨hkind, rfl⟩

/-- What comes next comes next in the surroundings, if it is not the end of the text
    alone. -/
theorem lookahead_within (c : Cursor)
    (h : (c.lookahead mode overLines).token.kind = .endOfInput → w.behind = []) :
    (c.within w).lookahead mode overLines = (c.lookahead mode overLines).within w := by
  induction c using shorterInduction with | shorter c ih => ?_
  by_cases hnil : (c.advance (extrasLength c.rest)).rest = []
  · have hbehind := h (lookahead_of_end hnil).1
    have hnext := nextToken_within (c := c) mode (fun _ => hbehind) fun _ => hbehind
    rcases nextToken_of_nil mode hnil with ⟨token, htoken, hkind⟩
    rw [lookahead_eq, lookahead_eq (c := c), hnext, htoken]
    dsimp only
    rw [if_neg (by simp [hkind]), if_neg (by simp [hkind])]
    rfl
  · have hlt := length_lt_of_nextToken mode hnil
    have hlone : c.Dangles → w.behind = [] := by
      intro hd
      rcases hd.nextToken mode with ⟨error, herror, hrest⟩
      refine h ?_
      rw [lookahead_eq, show c.nextToken mode = (.error error, (c.nextToken mode).2) from
        Prod.ext herror rfl]
      exact lookahead_of_nil hrest
    have hnext := nextToken_within mode hlone fun hnil' => absurd hnil' hnil
    rw [lookahead_eq] at h
    rw [lookahead_eq, lookahead_eq (c := c), hnext]
    rcases htoken : c.nextToken mode with ⟨error | token, after⟩
    all_goals
      rw [htoken] at hlt h
      dsimp only at hlt h ⊢
    · rw [ih after hlt h]
      rfl
    · change (if overLines && token.kind == .newline then _ else _) = _
      split
      · next hline =>
          rw [if_pos hline] at h
          exact ih after hlt h
      · rfl

/-- At the end of a text with nothing wrong in front of it, a newline comes next in the
    surroundings. -/
theorem lookahead_line {more : List Char} (hend : (c.lookahead mode false).token.kind = .endOfInput)
    (hclear : (c.lookahead mode false).errors = []) (hbehind : w.behind = '\n' :: more) :
    ∃ token, (c.within w).lookahead mode false = ⟨token, [], ⟨more, c.stop + w.size + 1⟩⟩ ∧
      token.kind = .newline := by
  have hnil : (c.advance (extrasLength c.rest)).rest = [] := by
    rw [lookahead_eq] at hend hclear
    rcases hnext : c.nextToken mode with ⟨error | token, after⟩
    all_goals
      rw [hnext] at hend hclear
    · cases hclear
    · exact nil_of_nextToken hnext hend
  rcases nextToken_line mode hnil hbehind with ⟨token, hnext, hkind⟩
  refine ⟨token, ?_, hkind⟩
  rw [lookahead_eq, hnext]
  rfl

/-- Newlines that are passed over are passed over one by one. -/
theorem lookahead_skipsLine (c : Cursor) : c.lookahead mode true =
    if (c.lookahead mode false).token.kind = .newline
    then { (c.lookahead mode false).after.lookahead mode true with
      errors := (c.lookahead mode false).errors
        ++ ((c.lookahead mode false).after.lookahead mode true).errors }
    else c.lookahead mode false := by
  induction c using shorterInduction with | shorter c ih => ?_
  by_cases hnil : (c.advance (extrasLength c.rest)).rest = []
  · rcases nextToken_of_nil mode hnil with ⟨token, hnext, hkind⟩
    rw [lookahead_eq, lookahead_eq mode false, hnext]
    simp [hkind]
  · have hlt := length_lt_of_nextToken mode hnil
    rw [lookahead_eq, lookahead_eq mode false]
    rcases hnext : c.nextToken mode with ⟨error | token, after⟩
    all_goals
      rw [hnext] at hlt
      dsimp only at hlt ⊢
    · rw [ih after hlt]
      split <;> rfl
    · by_cases hline : token.kind = .newline
      · simp [hline]
      · simp [hline]

/-- Where newlines are passed over, the next token is the one behind them. -/
theorem lookahead_overLines (c : Cursor) : (c.lookahead mode true).token =
    if (c.lookahead mode false).token.kind = .newline
    then ((c.lookahead mode false).after.lookahead mode true).token
    else (c.lookahead mode false).token := by
  rw [lookahead_skipsLine]
  split <;> rfl

/-! ## Branches on later lines -/

/-- Whether a word comes next does not depend on extras in front of it. -/
theorem isWord_lookahead_extras (text : String)
    (h : extrasLength c.rest = n + extrasLength (c.rest.drop n)) :
    (c.lookahead mode overLines).token.isWord text =
      ((c.advance n).lookahead mode overLines).token.isWord text := by
  have hfront : (c.advance n).advance (extrasLength (c.advance n).rest)
      = c.advance (extrasLength c.rest) := by
    rw [advance_advance, h]
    rfl
  rw [lookahead_eq, lookahead_eq (c := c.advance n)]
  unfold nextToken
  dsimp only
  rw [hfront]
  generalize c.advance (extrasLength c.rest) = front
  rcases Lexeme.ofMode mode front.rest with ⟨fault | kind, length⟩
  · rfl
  · dsimp only
    split <;> rfl

/-- If no branch of an `if` comes next in a text, then none comes next there in its
    surroundings. -/
theorem isWord_lookahead_within {text : String} (htext : text = "elif" ∨ text = "else")
    (c : Cursor) (h : (c.lookahead .command true).token.isWord text = false) :
    ((c.within w).lookahead .command true).token.isWord text = false := by
  rcases w.startsLine.cases with hbehind | ⟨more, hbehind⟩
  · rw [lookahead_within c fun _ => hbehind]
    exact h
  -- Behind the first newline of what stands behind there is no branch either.
  have hmore : ∀ offset, (lookahead .command true ⟨more, offset + 1⟩).token.isWord text = false := by
    intro offset
    have hbranch := w.noBranch offset text htext
    rw [hbehind, lookahead_eq] at hbranch
    exact hbranch
  induction c using shorterInduction with | shorter c ih => ?_
  by_cases hnil : (c.advance (extrasLength c.rest)).rest = []
  · rcases nextToken_line .command hnil hbehind with ⟨token, hnext, hkind⟩
    rw [lookahead_eq, hnext]
    dsimp only
    rw [if_pos (by simp [hkind])]
    exact hmore _
  by_cases hlone : c.Dangles
  · have hextras : extrasLength (c.within w).rest = c.rest.length + 1 + extrasLength more := by
      change extrasLength (c.rest ++ w.behind) = _
      rw [hbehind]
      exact extrasLengthFrom_append_of_lone .between hlone
    have hrest : (c.within w).rest = c.rest ++ ['\n'] ++ more := by
      change c.rest ++ w.behind = _
      rw [hbehind, List.append_assoc]
      rfl
    have hlength : (c.rest ++ ['\n']).length = c.rest.length + 1 := List.length_append
    have hdrop : (c.within w).rest.drop (c.rest.length + 1) = more := by
      rw [hrest, ← hlength, List.drop_left]
    rw [isWord_lookahead_extras (n := c.rest.length + 1) text (by rw [hdrop, hextras])]
    have hafter : (c.within w).advance (c.rest.length + 1) = ⟨more, c.stop + w.size + 1⟩ := by
      rw [advance, hdrop, hrest, ← hlength, List.take_left, byteLength_append]
      change (⟨more, c.offset + w.size + (byteLength c.rest + 1)⟩ : Cursor) = _
      simp only [stop, mk.injEq, true_and]
      omega
    rw [hafter]
    exact hmore _
  · have hnext := nextToken_within (w := w) .command (fun hd => absurd hd hlone)
      fun hnil' => absurd hnil' hnil
    have hlt := length_lt_of_nextToken .command hnil
    rw [lookahead_eq] at h
    rw [lookahead_eq, hnext]
    rcases htoken : c.nextToken .command with ⟨error | token, after⟩
    all_goals
      rw [htoken] at hlt h
      dsimp only at hlt h ⊢
    · exact ih after hlt h
    · change (if true && token.kind == .newline then _ else _ : Lookahead).token.isWord text = false
      split
      · next hline =>
          rw [if_pos hline] at h
          exact ih after hlt h
      · next hline =>
          rw [if_neg hline] at h
          exact h

end Cursor

end Ysh
