import Ysh.Numeral
import Ysh.Proofs.Lexing.Atom

/-!
# The Text of a Number

A number keeps its text, and its radix and kind are those of the text. This is so for
both of the numbers there are: a token of an expression, and an argument that is nothing
but digits. An integer has digits of its radix and underscores behind the radix mark, and
nothing else, since a dot and an exponent would make it a float. A decimal starts with a
digit. Behind a radix mark an underscore is as good as a digit, and there need not be any
digit at all.

## Main definitions

* `Radix.isDigit`: The digits of a radix.
* `Numeral.Spelled`: A number is what its text says.

## Theorems

* `Numeral.radixOf_cases`: The radix of a text is that of its mark.
* `Numeral.spelled_of_lexed`, `Numeral.spelled_of_digits`: The numbers of expressions and
  of arguments.
* `Numeral.Spelled.integer_cases`: The two shapes of an integer.
-/

namespace Ysh

/-- The digits of a radix. -/
def Radix.isDigit : Radix → Char → Bool
  | decimal => Char.isDigit
  | hex => Character.isHexDigit
  | octal => Character.isOctalDigit
  | binary => Character.isBinaryDigit

namespace Cursor

/-- A token that is found in front of the end is lexed from its text, whatever errors
    have been read past. -/
theorem exists_lexed_of_lookaheadFrom (mode : Mode) (overLines : Bool) (clock : List Char) :
    ∀ c : Cursor, (lookaheadFrom mode overLines clock c).token.kind ≠ .endOfInput →
      ∃ text rest, (lookaheadFrom mode overLines clock c).token.text = .ofList text ∧
        Lexed mode text (lookaheadFrom mode overLines clock c).token.kind rest := by
  induction clock with
  | nil =>
      intro c hend
      rw [lookaheadFrom] at hend ⊢
      rcases hnext : c.nextToken mode with ⟨e | token, after⟩
      · rw [hnext] at hend
        exact absurd rfl hend
      · rcases takes_of_nextToken hnext with ⟨text, htakes⟩
        exact ⟨text, after.rest, htakes.shown, htakes.lexed⟩
  | cons x clock ih =>
      intro c hend
      rw [lookaheadFrom] at hend ⊢
      rcases hnext : c.nextToken mode with ⟨e | token, after⟩
      · rw [hnext] at hend
        exact ih after hend
      · rw [hnext] at hend
        dsimp only at hend ⊢
        by_cases hline : (overLines && token.kind == .newline) = true
        · rw [if_pos hline] at hend ⊢
          exact ih after hend
        · rw [if_neg hline]
          rcases takes_of_nextToken hnext with ⟨text, htakes⟩
          exact ⟨text, after.rest, htakes.shown, htakes.lexed⟩

theorem exists_lexed_of_lookahead (mode : Mode) (overLines : Bool) (c : Cursor)
    (hend : (c.lookahead mode overLines).token.kind ≠ .endOfInput) :
    ∃ text rest, (c.lookahead mode overLines).token.text = .ofList text ∧
      Lexed mode text (c.lookahead mode overLines).token.kind rest :=
  exists_lexed_of_lookaheadFrom mode overLines c.rest c hend

end Cursor

namespace Numeral

/-- The radix and the kind of a number are what its text says. -/
def Spelled (n : Numeral) : Prop :=
  Lexed .expression n.raw.toList .number [] ∧ n = .ofText n.raw n.span

/-- The radix of a text is that of its mark. -/
theorem radixOf_cases (cs : List Char) :
    (radixOf cs = .decimal ∧ radixAhead? cs = none) ∨
      ∃ letter rest, letter ∈ ['x', 'X', 'o', 'O', 'b', 'B'] ∧ cs = '0' :: letter :: rest ∧
        radixOf cs ≠ .decimal ∧ radixAhead? cs = some (radixOf cs).isDigit := by
  unfold radixOf
  split
  · next letter rest =>
      change (_ ∧ Lexeme.radixDigits? letter = none) ∨ ∃ l r, _ ∧ _ ∧ _ ∧
        Lexeme.radixDigits? letter = _
      unfold Lexeme.radixDigits?
      split
      · next hx =>
          refine .inr ⟨letter, rest, ?_, rfl, nofun, rfl⟩
          rcases hx with rfl | rfl <;> decide
      · split
        · next ho =>
            refine .inr ⟨letter, rest, ?_, rfl, nofun, rfl⟩
            rcases ho with rfl | rfl <;> decide
        · split
          · next hb =>
              refine .inr ⟨letter, rest, ?_, rfl, nofun, rfl⟩
              rcases hb with rfl | rfl <;> decide
          · exact .inl ⟨rfl, rfl⟩
  · next hother =>
      refine .inl ⟨rfl, ?_⟩
      match cs with
      | [] | [_] => rfl
      | zero :: letter :: rest =>
          refine if_neg ?_
          rintro rfl
          exact hother letter rest rfl

theorem digitsLength_eq_length {p : Char → Bool} {cs : List Char} :
    Lexeme.digitsLength p cs = cs.length ↔ ∀ c ∈ cs, p c = true ∨ c = '_' := by
  have hrun : Lexeme.digitsLength p (cs ++ []) = cs.length ↔ _ := runLength_append cs []
  rw [List.append_nil] at hrun
  simpa using hrun

/-- A decimal without a dot and an exponent is a run of digits. -/
theorem decimalLength_eq {cs : List Char} (h : ∀ c ∈ cs, c ≠ '.' ∧ c ≠ 'e' ∧ c ≠ 'E') :
    Lexeme.decimalLength cs = Lexeme.digitsLength Char.isDigit cs := by
  have hfraction : ∀ n, Lexeme.fractionLength (cs.drop n) = 0 := by
    intro n
    rcases hdrop : cs.drop n with _ | ⟨c, rest⟩
    · rfl
    · have hc := h c (List.mem_of_mem_drop (hdrop ▸ List.mem_cons_self))
      rw [fractionLength_cons, if_neg fun hand => hc.1 hand.1]
  have hexponent : ∀ n, Lexeme.exponentLength (cs.drop n) = 0 := by
    intro n
    rcases hdrop : cs.drop n with _ | ⟨c, rest⟩
    · rfl
    · have hc := h c (List.mem_of_mem_drop (hdrop ▸ List.mem_cons_self))
      rw [exponentLength_cons, if_neg fun hand => hand.1.elim hc.2.1 hc.2.2]
  simp [Lexeme.decimalLength, hfraction, hexponent]

/-- A token of an expression is a number as its text says. -/
theorem spelled_of_lexed {text rest : List Char} (h : Lexed .expression text .number rest)
    (span : Span) : (ofText (.ofList text) span).Spelled := by
  refine ⟨?_, rfl⟩
  change Lexed .expression (String.ofList text).toList .number []
  rw [String.toList_ofList]
  exact h.number_of_ends nofun

/-- So is the next token of a place, whatever errors are in front of it. -/
theorem spelled_of_lookahead {c : Cursor} {overLines : Bool}
    (h : (c.lookahead .expression overLines).token.kind = .number) (span : Span) :
    (ofText (c.lookahead .expression overLines).token.text span).Spelled := by
  have hend : (c.lookahead .expression overLines).token.kind ≠ .endOfInput := by
    rw [h]
    exact nofun
  rcases c.exists_lexed_of_lookahead .expression overLines hend with ⟨text, rest, htext, hlexed⟩
  rw [h] at hlexed
  rw [htext]
  exact spelled_of_lexed hlexed span

/-- Nothing but digits is a decimal without a fraction and an exponent. -/
theorem spelled_of_digits {raw : String} (hne : raw ≠ "") (hdigits : raw.toList.all Char.isDigit)
    (span : Span) : Spelled { raw, radix := .decimal, isFloat := false, span } := by
  have hall : ∀ c ∈ raw.toList, c.isDigit = true := List.all_eq_true.1 hdigits
  have hradix : radixOf raw.toList = .decimal ∧ radixAhead? raw.toList = none := by
    rcases radixOf_cases raw.toList with h | ⟨letter, rest, hletter, hraw, -⟩
    · exact h
    · have hmark : (['x', 'X', 'o', 'O', 'b', 'B'].all fun mark => !mark.isDigit) = true := by
        decide
      have hnot := List.all_eq_true.1 hmark letter hletter
      rw [hall letter (by rw [hraw]; simp)] at hnot
      cases hnot
  have hchars : ∀ c ∈ raw.toList, c ≠ '.' ∧ c ≠ 'e' ∧ c ≠ 'E' := by
    intro c hc
    have hdigit := hall c hc
    refine ⟨?_, ?_, ?_⟩ <;> (rintro rfl; cases hdigit)
  have hlength : Lexeme.numeralLength raw.toList = (raw.toList.length, true) := by
    rw [numeralLength_eq, hradix.2, decimalLength_eq hchars,
      digitsLength_eq_length.2 fun c hc => .inl (hall c hc)]
  refine ⟨?_, ?_⟩
  · change Lexed .expression raw.toList .number []
    rcases hraw : raw.toList with _ | ⟨c, cs⟩
    · exact absurd (String.toList_eq_nil_iff.1 hraw) hne
    · rw [hraw] at hlength hall
      rcases @ofMode_expression_number c cs (hall c List.mem_cons_self) with ⟨hof, hplain⟩
      refine ⟨by rwa [List.append_nil], ?_⟩
      rw [List.append_nil, hof, number_eq_token, hlength, List.drop_length]
      exact ⟨rfl, rfl⟩
  · have hfloat : raw.toList.any (fun c => c == '.' || c == 'e' || c == 'E') = false := by
      simpa [and_assoc] using hchars
    unfold ofText
    simp [hradix.1, hfloat]

/-- An integer is a run of digits and underscores. A decimal starts with a digit, and the
    others have something behind their radix mark. -/
theorem Spelled.integer_cases {n : Numeral} (h : n.Spelled) (hint : n.isFloat = false) :
    (n.radix = .decimal ∧ (∃ c cs, n.raw.toList = c :: cs ∧ c.isDigit = true) ∧
        ∀ c ∈ n.raw.toList, n.radix.isDigit c = true ∨ c = '_') ∨
      (n.radix ≠ .decimal ∧ ∃ letter rest, letter ∈ ['x', 'X', 'o', 'O', 'b', 'B'] ∧
        n.raw.toList = '0' :: letter :: rest ∧ rest ≠ [] ∧
        ∀ c ∈ rest, n.radix.isDigit c = true ∨ c = '_') := by
  rcases number_of_lexed h.1 with ⟨hfirst, hnumber⟩
  have hlength := (number_eq_token.1 hnumber).1
  rw [List.append_nil, numeralLength_eq] at hlength
  have hradix : n.radix = radixOf n.raw.toList := congrArg Numeral.radix h.2
  rcases radixOf_cases n.raw.toList with
    ⟨hdecimal, hahead⟩ | ⟨letter, rest, hletter, hraw, hne, hahead⟩
  · refine .inl ⟨hradix.trans hdecimal, hfirst, ?_⟩
    rw [hahead] at hlength
    have hchars : ∀ c ∈ n.raw.toList, c ≠ '.' ∧ c ≠ 'e' ∧ c ≠ 'E' := by
      have hfloat := hint
      rw [h.2] at hfloat
      simpa [ofText, hdecimal, and_assoc] using hfloat
    rw [hradix, hdecimal]
    exact digitsLength_eq_length.1
      ((decimalLength_eq hchars).symm.trans (congrArg Prod.fst hlength))
  · refine .inr ⟨hradix ▸ hne, letter, rest, hletter, hraw, ?_, ?_⟩
    · rw [hahead, hraw] at hlength
      rintro rfl
      cases hlength
    · rw [hahead, hraw] at hlength
      rw [hradix, hraw]
      refine digitsLength_eq_length.1 ?_
      have hfst := congrArg Prod.fst hlength
      simp only [List.drop_succ_cons, List.drop_zero, List.length_cons] at hfst
      omega

end Numeral

end Ysh
