import Ysh.Token.Stream

/-!
# Lexed Text

When a text is read as one token, seen from the two sides of a round trip. A
source has been read: the next token is known, no error stood in front of it, and
the text follows. A printed text is still to be read: the text is known, and it
must be the token that the printer meant. `Lexed` is the fact in the middle. It
holds of a text in front of the rest of its source, because what a text is depends
on what comes behind it: `ab` is no token in front of a `c`.

A printed text has nothing but blanks in front of a token, which `Ahead` says.

## Main definitions

* `Lexed`: A text is a token in front of a rest.
* `Ahead`: The next token of a text, with nothing but blanks in front.
* `Takes`: A token is the text between two places.

## Theorems

* `Lexeme.within_ofMode`: A lexeme is a part of the text in front of it.
* `Ahead.lookahead`: The next token of a printed text is the one that is meant.
* `Cursor.takes_of_lookahead`: The next token of a source is a text of it.
-/

namespace Ysh

namespace Character

/-! ## Ranges of characters -/

theorem isDigit_iff {c : Char} : c.isDigit = true ↔ 48 ≤ c.toNat ∧ c.toNat ≤ 57 := by
  change (decide (c.val ≥ 48) && decide (c.val ≤ 57)) = true ↔ _
  rw [Bool.and_eq_true, decide_eq_true_eq, decide_eq_true_eq]
  rfl

theorem isAlpha_iff {c : Char} :
    c.isAlpha = true ↔ (65 ≤ c.toNat ∧ c.toNat ≤ 90) ∨ (97 ≤ c.toNat ∧ c.toNat ≤ 122) := by
  change (decide (c.val ≥ 65 ∧ c.val ≤ 90) || (decide (c.val ≥ 97) && decide (c.val ≤ 122)))
    = true ↔ _
  rw [Bool.or_eq_true, Bool.and_eq_true, decide_eq_true_eq, decide_eq_true_eq, decide_eq_true_eq]
  rfl

theorem eq_iff_toNat {c d : Char} : c = d ↔ c.toNat = d.toNat :=
  ⟨congrArg _, fun h => Char.ext (UInt32.toNat_inj.1 h)⟩

theorem isNameStart_iff {c : Char} : isNameStart c = true ↔
    (65 ≤ c.toNat ∧ c.toNat ≤ 90) ∨ (97 ≤ c.toNat ∧ c.toNat ≤ 122) ∨ c.toNat = 95 := by
  rw [isNameStart, Bool.or_eq_true, isAlpha_iff, beq_iff_eq, eq_iff_toNat, or_assoc]
  rfl

theorem isNamePart_iff {c : Char} : isNamePart c = true ↔ (48 ≤ c.toNat ∧ c.toNat ≤ 57) ∨
    (65 ≤ c.toNat ∧ c.toNat ≤ 90) ∨ (97 ≤ c.toNat ∧ c.toNat ≤ 122) ∨ c.toNat = 95 := by
  change ((c.isAlpha || c.isDigit) || c == '_') = true ↔ _
  rw [Bool.or_eq_true, Bool.or_eq_true, isAlpha_iff, isDigit_iff, beq_iff_eq, eq_iff_toNat]
  change _ ∨ c.toNat = 95 ↔ _
  omega

theorem le_iff_toNat {c d : Char} : c ≤ d ↔ c.toNat ≤ d.toNat :=
  Iff.rfl

theorem isHexDigit_iff {c : Char} : isHexDigit c = true ↔ (48 ≤ c.toNat ∧ c.toNat ≤ 57) ∨
    (97 ≤ c.toNat ∧ c.toNat ≤ 102) ∨ (65 ≤ c.toNat ∧ c.toNat ≤ 70) := by
  rw [isHexDigit, Bool.or_eq_true, Bool.or_eq_true, Bool.and_eq_true, Bool.and_eq_true,
    isDigit_iff, decide_eq_true_eq, decide_eq_true_eq, decide_eq_true_eq, decide_eq_true_eq,
    or_assoc]
  rfl

theorem isOctalDigit_iff {c : Char} : isOctalDigit c = true ↔ 48 ≤ c.toNat ∧ c.toNat ≤ 55 := by
  rw [isOctalDigit, Bool.and_eq_true, decide_eq_true_eq, decide_eq_true_eq]
  rfl
end Character

/-! ## Tokens in front of a rest -/

/-- The text is a token of the kind where the rest of a source follows it. -/
structure Lexed (mode : Mode) (text : List Char) (kind : Token.Kind) (rest : List Char) :
    Prop where
  plain : extrasLength (text ++ rest) = 0
  lexeme : Lexeme.ofMode mode (text ++ rest) = .token kind text.length

/-- The next token of a text, with nothing but blanks in front of it. -/
def Ahead (mode : Mode) (whole text : List Char) (kind : Token.Kind) (rest : List Char) : Prop :=
  ∃ blanks, whole = List.replicate blanks ' ' ++ (text ++ rest) ∧ Lexed mode text kind rest

section

variable {mode : Mode} {whole text rest : List Char} {kind : Token.Kind}

theorem Lexed.ahead (h : Lexed mode text kind rest) : Ahead mode (text ++ rest) text kind rest :=
  ⟨0, rfl, h⟩

theorem Ahead.lexed (h : Ahead mode whole text kind rest) : Lexed mode text kind rest :=
  h.choose_spec.2

/-- A further blank makes no difference. -/
theorem Ahead.blank (h : Ahead mode whole text kind rest) :
    Ahead mode (' ' :: whole) text kind rest := by
  rcases h with ⟨blanks, rfl, hlexed⟩
  exact ⟨blanks + 1, rfl, hlexed⟩

theorem Ahead.blanks (h : Ahead mode whole text kind rest) (n : Nat) :
    Ahead mode (List.replicate n ' ' ++ whole) text kind rest := by
  induction n with
  | zero => exact h
  | succ n ih => exact ih.blank

theorem Ahead.length_le (h : Ahead mode whole text kind rest) :
    text.length + rest.length ≤ whole.length := by
  rcases h with ⟨blanks, rfl, -⟩
  simp

end

/-- A token that is read at one place and ends at another is a text of the source
    between the two. What stands in front of it has no meaning, and in a command
    a token with nothing in front of it is marked. -/
structure Takes (mode : Mode) (c : Cursor) (token : Token) (text : List Char) (after : Cursor) :
    Prop where
  shown : token.text = .ofList text
  lexed : Lexed mode text token.kind after.rest
  placed : ∃ front, c.rest = front ++ (text ++ after.rest)
  touches : mode = .command → token.immediate = true →
    c.rest = text ++ after.rest ∧ c.offset = token.span.start
  stops : after.offset = token.span.start + byteLength text
  advances : 0 < text.length ∨ token.kind = .endOfInput

/-! ## How far a lexeme goes -/

/-- Behind all extras there is none. -/
theorem extrasLengthFrom_drop (extras : Extras) (cs : List Char) :
    extrasLength (cs.drop (extrasLengthFrom extras cs)) = 0 := by
  fun_induction extrasLengthFrom extras cs <;> simp_all [extrasLength, extrasLengthFrom]

/-- A gap in front of another text is the same gap, if that is no gap and starts alike: a
    comment ends in front of a newline or at the end. -/
theorem extrasLengthFrom_take_append (extras : Extras) (cs : List Char) {rest : List Char}
    (hplain : extrasLength rest = 0)
    (hhead : rest.head? = (cs.drop (extrasLengthFrom extras cs)).head?) :
    extrasLengthFrom extras (cs.take (extrasLengthFrom extras cs) ++ rest)
      = extrasLengthFrom extras cs := by
  fun_induction extrasLengthFrom extras cs with
  | case1 =>
      rcases List.head?_eq_none_iff.1 hhead with rfl
      rfl
  | case2 =>
      rcases List.head?_eq_some_iff.1 hhead with ⟨rest, rfl⟩
      rfl
  | case3 c cs hline ih =>
      rw [List.take_succ_cons, List.cons_append, extrasLengthFrom, if_neg hline, ih hhead]
  | case4 c cs hblank ih =>
      rw [List.take_succ_cons, List.take_succ_cons, List.cons_append, List.cons_append,
        extrasLengthFrom, if_pos hblank, ih hhead]
  | case5 => exact hplain
  | case6 c cs _ hblank ih =>
      rw [List.take_succ_cons, List.cons_append, extrasLengthFrom, if_pos hblank, ih hhead]
      rintro _ _ rfl -
      simp at hblank
  | case7 cs _ _ ih =>
      rw [List.take_succ_cons, List.cons_append, extrasLengthFrom, if_neg (by decide), if_pos rfl,
        ih hhead]
      rintro _ _ ⟨⟩
  | case8 => exact hplain

theorem extrasLength_drop (cs : List Char) : extrasLength (cs.drop (extrasLength cs)) = 0 :=
  extrasLengthFrom_drop .between cs

theorem extrasLengthFrom_le (extras : Extras) (cs : List Char) :
    extrasLengthFrom extras cs ≤ cs.length := by
  fun_induction extrasLengthFrom extras cs
  all_goals simp only [List.length_nil, List.length_cons] at *
  all_goals omega

theorem extrasLength_le (cs : List Char) : extrasLength cs ≤ cs.length :=
  extrasLengthFrom_le .between cs

namespace Lexeme

/-- A verdict, good or bad, covers a part of the text, and at least a character
    unless it is the end. -/
def Within (cs : List Char) (l : Lexeme) : Prop :=
  l.length ≤ cs.length ∧ (0 < l.length ∨ l.verdict = .ok .endOfInput)

theorem runLength_le (p : Char → Bool) (cs : List Char) : runLength p cs ≤ cs.length :=
  (List.takeWhile_sublist p).length_le

theorem within_match? {table : OperatorTable} {cs : List Char} {l : Lexeme}
    (htable : ∀ entry ∈ table, 0 < entry.1.length) (h : table.match? cs = some l) :
    l.Within cs := by
  rcases Option.map_eq_some_iff.1 h with ⟨entry, hfind, rfl⟩
  have hstarts := List.find?_some hfind
  have hmem := List.mem_of_find?_eq_some hfind
  exact ⟨(List.isPrefixOf_iff_prefix.1 hstarts).length_le, .inl (htable entry hmem)⟩

theorem within_token {kind : Token.Kind} {n : Nat} {cs : List Char} (hpos : 0 < n)
    (hle : n ≤ cs.length) : (token kind n).Within cs :=
  ⟨hle, .inl hpos⟩

theorem within_fault {f : Fault} {n : Nat} {cs : List Char} (hpos : 0 < n)
    (hle : n ≤ cs.length) : (fault f n).Within cs :=
  ⟨hle, .inl hpos⟩

theorem within_opening (style : StringStyle) (tag rest : List Char) (q : Char) :
    (quote?.opening style tag.length rest).Within (tag ++ q :: rest) := by
  unfold quote?.opening
  split
  · next h =>
      have hle := (List.isPrefixOf_iff_prefix.1 h).length_le
      simp only [List.length_cons, List.length_nil] at hle
      refine within_token (Nat.succ_pos _) ?_
      simp only [List.length_append, List.length_cons]
      omega
  · refine within_token (Nat.succ_pos _) ?_
    simp only [List.length_append, List.length_cons]
    omega

theorem within_quote? {cs : List Char} {l : Lexeme} (h : quote? cs = some l) : l.Within cs := by
  unfold quote? at h
  split at h <;> cases h
  · exact within_opening _ [] _ _
  · exact within_opening _ [] _ _
  · exact within_opening _ ['r'] _ _
  · exact within_opening _ ['u'] _ _
  · exact within_opening _ ['b'] _ _

theorem within_dollar? {cs : List Char} {o : Opener × Nat} (h : dollar? cs = some o) :
    (ofOpener o).Within cs := by
  unfold dollar? at h
  split at h
  · cases h
    exact within_token (Nat.succ_pos _) (by simp)
  · cases h
    exact within_token (Nat.succ_pos _) (by simp)
  · cases h
    exact within_token (Nat.succ_pos _) (by simp)
  · next c cs _ _ _ =>
      split at h
      · cases h
        exact within_token (Nat.succ_pos _) (by simp)
      · split at h
        · cases h
          have hle := runLength_le Char.isDigit (cs.take 1)
          rw [List.length_take] at hle
          refine within_token (by omega) ?_
          simp only [List.length_cons]
          omega
        · split at h
          · cases h
            have hle := runLength_le Character.isNamePart cs
            refine within_token (by omega) ?_
            simp only [List.length_cons]
            omega
          · cases h
  · cases h

theorem within_sigil? {cs : List Char} {o : Opener × Nat} (h : sigil? cs = some o) :
    (ofOpener o).Within cs := by
  unfold sigil? at h
  split at h
  · cases h
    exact within_token (Nat.succ_pos _) (by simp)
  · cases h
    exact within_token (Nat.succ_pos _) (by simp)
  · cases h
    exact within_token (Nat.succ_pos _) (by simp)
  · cases h
    exact within_token (Nat.succ_pos _) (by simp)
  · next c cs _ _ =>
      split at h
      · cases h
        have hle := runLength_le Character.isNamePart cs
        refine within_token (by omega) ?_
        simp only [List.length_cons]
        omega
      · cases h
  · cases h

theorem wordLength_le (cs : List Char) : wordLength cs ≤ cs.length := by
  fun_induction wordLength cs <;> simp <;> omega

theorem within_word (c : Char) (cs : List Char) : (word (c :: cs)).Within (c :: cs) := by
  have hle := wordLength_le (c :: cs)
  unfold word
  split
  · exact within_fault Nat.one_pos (by simp)
  · next hpos => exact within_token (Nat.pos_of_ne_zero hpos) hle

theorem digitsLength_le (p : Char → Bool) (cs : List Char) : digitsLength p cs ≤ cs.length :=
  runLength_le _ cs

theorem fractionLength_le (cs : List Char) : fractionLength cs ≤ cs.length := by
  unfold fractionLength
  split
  · next c cs =>
      have hle := digitsLength_le Char.isDigit (c :: cs)
      split
      · simp only [List.length_cons] at hle ⊢
        omega
      · exact Nat.zero_le _
  · exact Nat.zero_le _

theorem exponentDigitsLength_le (cs : List Char) : exponentDigitsLength cs ≤ cs.length := by
  unfold exponentDigitsLength
  split
  · exact Nat.zero_le _
  · split
    · exact digitsLength_le _ _
    · exact Nat.zero_le _

theorem signLength_le (cs : List Char) : signLength cs ≤ cs.length := by
  unfold signLength
  split
  · exact Nat.zero_le _
  · simp only [List.length_cons]
    split <;> omega

theorem exponentLength_le (cs : List Char) : exponentLength cs ≤ cs.length := by
  unfold exponentLength
  split
  · exact Nat.zero_le _
  · next letter cs =>
      split
      · have hsign := signLength_le cs
        have hle := exponentDigitsLength_le (cs.drop (signLength cs))
        rw [List.length_drop] at hle
        dsimp only
        split
        · exact Nat.zero_le _
        · simp only [List.length_cons]
          omega
      · exact Nat.zero_le _

theorem decimalLength_le (cs : List Char) : decimalLength cs ≤ cs.length := by
  unfold decimalLength
  dsimp only
  have hwhole := digitsLength_le Char.isDigit cs
  generalize digitsLength Char.isDigit cs = whole at *
  have hfraction := fractionLength_le (cs.drop whole)
  generalize fractionLength (cs.drop whole) = fraction at *
  have hexponent := exponentLength_le (cs.drop (whole + fraction))
  rw [List.length_drop] at hfraction hexponent
  omega

theorem numeralLength_le (cs : List Char) : (numeralLength cs).1 ≤ cs.length := by
  unfold numeralLength
  split
  · next letter rest =>
      split
      · next isDigit _ =>
          have hle := digitsLength_le isDigit rest
          simp only [List.length_cons]
          omega
      · exact decimalLength_le _
  · exact decimalLength_le _

/-- The first digit belongs to the number. -/
theorem numeralLength_pos {c : Char} (hc : c.isDigit = true) (cs : List Char) :
    0 < (numeralLength (c :: cs)).1 := by
  have hdecimal : 0 < decimalLength (c :: cs) := by
    unfold decimalLength digitsLength runLength
    rw [List.takeWhile_cons_of_pos (by simp [hc])]
    simp only [List.length_cons]
    omega
  unfold numeralLength
  split
  · split
    · dsimp only
      omega
    · exact hdecimal
  · exact hdecimal

theorem within_number {c : Char} (hc : c.isDigit = true) (cs : List Char) :
    (number (c :: cs)).Within (c :: cs) := by
  have hpos := numeralLength_pos hc cs
  have hle := numeralLength_le (c :: cs)
  unfold number
  dsimp only
  generalize (numeralLength (c :: cs)).1 = n at hpos hle ⊢
  have hstuck := runLength_le Character.isNamePart ((c :: cs).drop n)
  rw [List.length_drop] at hstuck
  split
  · exact within_token hpos hle
  · exact within_fault (by omega) (by omega)

theorem within_name {c : Char} (hc : Character.isNameStart c = true) (cs : List Char) :
    (name (c :: cs)).Within (c :: cs) := by
  have hpart : Character.isNamePart c = true := by
    simp only [Character.isNameStart, Character.isNamePart, Char.isAlphanum, Bool.or_eq_true] at hc ⊢
    rcases hc with hc | hc
    · exact .inl (.inl hc)
    · exact .inr hc
  have hle := runLength_le Character.isNamePart (c :: cs)
  refine within_token ?_ hle
  rw [List.takeWhile_cons_of_pos hpart]
  exact Nat.succ_pos _

theorem within_character {cs : List Char} (hpos : 0 < cs.length) : (character cs).Within cs := by
  unfold character
  split
  · next c cs =>
      have hle := runLength_le Character.isHexDigit cs
      dsimp only
      split
      · next h =>
          refine within_token (by omega) ?_
          have hlt : runLength Character.isHexDigit cs < cs.length := by
            refine Nat.lt_of_not_le fun hge => ?_
            rw [List.drop_of_length_le hge] at h
            cases h
          simp only [List.length_cons]
          omega
      · refine within_fault (by omega) ?_
        simp only [List.length_cons]
        omega
  · next c cs =>
      have hle := runLength_le Character.isHexDigit (cs.take 2)
      rw [List.length_take] at hle
      refine within_token (by omega) ?_
      unfold hexLength
      simp only [List.length_cons]
      omega
  · split
    · exact within_fault Nat.one_pos hpos
    · exact within_token (Nat.succ_pos _) (by simp)
  · exact within_fault Nat.one_pos hpos

theorem within_ofMode (mode : Mode) (cs : List Char) : (ofMode mode cs).Within cs := by
  unfold ofMode
  split
  · exact ⟨Nat.le_refl _, .inr rfl⟩
  · exact within_token (Nat.succ_pos _) (by simp)
  · next c cs hc =>
      have hopener : ∀ o : Option (Opener × Nat), (∀ p, o = some p → (ofOpener p).Within (c :: cs)) →
          ∀ l, l.Within (c :: cs) → ((o.map ofOpener).getD l).Within (c :: cs) := by
        intro o ho l hl
        cases o with
        | none => exact hl
        | some p => exact ho p rfl
      have hor : ∀ (o : Option Lexeme), (∀ l, o = some l → l.Within (c :: cs)) →
          ∀ l, l.Within (c :: cs) → (o.getD l).Within (c :: cs) := by
        intro o ho l hl
        cases o with
        | none => exact hl
        | some k => exact ho k rfl
      have hunrecognized : (fault .unrecognized 1).Within (c :: cs) :=
        within_fault Nat.one_pos (by simp)
      cases mode with
      | command =>
          refine hor _ (fun l => within_match? (by decide)) _ (hor _ (fun l => within_quote?) _ ?_)
          split
          · exact hopener _ (fun p => within_dollar?) _ (within_token Nat.one_pos (by simp))
          · exact hopener _ (fun p => within_sigil?) _ (within_word c cs)
      | expression =>
          refine hor _ (fun l => within_quote?) _ ?_
          split
          · next hd => exact within_number hd cs
          · split
            · next hn => exact within_name hn cs
            · split
              · exact hopener _ (fun p => within_dollar?) _ hunrecognized
              · refine hopener _ (fun p => within_sigil?) _ ?_
                split
                · exact within_character (by simp)
                · exact hor _ (fun l => within_match? (by decide)) _ hunrecognized

end Lexeme

/-- A token takes a character, unless it is the end. -/
theorem Lexed.advances {mode : Mode} {text rest : List Char} {kind : Token.Kind}
    (h : Lexed mode text kind rest) : 0 < text.length ∨ kind = .endOfInput := by
  have hwithin := Lexeme.within_ofMode mode (text ++ rest)
  rw [h.lexeme] at hwithin
  exact hwithin.2.imp_right Except.ok.inj

/-! ## Reading a printed text -/

/-- Blanks are passed over. -/
theorem extrasLength_blanks (n : Nat) (cs : List Char) :
    extrasLength (List.replicate n ' ' ++ cs) = n + extrasLength cs := by
  induction n with
  | zero => simp
  | succ n ih =>
      rw [List.replicate_succ, List.cons_append, Nat.add_right_comm, ← ih]
      rfl

namespace Cursor

/-- A token with a gap in front is read as that token, and nothing else with it. -/
theorem nextToken_gap {mode : Mode} {gap text rest : List Char} {kind : Token.Kind}
    (h : Lexed mode text kind rest) (c : Cursor) (hc : c.rest = gap ++ (text ++ rest))
    (hgap : extrasLength c.rest = gap.length) :
    c.nextToken mode
      = (.ok ⟨kind, .ofList text, (c.advance gap.length).spanOf text.length, gap.length == 0⟩,
          c.advance (gap.length + text.length)) := by
  have hfront : (c.advance gap.length).rest = text ++ rest := by
    simp only [advance, hc, List.drop_left']
  have htext : (c.advance gap.length).textOf text.length = .ofList text := by
    simp only [textOf, hfront, List.take_left']
  simp only [nextToken, hgap, hfront, h.lexeme, Lexeme.token, htext, advance_advance]

/-- A token with blanks in front is read as that token, and nothing else with it. -/
theorem nextToken_blanks {mode : Mode} {text rest : List Char} {kind : Token.Kind}
    (h : Lexed mode text kind rest) (n : Nat) (c : Cursor)
    (hc : c.rest = List.replicate n ' ' ++ (text ++ rest)) :
    c.nextToken mode
      = (.ok ⟨kind, .ofList text, (c.advance n).spanOf text.length, n == 0⟩,
          c.advance (n + text.length)) := by
  have hskip : extrasLength c.rest = (List.replicate n ' ').length := by
    rw [hc, extrasLength_blanks, h.plain, Nat.add_zero, List.length_replicate]
  have hnext := nextToken_gap h c hc hskip
  rwa [List.length_replicate] at hnext

end Cursor

/-- The next token of a printed text is the one that is meant: no error stands in
    front of it, and the rest follows it. -/
theorem Ahead.lookahead {mode : Mode} {overLines : Bool} {text rest : List Char}
    {kind : Token.Kind} {c : Cursor} (h : Ahead mode c.rest text kind rest)
    (hover : overLines = true → kind ≠ .newline) :
    ∃ token after, c.lookahead mode overLines = ⟨token, [], after⟩ ∧ token.kind = kind ∧
      after.rest = rest ∧ Takes mode c token text after ∧
      (token.immediate = true ↔ c.rest = text ++ rest) := by
  rcases h with ⟨blanks, hc, hlexed⟩
  have hnext := Cursor.nextToken_blanks hlexed blanks c hc
  have hkeep : (overLines && kind == .newline) = false := by
    cases overLines with
    | false => rfl
    | true => simpa using hover rfl
  have hrest : (c.advance (blanks + text.length)).rest = rest := by
    simp only [Cursor.advance, hc, List.drop_append, List.length_replicate]
    simp
  have hfront : (c.advance blanks).rest = text ++ rest := by
    simp only [Cursor.advance, hc, List.drop_left', List.length_replicate]
  have hblanks : blanks = 0 ↔ c.rest = text ++ rest := by
    rw [hc]
    constructor
    · rintro rfl
      rfl
    · intro hall
      have hlength := congrArg List.length hall
      rw [List.length_append, List.length_replicate] at hlength
      omega
  refine ⟨⟨kind, .ofList text, (c.advance blanks).spanOf text.length, blanks == 0⟩,
    c.advance (blanks + text.length), ?_, rfl, hrest, ⟨rfl, ?_, ?_, ?_, ?_, ?_⟩, ?_⟩
  · unfold Cursor.lookahead
    cases hclock : c.rest with
    | nil => rw [Cursor.lookaheadFrom, hnext]
    | cons x clock =>
        rw [Cursor.lookaheadFrom, hnext]
        dsimp only
        rw [hkeep]
        rfl
  · rw [hrest]
    exact hlexed
  · rw [hrest]
    exact ⟨_, hc⟩
  · intro _ himmediate
    have hzero : blanks = 0 := beq_iff_eq.1 himmediate
    rw [hrest]
    refine ⟨hblanks.1 hzero, ?_⟩
    subst hzero
    rw [Cursor.advance_zero]
    rfl
  · rw [← Cursor.advance_advance]
    change (c.advance blanks).offset + byteLength ((c.advance blanks).rest.take text.length) = _
    rw [hfront, List.take_left' rfl]
    rfl
  · exact hlexed.advances
  · rw [beq_iff_eq]
    exact hblanks

/-! ## What has been read of a source -/

namespace Cursor

/-- A token that has been read is a text of the source. -/
theorem takes_of_nextToken {mode : Mode} {c after : Cursor} {token : Token}
    (h : c.nextToken mode = (.ok token, after)) : ∃ text, Takes mode c token text after := by
  unfold nextToken at h
  dsimp only at h
  generalize hfront : c.advance (extrasLength c.rest) = front at h
  have hwithin := Lexeme.within_ofMode mode front.rest
  rcases hl : Lexeme.ofMode mode front.rest with ⟨verdict | kind, n⟩
  · rw [hl] at h
    cases h
  · rw [hl] at h hwithin
    cases h
    rcases hwithin with ⟨hle, hpos⟩
    have hlength : (front.rest.take n).length = n := by
      rw [List.length_take]
      exact Nat.min_eq_left hle
    have hsplit : front.rest.take n ++ (front.advance n).rest = front.rest :=
      List.take_append_drop n front.rest
    refine ⟨front.rest.take n, rfl, ⟨?_, ?_⟩, ?_, ?_, rfl, ?_⟩
    · rw [hsplit, ← hfront]
      exact extrasLength_drop c.rest
    · rw [hsplit, hl, hlength]
      rfl
    · rw [hsplit, ← hfront]
      exact ⟨_, (List.take_append_drop _ _).symm⟩
    · intro _ himmediate
      have hzero : extrasLength c.rest = 0 := beq_iff_eq.1 himmediate
      rw [hzero, advance_zero] at hfront
      rw [hsplit, hfront]
      exact ⟨rfl, rfl⟩
    · rw [hlength]
      exact hpos.imp_right Except.ok.inj

theorem takes_of_lookaheadFrom {mode : Mode} {overLines : Bool}
    (hover : mode = .command → overLines = false) (clock : List Char) :
    ∀ c : Cursor, (lookaheadFrom mode overLines clock c).errors = [] →
      ∃ text, Takes mode c (lookaheadFrom mode overLines clock c).token text
        (lookaheadFrom mode overLines clock c).after := by
  induction clock with
  | nil =>
      intro c h
      rw [lookaheadFrom] at h ⊢
      rcases hnext : c.nextToken mode with ⟨e | token, after⟩
      · rw [hnext] at h
        cases h
      · exact takes_of_nextToken hnext
  | cons x clock ih =>
      intro c h
      rw [lookaheadFrom] at h ⊢
      rcases hnext : c.nextToken mode with ⟨e | token, after⟩
      · rw [hnext] at h
        cases h
      · rw [hnext] at h
        dsimp only at h ⊢
        rcases takes_of_nextToken hnext with ⟨text, htakes⟩
        split at h
        · next hline =>
            rw [if_pos hline]
            rcases ih after h with ⟨text', htakes'⟩
            rcases htakes.placed with ⟨front, hfront⟩
            rcases htakes'.placed with ⟨front', hfront'⟩
            refine ⟨text', htakes'.shown, htakes'.lexed, ⟨front ++ (text ++ front'), ?_⟩, ?_,
              htakes'.stops, htakes'.advances⟩
            · rw [hfront, hfront']
              simp only [List.append_assoc]
            · intro hmode
              rw [hover hmode] at hline
              cases hline
        · next hline =>
            rw [if_neg hline]
            exact ⟨text, htakes⟩

/-- The next token of a source is a text of it, if no error stands in front. -/
theorem takes_of_lookahead {mode : Mode} {overLines : Bool} {c : Cursor}
    (hover : mode = .command → overLines = false) (h : (c.lookahead mode overLines).errors = []) :
    ∃ text, Takes mode c (c.lookahead mode overLines).token text
      (c.lookahead mode overLines).after :=
  takes_of_lookaheadFrom hover c.rest c h

end Cursor

end Ysh
