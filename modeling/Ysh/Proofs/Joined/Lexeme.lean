import Ysh.Proofs.Lexing.Atom
import Ysh.Proofs.Lexing.Quoted
import Ysh.Proofs.Lexing.Raw

/-!
# Lexemes at the End of a Text

What stands at the end of a text is what it was when another line is put behind the
text. No rule looks past a newline, and most rules end at a newline as they end at the
end: names, numbers, operators and words hold none.

A backslash is the exception. At the very end it is a fault, and in front of a newline
it is a continuation, so a text that ends with a backslash by itself is read on into the
next line.

## Main definitions

* `StartsLine`: A text that is empty or starts with a newline.

## Theorems

* `Lexeme.ofMode_append`: A lexeme does not change when a line is put behind it.
* `extrasLengthFrom_append`: Nor do the extras in front of it.
* `Quoted.form_append`: Nor does a piece of a string that is not the last.
* `Lexeme.length_ofMode`: A fault covers a part of the text, like a token.
-/

namespace Ysh

/-- The text is empty or starts with a newline. -/
def StartsLine (line : List Char) : Prop :=
  ∀ c, line.head? = some c → c = '\n'

theorem StartsLine.head_not {line : List Char} (h : StartsLine line) {p : Char → Bool}
    (hp : p '\n' = false) : ∀ c, line.head? = some c → p c = false := by
  intro c hc
  rw [h c hc]
  exact hp

theorem StartsLine.cases {line : List Char} (h : StartsLine line) :
    line = [] ∨ ∃ more, line = '\n' :: more := by
  cases line with
  | nil => exact .inl rfl
  | cons c more => exact .inr ⟨more, by rw [h c rfl]⟩

theorem StartsLine.endsNumber {line : List Char} (h : StartsLine line) : EndsNumber line := by
  intro c hc
  rw [h c hc]
  decide

namespace Lexeme

theorem takeWhile_append_of_head {p : Char → Bool} (x : List Char) {rest : List Char}
    (hrest : ∀ c, rest.head? = some c → p c = false) :
    (x ++ rest).takeWhile p = x.takeWhile p := by
  induction x with
  | nil =>
      cases rest with
      | nil => rfl
      | cons c rest => exact List.takeWhile_cons_of_neg (by simp [hrest c rfl])
  | cons c x ih =>
      by_cases hc : p c = true
      · rw [List.cons_append, List.takeWhile_cons_of_pos hc, List.takeWhile_cons_of_pos hc, ih]
      · rw [List.cons_append, List.takeWhile_cons_of_neg hc, List.takeWhile_cons_of_neg hc]

theorem runLength_append_of_ends {p : Char → Bool} (x : List Char) {rest : List Char}
    (hrest : ∀ c, rest.head? = some c → p c = false) :
    runLength p (x ++ rest) = runLength p x :=
  congrArg List.length (takeWhile_append_of_head x hrest)

theorem isPrefixOf_append_of_not_mem {op : List Char} (hop : '\n' ∉ op) :
    ∀ (x : List Char) {line : List Char}, StartsLine line →
      op.isPrefixOf (x ++ line) = op.isPrefixOf x := by
  induction op with
  | nil => intro x line _; rfl
  | cons a op ih =>
      intro x line hline
      cases x with
      | nil =>
          rcases hline.cases with rfl | ⟨more, rfl⟩
          · rfl
          · have ha : (a == '\n') = false := by
              rw [beq_eq_false_iff_ne]
              rintro rfl
              exact hop List.mem_cons_self
            change (a == '\n' && _) = false
            rw [ha, Bool.false_and]
      | cons c x =>
          change (a == c && op.isPrefixOf (x ++ line)) = (a == c && op.isPrefixOf x)
          rw [ih (fun h => hop (List.mem_cons_of_mem _ h)) x hline]

variable {line : List Char} (hline : StartsLine line)
include hline

theorem match?_append {table : OperatorTable} (htable : ∀ e ∈ table, '\n' ∉ e.1)
    (x : List Char) : table.match? (x ++ line) = table.match? x := by
  unfold OperatorTable.match?
  congr 1
  induction table with
  | nil => rfl
  | cons e table ih =>
      rw [List.find?_cons, List.find?_cons,
        isPrefixOf_append_of_not_mem (htable e List.mem_cons_self) x hline,
        ih fun e he => htable e (List.mem_cons_of_mem _ he)]

theorem opening_append (style : StringStyle) (tag : Nat) (x : List Char) :
    quote?.opening style tag (x ++ line) = quote?.opening style tag x := by
  unfold quote?.opening
  rw [isPrefixOf_append_of_not_mem (by cases style <;> decide) x hline]

theorem quote?_append {x : List Char} (hx : x ≠ []) : quote? (x ++ line) = quote? x := by
  rcases List.exists_cons_of_ne_nil hx with ⟨c, x, rfl⟩
  rcases hq : quote? (c :: x) with _ | l
  · rcases quote?_eq_none.1 hq with ⟨hdouble, hsingle, htagged⟩
    refine quote?_eq_none.2 ⟨hdouble, hsingle, fun hquote => htagged ?_⟩
    cases x with
    | nil => exact absurd (hline _ hquote) (by decide)
    | cons d x => exact hquote
  · unfold quote? at hq
    split at hq
    all_goals
      first
      | cases hq
        next heq =>
          cases heq
          exact congrArg some (opening_append hline _ _ _)
      | cases hq

theorem take_append (x : List Char) (n : Nat) {p : Char → Bool} (hp : p '\n' = false) :
    runLength p ((x ++ line).take n) = runLength p (x.take n) := by
  rw [List.take_append, runLength_append_of_ends]
  intro c hc
  refine hline.head_not hp c ?_
  rw [List.head?_take] at hc
  split at hc
  · cases hc
  · exact hc

theorem dollar?_append {x : List Char} (hx : x ≠ []) : dollar? (x ++ line) = dollar? x := by
  rcases hline.cases with rfl | ⟨more, rfl⟩
  · rw [List.append_nil]
  rcases x with _ | ⟨c, _ | ⟨d, x⟩⟩
  · exact absurd rfl hx
  · by_cases hc : c = '$'
    · subst hc
      rfl
    · unfold dollar?
      split <;> simp_all
  · have hname := runLength_append_of_ends x (hline.head_not (p := Character.isNamePart) (by decide))
    have hdigit := take_append hline x 1 (p := Char.isDigit) (by decide)
    rw [List.cons_append, List.cons_append]
    unfold dollar?
    split <;> simp_all

theorem sigil?_append {x : List Char} (hx : x ≠ []) : sigil? (x ++ line) = sigil? x := by
  rcases hline.cases with rfl | ⟨more, rfl⟩
  · rw [List.append_nil]
  rcases x with _ | ⟨c, _ | ⟨d, x⟩⟩
  · exact absurd rfl hx
  · by_cases hc : c = '@'
    · subst hc
      rfl
    · unfold sigil?
      split <;> simp_all
  · have hname := runLength_append_of_ends x (hline.head_not (p := Character.isNamePart) (by decide))
    rw [List.cons_append, List.cons_append]
    unfold sigil?
    split <;> simp_all

omit hline in
/-- What is neither a backslash alone nor an escape starts with no backslash. -/
theorem ne_backslash {c : Char} {cs : List Char} (hlone : c = '\\' → cs = [] → False)
    (hescape : ∀ d ds, c = '\\' → cs = d :: ds → False) : c ≠ '\\' := by
  intro hc
  cases cs with
  | nil => exact hlone hc rfl
  | cons d ds => exact hescape d ds hc rfl

theorem wordLength_append_line (x : List Char) : wordLength (x ++ line) = wordLength x := by
  have hzero : wordLength line = 0 := by
    rcases hline.cases with rfl | ⟨more, rfl⟩ <;> rfl
  fun_induction wordLength x with
  | case1 => exact hzero
  | case2 => rcases hline.cases with rfl | ⟨more, rfl⟩ <;> rfl
  | case3 c cs hblank => rw [List.cons_append, List.cons_append, wordLength, if_pos hblank]
  | case4 c cs hblank ih => rw [List.cons_append, List.cons_append, wordLength, if_neg hblank, ih]
  | case5 c cs hlone hescape hspecial =>
      have hc : c ≠ '\\' := ne_backslash hlone hescape
      rw [List.cons_append, wordLength, if_pos hspecial]
      · exact fun h _ => hc h
      · exact fun _ _ h _ => hc h
  | case6 c cs hlone hescape hspecial ih =>
      have hc : c ≠ '\\' := ne_backslash hlone hescape
      rw [List.cons_append, wordLength, if_neg hspecial, ih]
      · exact fun h _ => hc h
      · exact fun _ _ h _ => hc h

theorem exponentLength_append_line (x : List Char) :
    exponentLength (x ++ line) = exponentLength x := by
  rcases hline.cases with rfl | ⟨more, rfl⟩
  · rw [List.append_nil]
  rcases x with _ | ⟨c, _ | ⟨d, x⟩⟩
  · rfl
  · change (if c = 'e' ∨ c = 'E' then _ else _) = (if c = 'e' ∨ c = 'E' then _ else _)
    split <;> rfl
  · have hsign : signLength (d :: x ++ '\n' :: more) = signLength (d :: x) := rfl
    rw [List.cons_append, exponentLength_cons, exponentLength_cons, hsign,
      List.drop_append_of_le_length (signLength_le _), exponentDigitsLength_append hline.endsNumber]

theorem decimalLength_append_line (x : List Char) :
    decimalLength (x ++ line) = decimalLength x := by
  unfold decimalLength
  dsimp only
  rw [digitsLength_append_of_ends hline.endsNumber x fun _ => isNamePart_of_isDigit]
  have hle := digitsLength_le Char.isDigit x
  generalize digitsLength Char.isDigit x = whole at hle ⊢
  rw [List.drop_append_of_le_length hle, fractionLength_append hline.endsNumber]
  have hle' := fractionLength_le (x.drop whole)
  rw [List.length_drop] at hle'
  rw [List.drop_append_of_le_length (by omega), exponentLength_append_line hline]

theorem numeralLength_append_line {x : List Char} (hx : x ≠ []) :
    numeralLength (x ++ line) = numeralLength x := by
  rw [numeralLength_eq, numeralLength_eq,
    radixAhead?_append hx fun c hc => (hline.endsNumber c hc).1, decimalLength_append_line hline]
  rcases hradix : radixAhead? x with _ | isDigit
  · rfl
  · match x, hradix with
    | c :: d :: x, hradix =>
        have hp : ∀ c, isDigit c = true → Character.isNamePart c = true := by
          change (if c = '0' then radixDigits? d else none) = some isDigit at hradix
          split at hradix
          · exact isNamePart_of_radixDigits? hradix
          · cases hradix
        simp only [List.cons_append, List.drop_succ_cons, List.drop_zero,
          digitsLength_append_of_ends hline.endsNumber x hp]

theorem number_append {x : List Char} (hx : x ≠ []) :
    Lexeme.number (x ++ line) = Lexeme.number x := by
  have hle := numeralLength_le x
  unfold Lexeme.number
  rw [numeralLength_append_line hline hx]
  dsimp only
  rw [List.drop_append_of_le_length hle,
    runLength_append_of_ends _ (hline.head_not (p := Character.isNamePart) (by decide))]

theorem name_append (x : List Char) : name (x ++ line) = name x := by
  unfold name
  rw [takeWhile_append_of_head x (hline.head_not (p := Character.isNamePart) (by decide))]

omit hline in
theorem character_cons (b c : Char) (x : List Char) : character (b :: c :: x) =
    if c = 'u' ∧ x.head? = some '{' then
      if (x.tail.drop (runLength Character.isHexDigit x.tail)).head? = some '}' then
        .token .character (4 + runLength Character.isHexDigit x.tail)
      else .fault .invalidEscape (3 + runLength Character.isHexDigit x.tail)
    else if c = 'x' then .token .character (2 + hexLength 2 x)
    else if Character.isBlank c then .fault .invalidEscape 1 else .token .character 2 := by
  by_cases hu : c = 'u'
  · subst hu
    cases x with
    | nil => rfl
    | cons d x =>
        by_cases hd : d = '{'
        · subst hd
          rfl
        · rw [if_neg fun h => hd (Option.some.inj h.2), character]
          · rfl
          · exact fun cs _ h => hd (List.cons.inj h).1
          · decide
  · rw [if_neg fun h => hu h.1]
    by_cases hx : c = 'x'
    · subst hx
      rfl
    · rw [if_neg hx, character]
      · exact fun cs h _ => hu h
      · exact hx

theorem character_append {x : List Char} (hx : 2 ≤ x.length ∨ line = []) :
    character (x ++ line) = character x := by
  rcases hline.cases with rfl | ⟨more, rfl⟩
  · rw [List.append_nil]
  rcases x with _ | ⟨b, _ | ⟨c, x⟩⟩
  · simp at hx
  · simp at hx
  · have htwo : hexLength 2 (x ++ '\n' :: more) = hexLength 2 x := take_append hline x 2 (by decide)
    rw [List.cons_append, List.cons_append, character_cons, character_cons, htwo]
    cases x with
    | nil =>
        have hbrace : (([] : List Char) ++ '\n' :: more).head? ≠ some '{' := by simp
        have hnone : ([] : List Char).head? ≠ some '{' := by simp
        simp only [hbrace, hnone, and_false, if_false]
    | cons d x =>
        have hle := runLength_le Character.isHexDigit x
        rw [List.cons_append, List.head?_cons, List.tail_cons, List.head?_cons, List.tail_cons,
          runLength_append_of_ends x (hline.head_not (p := Character.isHexDigit) (by decide)),
          List.drop_append_of_le_length hle]
        rcases x.drop (runLength Character.isHexDigit x) with _ | ⟨e, y⟩ <;> rfl

/-- A lexeme is the same in front of a line. Only a backslash that stands alone at the end
    is not, since it escapes the newline. -/
theorem ofMode_append (mode : Mode) {x : List Char} (hx : x ≠ [])
    (hlone : x = ['\\'] → line = []) : ofMode mode (x ++ line) = ofMode mode x := by
  rcases List.exists_cons_of_ne_nil hx with ⟨c, cs, rfl⟩
  by_cases hc : c = '\n'
  · subst hc
    rfl
  · rw [List.cons_append, ofMode_cons hc, ofMode_cons hc, ← List.cons_append]
    cases mode with
    | command =>
        dsimp only
        unfold ofCommandText word
        rw [match?_append hline (by decide), quote?_append hline hx, dollar?_append hline hx,
          sigil?_append hline hx, wordLength_append_line hline]
    | expression =>
        dsimp only
        unfold ofExpressionText
        rw [match?_append hline (by decide), quote?_append hline hx, dollar?_append hline hx,
          sigil?_append hline hx, number_append hline hx, name_append hline]
        by_cases hback : c = '\\'
        · subst hback
          rw [character_append hline]
          cases cs with
          | nil => exact .inr (hlone rfl)
          | cons d cs => exact .inl (Nat.le_add_left 2 _)
        · simp only [if_neg hback]

omit hline in
/-- A fault covers a part of the text, like a token. -/
theorem length_ofMode (mode : Mode) {cs : List Char} (hcs : cs ≠ []) :
    0 < (ofMode mode cs).length ∧ (ofMode mode cs).length ≤ cs.length := by
  have hwithin := within_ofMode mode cs
  refine ⟨hwithin.2.resolve_right fun hend => hcs ?_, hwithin.1⟩
  rcases hl : ofMode mode cs with ⟨verdict, n⟩
  rw [hl] at hend
  dsimp only at hend
  subst hend
  exact eq_nil_of_endOfInput hl

end Lexeme

open Lexeme

/-! ## Extras -/

theorem extrasLengthFrom_append {line : List Char} (hline : StartsLine line) (extras : Extras)
    (x : List Char) (hlone : x.drop (extrasLengthFrom extras x) = ['\\'] → line = []) :
    extrasLengthFrom extras (x ++ line) = extrasLengthFrom extras x := by
  have hzero : ∀ extras, extrasLengthFrom extras line = 0 := by
    intro extras
    rcases hline.cases with rfl | ⟨more, rfl⟩ <;> cases extras <;> rfl
  fun_induction extrasLengthFrom extras x with
  | case1 => exact hzero _
  | case2 cs => rfl
  | case3 c cs hc ih =>
      rw [List.cons_append, extrasLengthFrom, if_neg hc, ih]
      exact hlone
  | case4 c cs hblank ih =>
      rw [List.cons_append, List.cons_append, extrasLengthFrom, if_pos hblank, ih]
      exact hlone
  | case5 c cs hblank =>
      rw [List.cons_append, List.cons_append, extrasLengthFrom, if_neg hblank]
  | case6 c cs hescape hblank ih =>
      have hc : c ≠ '\\' := by
        rintro rfl
        exact absurd hblank (by decide)
      rw [List.cons_append, extrasLengthFrom, if_pos hblank, ih]
      · exact hlone
      · exact fun _ _ h _ => hc h
  | case7 cs hescape hblank ih =>
      rw [List.cons_append, extrasLengthFrom, if_neg hblank, if_pos rfl, ih]
      · exact hlone
      · exact fun _ _ h _ => absurd h (by decide)
  | case8 c cs hescape hblank hcomment =>
      by_cases hc : c = '\\'
      · subst hc
        cases cs with
        | nil =>
            rw [hlone rfl]
            rfl
        | cons d ds => exact absurd rfl (hescape d ds rfl)
      · rw [List.cons_append, extrasLengthFrom, if_neg hblank, if_neg hcomment]
        exact fun _ _ h _ => hc h

/-- A backslash alone at the end continues in the line behind it. -/
theorem extrasLengthFrom_append_of_lone {more x : List Char} (extras : Extras)
    (h : x.drop (extrasLengthFrom extras x) = ['\\']) :
    extrasLengthFrom extras (x ++ '\n' :: more) = x.length + 1 + extrasLength more := by
  fun_induction extrasLengthFrom extras x with
  | case1 => cases h
  | case2 cs => cases h
  | case3 c cs hc ih =>
      rw [List.cons_append, extrasLengthFrom, if_neg hc, ih h, List.length_cons]
      omega
  | case4 c cs hblank ih =>
      rw [List.cons_append, List.cons_append, extrasLengthFrom, if_pos hblank, ih h,
        List.length_cons, List.length_cons]
      omega
  | case5 c cs hblank => cases h
  | case6 c cs hescape hblank ih =>
      have hc : c ≠ '\\' := by
        rintro rfl
        exact absurd hblank (by decide)
      rw [List.cons_append, extrasLengthFrom, if_pos hblank, ih h, List.length_cons]
      · omega
      · exact fun _ _ h _ => hc h
  | case7 cs hescape hblank ih =>
      rw [List.cons_append, extrasLengthFrom, if_neg hblank, if_pos rfl, ih h, List.length_cons]
      · omega
      · exact fun _ _ h _ => absurd h (by decide)
  | case8 c cs hescape hblank hcomment =>
      cases h
      change extrasLength more + 2 = _
      rw [List.length_singleton]
      omega

namespace Quoted

variable {line : List Char} (hline : StartsLine line)
include hline

theorem quotes_append (style : StringStyle) (triple : Bool) (x : List Char) :
    (style.delimiter triple).isPrefixOf (x ++ line) = (style.delimiter triple).isPrefixOf x :=
  isPrefixOf_append_of_not_mem (by cases style <;> cases triple <;> decide) x hline

/-- A run of text that ends in front of the last character ends there in front of a
    line too. -/
theorem textLength_append {ends : List Char → Bool} (style : StringStyle) (triple : Bool)
    (hends : ∀ x : List Char, 2 ≤ x.length → ends (x ++ line) = ends x)
    (hone : ∀ c, ends [c] = true → ends (c :: line) = true) (x : List Char)
    (h : textLength (style.delimiter triple) ends x < x.length) :
    textLength (style.delimiter triple) ends (x ++ line) =
      textLength (style.delimiter triple) ends x := by
  induction x with
  | nil => cases h
  | cons c cs ih =>
      unfold textLength at h
      rw [List.cons_append, textLength, textLength, ← List.cons_append, quotes_append hline]
      by_cases hstop : ((style.delimiter triple).isPrefixOf (c :: cs) || ends (c :: cs)) = true
      · rw [if_pos hstop, if_pos]
        rw [Bool.or_eq_true] at hstop ⊢
        refine hstop.imp_right fun hends' => ?_
        cases cs with
        | nil => exact hone c hends'
        | cons d cs => rwa [hends _ (Nat.le_add_left 2 _)]
      · rw [if_neg hstop] at h
        have hlt := Nat.lt_of_succ_lt_succ h
        rw [if_neg hstop, hends (c :: cs) (by rw [List.length_cons]; omega), if_neg hstop, ih hlt]

omit hline in
theorem startsEscape_append {x : List Char} (hx : 2 ≤ x.length) :
    startsEscape (x ++ line) = startsEscape x := by
  match x, hx with
  | c :: d :: x, _ =>
      rw [List.cons_append, List.cons_append]
      unfold startsEscape
      split
      · next heq =>
          cases heq
          rfl
      · next hescape =>
          split
          · next heq =>
              cases heq
              exact absurd rfl (hescape _ _)
          · rfl

omit hline in
theorem endsDoubleQuoted_append {x : List Char} (hx : 2 ≤ x.length) :
    endsDoubleQuoted (x ++ line) = endsDoubleQuoted x := by
  unfold endsDoubleQuoted
  rw [startsEscape_append hx]
  cases x with
  | nil => cases hx
  | cons => rfl

theorem doubleQuotedLength_append (style : StringStyle) (triple : Bool) (x : List Char)
    (h : doubleQuotedLength (style.delimiter triple) x < x.length) :
    doubleQuotedLength (style.delimiter triple) (x ++ line) =
      doubleQuotedLength (style.delimiter triple) x := by
  cases x with
  | nil => cases h
  | cons c cs =>
      rw [doubleQuotedLength] at h
      rw [List.cons_append, doubleQuotedLength, doubleQuotedLength, ← List.cons_append,
        quotes_append hline]
      split
      · rfl
      · next hstop =>
          rw [if_neg hstop] at h
          rw [textLength_append hline style triple (fun x => endsDoubleQuoted_append)
            (fun c hc => ?_) cs (Nat.lt_of_succ_lt_succ h)]
          have hdollar : (some c == some '$') = true := by
            cases line <;> simpa [endsDoubleQuoted, startsEscape] using hc
          change (some c == some '$' || _) = true
          rw [hdollar, Bool.true_or]

theorem unicodeForm_append (x : List Char) : unicodeForm (x ++ line) = unicodeForm x := by
  cases x with
  | nil => rcases hline.cases with rfl | ⟨more, rfl⟩ <;> rfl
  | cons c x =>
      by_cases hc : c = '{'
      · subst hc
        have hsix : hexLength 6 (x ++ line) = hexLength 6 x := take_append hline x 6 (by decide)
        have hhead : ((x ++ line).drop (hexLength 6 x)).head? = some '}' ↔
            (x.drop (hexLength 6 x)).head? = some '}' := by
          rw [List.drop_append_of_le_length (hexLength_le 6 x)]
          cases x.drop (hexLength 6 x) with
          | nil =>
              refine ⟨fun h => ?_, fun h => nomatch h⟩
              exact absurd (hline _ h) (by decide)
          | cons => rfl
        rw [List.cons_append, unicodeForm, unicodeForm, hsix]
        simp only [hhead]
      · have hfour : hexLength 4 (c :: x ++ line) = hexLength 4 (c :: x) :=
          take_append hline (c :: x) 4 (by decide)
        rw [List.cons_append, unicodeForm, unicodeForm, ← List.cons_append, hfour]
        · exact fun cs h => hc (List.cons.inj h).1
        · exact fun cs h => hc (List.cons.inj h).1

theorem backslashForm_append (style : StringStyle) {x : List Char} (hx : 2 ≤ x.length) :
    backslashForm style (x ++ line) = backslashForm style x := by
  match x, hx with
  | b :: c :: x, _ =>
      have htwo : hexLength 2 (x ++ line) = hexLength 2 x := take_append hline x 2 (by decide)
      rw [List.cons_append, List.cons_append, backslashForm, backslashForm, htwo,
        unicodeForm_append hline]

theorem doubleQuotedForm_append {triple : Bool} {x : List Char} (hx : 2 ≤ x.length)
    (h : (doubleQuotedForm (StringStyle.doubleQuoted.delimiter triple) x).2 < x.length) :
    doubleQuotedForm (StringStyle.doubleQuoted.delimiter triple) (x ++ line) =
      doubleQuotedForm (StringStyle.doubleQuoted.delimiter triple) x := by
  have hne : x ≠ [] := by
    rintro rfl
    cases hx
  have hhead : (x ++ line).head? = x.head? := by
    cases x with
    | nil => cases hx
    | cons => rfl
  have hdrop : (x ++ line).drop 1 = x.drop 1 ++ line :=
    List.drop_append_of_le_length (Nat.le_of_succ_le hx)
  unfold doubleQuotedForm at h ⊢
  rw [startsEscape_append hx, hhead, dollar?_append hline hne, hdrop]
  by_cases hescape : startsEscape x = true
  · rw [if_pos hescape, if_pos hescape]
  · rw [if_neg hescape] at h ⊢
    rw [if_neg hescape]
    by_cases hstart : x.head? = some '$'
    · rw [if_pos hstart] at h ⊢
      rw [if_pos hstart]
      rcases hdollar : dollar? x with _ | p
      · rw [hdollar] at h
        dsimp only at h ⊢
        rw [doubleQuotedLength_append hline]
        rw [List.length_drop]
        omega
      · rfl
    · rw [if_neg hstart] at h ⊢
      rw [if_neg hstart, doubleQuotedLength_append hline _ _ _ h]

/-- A piece is the same in front of a line, if it is not the last. -/
theorem form_append {style : StringStyle} {triple : Bool} {x : List Char}
    (h : (form style triple x).2 < x.length) :
    form style triple (x ++ line) = form style triple x := by
  have hne : x ≠ [] := by
    rintro rfl
    cases h
  have htwo : 2 ≤ x.length := Nat.succ_le_of_lt (Nat.lt_of_le_of_lt (form_within hne).1 h)
  unfold form at h ⊢
  dsimp only at h ⊢
  rw [quotes_append hline]
  by_cases hclose : (style.delimiter triple).isPrefixOf x = true
  · rw [if_pos hclose, if_pos hclose]
  · rw [if_neg hclose] at h ⊢
    rw [if_neg hclose]
    cases style with
    | singleQuoted | raw =>
        dsimp only at h ⊢
        rw [textLength_append hline _ _ (fun _ _ => rfl)
          (fun _ h => absurd h Bool.false_ne_true) x h]
    | doubleQuoted => exact doubleQuotedForm_append hline htwo h
    | unicode | byte =>
        have hstarts : ∀ y : List Char, y ≠ [] → startsBackslash (y ++ line) = startsBackslash y := by
          intro y hy
          cases y with
          | nil => exact absurd rfl hy
          | cons => rfl
        dsimp only at h ⊢
        rw [hstarts x hne, backslashForm_append hline _ htwo]
        by_cases hback : startsBackslash x = true
        · rw [if_pos hback, if_pos hback]
        · rw [if_neg hback] at h ⊢
          rw [if_neg hback]
          dsimp only at h
          rw [textLength_append hline _ _ (fun y hy => hstarts y ?_) (fun _ hc => hc) x h]
          rintro rfl
          cases hy

omit hline in
/-- The closing quotes are the same in front of anything. -/
theorem form_append_of_close {style : StringStyle} {triple : Bool} {x : List Char} {n : Nat}
    (h : form style triple x = (.close, n)) : form style triple (x ++ line) = (.close, n) := by
  rcases form_close_iff.1 h with ⟨hstarts, rfl⟩
  exact form_close_iff.2 ⟨hstarts.trans (List.prefix_append x line), rfl⟩

end Quoted

namespace BracedName

theorem length?_append_line {line : List Char} (hline : StartsLine line) (x : List Char) :
    length? (x ++ line) = length? x := by
  cases x with
  | nil => rcases hline.cases with rfl | ⟨more, rfl⟩ <;> rfl
  | cons c x =>
      rw [List.cons_append, length?, length?,
        runLength_append_of_ends x (hline.head_not (p := Character.isNamePart) (by decide)),
        runLength_append_of_ends x (hline.head_not (p := Char.isDigit) (by decide))]

end BracedName

namespace Eggex

/-- A closed pattern is the same in front of anything. -/
theorem bodyLength_append_of_closed (x line : List Char) (h : (bodyLength x).2 = true) :
    bodyLength (x ++ line) = bodyLength x := by
  rcases isBody_of_closed x h with ⟨b, r, rfl, hbody, -⟩
  rw [List.append_assoc, List.cons_append, bodyLength_of_isBody b _ hbody,
    bodyLength_of_isBody b r hbody]

end Eggex

end Ysh
