import Ysh.Name
import Ysh.Proofs.Lexing.Opener

/-!
# Lexed Names, Numbers and Characters

The tokens of an expression that are more than an operator, in front of one rest
and of another. Each is printed as it was written. In the source anything may have
stood behind it that ends it; in the printed form one of a few characters does.
So for each kind there is the question what ends it, and the answer is the same
for all of them but for one character: a dot behind a number would be its
fraction, and the printer puts parentheses around the number there.

## Main definitions

* `EndsAtom`: A rest behind which a name or a character literal ends.

## Theorems

* `lexed_name`, `isName_of_lexed`: The names are the tokens that may name a member.
* `Lexed.number_of_ends`: A number stays one in front of another rest.
* `Lexed.character_of_ends`: So does a character literal.
-/

namespace Ysh

open Lexeme

/-- A rest behind which a name or a character literal ends. -/
def EndsAtom (rest : List Char) : Prop :=
  ∀ c, rest.head? = some c → Character.isNamePart c = false ∧ c ≠ '\'' ∧ c ≠ '{'

/-! ## Names -/

/-- A text is a letter or an underscore, with characters of a name behind it. -/
def IsName (text : List Char) : Prop :=
  isValidName (.ofList text) = true

theorem isName_cons {c : Char} {cs : List Char} :
    IsName (c :: cs) ↔ Character.isNameStart c = true ∧
      ∀ d ∈ cs, Character.isNamePart d = true := by
  unfold IsName isValidName
  rw [String.toList_ofList]
  simp

theorem IsName.exists_cons {text : List Char} (h : IsName text) : ∃ c cs, text = c :: cs := by
  cases text with
  | nil => cases h
  | cons c cs => exact ⟨c, cs, rfl⟩

theorem takeWhile_append_of_ends {p : Char → Bool} {x rest : List Char}
    (hx : ∀ c ∈ x, p c = true) (hrest : ∀ c, rest.head? = some c → p c = false) :
    (x ++ rest).takeWhile p = x := by
  rw [List.takeWhile_append_of_pos hx]
  cases rest with
  | nil => simp
  | cons c cs => rw [List.takeWhile_cons_of_neg (by simp [hrest c rfl]), List.append_nil]

/-- Names start with none of the characters that start something else. -/
theorem isNameStart_not {c : Char} (h : Character.isNameStart c = true) :
    c.isDigit = false ∧ c ∉ ['"', '\'', '$', '@', '^', '\\', '\n', ' ', '\t', '\r', '#'] := by
  constructor
  · rw [Bool.eq_false_iff, Ne, Character.isDigit_iff]
    have hstart := Character.isNameStart_iff.1 h
    omega
  · intro hmem
    have hnone : ['"', '\'', '$', '@', '^', '\\', '\n', ' ', '\t', '\r', '#'].all
        (!Character.isNameStart ·) = true := by decide
    have hnot := List.all_eq_true.1 hnone c hmem
    rw [h] at hnot
    cases hnot

theorem ofMode_expression_name {c : Char} {cs : List Char}
    (hc : Character.isNameStart c = true) (hquote : quote? (c :: cs) = none) :
    ofMode .expression (c :: cs) = Lexeme.name (c :: cs) := by
  rcases isNameStart_not hc with ⟨hdigit, hnot⟩
  have hof : ofMode .expression (c :: cs) = ofExpressionText c (c :: cs) := by
    unfold ofMode
    split <;> simp_all
  rw [hof, ofExpressionText, hquote, Option.getD_none, hdigit, if_neg Bool.false_ne_true,
    if_pos hc]

/-- A name is a token in front of everything behind which it ends. -/
theorem lexed_name {text rest : List Char} (h : IsName text) (hrest : EndsAtom rest) :
    Lexed .expression text ((keyword? text).getD .identifier) rest := by
  rcases h.exists_cons with ⟨c, cs, rfl⟩
  rcases isName_cons.1 h with ⟨hc, hcs⟩
  rcases isNameStart_not hc with ⟨hdigit, hnot⟩
  have hpart : ∀ d ∈ c :: cs, Character.isNamePart d = true :=
    List.forall_mem_cons.2 ⟨isNamePart_of_isNameStart hc, hcs⟩
  have hquote : quote? (c :: (cs ++ rest)) = none := by
    rw [quote?_eq_none]
    simp only [List.mem_cons, not_or] at hnot
    refine ⟨hnot.1, hnot.2.1, fun hhead => ?_⟩
    exfalso
    cases cs with
    | nil => exact (hrest '\'' hhead).2.1 rfl
    | cons d cs =>
        cases hhead
        exact absurd (hcs '\'' (by simp)) (by decide)
  constructor
  · rw [List.cons_append, extrasLength_eq_zero]
    simp only [List.mem_cons, not_or] at hnot
    refine ⟨⟨hnot.2.2.2.2.2.2.2.1, hnot.2.2.2.2.2.2.2.2.1, hnot.2.2.2.2.2.2.2.2.2.1,
      hnot.2.2.2.2.2.2.2.2.2.2.1⟩, fun hback => absurd hback hnot.2.2.2.2.2.1⟩
  · rw [List.cons_append, ofMode_expression_name hc hquote, Lexeme.name, ← List.cons_append,
      takeWhile_append_of_ends hpart fun d hd => (hrest d hd).1]

/-- A token that may name a member is a name, and its kind says which keyword it
    is, if any. -/
theorem isName_of_lexed {text rest : List Char} {kind : Token.Kind}
    (h : Lexed .expression text kind rest) (hkind : kind.isMemberName = true) :
    IsName text ∧ kind = (keyword? text).getD .identifier := by
  have harises := arises_ofMode .expression (text ++ rest)
  rw [h.lexeme] at harises
  generalize hl : Lexeme.token kind text.length = l at harises
  cases harises with
  | quote hq =>
      rcases quote?_kind hq with ⟨_, _, _, rfl⟩
      cases hl
      cases hkind
  | @dollar _ p hd =>
      rcases p with ⟨o', n'⟩
      cases hl
      cases hkind
  | @sigil _ p hs =>
      rcases p with ⟨o', n'⟩
      cases hl
      cases hkind
  | expressionOperator hm =>
      subst hl
      have hnot := (operator_kind (.inr rfl) hm).2.1
      rw [hkind] at hnot
      cases hnot
  | number hc hd _ =>
      cases number_kind hl.symm
      cases hkind
  | @name c hc hn hd _ =>
      have htake : (text ++ rest).takeWhile Character.isNamePart = text := by
        have hlength := congrArg Lexeme.length hl
        change text.length = ((text ++ rest).takeWhile Character.isNamePart).length at hlength
        have hstarts := List.takeWhile_prefix Character.isNamePart (l := text ++ rest)
        rw [List.prefix_iff_eq_take, ← hlength, List.take_left' rfl] at hstarts
        exact hstarts
      have hverdict := congrArg Lexeme.verdict hl
      simp only [Lexeme.name, token, Except.ok.injEq, htake] at hverdict
      refine ⟨?_, hverdict⟩
      have hall : ∀ d ∈ text, Character.isNamePart d = true := by
        intro d hd
        rw [← htake] at hd
        exact List.all_eq_true.1 List.all_takeWhile d hd
      cases text with
      | nil =>
          cases rest with
          | nil => cases hc
          | cons x rest =>
              cases hc
              rw [List.nil_append, List.takeWhile_cons_of_pos (isNamePart_of_isNameStart hn)]
                at htake
              cases htake
      | cons x text =>
          cases hc
          exact isName_cons.2 ⟨hn, fun d hd => hall d (List.mem_cons_of_mem _ hd)⟩
  | character hc =>
      cases character_kind hl.symm
      cases hkind
  | fault => cases congrArg Lexeme.verdict hl
  | _ =>
      have hverdict := congrArg Lexeme.verdict hl
      simp only [token, Except.ok.injEq] at hverdict
      subst hverdict
      cases hkind

/-! ## Numbers -/

/-- A run of digits that ends within a text ends in the same place whatever stands
    behind the text. -/
theorem digitsLength_of_le {p : Char → Bool} {x rest : List Char}
    (h : digitsLength p (x ++ rest) ≤ x.length) :
    digitsLength p x = digitsLength p (x ++ rest) := by
  unfold digitsLength runLength at h ⊢
  generalize (fun c => p c || c == '_') = q at h ⊢
  induction x with
  | nil =>
      rw [Nat.le_zero.1 h]
      rfl
  | cons c x ih =>
      by_cases hc : q c = true
      · rw [List.cons_append, List.takeWhile_cons_of_pos hc] at h ⊢
        rw [List.takeWhile_cons_of_pos hc]
        simp only [List.length_cons, Nat.add_le_add_iff_right] at h ⊢
        rw [ih h]
      · rw [List.cons_append, List.takeWhile_cons_of_neg hc, List.takeWhile_cons_of_neg hc]

/-- A run of digits ends in front of what is no character of a name. -/
theorem digitsLength_append {p : Char → Bool} (hp : ∀ c, p c = true → Character.isNamePart c = true)
    {x rest : List Char} (hrest : ∀ c, rest.head? = some c → Character.isNamePart c = false) :
    digitsLength p (x ++ rest) = digitsLength p x := by
  have hq : ∀ c, rest.head? = some c → (fun c => p c || c == '_') c = false := by
    intro c hc
    dsimp only
    rw [Bool.or_eq_false_iff]
    have hnot := hrest c hc
    constructor
    · rcases hpc : p c with _ | _
      · rfl
      · rw [hp c hpc] at hnot
        cases hnot
    · rw [beq_eq_false_iff_ne]
      rintro rfl
      exact absurd hnot (by decide)
  unfold digitsLength runLength
  generalize (fun c => p c || c == '_') = q at hq ⊢
  induction x with
  | nil =>
      cases rest with
      | nil => rfl
      | cons c rest => rw [List.nil_append, List.takeWhile_cons_of_neg (by simp [hq c rfl])]; rfl
  | cons c x ih =>
      by_cases hc : q c = true
      · rw [List.cons_append, List.takeWhile_cons_of_pos hc, List.takeWhile_cons_of_pos hc,
          List.length_cons, List.length_cons, ih]
      · rw [List.cons_append, List.takeWhile_cons_of_neg hc, List.takeWhile_cons_of_neg hc]

theorem digitsLength_pos {p : Char → Bool} {x : List Char} (h : x.head?.any p = true) :
    0 < digitsLength p x := by
  cases x with
  | nil => cases h
  | cons c x =>
      unfold digitsLength runLength
      rw [List.takeWhile_cons_of_pos (by rw [show p c = true from h]; rfl)]
      exact Nat.succ_pos _

theorem fractionLength_cons (c : Char) (t : List Char) :
    fractionLength (c :: t)
      = if c = '.' ∧ t.head?.any Char.isDigit = true then 1 + digitsLength Char.isDigit t else 0 := by
  unfold fractionLength
  split
  · next d cs heq =>
      cases heq
      simp
  · next h =>
      rw [if_neg]
      rintro ⟨rfl, hany⟩
      cases t with
      | nil => cases hany
      | cons d t => exact h d t rfl

theorem exponentDigitsLength_eq (t : List Char) :
    exponentDigitsLength t
      = if t.head?.any Char.isDigit = true then digitsLength Char.isDigit t else 0 := by
  cases t <;> rfl

theorem fractionLength_of_le {x rest : List Char} (h : fractionLength (x ++ rest) ≤ x.length) :
    fractionLength x = fractionLength (x ++ rest) := by
  cases x with
  | nil => exact (Nat.le_zero.1 h).symm
  | cons c x =>
      rw [List.cons_append, fractionLength_cons] at h ⊢
      rw [fractionLength_cons]
      cases x with
      | nil =>
          rw [List.nil_append] at h ⊢
          by_cases hc : c = '.' ∧ rest.head?.any Char.isDigit = true
          · rw [if_pos hc] at h
            have hpos := digitsLength_pos hc.2
            simp only [List.length_cons, List.length_nil] at h
            omega
          · rw [if_neg hc, if_neg (by simp)]
      | cons d x =>
          by_cases hc : c = '.' ∧ (d :: x).head?.any Char.isDigit = true
          · have hc' : c = '.' ∧ (d :: x ++ rest).head?.any Char.isDigit = true := hc
            rw [if_pos hc'] at h ⊢
            rw [if_pos hc]
            simp only [List.length_cons] at h
            have hdigits : digitsLength Char.isDigit (d :: x)
                = digitsLength Char.isDigit (d :: x ++ rest) :=
              digitsLength_of_le (by simp only [List.length_cons]; omega)
            rw [hdigits]
          · rw [if_neg hc]
            exact (if_neg hc).symm

theorem exponentDigitsLength_of_le {x rest : List Char}
    (h : exponentDigitsLength (x ++ rest) ≤ x.length) :
    exponentDigitsLength x = exponentDigitsLength (x ++ rest) := by
  rw [exponentDigitsLength_eq] at h ⊢
  rw [exponentDigitsLength_eq]
  cases x with
  | nil =>
      rw [List.nil_append] at h ⊢
      by_cases hc : rest.head?.any Char.isDigit = true
      · rw [if_pos hc] at h
        have hpos := digitsLength_pos hc
        simp only [List.length_nil] at h
        omega
      · rw [if_neg hc]
        rfl
  | cons c x =>
      by_cases hc : (c :: x).head?.any Char.isDigit = true
      · have hc' : (c :: x ++ rest).head?.any Char.isDigit = true := hc
        rw [if_pos hc'] at h ⊢
        rw [if_pos hc]
        exact digitsLength_of_le h
      · rw [if_neg hc]
        exact (if_neg hc).symm

theorem signLength_append {x rest : List Char} (h : x ≠ []) :
    signLength (x ++ rest) = signLength x := by
  cases x with
  | nil => exact absurd rfl h
  | cons c x => rfl

theorem exponentLength_cons (c : Char) (t : List Char) :
    exponentLength (c :: t)
      = if (c = 'e' ∨ c = 'E') ∧ exponentDigitsLength (t.drop (signLength t)) ≠ 0 then
          1 + signLength t + exponentDigitsLength (t.drop (signLength t))
        else 0 := by
  unfold exponentLength
  dsimp only
  split
  · next hc =>
      split
      · next hzero => rw [if_neg (by simp [hzero])]
      · next hpos => rw [if_pos ⟨hc, hpos⟩]
  · next hc => rw [if_neg (fun h => hc h.1)]

theorem exponentLength_of_le {x rest : List Char} (h : exponentLength (x ++ rest) ≤ x.length) :
    exponentLength x = exponentLength (x ++ rest) := by
  cases x with
  | nil => exact (Nat.le_zero.1 h).symm
  | cons c x =>
      rw [List.cons_append, exponentLength_cons] at h ⊢
      rw [exponentLength_cons]
      by_cases hletter : c = 'e' ∨ c = 'E'
      · simp only [hletter, true_and, List.length_cons] at h ⊢
        cases x with
        | nil =>
            rw [List.nil_append] at h ⊢
            split at h
            · simp only [List.length_nil] at h
              omega
            · next hzero => rw [if_neg hzero, if_neg (by simp [signLength, exponentDigitsLength])]
        | cons d x =>
            have hle := signLength_le (d :: x)
            have hsign : signLength (d :: x ++ rest) = signLength (d :: x) := rfl
            rw [hsign, List.drop_append_of_le_length hle] at h ⊢
            have hdigits : exponentDigitsLength ((d :: x).drop (signLength (d :: x)))
                = exponentDigitsLength ((d :: x).drop (signLength (d :: x)) ++ rest) := by
              refine exponentDigitsLength_of_le ?_
              rw [List.length_drop]
              split at h <;> omega
            rw [hdigits]
      · rw [if_neg fun h => hletter h.1, if_neg fun h => hletter h.1]

theorem decimalLength_of_le {x rest : List Char} (h : decimalLength (x ++ rest) ≤ x.length) :
    decimalLength x = decimalLength (x ++ rest) := by
  unfold decimalLength at h ⊢
  dsimp only at h ⊢
  have hwhole : digitsLength Char.isDigit x = digitsLength Char.isDigit (x ++ rest) :=
    digitsLength_of_le (by omega)
  rw [← hwhole] at h ⊢
  have hle := digitsLength_le Char.isDigit x
  generalize digitsLength Char.isDigit x = whole at h hle ⊢
  rw [List.drop_append_of_le_length hle] at h ⊢
  have hfraction : fractionLength (x.drop whole) = fractionLength (x.drop whole ++ rest) := by
    refine fractionLength_of_le ?_
    rw [List.length_drop]
    omega
  rw [← hfraction] at h ⊢
  have hle' := fractionLength_le (x.drop whole)
  rw [List.length_drop] at hle'
  generalize fractionLength (x.drop whole) = fraction at h hle' ⊢
  rw [List.drop_append_of_le_length (by omega)] at h ⊢
  have hexponent : exponentLength (x.drop (whole + fraction))
      = exponentLength (x.drop (whole + fraction) ++ rest) := by
    refine exponentLength_of_le ?_
    rw [List.length_drop]
    omega
  rw [hexponent]

/-- The digits of a radix, if the text starts with its mark. -/
def radixAhead? : List Char → Option (Char → Bool)
  | c :: letter :: _ => if c = '0' then radixDigits? letter else none
  | _ => none

theorem numeralLength_eq (cs : List Char) :
    numeralLength cs = match radixAhead? cs with
      | some isDigit =>
          (2 + digitsLength isDigit (cs.drop 2), digitsLength isDigit (cs.drop 2) != 0)
      | none => (decimalLength cs, true) := by
  unfold numeralLength
  split
  · rfl
  · next hzero =>
      have hnone : radixAhead? cs = none := by
        unfold radixAhead?
        split
        · rw [if_neg]
          rintro rfl
          exact hzero _ _ rfl
        · rfl
      rw [hnone]

theorem numeralLength_of_eq {x rest : List Char} (h : (numeralLength (x ++ rest)).1 = x.length) :
    numeralLength x = numeralLength (x ++ rest) := by
  rw [numeralLength_eq] at h ⊢
  rw [numeralLength_eq]
  rcases hradix : radixAhead? (x ++ rest) with _ | isDigit
  · rw [hradix] at h
    have hx : radixAhead? x = none := by
      match x, hradix with
      | [], _ => rfl
      | [c], _ => rfl
      | c :: d :: x, hradix => exact hradix
    rw [hx]
    exact congrArg (·, true) (decimalLength_of_le (Nat.le_of_eq h))
  · rw [hradix] at h
    match x, hradix, h with
    | [], _, h =>
        simp only [List.length_nil] at h
        omega
    | [c], _, h =>
        simp only [List.length_cons, List.length_nil] at h
        omega
    | c :: d :: x, hradix, h =>
        have hx : radixAhead? (c :: d :: x) = some isDigit := hradix
        rw [hx]
        simp only [List.cons_append, List.drop_succ_cons, List.drop_zero, List.length_cons] at h ⊢
        have hdigits : digitsLength isDigit x = digitsLength isDigit (x ++ rest) :=
          digitsLength_of_le (by omega)
        rw [hdigits]

/-! The digits of every radix may stand in a name, so whatever ends a name ends a
number. -/

theorem isNamePart_of_isHexDigit {c : Char} (h : Character.isHexDigit c = true) :
    Character.isNamePart c = true := by
  have hdigit := Character.isHexDigit_iff.1 h
  rw [Character.isNamePart_iff]
  omega

theorem isNamePart_of_isOctalDigit {c : Char} (h : Character.isOctalDigit c = true) :
    Character.isNamePart c = true := by
  have hdigit := Character.isOctalDigit_iff.1 h
  rw [Character.isNamePart_iff]
  omega

theorem isNamePart_of_isBinaryDigit {c : Char} (h : Character.isBinaryDigit c = true) :
    Character.isNamePart c = true := by
  simp only [Character.isBinaryDigit, Bool.or_eq_true, beq_iff_eq] at h
  rcases h with rfl | rfl <;> decide

theorem isNamePart_of_radixDigits? {letter : Char} {p : Char → Bool}
    (h : radixDigits? letter = some p) : ∀ c, p c = true → Character.isNamePart c = true := by
  unfold radixDigits? at h
  repeat' split at h
  all_goals cases h
  · exact fun c => isNamePart_of_isHexDigit
  · exact fun c => isNamePart_of_isOctalDigit
  · exact fun c => isNamePart_of_isBinaryDigit

theorem radixDigits?_eq_none {letter : Char} (h : Character.isNamePart letter = false) :
    radixDigits? letter = none := by
  have hne : ∀ c, Character.isNamePart c = true → letter ≠ c := by
    rintro c hc rfl
    rw [h] at hc
    cases hc
  unfold radixDigits?
  rw [if_neg (not_or.2 ⟨hne _ (by decide), hne _ (by decide)⟩),
    if_neg (not_or.2 ⟨hne _ (by decide), hne _ (by decide)⟩),
    if_neg (not_or.2 ⟨hne _ (by decide), hne _ (by decide)⟩)]

theorem radixAhead?_append {x rest : List Char} (hne : x ≠ [])
    (hrest : ∀ c, rest.head? = some c → Character.isNamePart c = false) :
    radixAhead? (x ++ rest) = radixAhead? x := by
  match x with
  | [] => exact absurd rfl hne
  | c :: d :: x => rfl
  | [c] =>
      cases rest with
      | nil => rfl
      | cons d rest =>
          change (if c = '0' then radixDigits? d else none) = none
          rw [radixDigits?_eq_none (hrest d rfl), ite_self]

/-! A number by itself, in front of a rest that does not go on with it. -/

/-- A rest behind which a number ends. -/
def EndsNumber (rest : List Char) : Prop :=
  ∀ c, rest.head? = some c → Character.isNamePart c = false ∧ c ≠ '.'

section

variable {rest : List Char} (hrest : EndsNumber rest)
include hrest

theorem digitsLength_append_of_ends {p : Char → Bool} (x : List Char)
    (hp : ∀ c, p c = true → Character.isNamePart c = true) :
    digitsLength p (x ++ rest) = digitsLength p x :=
  digitsLength_append hp fun c hc => (hrest c hc).1

theorem any_head?_append (x : List Char) {p : Char → Bool}
    (hp : ∀ c, p c = true → Character.isNamePart c = true) :
    (x ++ rest).head?.any p = x.head?.any p := by
  cases x with
  | cons c x => rfl
  | nil =>
      cases rest with
      | nil => rfl
      | cons c rest =>
          have hnot := (hrest c rfl).1
          rcases hpc : p c with _ | _
          · exact hpc
          · rw [hp c hpc] at hnot
            cases hnot

theorem fractionLength_append (x : List Char) :
    fractionLength (x ++ rest) = fractionLength x := by
  cases x with
  | nil =>
      cases rest with
      | nil => rfl
      | cons c rest =>
          rw [List.nil_append, fractionLength_cons, if_neg fun h => (hrest c rfl).2 h.1]
          rfl
  | cons c x =>
      rw [List.cons_append, fractionLength_cons, fractionLength_cons,
        any_head?_append hrest x fun _ => isNamePart_of_isDigit,
        digitsLength_append_of_ends hrest x fun _ => isNamePart_of_isDigit]

theorem exponentDigitsLength_append (x : List Char) :
    exponentDigitsLength (x ++ rest) = exponentDigitsLength x := by
  rw [exponentDigitsLength_eq, exponentDigitsLength_eq,
    any_head?_append hrest x fun _ => isNamePart_of_isDigit,
    digitsLength_append_of_ends hrest x fun _ => isNamePart_of_isDigit]

/-- A letter alone may become an exponent in front of a sign, but not the exponent
    of a number that ends here. -/
theorem exponentLength_append {x : List Char} (hx : exponentLength x = x.length) :
    exponentLength (x ++ rest) = exponentLength x := by
  cases x with
  | nil =>
      cases rest with
      | nil => rfl
      | cons c rest =>
          rw [List.nil_append, exponentLength_cons, if_neg]
          · rfl
          · rintro ⟨rfl | rfl, -⟩ <;> exact absurd (hrest _ rfl).1 (by decide)
  | cons c x =>
      cases x with
      | nil => exact absurd hx (by simp [exponentLength_cons, signLength, exponentDigitsLength])
      | cons d x =>
          have hle := signLength_le (d :: x)
          have hsign : signLength (d :: x ++ rest) = signLength (d :: x) := rfl
          rw [List.cons_append, exponentLength_cons, exponentLength_cons, hsign,
            List.drop_append_of_le_length hle, exponentDigitsLength_append hrest]

theorem decimalLength_append {x : List Char} (hx : decimalLength x = x.length) :
    decimalLength (x ++ rest) = x.length := by
  unfold decimalLength at hx ⊢
  dsimp only at hx ⊢
  rw [digitsLength_append_of_ends hrest x fun _ => isNamePart_of_isDigit]
  have hle := digitsLength_le Char.isDigit x
  generalize digitsLength Char.isDigit x = whole at hx hle ⊢
  rw [List.drop_append_of_le_length hle, fractionLength_append hrest]
  have hle' := fractionLength_le (x.drop whole)
  rw [List.length_drop] at hle'
  generalize fractionLength (x.drop whole) = fraction at hx hle' ⊢
  rw [List.drop_append_of_le_length (by omega), exponentLength_append hrest]
  · exact hx
  · rw [List.length_drop]
    omega

theorem numeralLength_append {x : List Char} {b : Bool} (hx : numeralLength x = (x.length, b))
    (hne : x ≠ []) : numeralLength (x ++ rest) = (x.length, b) := by
  rw [numeralLength_eq, radixAhead?_append hne fun c hc => (hrest c hc).1]
  rw [numeralLength_eq] at hx
  rcases hradix : radixAhead? x with _ | isDigit
  · rw [hradix] at hx
    simp only [Prod.mk.injEq] at hx ⊢
    exact ⟨decimalLength_append hrest hx.1, hx.2⟩
  · rw [hradix] at hx
    match x, hradix, hx with
    | c :: d :: x, hradix, hx =>
        have hp : ∀ c, isDigit c = true → Character.isNamePart c = true := by
          change (if c = '0' then radixDigits? d else none) = some isDigit at hradix
          split at hradix
          · exact isNamePart_of_radixDigits? hradix
          · cases hradix
        simp only [List.cons_append, List.drop_succ_cons, List.drop_zero] at hx ⊢
        rw [digitsLength_append_of_ends hrest x hp]
        exact hx

end

theorem number_eq_token {cs : List Char} {n : Nat} :
    Lexeme.number cs = .token .number n ↔
      numeralLength cs = (n, true) ∧ runLength Character.isNamePart (cs.drop n) = 0 := by
  unfold Lexeme.number
  rcases numeralLength cs with ⟨length, hasDigits⟩
  dsimp only
  split
  · next h =>
      simp only [Bool.and_eq_true, beq_iff_eq] at h
      simp only [token, Lexeme.mk.injEq, true_and, Prod.mk.injEq]
      constructor
      · rintro rfl
        exact ⟨⟨rfl, h.1⟩, h.2⟩
      · exact fun h => h.1.1
  · next h =>
      simp only [Bool.and_eq_true, beq_iff_eq, not_and] at h
      simp only [token, fault, Lexeme.mk.injEq, reduceCtorEq, false_and, false_iff, Prod.mk.injEq]
      rintro ⟨⟨rfl, hdigits⟩, hstuck⟩
      exact h hdigits hstuck

theorem number_of_lexed {text rest : List Char} (h : Lexed .expression text .number rest) :
    (∃ c cs, text = c :: cs ∧ c.isDigit = true) ∧
      Lexeme.number (text ++ rest) = .token .number text.length := by
  have hpos := h.advances
  have harises := arises_ofMode .expression (text ++ rest)
  rw [h.lexeme] at harises
  generalize hl : Lexeme.token .number text.length = l at harises
  cases harises with
  | quote hq =>
      rcases quote?_kind hq with ⟨_, _, _, rfl⟩
      cases hl
  | expressionOperator hm =>
      subst hl
      exact absurd rfl (operator_kind (.inr rfl) hm).2.2.1
  | @number c hc hd _ =>
      cases text with
      | nil => simp at hpos
      | cons x text =>
          cases hc
          exact ⟨⟨c, text, rfl, hd⟩, rfl⟩
  | name hc hn _ _ =>
      rcases name_kind (text ++ rest) with ⟨kind, hname, -, hmember⟩
      rw [hname] at hl
      cases congrArg Lexeme.verdict hl
      cases hmember
  | character hc => cases character_kind hl.symm
  | _ => cases congrArg Lexeme.verdict hl

theorem ofMode_expression_number {c : Char} {cs : List Char} (hc : c.isDigit = true) :
    ofMode .expression (c :: cs) = Lexeme.number (c :: cs) ∧ extrasLength (c :: cs) = 0 := by
  have hne : ∀ d, d.isDigit = false → c ≠ d := by
    rintro d hd rfl
    rw [hc] at hd
    cases hd
  have hof : ofMode .expression (c :: cs) = ofExpressionText c (c :: cs) := by
    unfold ofMode
    split
    · next heq => cases heq
    · next heq =>
        cases heq
        cases hc
    · next heq =>
        cases heq
        rfl
  have hquote : quote? (c :: cs) = none :=
    quote?_eq_none.2 ⟨hne _ (by decide), hne _ (by decide), fun _ =>
      ⟨hne _ (by decide), hne _ (by decide), hne _ (by decide)⟩⟩
  refine ⟨?_, extrasLength_eq_zero.2 ⟨⟨hne _ (by decide), hne _ (by decide), hne _ (by decide),
    hne _ (by decide)⟩, fun hback => absurd hback (hne _ (by decide))⟩⟩
  rw [hof, ofExpressionText, hquote, Option.getD_none, if_pos hc]

/-- A number stays one in front of another rest that ends it. -/
theorem Lexed.number_of_ends {text rest rest' : List Char}
    (h : Lexed .expression text .number rest) (hrest : EndsNumber rest') :
    Lexed .expression text .number rest' := by
  rcases number_of_lexed h with ⟨⟨c, cs, rfl, hc⟩, hnumber⟩
  rcases @ofMode_expression_number c (cs ++ rest') hc with ⟨hof, hplain⟩
  have hlength := (number_eq_token.1 hnumber).1
  have halone : numeralLength (c :: cs) = ((c :: cs).length, true) := by
    rw [numeralLength_of_eq (congrArg Prod.fst hlength), hlength]
  refine ⟨hplain, ?_⟩
  rw [List.cons_append, hof, number_eq_token]
  refine ⟨numeralLength_append hrest halone (List.cons_ne_nil _ _), ?_⟩
  rw [← List.cons_append, List.drop_left' rfl]
  cases rest' with
  | nil => rfl
  | cons d rest' =>
      rw [runLength, List.takeWhile_cons_of_neg (by simp [(hrest d rfl).1])]
      rfl

/-! ## Character literals -/

theorem character_of_lexed {text rest : List Char} (h : Lexed .expression text .character rest) :
    text.head? = some '\\' ∧
      Lexeme.character (text ++ rest) = .token .character text.length := by
  have hpos := h.advances
  have harises := arises_ofMode .expression (text ++ rest)
  rw [h.lexeme] at harises
  generalize hl : Lexeme.token .character text.length = l at harises
  cases harises with
  | quote hq =>
      rcases quote?_kind hq with ⟨_, _, _, rfl⟩
      cases hl
  | expressionOperator hm =>
      subst hl
      exact absurd rfl (operator_kind (.inr rfl) hm).2.2.2
  | number hc hd _ => cases number_kind hl.symm
  | name hc hn _ _ =>
      rcases name_kind (text ++ rest) with ⟨kind, hname, -, hmember⟩
      rw [hname] at hl
      cases congrArg Lexeme.verdict hl
      cases hmember
  | character hc =>
      cases text with
      | nil => simp at hpos
      | cons x text => exact ⟨hc, rfl⟩
  | _ => cases congrArg Lexeme.verdict hl

theorem character_braced {cs : List Char} {n : Nat} :
    Lexeme.character ('\\' :: 'u' :: '{' :: cs) = .token .character n ↔
      n = 4 + runLength Character.isHexDigit cs ∧
        (cs.drop (runLength Character.isHexDigit cs)).head? = some '}' := by
  change (if _ then _ else _) = _ ↔ _
  split
  · next h => simp only [token, Lexeme.mk.injEq, true_and, h, and_true, eq_comm]
  · next h => simp only [token, fault, Lexeme.mk.injEq, reduceCtorEq, false_and, h, and_false]

theorem character_hex {cs : List Char} {n : Nat} :
    Lexeme.character ('\\' :: 'x' :: cs) = .token .character n ↔ n = 2 + hexLength 2 cs := by
  change token _ _ = _ ↔ _
  simp [token, eq_comm]

theorem character_simple {c : Char} {cs : List Char} {n : Nat} (hx : c ≠ 'x')
    (hu : c = 'u' → cs.head? ≠ some '{') :
    Lexeme.character ('\\' :: c :: cs) = .token .character n ↔
      Character.isBlank c = false ∧ n = 2 := by
  unfold Lexeme.character
  split
  · next heq =>
      cases heq
      exact absurd rfl (hu rfl)
  · next heq =>
      cases heq
      exact absurd rfl hx
  · next heq =>
      cases heq
      split
      · next h => simp [token, fault, h]
      · next h => simp [token, h, eq_comm]
  · next h => exact absurd rfl (h _ _ _)

theorem two_le_of_character {cs : List Char} {kind : Token.Kind} {n : Nat}
    (h : Lexeme.character cs = .token kind n) : 2 ≤ n := by
  have hlength := congrArg Lexeme.length h
  unfold Lexeme.character at h hlength
  dsimp only at h hlength
  repeat' split at h
  all_goals first | cases h; omega | cases h

theorem hexLength_append {x rest rest' : List Char} (h : hexLength 2 (x ++ rest) = x.length)
    (hrest : ∀ c, rest'.head? = some c → Character.isNamePart c = false) :
    hexLength 2 (x ++ rest') = x.length := by
  have hnot : ∀ c, rest'.head? = some c → Character.isHexDigit c = false := by
    intro c hc
    rcases hhex : Character.isHexDigit c with _ | _
    · rfl
    · have hpart := hrest c hc
      rw [isNamePart_of_isHexDigit hhex] at hpart
      cases hpart
  have hle : x.length ≤ 2 := by
    have hle := runLength_le Character.isHexDigit ((x ++ rest).take 2)
    rw [List.length_take] at hle
    unfold hexLength at h
    omega
  unfold hexLength at h ⊢
  rw [List.take_append, List.take_of_length_le hle] at h ⊢
  rw [runLength_append] at h ⊢
  refine ⟨h.1, fun c hc => hnot c ?_⟩
  rw [List.head?_take] at hc
  split at hc
  · cases hc
  · exact hc

/-- Braced digits carry their own end. -/
theorem character_braced_append {x rest : List Char} {n : Nat}
    (h : Lexeme.character ('\\' :: 'u' :: '{' :: (x ++ rest)) = .token .character n)
    (hn : n = x.length + 3) (rest' : List Char) :
    Lexeme.character ('\\' :: 'u' :: '{' :: (x ++ rest')) = .token .character n := by
  rw [character_braced] at h ⊢
  generalize hrun : runLength Character.isHexDigit (x ++ rest) = digits at h
  rcases List.head?_eq_some_iff.1 h.2 with ⟨t, ht⟩
  have hx : x = (x ++ rest).take digits ++ ['}'] := by
    have htake : (x ++ rest).take (digits + 1) = x := List.take_left' (by omega)
    rw [List.take_add, ht] at htake
    exact htake.symm
  have hlength : ((x ++ rest).take digits).length = digits := by
    have hx' := congrArg List.length hx
    rw [List.length_append] at hx'
    simp only [List.length_cons, List.length_nil] at hx'
    omega
  generalize (x ++ rest).take digits = ds at hx hlength
  subst hx
  rw [List.append_assoc, ← hlength] at hrun
  have hrun' : runLength Character.isHexDigit (ds ++ (['}'] ++ rest')) = ds.length :=
    (runLength_append ds _).2 ⟨((runLength_append ds _).1 hrun).1, fun c hc => by
      cases hc
      rfl⟩
  rw [List.append_assoc, hrun', hlength]
  refine ⟨h.1, ?_⟩
  rw [List.drop_left' hlength]
  rfl

/-- A character literal stays one in front of another rest that ends it. -/
theorem Lexed.character_of_ends {text rest rest' : List Char}
    (h : Lexed .expression text .character rest) (hrest : EndsAtom rest') :
    Lexed .expression text .character rest' := by
  have hplain := h.plain
  rcases character_of_lexed h with ⟨hhead, hcharacter⟩
  rcases List.head?_eq_some_iff.1 hhead with ⟨text, rfl⟩
  have hne : text ≠ [] := by
    rintro rfl
    exact absurd (two_le_of_character hcharacter) (by simp)
  rcases List.exists_cons_of_ne_nil hne with ⟨c, text, rfl⟩
  refine ⟨?_, ?_⟩
  · rw [List.cons_append, extrasLength_eq_zero] at hplain ⊢
    exact hplain
  · change Lexeme.character ('\\' :: c :: (text ++ rest')) = .token .character (text.length + 2)
    change Lexeme.character ('\\' :: c :: (text ++ rest)) = .token .character (text.length + 2)
      at hcharacter
    by_cases hx : c = 'x'
    · subst hx
      rw [character_hex] at hcharacter ⊢
      have hhex : hexLength 2 (text ++ rest) = text.length := by omega
      rw [hexLength_append hhex fun c hc => (hrest c hc).1]
      omega
    · by_cases hbrace : c = 'u' ∧ text.head? = some '{'
      · rcases hbrace with ⟨rfl, hbrace⟩
        rcases List.head?_eq_some_iff.1 hbrace with ⟨text, rfl⟩
        exact character_braced_append hcharacter rfl rest'
      · rw [character_simple hx] at hcharacter ⊢
        · exact hcharacter
        · intro hc hh
          cases text with
          | nil => exact (hrest '{' hh).2.2 rfl
          | cons d text => exact hbrace ⟨hc, hh⟩
        · intro hc hh
          cases text with
          | cons d text => exact hbrace ⟨hc, hh⟩
          | nil =>
              rcases List.head?_eq_some_iff.1 hh with ⟨t, ht⟩
              rw [ht] at hcharacter
              subst hc
              have hlength := (character_braced.1 hcharacter).1
              simp only [List.length_nil] at hlength
              omega

end Ysh
