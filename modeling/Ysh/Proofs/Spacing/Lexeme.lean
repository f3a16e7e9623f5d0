import Ysh.Proofs.Lexing.Atom
import Ysh.Proofs.Spacing.Text

/-!
# Lexemes and the Spacing Behind Them

A token that is copied is the same token in the squeezed source. What it is may depend on
what is behind it: a name goes on as long as there are characters for it, `1.` is a number
only if a digit follows, a `$` opens whatever the next character says. But no rule looks
into a gap. So every rule gives the same for texts that are `Spaced` alike, and what is
left to see is that no rule tells one gap from another.

The one rule that comes close is a `$` by itself: a `#` behind it would be a gap in front
of another token, but here it belongs to the token.

## Theorems

* `Spaced.match?`, `Spaced.quote?`, `Spaced.sigil?`, `Spaced.number`, `Spaced.name`,
  `Spaced.wordLength`: The rules, one by one.
* `Lexed.of_spaced`: A token is the same token in front of a text that is spaced otherwise.
-/

namespace Ysh

open Lexeme

/-- No gap starts inside an operator of a command. -/
theorem commandOperators_solid :
    ∀ e ∈ commandOperators, ∀ c ∈ e.1, Character.isSolid c = true := by
  have hall : commandOperators.all (fun e => e.1.all Character.isSolid) = true := by decide
  exact fun e he => List.all_eq_true.1 (List.all_eq_true.1 hall e he)

/-- No gap starts inside an operator of an expression. -/
theorem expressionOperators_solid :
    ∀ e ∈ expressionOperators, ∀ c ∈ e.1, Character.isSolid c = true := by
  have hall : expressionOperators.all (fun e => e.1.all Character.isSolid) = true := by decide
  exact fun e he => List.all_eq_true.1 (List.all_eq_true.1 hall e he)

namespace Spaced

variable {cs ds : List Char}

/-- A text of solid characters in front of the first text is in front of the second. -/
theorem of_append {x : List Char} (hx : ∀ c ∈ x, Character.isSolid c = true)
    (h : Spaced (x ++ cs) ds) : ∃ ds', ds = x ++ ds' ∧ Spaced cs ds' := by
  induction x generalizing ds with
  | nil => exact ⟨ds, rfl, h⟩
  | cons a x ih =>
      rcases h.front with ⟨⟨⟩, _⟩ | ⟨d, _, ds, ⟨⟩, rfl, hd⟩ | ⟨c, _, ds, ⟨⟩, rfl, htail⟩
      · rw [hx a (by simp)] at hd
        cases hd
      · rcases ih (fun c hc => hx c (by simp [hc])) htail with ⟨ds', rfl, h'⟩
        exact ⟨ds', rfl, h'⟩

/-- A text of solid characters in front of the second text is in front of the first. -/
theorem to_append {x : List Char} (hx : ∀ c ∈ x, Character.isSolid c = true)
    (h : Spaced cs (x ++ ds)) : ∃ cs', cs = x ++ cs' ∧ Spaced cs' ds := by
  induction x generalizing cs with
  | nil => exact ⟨cs, rfl, h⟩
  | cons a x ih =>
      rcases h.front with ⟨_, ⟨⟩⟩ | ⟨d, cs, _, rfl, ⟨⟩, hd⟩ | ⟨c, cs, _, rfl, ⟨⟩, htail⟩
      · cases hx ' ' (by simp)
      · rcases ih (fun c hc => hx c (by simp [hc])) htail with ⟨cs', rfl, h'⟩
        exact ⟨cs', rfl, h'⟩

theorem runLength {p : Char → Bool} (h : Spaced cs ds)
    (hp : ∀ c, p c = true → Character.isSolid c = true) : runLength p cs = runLength p ds :=
  congrArg List.length (h.takeWhile hp)

theorem runLength_take {p : Char → Bool} (h : Spaced cs ds)
    (hp : ∀ c, p c = true → Character.isSolid c = true) (n : Nat) :
    Lexeme.runLength p (cs.take n) = Lexeme.runLength p (ds.take n) := by
  induction n generalizing cs ds with
  | zero => rfl
  | succ n ih =>
      rcases h.front with ⟨rfl, rfl⟩ | ⟨d, cs, ds, rfl, rfl, hd⟩ | ⟨c, cs, ds, rfl, rfl, htail⟩
      · rfl
      · have hd : p d = false := eq_false_of_not_isSolid hp hd
        have hblank : p ' ' = false := eq_false_of_not_isSolid hp (by rfl)
        simp [Lexeme.runLength, hd, hblank]
      · have ih := ih htail
        simp only [Lexeme.runLength, List.take_succ_cons, List.takeWhile_cons] at ih ⊢
        split
        · simp [ih]
        · rfl

theorem match? {table : OperatorTable} (h : Spaced cs ds)
    (htable : ∀ e ∈ table, ∀ c ∈ e.1, Character.isSolid c = true) :
    table.match? cs = table.match? ds := by
  unfold OperatorTable.match?
  congr 1
  induction table with
  | nil => rfl
  | cons e table ih =>
      rw [List.find?_cons, List.find?_cons, h.isPrefixOf (htable e (by simp)),
        ih fun e' he' => htable e' (by simp [he'])]

theorem quote? (h : Spaced cs ds) : quote? cs = quote? ds := by
  have hsolid : ∀ style : StringStyle, ∀ c ∈ style.tag.toList ++ [style.quote],
      Character.isSolid c = true := by
    intro style
    exact List.all_eq_true.1 (by cases style <;> rfl)
  have hquotes : ∀ style : StringStyle, ∀ c ∈ [style.quote, style.quote],
      Character.isSolid c = true := by
    intro style
    exact List.all_eq_true.1 (by cases style <;> rfl)
  ext l
  constructor
  · intro hl
    rcases quote?_kind hl with ⟨style, triple, n, rfl⟩
    rcases quote?_iff.1 hl with ⟨rest, rfl, hn, htriple⟩
    rw [← List.singleton_append, ← List.append_assoc] at h
    rcases h.of_append (hsolid style) with ⟨rest', rfl, h'⟩
    refine quote?_iff.2 ⟨rest', by simp, hn, ?_⟩
    rw [← h'.isPrefixOf (hquotes style), htriple]
  · intro hl
    rcases quote?_kind hl with ⟨style, triple, n, rfl⟩
    rcases quote?_iff.1 hl with ⟨rest, rfl, hn, htriple⟩
    rw [← List.singleton_append, ← List.append_assoc] at h
    rcases h.to_append (hsolid style) with ⟨rest', rfl, h'⟩
    refine quote?_iff.2 ⟨rest', by simp, hn, ?_⟩
    rw [h'.isPrefixOf (hquotes style), htriple]

theorem dollar?_cons (h : Spaced cs ds) (c d : Char) :
    dollar? (c :: d :: cs) = dollar? (c :: d :: ds) := by
  have hname := h.runLength fun c hc => isSolid_of_isNamePart hc
  have hdigit := h.runLength_take (p := Char.isDigit)
    (fun c hc => isSolid_of_isNamePart (isNamePart_of_isDigit hc)) 1
  unfold dollar?
  split <;> simp_all

theorem sigil?_cons (h : Spaced cs ds) (c d : Char) :
    sigil? (c :: d :: cs) = sigil? (c :: d :: ds) := by
  have hname := h.runLength fun c hc => isSolid_of_isNamePart hc
  unfold sigil?
  split <;> simp_all

theorem sigil? (h : Spaced cs ds) : sigil? cs = sigil? ds := by
  have hnone : ∀ (c : Char) (t : List Char), Character.isSolid c = false →
      Lexeme.sigil? (c :: t) = none := by
    intro c t hc
    refine sigil?_eq_none.2 fun d _ => ⟨?_, ?_⟩
    · rintro (rfl | rfl) <;> cases hc
    · rintro rfl
      cases hc
  have hlone : ∀ (c d : Char) (t : List Char), Character.isSolid d = false →
      Lexeme.sigil? (c :: d :: t) = none := by
    intro c d t hd
    refine sigil?_eq_none.2 fun d' hd' => ?_
    cases hd'
    refine ⟨fun _ => ⟨?_, ?_⟩, fun _ => ?_⟩
    · rintro rfl
      cases hd
    · rintro rfl
      cases hd
    · exact eq_false_of_not_isSolid
        (fun c hc => isSolid_of_isNamePart (isNamePart_of_isNameStart hc)) hd
  rcases h.front with ⟨rfl, rfl⟩ | ⟨d, cs, ds, rfl, rfl, hd⟩ | ⟨c, cs, ds, rfl, rfl, htail⟩
  · rfl
  · rw [hnone d cs hd, hnone ' ' ds rfl]
  · rcases htail.front with ⟨rfl, rfl⟩ | ⟨d, cs, ds, rfl, rfl, hd⟩ | ⟨d, cs, ds, rfl, rfl, h'⟩
    · rfl
    · rw [hlone c d cs hd, hlone c ' ' ds rfl]
    · exact h'.sigil?_cons c d

/-! ## Numbers -/

theorem digitsLength {p : Char → Bool} (h : Spaced cs ds)
    (hp : ∀ c, p c = true → Character.isNamePart c = true) :
    digitsLength p cs = digitsLength p ds := by
  refine h.runLength fun c hc => ?_
  rcases Bool.or_eq_true _ _ ▸ hc with hc | hc
  · exact isSolid_of_isNamePart (hp c hc)
  · rw [beq_iff_eq.1 hc]
    rfl

theorem any_isDigit (h : Spaced cs ds) : cs.head?.any Char.isDigit = ds.head?.any Char.isDigit :=
  h.any_head? fun _ hc => isSolid_of_isNamePart (isNamePart_of_isDigit hc)

theorem fractionLength (h : Spaced cs ds) : fractionLength cs = fractionLength ds := by
  rcases h.front with ⟨rfl, rfl⟩ | ⟨d, cs, ds, rfl, rfl, hd⟩ | ⟨c, cs, ds, rfl, rfl, htail⟩
  · rfl
  · rw [fractionLength_cons, fractionLength_cons, if_neg, if_neg (by simp)]
    rintro ⟨rfl, -⟩
    cases hd
  · rw [fractionLength_cons, fractionLength_cons, htail.any_isDigit,
      htail.digitsLength fun _ => isNamePart_of_isDigit]

theorem exponentDigitsLength (h : Spaced cs ds) :
    exponentDigitsLength cs = exponentDigitsLength ds := by
  rw [exponentDigitsLength_eq, exponentDigitsLength_eq, h.any_isDigit,
    h.digitsLength fun _ => isNamePart_of_isDigit]

theorem signed (h : Spaced cs ds) : signLength cs = signLength ds ∧
    Spaced (cs.drop (signLength cs)) (ds.drop (signLength cs)) := by
  rcases h.front with ⟨rfl, rfl⟩ | ⟨d, cs, ds, rfl, rfl, hd⟩ | ⟨c, cs, ds, rfl, rfl, htail⟩
  · exact ⟨rfl, h⟩
  · have hsign : signLength (d :: cs) = 0 := by
      refine if_neg ?_
      rintro (rfl | rfl) <;> cases hd
    rw [hsign]
    exact ⟨rfl, h⟩
  · refine ⟨rfl, ?_⟩
    rw [signLength]
    split
    · exact htail
    · exact h

theorem exponentLength (h : Spaced cs ds) : exponentLength cs = exponentLength ds := by
  rcases h.front with ⟨rfl, rfl⟩ | ⟨d, cs, ds, rfl, rfl, hd⟩ | ⟨c, cs, ds, rfl, rfl, htail⟩
  · rfl
  · rw [exponentLength_cons, exponentLength_cons, if_neg, if_neg (by simp)]
    rintro ⟨rfl | rfl, -⟩ <;> cases hd
  · rcases htail.signed with ⟨hsign, hdrop⟩
    rw [exponentLength_cons, exponentLength_cons, ← hsign, hdrop.exponentDigitsLength]

/-- Behind a run of digits both texts go on alike. -/
theorem drop_digits {p : Char → Bool} (h : Spaced cs ds)
    (hp : ∀ c, p c = true → Character.isNamePart c = true) :
    Spaced (cs.drop (Lexeme.digitsLength p cs)) (ds.drop (Lexeme.digitsLength p cs)) := by
  refine h.drop_takeWhile fun c hc => ?_
  rcases Bool.or_eq_true _ _ ▸ hc with hc | hc
  · exact isSolid_of_isNamePart (hp c hc)
  · rw [beq_iff_eq.1 hc]
    rfl

theorem drop_fraction (h : Spaced cs ds) :
    Spaced (cs.drop (Lexeme.fractionLength cs)) (ds.drop (Lexeme.fractionLength cs)) := by
  rcases h.front with ⟨rfl, rfl⟩ | ⟨d, cs, ds, rfl, rfl, hd⟩ | ⟨c, cs, ds, rfl, rfl, htail⟩
  · exact h
  · rw [fractionLength_cons, if_neg]
    · exact h
    · rintro ⟨rfl, -⟩
      cases hd
  · rw [fractionLength_cons]
    split
    · rw [Nat.add_comm, List.drop_succ_cons, List.drop_succ_cons]
      exact htail.drop_digits fun _ => isNamePart_of_isDigit
    · exact h

theorem decimalLength (h : Spaced cs ds) : decimalLength cs = decimalLength ds := by
  have hwhole := h.digitsLength fun _ => isNamePart_of_isDigit
  have hdrop := h.drop_digits fun _ => isNamePart_of_isDigit
  unfold Lexeme.decimalLength
  dsimp only
  rw [← List.drop_drop, ← List.drop_drop, ← hwhole, ← hdrop.fractionLength,
    hdrop.drop_fraction.exponentLength]

theorem radixAhead? (h : Spaced cs ds) : radixAhead? cs = radixAhead? ds := by
  have hletter : ∀ d, Character.isSolid d = false → radixDigits? d = none := by
    intro d hd
    refine radixDigits?_eq_none ?_
    exact eq_false_of_not_isSolid (fun _ => isSolid_of_isNamePart) hd
  have hlone : ∀ (c d : Char) (t : List Char), Character.isSolid d = false →
      Ysh.radixAhead? (c :: d :: t) = none := by
    intro c d t hd
    change (if c = '0' then radixDigits? d else none) = none
    rw [hletter d hd, ite_self]
  have hgap : ∀ (d : Char) (t : List Char), Character.isSolid d = false →
      Ysh.radixAhead? (d :: t) = none := by
    intro d t hd
    cases t with
    | nil => rfl
    | cons e t =>
        refine if_neg ?_
        rintro rfl
        cases hd
  rcases h.front with ⟨rfl, rfl⟩ | ⟨d, cs, ds, rfl, rfl, hd⟩ | ⟨c, cs, ds, rfl, rfl, htail⟩
  · rfl
  · rw [hgap d cs hd, hgap ' ' ds rfl]
  · rcases htail.front with ⟨rfl, rfl⟩ | ⟨d, cs, ds, rfl, rfl, hd⟩ | ⟨d, cs, ds, rfl, rfl, h'⟩
    · rfl
    · rw [hlone c d cs hd, hlone c ' ' ds rfl]
    · rfl

theorem drop_exponent (h : Spaced cs ds) :
    Spaced (cs.drop (Lexeme.exponentLength cs)) (ds.drop (Lexeme.exponentLength cs)) := by
  rcases h.front with ⟨rfl, rfl⟩ | ⟨d, cs, ds, rfl, rfl, hd⟩ | ⟨c, cs, ds, rfl, rfl, htail⟩
  · exact h
  · rw [exponentLength_cons, if_neg]
    · exact h
    · rintro ⟨rfl | rfl, -⟩ <;> cases hd
  · rw [exponentLength_cons]
    split
    · next hexponent =>
        rcases htail.signed with ⟨-, hsigned⟩
        have hdigits := hexponent.2
        rw [exponentDigitsLength_eq] at hdigits ⊢
        split at hdigits
        · next hdigit =>
            rw [if_pos hdigit, Nat.add_assoc, Nat.add_comm, List.drop_succ_cons,
              List.drop_succ_cons, ← List.drop_drop, ← List.drop_drop]
            exact hsigned.drop_digits fun _ => isNamePart_of_isDigit
        · exact absurd rfl hdigits
    · exact h

theorem drop_decimal (h : Spaced cs ds) :
    Spaced (cs.drop (Lexeme.decimalLength cs)) (ds.drop (Lexeme.decimalLength cs)) := by
  have hdrop := ((h.drop_digits fun _ => isNamePart_of_isDigit).drop_fraction).drop_exponent
  simpa only [List.drop_drop, Lexeme.decimalLength, Nat.add_assoc] using hdrop

theorem drop_radix {isDigit : Char → Bool} (h : Spaced cs ds)
    (hradix : Ysh.radixAhead? cs = some isDigit) : Spaced (cs.drop 2) (ds.drop 2) ∧
      ∀ c, isDigit c = true → Character.isNamePart c = true := by
  rcases cs with _ | ⟨c, _ | ⟨letter, cs⟩⟩
  · cases hradix
  · cases hradix
  · change (if c = '0' then radixDigits? letter else none) = some isDigit at hradix
    split at hradix
    · next hc =>
        subst hc
        refine ⟨h.drop fun d hd => ?_, isNamePart_of_radixDigits? hradix⟩
        simp only [List.take_succ_cons, List.take_zero, List.mem_cons, List.not_mem_nil,
          or_false] at hd
        rcases hd with rfl | rfl
        · rfl
        · cases hletter : Character.isNamePart d with
          | true => exact isSolid_of_isNamePart hletter
          | false =>
              rw [radixDigits?_eq_none hletter] at hradix
              cases hradix
    · cases hradix

theorem numeralLength (h : Spaced cs ds) : numeralLength cs = numeralLength ds ∧
    Spaced (cs.drop (numeralLength cs).1) (ds.drop (numeralLength cs).1) := by
  rw [numeralLength_eq, numeralLength_eq, ← h.radixAhead?]
  split
  · next isDigit hradix =>
      rcases h.drop_radix hradix with ⟨hdrop, hdigit⟩
      refine ⟨by rw [hdrop.digitsLength hdigit], ?_⟩
      have hrest := hdrop.drop_digits hdigit
      rwa [List.drop_drop, List.drop_drop] at hrest
  · exact ⟨by rw [h.decimalLength], h.drop_decimal⟩

/-- A number is read alike in both texts. -/
theorem number (h : Spaced cs ds) : number cs = number ds := by
  rcases h.numeralLength with ⟨hlength, hdrop⟩
  unfold Lexeme.number
  rw [← hlength]
  dsimp only
  rw [hdrop.runLength fun _ => isSolid_of_isNamePart]

/-- A name is read alike in both texts. -/
theorem name (h : Spaced cs ds) : name cs = name ds := by
  unfold Lexeme.name
  rw [h.takeWhile fun _ => isSolid_of_isNamePart]

theorem character_eq {b c : Char} {t : List Char} (hx : c ≠ 'x')
    (hu : c = 'u' → t.head? ≠ some '{') : character (b :: c :: t)
      = if Character.isBlank c then .fault .invalidEscape 1 else .token .character 2 := by
  unfold character
  split <;> simp_all

/-- A character literal is read alike, if what is behind the backslash is the same. -/
theorem character_cons (h : Spaced cs ds) (b c : Char) :
    character (b :: c :: cs) = character (b :: c :: ds) := by
  have hhex : ∀ d, Character.isHexDigit d = true → Character.isSolid d = true :=
    fun _ hd => isSolid_of_isNamePart (isNamePart_of_isHexDigit hd)
  have hbrace : ds.head? = some '{' ↔ cs.head? = some '{' := h.head?_eq_some_iff rfl
  by_cases hx : c = 'x'
  · subst hx
    change Lexeme.token .character (2 + hexLength 2 cs) = .token .character (2 + hexLength 2 ds)
    rw [hexLength, hexLength, h.runLength_take hhex 2]
  · by_cases hu : c = 'u' ∧ cs.head? = some '{'
    · rcases hu with ⟨rfl, hhead⟩
      rcases List.head?_eq_some_iff.1 hhead with ⟨cs, rfl⟩
      rcases h.front with ⟨⟨⟩, _⟩ | ⟨d, _, ds, ⟨⟩, rfl, ⟨⟩⟩ | ⟨d, _, ds, ⟨⟩, rfl, htail⟩
      have hdrop : Spaced (cs.drop (Lexeme.runLength Character.isHexDigit cs))
          (ds.drop (Lexeme.runLength Character.isHexDigit cs)) := htail.drop_takeWhile hhex
      have hclose := hdrop.head?_eq_some_iff (c := '}') rfl
      change (if (cs.drop (Lexeme.runLength Character.isHexDigit cs)).head? = some '}' then
          Lexeme.token .character (4 + Lexeme.runLength Character.isHexDigit cs) else _)
        = if (ds.drop (Lexeme.runLength Character.isHexDigit ds)).head? = some '}' then _ else _
      rw [← htail.runLength hhex]
      simp only [hclose]
    · rw [character_eq hx fun hc hhead => hu ⟨hc, hhead⟩,
        character_eq hx fun hc hhead => hu ⟨hc, hbrace.1 hhead⟩]

/-- A run of word text that ends at the one text ends at the other. -/
theorem wordLength (h : Spaced cs ds) (hend : wordLength cs = 0) : wordLength ds = 0 := by
  rcases h.front with ⟨rfl, rfl⟩ | ⟨d, cs, ds, rfl, rfl, hd⟩ | ⟨c, cs, ds, rfl, rfl, htail⟩
  · rfl
  · rfl
  · by_cases hc : c = '\\'
    · subst hc
      rcases htail.front with ⟨rfl, rfl⟩ | ⟨d, cs, ds, rfl, rfl, hd⟩ | ⟨d, cs, ds, rfl, rfl, _⟩
      · rfl
      · rfl
      · simp only [Lexeme.wordLength] at hend ⊢
        split at hend
        · next hblank => rw [if_pos hblank]
        · cases hend
    · exact wordLength_eq_zero_of_head hc hend

end Spaced

/-- A backslash is no token by itself. -/
theorem two_le_of_backslash {mode : Mode} {t : List Char} {kind : Token.Kind} {n : Nat}
    (h : ofMode mode ('\\' :: t) = .token kind n) : 2 ≤ n := by
  cases mode with
  | command =>
      have hword : ofMode .command ('\\' :: t) = word ('\\' :: t) := by
        have hquote : quote? ('\\' :: t) = none :=
          quote?_eq_none.2 ⟨by decide, by decide, fun _ => by decide⟩
        have hsigil : sigil? ('\\' :: t) = none :=
          sigil?_eq_none.2 fun _ _ => ⟨fun h => by simp at h, fun h => by simp at h⟩
        change ofCommandText _ _ = _
        rw [ofCommandText, match?_command_eq_none.2 (by decide), hquote, if_neg (by decide), hsigil]
        rfl
      rw [hword, word] at h
      rcases t with _ | ⟨c, t⟩
      · cases congrArg Lexeme.verdict h
      · rw [wordLength] at h
        by_cases hblank : c = '\n' ∨ c = ' ' ∨ c = '\t'
        · rw [if_pos hblank] at h
          cases congrArg Lexeme.verdict h
        · rw [if_neg hblank] at h
          have hn : wordLength t + 2 = n := congrArg Lexeme.length h
          omega
  | expression => exact two_le_of_character h

/-- A `$` opens the same in both texts, unless it is by itself and a gap follows. -/
theorem Lexed.dollar?_of_spaced {mode : Mode} {text rest rest' : List Char} {kind : Token.Kind}
    (h : Lexed mode ('$' :: text) kind rest) (hs : Spaced rest rest') :
    dollar? ('$' :: (text ++ rest)) = dollar? ('$' :: (text ++ rest')) := by
  cases text with
  | cons d text => exact (hs.append text).dollar?_cons '$' d
  | nil =>
      rcases hs.front with ⟨rfl, rfl⟩ | ⟨d, cs, ds, rfl, rfl, hd⟩ | ⟨d, cs, ds, rfl, rfl, htail⟩
      · rfl
      · -- A `#` would have belonged to the token.
        have hnone : dollar? ('$' :: d :: cs) = none := by
          rcases not_isSolid_iff.1 hd with rfl | rfl | rfl | rfl | rfl
          case inr.inr.inr.inl =>
            have hlexeme : ofMode mode ('$' :: '#' :: cs) = .token (.opener .name) 2 :=
              ofMode_dollar.2 rfl
            have hlength := congrArg Lexeme.length (hlexeme.symm.trans h.lexeme)
            cases hlength
          all_goals rfl
        exact hnone.trans rfl
      · exact htail.dollar?_cons '$' d

theorem word_of_spaced {text rest rest' : List Char} {kind : Token.Kind}
    (h : word (text ++ rest) = .token kind text.length) (hs : Spaced rest rest') :
    word (text ++ rest') = .token kind text.length := by
  have hlength : wordLength (text ++ rest) = text.length := by
    unfold word at h
    split at h
    · cases congrArg Lexeme.verdict h
    · exact congrArg Lexeme.length h
  have hsame : wordLength (text ++ rest') = wordLength (text ++ rest) := by
    rcases (wordLength_append text rest).1 hlength with ⟨hrun, hend⟩
    rw [hlength, (wordLength_append text rest').2 ⟨hrun, hs.wordLength hend⟩]
  unfold word at h ⊢
  rwa [hsame]

/-- A token is the same token in front of a text that is spaced otherwise. -/
theorem Lexed.of_spaced {mode : Mode} {text rest rest' : List Char} {kind : Token.Kind}
    (h : Lexed mode text kind rest) (hs : Spaced rest rest') : Lexed mode text kind rest' := by
  cases text with
  | nil =>
      have hkind : kind = .endOfInput := h.advances.resolve_left (Nat.lt_irrefl 0)
      subst hkind
      rcases h.endOfInput.2 with rfl
      rcases hs.front with ⟨-, rfl⟩ | ⟨_, _, _, ⟨⟩, _⟩ | ⟨_, _, _, ⟨⟩, _⟩
      exact h
  | cons c text =>
      have hplain := extrasLength_eq_zero.1 h.plain
      have hlexeme := h.lexeme
      have hwhole := hs.append (c :: text)
      have hescape : c = '\\' → ∃ d t, text = d :: t := by
        rintro rfl
        have htwo := two_le_of_backslash hlexeme
        exact List.exists_cons_of_length_pos (Nat.lt_of_succ_lt_succ htwo)
      refine ⟨extrasLength_eq_zero.2 ⟨hplain.1, fun hc => ?_⟩, ?_⟩
      · rcases hescape hc with ⟨d, t, rfl⟩
        exact hplain.2 hc
      · have hdollar : c = '$' →
            dollar? (c :: text ++ rest) = dollar? (c :: text ++ rest') := by
          rintro rfl
          exact h.dollar?_of_spaced hs
        by_cases hline : c = '\n'
        · subst hline
          exact hlexeme
        · cases mode with
          | command =>
              rw [List.cons_append, ofMode_cons hline] at hlexeme ⊢
              unfold ofCommandText at hlexeme ⊢
              dsimp only at hlexeme ⊢
              rw [← List.cons_append, ← hwhole.match? commandOperators_solid, ← hwhole.quote?,
                ← hwhole.sigil?]
              rw [← List.cons_append] at hlexeme
              cases hmatch : commandOperators.match? (c :: text ++ rest) with
              | some l => rwa [hmatch] at hlexeme
              | none =>
                  cases hquote : quote? (c :: text ++ rest) with
                  | some l => rwa [hmatch, hquote] at hlexeme
                  | none =>
                      rw [hmatch, hquote] at hlexeme
                      change (if c = '$' then _ else _) = _ at hlexeme
                      change (if c = '$' then _ else _) = _
                      split at hlexeme
                      · next hc => rwa [if_pos hc, ← hdollar hc]
                      · next hc =>
                          rw [if_neg hc]
                          cases hsigil : sigil? (c :: text ++ rest) with
                          | some p => rwa [hsigil] at hlexeme
                          | none =>
                              rw [hsigil] at hlexeme
                              change word (c :: text ++ rest) = _ at hlexeme
                              change word (c :: text ++ rest') = _
                              exact word_of_spaced hlexeme hs
          | expression =>
              rw [← hlexeme, List.cons_append, List.cons_append, ofMode_cons hline,
                ofMode_cons hline]
              unfold ofExpressionText
              dsimp only
              rw [← List.cons_append, ← List.cons_append, ← hwhole.quote?, ← hwhole.number,
                ← hwhole.name, ← hwhole.sigil?, ← hwhole.match? expressionOperators_solid]
              refine congrArg (Option.getD _) ?_
              refine ite_congr rfl (fun _ => rfl) fun _ => ite_congr rfl (fun _ => rfl) fun _ =>
                ite_congr rfl (fun hc => by rw [hdollar hc]) fun _ => ?_
              refine congrArg (Option.getD _) (ite_congr rfl (fun hc => ?_) fun _ => rfl)
              rcases hescape hc with ⟨d, t, rfl⟩
              exact ((hs.append t).character_cons c d).symm

end Ysh
