import Ysh.Proofs.Lexing.Basic

/-!
# Lexed Words

Runs of word text, in front of one rest and of another. A word is printed with its
tokens in the same order, but what stands between the brackets of an expansion is
printed anew, and so is everything behind the word. A run needs little of the text
behind it: a look at one character, that ends it and that does not turn its own
last one into a quote or an opener. So a run that was read in front of one rest
will be read in front of any other that starts alike, and in front of the end of a
word.

## Main definitions

* `Lexeme.isRun`: A text that is word text by itself.
* `isWordEnd`: The characters that stand behind a printed word.
* `Agrees`: A rest that starts like another, or with the end of a word.

## Theorems

* `Lexeme.ofMode_command_word`: What a run of word text needs of the rest.
* `Lexed.word_of_agrees`: A run of word text stays one in front of a rest that
  agrees.
* `Lexed.eq_dollar_of_backslash`: Only a lone `$` touches a backslash.
-/

namespace Ysh

namespace Lexeme

/-! ## What starts a token other than a word -/

/-- The characters with which the operators of a command start. -/
def operatorStarts : List Char :=
  ['<', '>', '&', '|', ';', '(', ')', '{', '}', '[', ']']

/-- Every operator starts with a character that is an operator by itself. -/
theorem match?_command_eq_none {c : Char} {t : List Char} :
    commandOperators.match? (c :: t) = none ↔ c ∉ operatorStarts := by
  have hsingle : operatorStarts.all (fun c => commandOperators.any fun e => e.1 == [c]) = true := by
    decide
  have hstart : commandOperators.all (fun e => e.1.head?.any operatorStarts.contains) = true := by
    decide
  simp only [OperatorTable.match?, Option.map_eq_none_iff, List.find?_eq_none]
  constructor
  · intro h hc
    rcases List.any_eq_true.1 (List.all_eq_true.1 hsingle c hc) with ⟨e, he, heq⟩
    refine h e he ?_
    rw [beq_iff_eq.1 heq]
    simp
  · intro h e he hstarts
    have hfirst := List.all_eq_true.1 hstart e he
    rcases h1 : e.1 with _ | ⟨x, xs⟩
    · rw [h1] at hfirst
      cases hfirst
    · rw [h1] at hfirst hstarts
      rw [List.isPrefixOf_iff_prefix, List.cons_prefix_cons] at hstarts
      have hx : x ∈ operatorStarts := List.contains_iff_mem.1 hfirst
      exact h (hstarts.1 ▸ hx)

theorem quote?_eq_none {c : Char} {t : List Char} :
    quote? (c :: t) = none ↔ c ≠ '"' ∧ c ≠ '\'' ∧
      (t.head? = some '\'' → c ≠ 'r' ∧ c ≠ 'u' ∧ c ≠ 'b') := by
  rcases t with _ | ⟨d, t⟩
  · unfold quote?
    split <;> simp_all
  · unfold quote?
    split <;> simp_all
    grind

theorem dollar?_eq_none {t : List Char} :
    dollar? ('$' :: t) = none ↔ ∀ c, t.head? = some c →
      c ∉ ['{', '[', '(', '?', '#', '*', '@'] ∧ c.isDigit = false ∧
        Character.isNameStart c = false := by
  rcases t with _ | ⟨d, t⟩
  · simp [dollar?]
  · unfold dollar?
    split <;> simp_all
    grind

theorem sigil?_eq_none {c : Char} {t : List Char} :
    sigil? (c :: t) = none ↔ ∀ d, t.head? = some d →
      ((c = '@' ∨ c = '^') → d ≠ '[' ∧ d ≠ '(') ∧ (c = '@' → Character.isNameStart d = false) := by
  rcases t with _ | ⟨d, t⟩
  · unfold sigil?
    split <;> simp_all
  · unfold sigil?
    split <;> simp_all

theorem extrasLength_eq_zero {c : Char} {t : List Char} :
    extrasLength (c :: t) = 0 ↔ (c ≠ ' ' ∧ c ≠ '\t' ∧ c ≠ '\r' ∧ c ≠ '#') ∧
      (c = '\\' → ∀ d, t.head? = some d → d ≠ '\n' ∧ d ≠ ' ' ∧ d ≠ '\t') := by
  rcases t with _ | ⟨d, t⟩
  · unfold extrasLength extrasLengthFrom
    split <;> simp_all
    grind
  · unfold extrasLength extrasLengthFrom
    split <;> simp_all
    grind

/-! ## Runs of word text -/

/-- The text is a run of word text by itself: no character in it ends one. -/
def isRun : List Char → Bool
  | [] => true
  | ['\\'] => false
  | '\\' :: c :: cs => !(c == '\n' || c == ' ' || c == '\t') && isRun cs
  | c :: cs => !Character.isWordSpecial c && isRun cs

/-- A run that covers a text ends exactly where the text does. -/
theorem wordLength_append (x rest : List Char) :
    wordLength (x ++ rest) = x.length ↔ isRun x = true ∧ wordLength rest = 0 := by
  fun_induction isRun x with
  | case1 => simp
  | case2 =>
      rcases rest with _ | ⟨c, cs⟩
      · simp [wordLength]
      · simp only [List.cons_append, List.nil_append, wordLength]
        split <;> simp
  | case3 c cs ih =>
      simp only [List.cons_append, wordLength]
      split
      · simp_all
        grind
      · simp_all
  | case4 c cs h1 h2 ih =>
      have hc : c ≠ '\\' := by
        rintro rfl
        cases cs with
        | nil => exact h1 rfl rfl
        | cons d ds => exact h2 d ds rfl rfl
      rw [List.cons_append, wordLength]
      · split <;> simp_all
      · exact fun h _ => hc h
      · exact fun d ds h _ => hc h

/-- No operator of a command is a word. -/
theorem match?_ne_word {cs : List Char} {n : Nat} :
    commandOperators.match? cs ≠ some (.token .word n) := by
  intro h
  rcases Option.map_eq_some_iff.1 h with ⟨e, he, heq⟩
  have hkind := (by decide : ∀ e ∈ commandOperators, e.2 ≠ .word) e (List.mem_of_find?_eq_some he)
  have hverdict := congrArg Lexeme.verdict heq
  simp only [token, Except.ok.injEq] at hverdict
  exact hkind hverdict

theorem quote?_kind {cs : List Char} {l : Lexeme} (h : quote? cs = some l) :
    ∃ style triple n, l = .token (.quote style triple) n := by
  unfold quote? at h
  split at h <;> cases h <;> unfold quote?.opening <;> split <;> exact ⟨_, _, _, rfl⟩

theorem word_eq_token {cs : List Char} {n : Nat} :
    word cs = .token .word (n + 1) ↔ wordLength cs = n + 1 := by
  unfold word
  split
  · simp_all [token, fault]
  · simp [token]

/-- A token that starts with no newline is read as its mode has it. -/
theorem ofMode_cons {mode : Mode} {c : Char} {t : List Char} (h : c ≠ '\n') :
    ofMode mode (c :: t) = match mode with
      | .command => ofCommandText c (c :: t)
      | .expression => ofExpressionText c (c :: t) := by
  unfold ofMode
  cases mode <;> split <;> simp_all

/-- A run of word text in front of a rest: it is a lone `$`, or else it ends where
    the rest starts, and its first characters start nothing else. -/
theorem ofMode_command_word {c : Char} {x rest : List Char} :
    ofMode .command (c :: (x ++ rest)) = .token .word (x.length + 1) ↔
      c ≠ '\n' ∧ c ∉ operatorStarts ∧ quote? (c :: (x ++ rest)) = none ∧
        if c = '$' then x = [] ∧ dollar? (c :: rest) = none
        else sigil? (c :: (x ++ rest)) = none ∧ isRun (c :: x) = true ∧ wordLength rest = 0 := by
  by_cases hline : c = '\n'
  · subst hline
    simp [ofMode, token]
  · rw [ofMode_cons hline]
    unfold ofCommandText
    by_cases hop : c ∈ operatorStarts
    · rcases hm : commandOperators.match? (c :: (x ++ rest)) with _ | l
      · exact absurd hop (match?_command_eq_none.1 hm)
      · simp only [Option.getD_some]
        constructor
        · rintro rfl
          exact absurd hm match?_ne_word
        · exact fun h => absurd hop h.2.1
    · rw [match?_command_eq_none.2 hop, Option.getD_none]
      rcases hq : quote? (c :: (x ++ rest)) with _ | l
      · rw [Option.getD_none]
        by_cases hd : c = '$'
        · subst hd
          rcases hdollar : dollar? ('$' :: (x ++ rest)) with _ | ⟨o, n⟩
          · rcases x with _ | ⟨d, x⟩
            · simp_all [operatorStarts]
            · simp_all [token]
          · simp only [if_pos, Option.map_some, Option.getD_some, ofOpener, token]
            constructor
            · simp
            · rintro ⟨-, -, -, rfl, hnone⟩
              rw [List.nil_append, hnone] at hdollar
              cases hdollar
        · rw [if_neg hd, if_neg hd]
          rcases hsigil : sigil? (c :: (x ++ rest)) with _ | ⟨o, n⟩
          · have hlength := wordLength_append (c :: x) rest
            rw [Option.map_none, Option.getD_none, word_eq_token]
            simp only [List.cons_append, List.length_cons] at hlength
            rw [hlength]
            simp [hline, hop]
          · simp [token, ofOpener]
      · rcases quote?_kind hq with ⟨style, triple, n, rfl⟩
        simp [token]

end Lexeme

/-! ## Rests that are as good as one another -/

/-- The characters that stand behind a printed word. -/
def isWordEnd (c : Char) : Bool :=
  [' ', '\n', ')', '}', ';'].contains c

/-- A rest that starts like another, or else with the end of a word. -/
def Agrees (rest rest' : List Char) : Prop :=
  rest'.head? = rest.head? ∨ ∃ c, rest'.head? = some c ∧ isWordEnd c = true

theorem Agrees.append {rest rest' : List Char} (h : Agrees rest rest') (x : List Char) :
    Agrees (x ++ rest) (x ++ rest') := by
  cases x with
  | nil => exact h
  | cons c x => exact .inl rfl

/-- What the next character does not spoil, an agreeing rest does not spoil. -/
theorem Agrees.forall {rest rest' : List Char} (h : Agrees rest rest') {P : Char → Prop}
    (hrest : ∀ c, rest.head? = some c → P c) (hend : ∀ c, isWordEnd c = true → P c) :
    ∀ c, rest'.head? = some c → P c := by
  intro c hc
  rcases h with h | ⟨d, hd, hword⟩
  · exact hrest c (h ▸ hc)
  · rw [hd] at hc
    cases hc
    exact hend c hword

theorem isWordEnd_iff {c : Char} :
    isWordEnd c = true ↔ c = ' ' ∨ c = '\n' ∨ c = ')' ∨ c = '}' ∨ c = ';' := by
  simp [isWordEnd]

namespace Lexeme

/-- A character that ends words ends a run of word text. -/
theorem wordLength_eq_zero_of_isWordEnd {c : Char} {t : List Char} (h : isWordEnd c = true) :
    wordLength (c :: t) = 0 := by
  rcases isWordEnd_iff.1 h with rfl | rfl | rfl | rfl | rfl <;> rfl

/-- Where a run of word text ends depends on one character, unless that is a
    backslash. -/
theorem wordLength_eq_zero_of_head {c : Char} {t t' : List Char} (hc : c ≠ '\\')
    (h : wordLength (c :: t) = 0) : wordLength (c :: t') = 0 := by
  rw [wordLength] at h ⊢
  · split at h
    · next hspecial => rw [if_pos hspecial]
    · cases h
  all_goals simp_all

end Lexeme

open Lexeme

/-- A run of word text stays one in front of a rest that agrees, if it still ends
    there. -/
theorem Lexed.word_of_agrees {x rest rest' : List Char} (h : Lexed .command x .word rest)
    (ha : Agrees rest rest') (hrun : x = ['$'] ∨ wordLength rest' = 0) :
    Lexed .command x .word rest' := by
  rcases h with ⟨hplain, hlexeme⟩
  cases x with
  | nil =>
      have hpos := Lexed.advances ⟨hplain, hlexeme⟩
      simp at hpos
  | cons c x =>
      rw [List.cons_append] at hplain hlexeme
      rcases ofMode_command_word.1 hlexeme with ⟨hline, hop, hquote, hif⟩
      have hx := ha.append x
      have hplain' := extrasLength_eq_zero.1 hplain
      have hquote' := quote?_eq_none.1 hquote
      have hescape : c = '\\' → x ≠ [] := by
        rintro rfl rfl
        rw [if_neg (by decide)] at hif
        exact absurd hif.2.1 (by decide)
      constructor
      · rw [List.cons_append, extrasLength_eq_zero]
        refine ⟨hplain'.1, fun hc => ?_⟩
        have hhead : (x ++ rest').head? = (x ++ rest).head? := by
          cases x with
          | nil => exact absurd rfl (hescape hc)
          | cons d x => rfl
        rw [hhead]
        exact hplain'.2 hc
      · rw [List.cons_append, List.length_cons, ofMode_command_word]
        refine ⟨hline, hop, quote?_eq_none.2 ⟨hquote'.1, hquote'.2.1, ?_⟩, ?_⟩
        · intro hhead
          refine hx.forall (P := fun d => d = '\'' → c ≠ 'r' ∧ c ≠ 'u' ∧ c ≠ 'b')
            (fun d hd heq => hquote'.2.2 (heq ▸ hd)) (fun d hd heq => ?_) '\'' hhead rfl
          subst heq
          exact absurd hd (by decide)
        · by_cases hc : c = '$'
          · subst hc
            rw [if_pos rfl] at hif ⊢
            refine ⟨hif.1, dollar?_eq_none.2 (ha.forall (dollar?_eq_none.1 hif.2) ?_)⟩
            intro d hd
            rcases isWordEnd_iff.1 hd with rfl | rfl | rfl | rfl | rfl <;> decide
          · rw [if_neg hc] at hif ⊢
            refine ⟨sigil?_eq_none.2 (hx.forall (sigil?_eq_none.1 hif.1) ?_), hif.2.1, ?_⟩
            · intro d hd
              rcases isWordEnd_iff.1 hd with rfl | rfl | rfl | rfl | rfl <;>
                exact ⟨fun _ => by decide, fun _ => by decide⟩
            · rcases hrun with hdollar | hrun
              · cases hdollar
                exact absurd rfl hc
              · exact hrun

/-- A run of word text stays one in front of the end of a word. -/
theorem Lexed.word_of_isWordEnd {x rest t : List Char} {c : Char}
    (h : Lexed .command x .word rest) (hc : isWordEnd c = true) :
    Lexed .command x .word (c :: t) :=
  h.word_of_agrees (.inr ⟨c, rfl, hc⟩) (.inr (wordLength_eq_zero_of_isWordEnd hc))

/-- A run of word text stays one in front of a rest with the same first character.
    Behind a backslash more than that one would matter, but only a lone `$` stands
    in front of a token that starts with one. -/
theorem Lexed.word_of_head {x rest rest' : List Char} {c : Char}
    (h : Lexed .command x .word rest) (hrest : rest.head? = some c) (hrest' : rest'.head? = some c)
    (hc : c = '\\' → x = ['$']) : Lexed .command x .word rest' := by
  refine h.word_of_agrees (.inl (hrest'.trans hrest.symm)) ?_
  rcases List.head?_eq_some_iff.1 hrest with ⟨t, rfl⟩
  rcases List.head?_eq_some_iff.1 hrest' with ⟨t', rfl⟩
  by_cases hback : c = '\\'
  · exact .inl (hc hback)
  · rcases h with ⟨hplain, hlexeme⟩
    cases x with
    | nil =>
        have hpos := Lexed.advances ⟨hplain, hlexeme⟩
        simp at hpos
    | cons d x =>
        have hif := (ofMode_command_word.1 hlexeme).2.2.2
        by_cases hd : d = '$'
        · rw [if_pos hd] at hif
          exact .inl (by rw [hd, hif.1])
        · rw [if_neg hd] at hif
          exact .inr (wordLength_eq_zero_of_head hback hif.2.2)

/-- Word text that starts with a backslash cannot touch a run of word text. -/
theorem Lexed.eq_dollar_of_backslash {x y rest : List Char}
    (h : Lexed .command x .word (y ++ rest)) (hy : Lexed .command y .word rest)
    (hhead : y.head? = some '\\') : x = ['$'] := by
  rcases List.head?_eq_some_iff.1 hhead with ⟨y, rfl⟩
  rcases h with ⟨hplain, hlexeme⟩
  cases x with
  | nil =>
      have hpos := Lexed.advances ⟨hplain, hlexeme⟩
      simp at hpos
  | cons c x =>
      have hif := (ofMode_command_word.1 hlexeme).2.2.2
      by_cases hc : c = '$'
      · rw [if_pos hc] at hif
        rw [hc, hif.1]
      · rw [if_neg hc] at hif
        have hrun := (ofMode_command_word.1 hy.lexeme).2.2.2
        rw [if_neg (by decide)] at hrun
        have hlength := (wordLength_append ('\\' :: y) rest).2 hrun.2
        rw [hif.2.2] at hlength
        cases hlength

/-! ## Brackets -/

theorem lexed_leftBracket (rest : List Char) : Lexed .command ['['] .leftBracket rest :=
  ⟨rfl, rfl⟩

theorem lexed_rightBracket (rest : List Char) : Lexed .command [']'] .rightBracket rest :=
  ⟨rfl, rfl⟩

end Ysh
