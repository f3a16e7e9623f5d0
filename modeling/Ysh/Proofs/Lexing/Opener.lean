import Ysh.Proofs.Lexing.Word

/-!
# Lexed Openers and Quotes

The tokens behind which something else is read: the openers of expansions and the
opening quotes of strings. They are the same in a command and in an expression, so
a string or an expansion does not depend on the mode around it.

A bracket opens whatever it opens in front of every rest. A name behind a sigil
has to end where the rest starts. A quote is one quote unless it is the first of
three.

## Main definitions

* `Arises`: The rules that a lexeme may come from.
* `Opens`: A text is the opener of an expansion.
* `SimpleName`, `SpliceName`: A name is read as a whole behind its sigil.
* `EndsName`: A rest that starts like another, or with no character of a name.

## Theorems

* `Lexed.opener_iff`: The openers are the same in both modes.
* `Opens.shape`: What the text of an opener looks like.
* `SimpleName.of_endsName`, `SpliceName.of_endsName`: A name stays one in front of
  another rest.
* `Lexed.quote_iff`: A quote opens a string unless two more follow.
-/

namespace Ysh

open Lexeme

/-! ## Openers -/

/-- The text is the opener of an expansion where the rest follows it. -/
def Opens (text : List Char) (o : Opener) (rest : List Char) : Prop :=
  dollar? (text ++ rest) = some (o, text.length) ∨ sigil? (text ++ rest) = some (o, text.length)

theorem ofMode_dollar {mode : Mode} {t : List Char} {o : Opener} {n : Nat} :
    ofMode mode ('$' :: t) = .token (.opener o) n ↔ dollar? ('$' :: t) = some (o, n) := by
  cases mode with
  | command =>
      change ((dollar? ('$' :: t)).map ofOpener).getD (.token .word 1) = _ ↔ _
      rcases dollar? ('$' :: t) with _ | ⟨o, n⟩ <;> simp [token, ofOpener]
  | expression =>
      change ((dollar? ('$' :: t)).map ofOpener).getD (.fault .unrecognized 1) = _ ↔ _
      rcases dollar? ('$' :: t) with _ | ⟨o, n⟩ <;> simp [token, fault, ofOpener]

/-- The rules that a lexeme may come from, with what each needs of the text. -/
inductive Arises (cs : List Char) : Lexeme → Mode → Prop
  | endOfInput {mode} : cs = [] → Arises cs (.token .endOfInput 0) mode
  | newline {mode} : cs.head? = some '\n' → Arises cs (.token .newline 1) mode
  | quote {mode l} : quote? cs = some l → Arises cs l mode
  | dollar {mode p} : dollar? cs = some p → Arises cs (ofOpener p) mode
  | sigil {mode p} : sigil? cs = some p → Arises cs (ofOpener p) mode
  | fault {mode f n} : Arises cs (.fault f n) mode
  | commandOperator {l} : commandOperators.match? cs = some l → Arises cs l .command
  | lone : Arises cs (.token .word 1) .command
  | word {n} : wordLength cs = n → Arises cs (.token .word n) .command
  | number {c} : cs.head? = some c → c.isDigit = true → quote? cs = none →
      Arises cs (Lexeme.number cs) .expression
  | name {c} : cs.head? = some c → Character.isNameStart c = true → c.isDigit = false →
      quote? cs = none → Arises cs (Lexeme.name cs) .expression
  | character : cs.head? = some '\\' → Arises cs (Lexeme.character cs) .expression
  | expressionOperator {l} : expressionOperators.match? cs = some l → Arises cs l .expression

theorem arises_ofMode (mode : Mode) (cs : List Char) : Arises cs (ofMode mode cs) mode := by
  unfold ofMode
  split
  · exact .endOfInput rfl
  · exact .newline rfl
  · next c cs hline =>
      cases mode with
      | command =>
          change Arises _ (ofCommandText c (c :: cs)) _
          unfold ofCommandText
          rcases hm : commandOperators.match? (c :: cs) with _ | l
          · rcases hq : quote? (c :: cs) with _ | l
            · simp only [Option.getD_none]
              split
              · rcases hd : dollar? (c :: cs) with _ | p
                · exact .lone
                · exact .dollar hd
              · rcases hs : sigil? (c :: cs) with _ | p
                · rw [Option.map_none, Option.getD_none]
                  unfold Lexeme.word
                  split
                  · exact .fault
                  · exact .word rfl
                · exact .sigil hs
            · exact .quote hq
          · exact .commandOperator hm
      | expression =>
          change Arises _ (ofExpressionText c (c :: cs)) _
          unfold ofExpressionText
          rcases hq : quote? (c :: cs) with _ | l
          · simp only [Option.getD_none]
            split
            · next hd => exact .number rfl hd hq
            · next hd =>
                split
                · next hn => exact .name rfl hn (by simpa using hd) hq
                · split
                  · rcases hd : dollar? (c :: cs) with _ | p
                    · exact .fault
                    · exact .dollar hd
                  · rcases hs : sigil? (c :: cs) with _ | p
                    · simp only [Option.map_none, Option.getD_none]
                      split
                      · next hb => exact .character (by rw [hb]; rfl)
                      · rcases hm : expressionOperators.match? (c :: cs) with _ | l
                        · exact .fault
                        · exact .expressionOperator hm
                    · exact .sigil hs
          · exact .quote hq

/-- An operator has a kind of its table. -/
theorem match?_kind {table : OperatorTable} {P : Token.Kind → Prop} (htable : ∀ e ∈ table, P e.2)
    {cs : List Char} {kind : Token.Kind} {n : Nat}
    (h : table.match? cs = some (.token kind n)) : P kind := by
  rcases Option.map_eq_some_iff.1 h with ⟨e, he, heq⟩
  have hverdict := congrArg Lexeme.verdict heq
  simp only [token, Except.ok.injEq] at hverdict
  exact hverdict ▸ htable e (List.mem_of_find?_eq_some he)

theorem keyword?_kind {text : List Char} {kind : Token.Kind} (h : keyword? text = some kind) :
    kind.isMemberName = true ∧ kind ≠ .identifier := by
  unfold keyword? at h
  rcases List.lookup_eq_some_iff.1 h with ⟨before, after, htable, -⟩
  have hmem : (text, kind) ∈ before ++ (text, kind) :: after := by simp
  rw [← htable] at hmem
  simp only [List.mem_cons, Prod.mk.injEq, List.not_mem_nil, or_false] at hmem
  rcases hmem with ⟨-, rfl⟩ | ⟨-, rfl⟩ | ⟨-, rfl⟩ | ⟨-, rfl⟩ | ⟨-, rfl⟩ | ⟨-, rfl⟩
  all_goals exact ⟨rfl, by decide⟩

theorem name_kind (cs : List Char) :
    ∃ kind, Lexeme.name cs = .token kind (runLength Character.isNamePart cs) ∧
      kind = (keyword? (cs.takeWhile Character.isNamePart)).getD .identifier ∧
      kind.isMemberName = true := by
  refine ⟨_, rfl, rfl, ?_⟩
  rcases h : keyword? (cs.takeWhile Character.isNamePart) with _ | kind
  · rfl
  · exact (keyword?_kind h).1

theorem number_kind {cs : List Char} {kind : Token.Kind} {n : Nat}
    (h : Lexeme.number cs = .token kind n) : kind = .number := by
  unfold Lexeme.number at h
  dsimp only at h
  split at h <;> cases h
  rfl

theorem character_kind {cs : List Char} {kind : Token.Kind} {n : Nat}
    (h : Lexeme.character cs = .token kind n) : kind = .character := by
  unfold Lexeme.character at h
  dsimp only at h
  repeat' split at h
  all_goals first | cases h; rfl | cases h

/-- No operator opens an expansion, starts a string or is word text. -/
theorem operator_kind {table : OperatorTable} {cs : List Char} {kind : Token.Kind} {n : Nat}
    (htable : table = commandOperators ∨ table = expressionOperators)
    (h : table.match? cs = some (.token kind n)) :
    (kind.isWordPiece = false ∨ kind = .leftBracket ∨ kind = .rightBracket) ∧
      kind.isMemberName = false ∧ kind ≠ .number ∧ kind ≠ .character := by
  rcases htable with rfl | rfl
  · exact match?_kind (P := fun kind =>
      (kind.isWordPiece = false ∨ kind = .leftBracket ∨ kind = .rightBracket) ∧
        kind.isMemberName = false ∧ kind ≠ .number ∧ kind ≠ .character) (by decide) h
  · exact match?_kind (P := fun kind =>
      (kind.isWordPiece = false ∨ kind = .leftBracket ∨ kind = .rightBracket) ∧
        kind.isMemberName = false ∧ kind ≠ .number ∧ kind ≠ .character) (by decide) h

theorem opens_of_ofMode {mode : Mode} {cs : List Char} {o : Opener} {n : Nat}
    (h : ofMode mode cs = .token (.opener o) n) :
    dollar? cs = some (o, n) ∨ sigil? cs = some (o, n) := by
  have harises := arises_ofMode mode cs
  rw [h] at harises
  generalize hl : Lexeme.token (.opener o) n = l at harises
  cases harises with
  | quote hq =>
      rcases quote?_kind hq with ⟨_, _, _, rfl⟩
      cases hl
  | @dollar _ p hd =>
      rcases p with ⟨o', n'⟩
      cases hl
      exact .inl hd
  | @sigil _ p hs =>
      rcases p with ⟨o', n'⟩
      cases hl
      exact .inr hs
  | commandOperator hm =>
      subst hl
      have hkind := (operator_kind (.inl rfl) hm).1
      simp [Token.Kind.isWordPiece] at hkind
  | expressionOperator hm =>
      subst hl
      have hkind := (operator_kind (.inr rfl) hm).1
      simp [Token.Kind.isWordPiece] at hkind
  | number hc hd _ => cases number_kind hl.symm
  | name hc hn _ _ =>
      rcases name_kind cs with ⟨kind, hname, -, hmember⟩
      rw [hname] at hl
      cases hl
      cases hmember
  | character hc => cases character_kind hl.symm
  | _ => cases hl

/-- Only behind the last character comes the end. -/
theorem Lexeme.eq_nil_of_endOfInput {mode : Mode} {cs : List Char} {n : Nat}
    (h : ofMode mode cs = .token .endOfInput n) : cs = [] := by
  have harises := arises_ofMode mode cs
  rw [h] at harises
  generalize hl : Lexeme.token .endOfInput n = l at harises
  cases harises with
  | endOfInput hnil => exact hnil
  | quote hq =>
      rcases quote?_kind hq with ⟨_, _, _, rfl⟩
      cases hl
  | commandOperator hm =>
      subst hl
      exact absurd rfl (match?_kind (P := fun kind => kind ≠ .endOfInput) (by decide) hm)
  | expressionOperator hm =>
      subst hl
      exact absurd rfl (match?_kind (P := fun kind => kind ≠ .endOfInput) (by decide) hm)
  | number => cases number_kind hl.symm
  | name =>
      rcases name_kind cs with ⟨kind, hname, -, hmember⟩
      rw [hname] at hl
      rw [← Except.ok.inj (congrArg Lexeme.verdict hl)] at hmember
      cases hmember
  | character => cases character_kind hl.symm
  | _ => cases hl

theorem Lexed.endOfInput {mode : Mode} {text rest : List Char}
    (h : Lexed mode text .endOfInput rest) : text = [] ∧ rest = [] :=
  List.append_eq_nil_iff.1 (Lexeme.eq_nil_of_endOfInput h.lexeme)

theorem dollar?_head {cs : List Char} {p : Opener × Nat} (h : dollar? cs = some p) :
    ∃ t, cs = '$' :: t := by
  unfold dollar? at h
  split at h
  all_goals first | exact ⟨_, rfl⟩ | cases h

theorem sigil?_head {cs : List Char} {p : Opener × Nat} (h : sigil? cs = some p) :
    ∃ t, cs = '@' :: t ∨ cs = '^' :: t := by
  unfold sigil? at h
  split at h
  all_goals first | exact ⟨_, .inl rfl⟩ | exact ⟨_, .inr rfl⟩ | cases h

theorem ofMode_sigil {mode : Mode} {cs : List Char} {o : Opener} {n : Nat}
    (h : sigil? cs = some (o, n)) : ofMode mode cs = .token (.opener o) n := by
  have hgetD : ∀ l, ((sigil? cs).map ofOpener).getD l = .token (.opener o) n := by
    intro l
    rw [h]
    rfl
  rcases sigil?_head h with ⟨t, rfl | rfl⟩ <;> cases mode <;> exact hgetD _

/-- The openers are the same in both modes. -/
theorem Lexed.opener_iff {mode : Mode} {text rest : List Char} {o : Opener} :
    Lexed mode text (.opener o) rest ↔ Opens text o rest := by
  constructor
  · exact fun h => opens_of_ofMode h.lexeme
  · rintro (h | h)
    · rcases dollar?_head h with ⟨t, ht⟩
      refine ⟨by rw [ht]; rfl, ?_⟩
      rw [ht] at h ⊢
      exact ofMode_dollar.2 h
    · refine ⟨?_, ofMode_sigil h⟩
      rcases sigil?_head h with ⟨t, ht | ht⟩ <;> rw [ht] <;> rfl

/-- The name is read as a whole behind a `$`. -/
def SimpleName (name rest : List Char) : Prop :=
  dollar? ('$' :: (name ++ rest)) = some (.name, name.length + 1)

/-- The name is read as a whole behind a `@`. -/
def SpliceName (name rest : List Char) : Prop :=
  sigil? ('@' :: (name ++ rest)) = some (.splice, name.length + 1)

theorem dollar?_shape {cs : List Char} {o : Opener} {n : Nat} (h : dollar? cs = some (o, n)) :
    o = .name ∨ (o = .brace ∧ cs.take n = ['$', '{']) ∨
      (o = .bracket .dollar ∧ cs.take n = ['$', '[']) ∨
      (o = .paren .dollar ∧ cs.take n = ['$', '(']) := by
  unfold dollar? at h
  split at h
  · cases h
    exact .inr (.inl ⟨rfl, rfl⟩)
  · cases h
    exact .inr (.inr (.inl ⟨rfl, rfl⟩))
  · cases h
    exact .inr (.inr (.inr ⟨rfl, rfl⟩))
  · refine .inl ?_
    repeat' split at h
    all_goals first | cases h; rfl | cases h
  · cases h

theorem sigil?_shape {cs : List Char} {o : Opener} {n : Nat} (h : sigil? cs = some (o, n)) :
    (o = .splice ∧ cs.head? = some '@') ∨
      ∃ sigil : Sigil, (o = .bracket sigil ∧ cs.take n = [sigil.char, '[']) ∨
        (o = .paren sigil ∧ cs.take n = [sigil.char, '(']) := by
  unfold sigil? at h
  split at h
  · cases h
    exact .inr ⟨.at, .inl ⟨rfl, rfl⟩⟩
  · cases h
    exact .inr ⟨.at, .inr ⟨rfl, rfl⟩⟩
  · cases h
    exact .inr ⟨.caret, .inl ⟨rfl, rfl⟩⟩
  · cases h
    exact .inr ⟨.caret, .inr ⟨rfl, rfl⟩⟩
  · split at h
    · cases h
      exact .inl ⟨rfl, rfl⟩
    · cases h
  · cases h

/-- What the text of an opener looks like. -/
theorem Opens.shape {text rest : List Char} {o : Opener} (h : Opens text o rest) :
    match o with
    | .name => ∃ name, text = '$' :: name ∧ SimpleName name rest
    | .splice => ∃ name, text = '@' :: name ∧ SpliceName name rest
    | .brace => text = ['$', '{']
    | .bracket sigil => text = [sigil.char, '[']
    | .paren sigil => text = [sigil.char, '('] := by
  have hlexed : Lexed .command text (.opener o) rest := Lexed.opener_iff.2 h
  have hpos := hlexed.advances
  rcases h with h | h
  · have hshape := dollar?_shape h
    rw [List.take_left' rfl] at hshape
    rcases hshape with rfl | ⟨rfl, ht⟩ | ⟨rfl, ht⟩ | ⟨rfl, ht⟩
    · rcases dollar?_head h with ⟨t, ht⟩
      rcases text with _ | ⟨c, name⟩
      · simp at hpos
      · rw [List.cons_append, List.cons.injEq] at ht
        rcases ht with ⟨rfl, -⟩
        exact ⟨name, rfl, h⟩
    · exact ht
    · exact ht
    · exact ht
  · have hshape := sigil?_shape h
    rw [List.take_left' rfl] at hshape
    rcases hshape with ⟨rfl, hhead⟩ | ⟨sigil, ⟨rfl, ht⟩ | ⟨rfl, ht⟩⟩
    · rcases text with _ | ⟨c, name⟩
      · simp at hpos
      · cases hhead
        exact ⟨name, rfl, h⟩
    · exact ht
    · exact ht

theorem opens_brace (rest : List Char) : Opens ['$', '{'] .brace rest :=
  .inl rfl

theorem opens_bracket (sigil : Sigil) (rest : List Char) :
    Opens [sigil.char, '['] (.bracket sigil) rest := by
  cases sigil with
  | dollar => exact .inl rfl
  | «at» => exact .inr rfl
  | caret => exact .inr rfl

theorem opens_paren (sigil : Sigil) (rest : List Char) :
    Opens [sigil.char, '('] (.paren sigil) rest := by
  cases sigil with
  | dollar => exact .inl rfl
  | «at» => exact .inr rfl
  | caret => exact .inr rfl

/-! ## Names behind a sigil -/

/-- A run covers a text just if every character belongs to it and the next does
    not. -/
theorem runLength_append {p : Char → Bool} (x rest : List Char) :
    runLength p (x ++ rest) = x.length ↔
      (∀ c ∈ x, p c = true) ∧ ∀ c, rest.head? = some c → p c = false := by
  induction x with
  | nil =>
      rcases rest with _ | ⟨c, cs⟩
      · simp [runLength]
      · by_cases hc : p c = true
        · simp [runLength, hc]
        · simp [runLength, hc]
  | cons c x ih =>
      by_cases hc : p c = true
      · simp only [runLength, List.cons_append, List.takeWhile_cons_of_pos hc, List.length_cons,
          Nat.add_right_cancel_iff, List.forall_mem_cons, hc, true_and]
        exact ih
      · simp [runLength, hc]

/-- A rest that starts like another, or else with no character of a name. -/
def EndsName (rest rest' : List Char) : Prop :=
  rest'.head? = rest.head? ∨ ∀ c, rest'.head? = some c → Character.isNamePart c = false

theorem EndsName.forall {rest rest' : List Char} (h : EndsName rest rest') {p : Char → Bool}
    (hp : ∀ c, p c = true → Character.isNamePart c = true)
    (hrest : ∀ c, rest.head? = some c → p c = false) :
    ∀ c, rest'.head? = some c → p c = false := by
  intro c hc
  rcases h with h | h
  · exact hrest c (h ▸ hc)
  · have hpart := h c hc
    rcases hpc : p c with _ | _
    · rfl
    · rw [hp c hpc] at hpart
      cases hpart

theorem isNamePart_of_isDigit {c : Char} (h : c.isDigit = true) :
    Character.isNamePart c = true := by
  simp [Character.isNamePart, Char.isAlphanum, h]

theorem isNamePart_of_isNameStart {c : Char} (h : Character.isNameStart c = true) :
    Character.isNamePart c = true := by
  simp only [Character.isNameStart, Character.isNamePart, Char.isAlphanum, Bool.or_eq_true] at h ⊢
  rcases h with h | h
  · exact .inl (.inl h)
  · exact .inr h

theorem dollar?_name_iff {c : Char} {t : List Char} {n : Nat} :
    dollar? ('$' :: c :: t) = some (.name, n) ↔
      if ['?', '#', '*', '@'].contains c then n = 2
      else if c.isDigit then n = 2 + runLength Char.isDigit (t.take 1)
      else Character.isNameStart c = true ∧ n = 2 + runLength Character.isNamePart t := by
  unfold dollar?
  split <;> simp_all
  · exact fun hc => absurd hc (by decide)
  · exact fun hc => absurd hc (by decide)
  · exact fun hc => absurd hc (by decide)
  · next c' cs h1 h2 h3 ht =>
      rw [← ht.1, ← ht.2]
      grind

theorem runLength_take_one {p : Char → Bool} {t : List Char} :
    runLength p (t.take 1) = 0 ↔ ∀ c, t.head? = some c → p c = false := by
  rcases t with _ | ⟨c, t⟩
  · simp [runLength]
  · by_cases hc : p c = true <;> simp [runLength, hc]

theorem SimpleName.of_endsName {name rest rest' : List Char} (h : SimpleName name rest)
    (ha : EndsName rest rest') : SimpleName name rest' := by
  unfold SimpleName at h ⊢
  rcases name with _ | ⟨c, name⟩
  · rcases rest with _ | ⟨c, rest⟩
    · cases h
    · rw [List.nil_append] at h
      unfold dollar? at h
      repeat' split at h
      all_goals
        simp only [Option.some.injEq, Prod.mk.injEq, List.length_nil, reduceCtorEq, false_and] at h
        try omega
  · rw [List.cons_append, dollar?_name_iff] at h ⊢
    split
    · next hc =>
        rw [if_pos hc] at h
        exact h
    · next hc =>
        rw [if_neg hc] at h
        split
        · next hdigit =>
            rw [if_pos hdigit] at h
            rcases name with _ | ⟨d, name⟩
            · have hzero : runLength Char.isDigit (rest.take 1) = 0 := by
                simp only [List.length_cons, List.length_nil, List.nil_append] at h
                omega
              have hnot := ha.forall (fun _ => isNamePart_of_isDigit) (runLength_take_one.1 hzero)
              simp only [List.nil_append, List.length_cons, List.length_nil,
                runLength_take_one.2 hnot]
            · exact h
        · next hdigit =>
            rw [if_neg hdigit] at h
            have hlength : runLength Character.isNamePart (name ++ rest) = name.length := by
              have hn := h.2
              simp only [List.length_cons] at hn
              omega
            rcases (runLength_append name rest).1 hlength with ⟨hall, hrest⟩
            have hlength' := (runLength_append name rest').2 ⟨hall, ha.forall (fun _ h => h) hrest⟩
            refine ⟨h.1, ?_⟩
            simp only [List.length_cons]
            omega

theorem sigil?_splice_iff {c : Char} {t : List Char} {n : Nat} :
    sigil? ('@' :: c :: t) = some (.splice, n) ↔
      Character.isNameStart c = true ∧ n = 2 + runLength Character.isNamePart t := by
  unfold sigil?
  split <;> simp_all
  · exact fun hc => absurd hc (by decide)
  · exact fun hc => absurd hc (by decide)
  · next c' cs h1 h2 ht =>
      rw [← ht.1, ← ht.2]
      grind

theorem SpliceName.of_endsName {name rest rest' : List Char} (h : SpliceName name rest)
    (ha : EndsName rest rest') : SpliceName name rest' := by
  unfold SpliceName at h ⊢
  rcases name with _ | ⟨c, name⟩
  · rcases rest with _ | ⟨c, rest⟩
    · cases h
    · rw [List.nil_append, sigil?_splice_iff, List.length_nil] at h
      omega
  · rw [List.cons_append, sigil?_splice_iff, List.length_cons] at h ⊢
    have hlength : runLength Character.isNamePart (name ++ rest) = name.length := by omega
    rcases (runLength_append name rest).1 hlength with ⟨hall, hrest⟩
    have hlength' := (runLength_append name rest').2 ⟨hall, ha.forall (fun _ h => h) hrest⟩
    exact ⟨h.1, by omega⟩

/-! ## Quotes -/

theorem quote?_opening_iff {style : StringStyle} {n : Nat} {rest : List Char} {k : Token.Kind}
    {m : Nat} :
    quote?.opening style n rest = .token k m ↔
      ∃ triple, k = .quote style triple ∧ m = n + (style.delimiter triple).length ∧
        ([style.quote, style.quote].isPrefixOf rest = triple) := by
  unfold quote?.opening
  split
  · next h =>
      constructor
      · intro heq
        cases heq
        exact ⟨true, rfl, rfl, h⟩
      · rintro ⟨triple, rfl, rfl, hstarts⟩
        rw [h] at hstarts
        subst hstarts
        rfl
  · next h =>
      constructor
      · intro heq
        cases heq
        exact ⟨false, rfl, rfl, Bool.eq_false_iff.2 h⟩
      · rintro ⟨triple, rfl, rfl, hstarts⟩
        cases triple with
        | true => exact absurd hstarts h
        | false => rfl

theorem quote?_iff {cs : List Char} {style : StringStyle} {triple : Bool} {n : Nat} :
    quote? cs = some (.token (.quote style triple) n) ↔
      ∃ rest, cs = style.tag.toList ++ style.quote :: rest ∧
        n = style.tag.toList.length + (style.delimiter triple).length ∧
        [style.quote, style.quote].isPrefixOf rest = triple := by
  constructor
  · intro h
    unfold quote? at h
    split at h
    · rcases quote?_opening_iff.1 (Option.some.inj h) with ⟨_, hkind, hn, hstarts⟩
      cases hkind
      exact ⟨_, rfl, hn, hstarts⟩
    · rcases quote?_opening_iff.1 (Option.some.inj h) with ⟨_, hkind, hn, hstarts⟩
      cases hkind
      exact ⟨_, rfl, hn, hstarts⟩
    · rcases quote?_opening_iff.1 (Option.some.inj h) with ⟨_, hkind, hn, hstarts⟩
      cases hkind
      exact ⟨_, rfl, hn, hstarts⟩
    · rcases quote?_opening_iff.1 (Option.some.inj h) with ⟨_, hkind, hn, hstarts⟩
      cases hkind
      exact ⟨_, rfl, hn, hstarts⟩
    · rcases quote?_opening_iff.1 (Option.some.inj h) with ⟨_, hkind, hn, hstarts⟩
      cases hkind
      exact ⟨_, rfl, hn, hstarts⟩
    · cases h
  · rintro ⟨rest, rfl, rfl, hstarts⟩
    cases style <;> exact congrArg some (quote?_opening_iff.2 ⟨triple, rfl, rfl, hstarts⟩)

theorem quote?_of_ofMode {mode : Mode} {cs : List Char} {style : StringStyle} {triple : Bool}
    {n : Nat} (h : ofMode mode cs = .token (.quote style triple) n) :
    quote? cs = some (.token (.quote style triple) n) := by
  have harises := arises_ofMode mode cs
  rw [h] at harises
  generalize hl : Lexeme.token (.quote style triple) n = l at harises
  cases harises with
  | quote hq => exact hq
  | commandOperator hm =>
      subst hl
      have hkind := (operator_kind (.inl rfl) hm).1
      simp [Token.Kind.isWordPiece] at hkind
  | expressionOperator hm =>
      subst hl
      have hkind := (operator_kind (.inr rfl) hm).1
      simp [Token.Kind.isWordPiece] at hkind
  | number hc hd _ => cases number_kind hl.symm
  | name hc hn _ _ =>
      rcases name_kind cs with ⟨kind, hname, -, hmember⟩
      rw [hname] at hl
      cases hl
      cases hmember
  | character hc => cases character_kind hl.symm
  | _ => cases hl

theorem ofMode_quote {mode : Mode} {cs : List Char} {style : StringStyle} {triple : Bool} {n : Nat}
    (h : quote? cs = some (.token (.quote style triple) n)) :
    ofMode mode cs = .token (.quote style triple) n := by
  have hgetD : (quote? cs).getD (.fault .unrecognized 1) = .token (.quote style triple) n := by
    rw [h]
    rfl
  rcases quote?_iff.1 h with ⟨rest, rfl, -, -⟩
  cases style <;> cases mode <;> exact hgetD

/-- A quote opens a string: the tag of the style, and one quote or three. -/
theorem Lexed.quote_iff {mode : Mode} {text rest : List Char} {style : StringStyle}
    {triple : Bool} :
    Lexed mode text (.quote style triple) rest ↔
      text = style.tag.toList ++ style.delimiter triple ∧
        (triple = false → [style.quote, style.quote].isPrefixOf rest = false) := by
  constructor
  · intro h
    rcases quote?_iff.1 (quote?_of_ofMode h.lexeme) with ⟨rest', hsplit, hlength, hstarts⟩
    cases triple with
    | true =>
        rcases List.isPrefixOf_iff_prefix.1 hstarts with ⟨t, rfl⟩
        have hsplit' : text ++ rest = (style.tag.toList ++ style.delimiter true) ++ t := by
          rw [hsplit]
          simp [StringStyle.delimiter]
        rw [← List.length_append] at hlength
        exact ⟨(List.append_inj hsplit' hlength).1, fun h => nomatch h⟩
    | false =>
        have hsplit' : text ++ rest = (style.tag.toList ++ style.delimiter false) ++ rest' := by
          rw [hsplit]
          simp [StringStyle.delimiter]
        rw [← List.length_append] at hlength
        rcases List.append_inj hsplit' hlength with ⟨htext, rfl⟩
        exact ⟨htext, fun _ => hstarts⟩
  · rintro ⟨rfl, hnot⟩
    have hquote : quote? ((style.tag.toList ++ style.delimiter triple) ++ rest)
        = some (.token (.quote style triple)
          (style.tag.toList ++ style.delimiter triple).length) := by
      rw [quote?_iff]
      cases triple with
      | true =>
          refine ⟨style.quote :: style.quote :: rest, ?_, List.length_append, ?_⟩
          · simp [StringStyle.delimiter]
          · simp
      | false =>
          refine ⟨rest, ?_, List.length_append, hnot rfl⟩
          simp [StringStyle.delimiter]
    refine ⟨?_, ofMode_quote hquote⟩
    cases style <;> cases triple <;> rfl

end Ysh
