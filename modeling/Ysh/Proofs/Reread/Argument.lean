import Ysh.Proofs.Reread.Block

/-!
# Reading Printed Arguments

The parts of a call that stand around its name. A redirection is printed with its
descriptor, its operator and its target in one run, and the descriptor is known from
the operator that touches it. A word that spells digits is no descriptor: behind it
stands another piece of the word, or a character that ends words. A binding is its
first token again, cut at the equals sign, with the pieces that touch it.

## Main definitions

* `RereadsRedirection`, `RereadsArgument`, `RereadsBinding`: What it means for these to
  be read again.

## Theorems

* `Numeral.digitsValue?_repr`: The digits of a printed number spell it.
* `rereads_redirection`, `RereadsWordFrom.argument`: The two kinds of argument.
* `Grammar.keeps_anyRedirection`, `Grammar.keeps_argument`, `Grammar.keeps_envBinding`: The
  parts of a call of a source are read again.
-/

namespace Ysh

open Grammar

variable {d : Option Definition}

/-! ## Descriptors -/

namespace Numeral

theorem digitsValueFrom?_digits {cs : List Char} (h : ∀ c ∈ cs, c.isDigit = true) (value : Nat) :
    digitsValueFrom? 10 value cs = some (Nat.ofDigitChars 10 cs value) := by
  induction cs generalizing value with
  | nil => rfl
  | cons c cs ih =>
      rcases List.forall_mem_cons.1 h with ⟨hc, hcs⟩
      have hvalue : digitValue? 10 c = some (c.toNat - '0'.toNat) := by
        unfold digitValue?
        rw [if_pos hc]
        have hlt : c.toNat - '0'.toNat < 10 := by
          have hrange := Character.isDigit_iff.1 hc
          change c.toNat - 48 < 10
          omega
        exact Option.filter_some_pos (decide_eq_true hlt)
      rw [digitsValueFrom?, hvalue, Nat.ofDigitChars_cons, Nat.mul_comm 10]
      exact ih hcs _

/-- The digits of a printed number. -/
theorem isDigit_of_mem_repr {n : Nat} : ∀ c ∈ (toString n).toList, c.isDigit = true := by
  intro c hc
  rw [show toString n = n.repr from rfl, Nat.toList_repr] at hc
  exact Nat.isDigit_of_mem_toDigits (by decide) (by decide) hc

/-- The digits of a printed number spell it. -/
theorem digitsValue?_repr (n : Nat) : digitsValue? 10 (toString n).toList = some n := by
  have hne : (toString n).toList ≠ [] := by
    rw [show toString n = n.repr from rfl, Nat.toList_repr]
    exact Nat.toDigits_ne_nil
  unfold digitsValue?
  rw [if_neg (by rwa [List.isEmpty_iff]), digitsValueFrom?_digits isDigit_of_mem_repr,
    show toString n = n.repr from rfl, Nat.toList_repr,
    Nat.ofDigitChars_toDigits (by decide) (by decide)]

end Numeral

/-! ## Redirections -/

/-- The operator of a redirection, in front of what continues no operator. -/
theorem lexed_redirection (op : RedirectionOperator) {c : Char} (hc : c ∉ ['<', '>', '&', '|'])
    (rest : List Char) : Lexed .command op.spelling.toList (.redirection op) (c :: rest) := by
  simp only [List.mem_cons, List.not_mem_nil, or_false, not_or] at hc
  have hless : ('<' == c) = false := beq_eq_false_iff_ne.2 (Ne.symm hc.1)
  have hmore : ('>' == c) = false := beq_eq_false_iff_ne.2 (Ne.symm hc.2.1)
  have hand : ('&' == c) = false := beq_eq_false_iff_ne.2 (Ne.symm hc.2.2.1)
  have hbar : ('|' == c) = false := beq_eq_false_iff_ne.2 (Ne.symm hc.2.2.2)
  refine ⟨by cases op <;> rfl, ?_⟩
  cases op <;> simp [RedirectionOperator.spelling, Lexeme.ofMode, Lexeme.ofCommandText,
    OperatorTable.match?, commandOperators, List.find?, List.isPrefixOf, hless, hmore, hand, hbar]


theorem Character.isWordSpecial_of_isNamePart {c : Char} (h : isNamePart c = true) :
    isWordSpecial c = false := by
  rw [isWordSpecial, Bool.or_eq_false_iff]
  constructor
  · refine Bool.eq_false_iff.2 fun hmem => ?_
    have hnone : ['\'', '"', '<', '>', '{', '}', '[', ']', '(', ')', '`', '$', '|', '&', ';',
        '\\'].any isNamePart = false := by decide
    exact List.any_eq_false.1 hnone c (List.contains_iff_mem.1 hmem) h
  · have hrange := isNamePart_iff.1 h
    simp only [isBlank, Bool.or_eq_false_iff, Bool.and_eq_false_iff, decide_eq_false_iff_not,
      beq_eq_false_iff_ne]
    omega

/-- Letters, digits and underscores are a run of word text. -/
theorem Lexeme.isRun_of_isNamePart {x : List Char}
    (hx : ∀ b ∈ x, Character.isNamePart b = true) : Lexeme.isRun x = true := by
  induction x with
  | nil => rfl
  | cons a x ih =>
      have hpart := hx a List.mem_cons_self
      have ha : a ≠ '\\' := by
        rintro rfl
        cases hpart
      unfold Lexeme.isRun
      split
      · rfl
      · next heq => exact absurd (List.cons.inj heq).1 ha
      · next heq => exact absurd (List.cons.inj heq).1 ha
      · next c cs heq =>
          cases heq
          rw [Character.isWordSpecial_of_isNamePart hpart,
            ih fun e he => hx e (List.mem_cons_of_mem _ he)]
          rfl

/-- A character that ends runs, and that escapes nothing, starts no word text. -/
theorem Lexeme.wordLength_eq_zero {t : List Char} {c : Char}
    (hc : Character.isWordSpecial c = true) (hescape : c ≠ '\\') :
    Lexeme.wordLength (c :: t) = 0 := by
  unfold Lexeme.wordLength
  split
  · rfl
  · rfl
  · next heq => exact absurd (List.cons.inj heq).1 hescape
  · next heq =>
      cases heq
      rw [if_pos hc]

/-- A run of letters, digits and underscores is word text in front of a character that
    ends runs and quotes nothing. -/
theorem lexed_run {x t : List Char} {c : Char} (hne : x ≠ [])
    (hx : ∀ b ∈ x, Character.isNamePart b = true) (hc : Character.isWordSpecial c = true)
    (hnot : c ≠ '\\' ∧ c ≠ '\'') : Lexed .command x .word (c :: t) := by
  rcases List.exists_cons_of_ne_nil hne with ⟨b, y, rfl⟩
  have hother : ∀ {a : Char}, a ∈ b :: y → ∀ e : Char, Character.isNamePart e = false → a ≠ e := by
    rintro a ha e he rfl
    rw [hx _ ha] at he
    cases he
  have hb : ∀ e : Char, Character.isNamePart e = false → b ≠ e := hother List.mem_cons_self
  have hops : b ∉ Lexeme.operatorStarts := by
    have hnone : Lexeme.operatorStarts.any Character.isNamePart = false := by decide
    exact fun hmem => List.any_eq_false.1 hnone b hmem (hx b List.mem_cons_self)
  have hquote : Lexeme.quote? (b :: (y ++ c :: t)) = none := by
    refine Lexeme.quote?_eq_none.2 ⟨hb _ (by decide), hb _ (by decide), fun hhead => ?_⟩
    rcases y with _ | ⟨e, y⟩
    · exact absurd (Option.some.inj hhead) hnot.2
    · exact absurd (Option.some.inj hhead) (hother (by simp) _ (by decide))
  have hsigil : Lexeme.sigil? (b :: (y ++ c :: t)) = none :=
    Lexeme.sigil?_eq_none.2 fun e _ => ⟨fun hor => hor.elim (fun h => absurd h (hb _ (by decide)))
      fun h => absurd h (hb _ (by decide)), fun h => absurd h (hb _ (by decide))⟩
  refine ⟨Lexeme.extrasLength_eq_zero.2 ⟨⟨hb _ (by decide), hb _ (by decide), hb _ (by decide),
    hb _ (by decide)⟩, fun h => absurd h (hb _ (by decide))⟩, Lexeme.ofMode_command_word.2
      ⟨hb _ (by decide), hops, hquote, ?_⟩⟩
  rw [if_neg (hb _ (by decide))]
  exact ⟨hsigil, Lexeme.isRun_of_isNamePart hx, Lexeme.wordLength_eq_zero hc hnot.1⟩


/-- The digits of a descriptor are a word, as an operator touches them. -/
theorem lexed_descriptor (m : Nat) (op : RedirectionOperator) (rest : List Char) :
    Lexed .command (toString m).toList .word (op.spelling.toList ++ rest) := by
  have hhead : ∃ c t, op.spelling.toList = c :: t ∧ Character.isWordSpecial c = true ∧
      c ≠ '\\' ∧ c ≠ '\'' := by
    cases op <;> exact ⟨_, _, rfl, rfl, by decide, by decide⟩
  rcases hhead with ⟨c, t, heq, hc, hnot⟩
  rw [heq]
  refine lexed_run (fun hnil => ?_) (fun c hc => ?_) hc hnot
  · have hvalue := Numeral.digitsValue?_repr m
    rw [hnil] at hvalue
    cases hvalue
  · exact isNamePart_of_isDigit (Numeral.isDigit_of_mem_repr c hc)

section

variable {n : Nat} {ctx : Context} {s : State}

/-- The token behind the one that stands at a state. -/
theorem attains_secondToken {x r x' r' : List Char} {kind kind' : Token.Kind}
    (h : Stands .command ctx s x kind r) (h' : Ahead .command r x' kind' r') :
    Attains secondToken ctx s fun token t => t = s ∧ token.kind = kind' ∧
      token.text = .ofList x' ∧ (token.immediate = true ↔ r = x' ++ r') := by
  refine attains_ahead (attains_seq h.advance fun token t ht => ?_)
  have hstands : Stands .command ctx t x' kind' r' := h'.stands ht.2.1
  refine ⟨t.next .command ctx, t, rfl, rfl, rfl, hstands.next.1, hstands.next.2.1, ?_⟩
  rw [hstands.next.2.2, ht.2.1]

/-- A redirection whose operator stands at a state is read again. -/
theorem attains_redirection {w : Word} (hw : RereadsWord d w) {descriptor : Option Nat}
    {start indent : Nat} {op : RedirectionOperator} {rest : List Char} {span : Span}
    (hroom : Room d n ctx s) (hrest : EndsWord rest)
    (hs : Stands .command ctx s op.spelling.toList (.redirection op) (w.chars indent "" ++ rest)) :
    Attains ((turns n).redirection descriptor start op) ctx s fun r t =>
      r.erase = (Tree.redirection descriptor op w span).erase ∧ t.cursor.rest = rest := by
  refine attains_seq hs.advance fun token t ht => ?_
  rcases hw.startsPiece indent hrest with ⟨x, kind, r, htext, hlexed, hpiece⟩
  have htarget : Stands .command ctx t x kind r := hlexed.ahead.stands (ht.2.1.trans htext)
  refine attains_look (a := t.next .command ctx) rfl ?_
  rw [if_neg (by rw [htarget.next.1, hpiece]; decide)]
  refine attains_seq (hw.reads n ctx t indent rest (hroom.shorter ?_) hrest (.of_eq ht.2.1))
    fun a u ha => attains_pure ⟨?_, ha.2⟩
  · rw [ht.2.1]
    rcases hs.ahead with ⟨k, hwhole, -⟩
    rw [hwhole]
    simp only [List.length_append]
    omega
  · rw [Tree.erase, Tree.erase, ha.1]

end

/-- A redirection is read again, and starts with its operator or with digits. -/
structure RereadsRedirection (d : Option Definition) (r : Redirection) : Prop where
  starts : ∀ indent rest, EndsWord rest → ∃ x kind tail, r.chars indent "" ++ rest = x ++ tail ∧
    Lexed .command x kind tail ∧ (kind.isRedirection = true ∨ kind = .word ∧ x ≠ ['='])
  reads : Rereads d (·.anyRedirection) (r.chars · "") (fun _ => EndsWord) fun a =>
    ∃ b, a = some b ∧ b.erase = r.erase

/-- The operator of a redirection ends where its target starts. -/
theorem RereadsWord.lexed_operator {w : Word} (hw : RereadsWord d w) (op : RedirectionOperator)
    (indent : Nat) {rest : List Char} (hrest : EndsWord rest) :
    Lexed .command op.spelling.toList (.redirection op) (w.chars indent "" ++ rest) := by
  rcases hw.startsPiece indent hrest with ⟨x, kind, r, htext, hlexed, hpiece⟩
  rcases hlexed.head_of_isWordPiece hpiece with ⟨c, y, rfl, hc⟩
  rw [htext]
  refine lexed_redirection op (fun hmem => hc ?_) _
  revert hmem
  simp only [nonWordStarts, List.mem_cons, List.not_mem_nil, or_false]
  rintro (h | h | h | h) <;> simp [h]

theorem Tree.chars_redirection (op : RedirectionOperator) (w : Word) (span : Span) (indent : Nat) :
    (Tree.redirection Option.none op w span).chars indent ""
        = op.spelling.toList ++ w.chars indent "" ∧
      ∀ m : Nat, (Tree.redirection (Option.some m) op w span).chars indent ""
        = (toString m).toList ++ (op.spelling.toList ++ w.chars indent "") := by
  constructor
  · change ("" ++ op.spelling ++ w.write indent "").toList = _
    rw [String.empty_append, String.toList_append]
    rfl
  · intro m
    change (toString m ++ op.spelling ++ w.write indent "").toList = _
    rw [String.toList_append, String.toList_append, List.append_assoc]
    rfl

/-- A redirection with a target that is read again is read again. -/
theorem rereads_redirection {w : Word} (hw : RereadsWord d w) {descriptor : Option Nat}
    (hmax : ∀ n ∈ descriptor, n ≤ maxDescriptor) (op : RedirectionOperator) (span : Span) :
    RereadsRedirection d (.redirection descriptor op w span) := by
  have hchars := Tree.chars_redirection op w span
  cases descriptor with
  | none =>
      refine ⟨fun indent rest hrest =>
        ⟨_, .redirection op, _, ?_, hw.lexed_operator op indent hrest, .inl rfl⟩,
        fun n ctx s indent rest hroom hrest hs => ?_⟩
      · rw [(hchars indent).1, List.append_assoc]
      · dsimp only at hs
        rw [(hchars indent).1] at hs
        have hstands : Stands .command ctx s _ (.redirection op) _ :=
          hs.assoc.stands (hw.lexed_operator op indent hrest) (.inr (.inl rfl))
        refine attains_look (a := s.next .command ctx) rfl ?_
        rw [hstands.next.1]
        exact attains_seq (attains_redirection hw hroom hrest hstands) fun r t hr =>
          attains_pure ⟨⟨r, rfl, hr.1⟩, hr.2⟩
  | some m =>
      refine ⟨fun indent rest hrest => ⟨_, .word, _, ?_,
        lexed_descriptor m op (w.chars indent "" ++ rest), .inr ⟨rfl, fun heq => ?_⟩⟩,
        fun n ctx s indent rest hroom hrest hs => ?_⟩
      · rw [(hchars indent).2, List.append_assoc, List.append_assoc]
      · have hdigit := Numeral.isDigit_of_mem_repr (n := m) '=' (by rw [heq]; decide)
        cases hdigit
      · dsimp only at hs
        rw [(hchars indent).2] at hs
        have hfirst := hs.assoc
        rw [List.append_assoc] at hfirst
        have hstands : Stands .command ctx s _ .word _ :=
          hfirst.stands (lexed_descriptor m op _) (.inr (.inl rfl))
        refine attains_look (a := s.next .command ctx) rfl ?_
        rw [hstands.next.1]
        refine attains_look (a := s.next .command ctx) rfl ?_
        rw [hstands.next.1, hstands.next.2.1, if_neg (fun h => h rfl), String.toList_ofList,
          Numeral.digitsValue?_repr]
        -- The operator touches the digits, so they are a descriptor and no word.
        refine attains_seq (attains_lift
          (attains_secondToken hstands (hw.lexed_operator op indent hrest).ahead)) ?_
        rintro token t ⟨rfl, hkind, -, himmediate⟩
        rw [hkind, himmediate.2 rfl]
        refine attains_onward hstands.advance fun token' u hu hle => ?_
        dsimp only
        rw [if_neg (Nat.not_lt_of_le (hmax m rfl))]
        refine attains_seq (attains_redirection hw (hroom.shorter hle) hrest
          ((hw.lexed_operator op indent hrest).ahead.stands hu.2.1)) fun r v hr =>
            attains_pure ⟨⟨r, rfl, hr.1⟩, hr.2⟩

/-! ## Arguments -/

/-- Where a piece of a word stands or arguments end there is no redirection: what looks
    like a descriptor is touched by no operator. -/
theorem attains_noRedirection {g : Grammar} {ctx : Context} {s : State} {x tail : List Char}
    {kind : Token.Kind} (hs : Stands .command ctx s x kind tail) (hkind : kind.redirection? = none)
    (hword : kind = .word → EndsWord tail ∨ StartsPiece tail) :
    Attains g.anyRedirection ctx s fun r t => r = none ∧ t = s := by
  have hnone : Attains (pure none : Parse (Option Redirection)) ctx s fun r t => r = none ∧ t = s :=
    attains_pure ⟨rfl, rfl⟩
  refine attains_look (a := s.next .command ctx) rfl ?_
  rw [hs.next.1, hkind]
  refine attains_look (a := s.next .command ctx) rfl ?_
  rw [hs.next.1]
  by_cases hbare : kind = .word
  · subst hbare
    rw [if_neg (fun h => h rfl)]
    split
    · rcases hword rfl with hend | ⟨x', kind', r', rfl, hlexed, hpiece⟩
      · rcases hend with ⟨⟨c, hhead, hc⟩, x', kind', r', hahead⟩
        refine attains_seq (attains_lift (attains_secondToken hs hahead)) ?_
        rintro token t ⟨rfl, hkind', -, himmediate⟩
        rw [hkind']
        split
        · next op hop =>
            have himmediate : token.immediate = false := by
              refine Bool.eq_false_iff.2 fun htouches => ?_
              have hlexed := hahead.lexed
              rw [Token.Kind.eq_of_redirection? hop] at hlexed
              have htext := spelling_of_lexed hlexed rfl
              rw [himmediate.1 htouches, htext] at hhead
              cases op <;> cases hhead <;> cases hc
            rw [himmediate]
            exact hnone
        · exact hnone
      · refine attains_seq (attains_lift (attains_secondToken hs hlexed.ahead)) ?_
        rintro token t ⟨rfl, hkind', -⟩
        have hnot : kind'.redirection? = none := by
          cases kind' with
          | redirection => cases hpiece
          | _ => rfl
        rw [hkind', hnot]
        exact hnone
    · exact hnone
  · rw [if_pos hbare]
    exact hnone

/-- An argument is read again. It starts with a redirection or with a piece of a word,
    and with an equals sign by itself only if `equals`. -/
structure RereadsArgument (d : Option Definition) (equals : Prop) (a : Argument) : Prop where
  starts : ∀ indent rest, EndsWord rest → ∃ x kind tail, a.chars indent "" ++ rest = x ++ tail ∧
    Lexed .command x kind tail ∧ (kind.isRedirection = true ∨ kind.isWordPiece = true) ∧
      (kind = .word → x = ['='] → equals)
  reads : Rereads d (·.argument) (a.chars · "") (fun _ => EndsWord) fun r =>
    ∃ b, r = some b ∧ b.erase = a.erase

theorem Tree.chars_toArgument (w : Word) (indent : Nat) :
    w.toArgument.chars indent "" = w.chars indent "" := by
  cases w with
  | word parts span =>
      cases parts with
      | nil => rfl
      | cons part parts =>
          cases parts with
          | cons => rfl
          | nil =>
              cases part with
              | bare run span =>
                  change (partToArgument (bare run span)).chars indent "" = run.toList
                  unfold partToArgument
                  dsimp only
                  split
                  · rfl
                  · split
                    · next htrue => rw [htrue]; rfl
                    · split
                      · next hfalse => rw [hfalse]; rfl
                      · rfl
              | escaped | stringPart | expansionPart => rfl

/-- A token that starts an argument ends none. -/
theorem Token.Kind.endsArguments_eq_false {kind : Token.Kind}
    (h : kind.isRedirection = true ∨ kind.isWordPiece = true) : kind.endsArguments = false := by
  cases kind with
  | redirection | word | opener | quote | leftBracket | rightBracket => rfl
  | _ => rcases h with h | h <;> cases h

/-- A word is read again as an argument. -/
theorem RereadsWordFrom.argument {w : Word} {kind : Token.Kind} {x : List Char} {alone : Prop}
    (h : RereadsWordFrom d kind x alone w) :
    RereadsArgument d (kind = .word ∧ x = ['=']) w.toArgument := by
  refine ⟨fun indent rest hrest => ?_, fun n ctx s indent rest hroom hrest hs => ?_⟩
  · rcases h.starts indent rest hrest with ⟨tail, htext, hlexed, -⟩
    rw [Tree.chars_toArgument]
    exact ⟨x, kind, tail, htext, hlexed, .inr h.piece, fun hword heq => ⟨hword, heq⟩⟩
  · dsimp only at hs hrest
    rw [Tree.chars_toArgument] at hs
    rcases h.starts indent rest hrest with ⟨tail, htext, hlexed, hbehind⟩
    have hstands : Stands .command ctx s x kind tail := by
      rcases hs with ⟨k, hk⟩
      exact (hlexed.ahead.blanks k).stands (by rw [hk, htext])
    have hnone : Attains (turns n).anyRedirection ctx s fun r t => r = none ∧ t = s := by
      refine attains_noRedirection hstands ?_ fun hword => ?_
      · have hpiece := h.piece
        cases kind with
        | redirection => cases hpiece
        | _ => rfl
      · rcases hbehind hword with ⟨-, rfl⟩ | hstarts
        · exact .inl hrest
        · exact .inr hstarts
    refine attains_look hstands.peekKind ?_
    rw [if_neg (Bool.eq_false_iff.1 (Token.Kind.endsArguments_eq_false (.inr h.piece))), h.piece,
      Bool.or_true]
    refine attains_seq hnone ?_
    rintro r t ⟨rfl, rfl⟩
    refine attains_seq (h.reads n ctx t indent rest hroom hrest hs) fun a u ha =>
      attains_pure ⟨⟨_, rfl, Tree.erase_toArgument ha.1⟩, ha.2⟩

/-- A redirection is read again as an argument. -/
theorem RereadsRedirection.argument {r : Redirection} (h : RereadsRedirection d r) {equals : Prop} :
    RereadsArgument d equals (.redirectionArgument r) := by
  refine ⟨fun indent rest hrest => ?_, fun n ctx s indent rest hroom hrest hs => ?_⟩
  · rcases h.starts indent rest hrest with ⟨x, kind, tail, htext, hlexed, hkind⟩
    refine ⟨x, kind, tail, htext, hlexed, hkind.imp_right ?_, fun hword heq => ?_⟩
    · rintro ⟨rfl, -⟩
      rfl
    · rcases hkind with hkind | ⟨-, hne⟩
      · rw [hword] at hkind
        cases hkind
      · exact absurd heq hne
  · rcases h.starts indent rest hrest with ⟨x, kind, tail, htext, hlexed, hkind⟩
    have hstands : Stands .command ctx s x kind tail := by
      rcases hs with ⟨k, hk⟩
      exact (hlexed.ahead.blanks k).stands (hk.trans (congrArg _ htext))
    have hstarts : kind.isRedirection = true ∨ kind.isWordPiece = true := by
      refine hkind.imp_right ?_
      rintro ⟨rfl, -⟩
      rfl
    refine attains_look hstands.peekKind ?_
    rw [if_neg (Bool.eq_false_iff.1 (Token.Kind.endsArguments_eq_false hstarts)),
      Bool.or_eq_true_iff.2 hstarts]
    refine attains_seq (h.reads n ctx s indent rest hroom hrest hs) ?_
    rintro _ t ⟨⟨b, rfl, hb⟩, ht⟩
    refine attains_pure ⟨⟨_, rfl, ?_⟩, ht⟩
    rw [Tree.erase, Tree.erase, hb]


/-! ## Bindings -/

/-- A binding of an environment variable is read again. It starts with the token it
    started with, in which there is an equals sign. -/
structure RereadsBinding (d : Option Definition) (x : List Char) (b : EnvBinding) : Prop where
  equals : '=' ∈ x
  starts : ∀ indent rest, EndsWord rest → ∃ tail, b.chars indent "" ++ rest = x ++ tail ∧
    Lexed .command x .word tail
  reads : Rereads d (·.envBinding) (b.chars · "") (fun _ => EndsWord) fun r =>
    ∃ a, r = some a ∧ a.erase = b.erase

/-- The pieces behind the first of a word are read again, up to the end of the word. -/
theorem RereadsPieces.attains_wordParts {c c' : Cursor} {parts parts' qs : List WordPart}
    {text : Nat → List Char} (h : RereadsPieces d c c' parts parts' text) {n indent : Nat}
    {ctx : Context} {s : State} {rest : List Char} (hroom : Room d n ctx s) (hrest : EndsWord rest)
    (hs : s.cursor.rest = text indent ++ rest) (hqs : SameParts qs parts s.cursor.offset) :
    Attains ((turns n).wordParts qs true) ctx s fun qs' t =>
      qs'.map Tree.erase = parts'.map Tree.erase ∧ t.cursor.rest = rest := by
  rcases (h.reads indent rest (.inr hrest)).2 n ctx s qs hroom hs hqs with
    ⟨qs', u, hruns, hsame, -, hu⟩
  refine attains_seq (hruns.attains_loop
    (Q := fun p v => p = (qs', true) ∧ v.cursor.rest = rest) ?_)
    fun p v hp => attains_pure ⟨by rw [hp.1]; exact hsame.same, hp.2⟩
  refine (attains_wordRound_stop (hu ▸ hrest)).mono ?_
  rintro r v ⟨p, rfl, rfl, rfl⟩
  exact ⟨_, rfl, rfl, hu⟩

/-- The token of a binding and the pieces that touch it are a binding. -/
theorem rereads_envBinding {x name value : List Char} {offset : Nat} {c c' : Cursor}
    {parts : List WordPart} {text : Nat → List Char} {span span' span'' : Span}
    (hsplit : splitBinding? x = some (name, value)) (hlexed : Lexed .command x .word c.rest)
    (h : RereadsPieces d c c' (Tree.pushText [] value offset) parts text) :
    RereadsBinding d x (.envBinding ⟨.ofList name, span⟩
      (if parts.isEmpty then .word .nil span' else .ofParts parts) span'') := by
  have hx := splitBinding?_eq_some hsplit
  have hchars : ∀ indent, (Tree.envBinding ⟨.ofList name, span⟩
      (if parts.isEmpty then .word .nil span' else .ofParts parts : Word) span'').chars indent ""
        = x ++ text indent := by
    intro indent
    have hvalue :
        (if parts.isEmpty then .word .nil span' else .ofParts parts : Word).chars indent ""
        = value ++ text indent := by
      have hprinted := h.printed indent
      rw [Tree.chars_pushText] at hprinted
      cases parts with
      | nil => exact hprinted
      | cons => exact (Tree.chars_ofParts _ indent).trans hprinted
    change (String.ofList name ++ "=" ++ Tree.write indent "" _).toList = _
    rw [String.toList_append, String.toList_append, String.toList_ofList, hx]
    simp only [List.append_assoc, List.cons_append]
    exact congrArg (fun t => name ++ '=' :: t) hvalue
  have hword : ∀ indent rest, EndsWord rest → Lexed .command x .word (text indent ++ rest) :=
    fun indent rest hrest => hlexed.word_of_goesOn (h.reads indent rest (.inr hrest)).1
  refine ⟨by rw [hx]; simp, fun indent rest hrest => ⟨_, ?_, hword indent rest hrest⟩,
    fun n ctx s indent rest hroom hrest hs => ?_⟩
  · rw [hchars, List.append_assoc]
  · dsimp only at hs
    rw [hchars] at hs
    have hstands : Stands .command ctx s x .word _ :=
      hs.assoc.stands (hword indent rest hrest) (.inr (.inl rfl))
    refine attains_look (a := s.next .command ctx) rfl ?_
    rw [hstands.next.1, hstands.next.2.1, if_neg (fun h => h rfl), String.toList_ofList, hsplit]
    refine attains_seq hstands.advance fun token t ht => ?_
    have hle : t.cursor.rest.length ≤ s.cursor.rest.length := by
      have hlength := hs.length_le
      rw [ht.2.1]
      simp only [List.length_append] at hlength ⊢
      omega
    have hoffset : t.cursor.offset = (s.next .command ctx).span.start + byteLength name
        + '='.utf8Size + byteLength value := by
      rw [ht.2.2.stops, hx, byteLength_append, byteLength_cons]
      omega
    refine attains_seq (h.attains_wordParts (hroom.shorter hle) hrest ht.2.1 ⟨?_, ?_⟩)
      fun qs u hqs => attains_pure ⟨⟨_, rfl, ?_⟩, hqs.2⟩
    · exact Tree.erase_pushText value (Tree.touches_nil _) (Tree.touches_nil _) rfl
    · rw [hoffset]
      exact Tree.touches_pushText value (Tree.touches_nil _)
    · rw [Tree.erase, Tree.erase, Grammar.erase_boundWord, Grammar.erase_boundWord, hqs.1]
      rfl


/-! ## Arguments of a source -/

namespace Grammar

section

variable {D : List Diagnostic} {g : Grammar} [g.Stepwise] {ctx : Context} {s : State}
  (hg : g.KeepsExpansions D) (hq : Quiet ctx.limits D)
include hg hq

theorem keeps_redirection {descriptor : Option Nat} {start : Nat} {op : RedirectionOperator}
    (hmax : ∀ n ∈ descriptor, n ≤ maxDescriptor) :
    Ensures D (g.redirection descriptor start op) ctx s fun r _ =>
      RereadsRedirection ctx.definition r := by
  refine ensures_skip fun _ s1 => ensures_peek (ensures_ite (fun _ => ensures_bind ensures_throw)
    fun _ => ?_)
  exact ensures_seq (keeps_word hg hq) fun w s2 hw => ensures_pure.2 fun _ =>
    rereads_redirection ⟨_, _, _, hw⟩ hmax op _

/-- A redirection of a source is read again. Where there is none, nothing is read. -/
theorem keeps_anyRedirection : Ensures D g.anyRedirection ctx s fun r s' =>
    match r with
    | some a => RereadsRedirection ctx.definition a
    | none => s' = s := by
  have hnone : Ensures D (pure none : Parse (Option Redirection)) ctx s fun r s' =>
      match r with
      | some a => RereadsRedirection ctx.definition a
      | none => s' = s := ensures_pure.2 fun _ => rfl
  refine ensures_peek ?_
  split
  · refine ensures_seq (keeps_redirection hg hq ?_) fun r s1 hr => ensures_pure.2 fun _ => hr
    rintro _ ⟨⟩
  · refine ensures_peek (ensures_ite (fun _ => hnone) fun _ => ?_)
    split
    · next descriptor _ =>
        refine ensures_secondToken ?_
        split
        · refine ensures_ite (fun _ => hnone) fun _ => ensures_skip fun _ s1 =>
            ensures_ite (fun _ => ensures_bind ensures_throw) fun hmax => ?_
          refine ensures_seq (keeps_redirection hg hq ?_) fun r s2 hr => ensures_pure.2 fun _ => hr
          intro m hm
          cases hm
          exact Nat.le_of_not_lt hmax
        · exact hnone
    · exact hnone

/-- An argument of a source is read again. Where there is none, arguments end. -/
theorem keeps_argument : Ensures D g.argument ctx s fun r s' =>
    match r with
    | some a => RereadsArgument ctx.definition ((s.next .command ctx).kind = .word ∧
        (s.next .command ctx).text.toList = ['=']) a
    | none => s' = s ∧ (s.next .command ctx).kind.endsArguments = true := by
  refine ensures_peekKind (ensures_ite (fun hends => ensures_pure.2 fun _ => ⟨rfl, hends⟩) fun _ =>
    ensures_ite (fun _ => ensures_unexpected) fun _ => ?_)
  refine Moving.ensures_seq (fun r => by cases r <;> infer_instance) (keeps_anyRedirection hg hq)
    fun r s1 hr => ?_
  cases r with
  | some r => exact ensures_pure.2 fun _ => hr.argument
  | none =>
      have hr : s1 = s := hr
      subst hr
      exact ensures_seq (keeps_word hg hq) fun w s2 hw => ensures_pure.2 fun _ => hw.argument

/-- A binding of a source is read again. Where there is none, the next token is not the
    start of one. -/
theorem keeps_envBinding : Ensures D g.envBinding ctx s fun r s' =>
    match r with
    | some b => (s.next .command ctx).kind = .word ∧
        RereadsBinding ctx.definition (s.next .command ctx).text.toList b
    | none => s' = s ∧ ((s.next .command ctx).kind = .word →
        splitBinding? (s.next .command ctx).text.toList = none) := by
  refine ensures_peek (ensures_ite
    (fun hword => ensures_pure.2 fun _ => ⟨rfl, fun h => absurd h hword⟩)
    fun hword => ?_)
  have hword := Decidable.not_not.1 hword
  split
  · next name value hsplit =>
      refine ensures_next hq fun s1 hoffers => ?_
      rcases hoffers with ⟨front, text, hfront, hread, -⟩
      have hlexed := hread.lexed
      rw [hword] at hlexed
      have htext : (s.next .command ctx).text.toList = text := by
        rw [hread.shown, String.toList_ofList]
      have htouches : Tree.Touches (Tree.pushText [] value ((s.next .command ctx).span.start
          + byteLength name + '='.utf8Size)) s1.cursor.offset := by
        have hx := splitBinding?_eq_some hsplit
        rw [htext] at hx
        have hoffset : s1.cursor.offset = (s.next .command ctx).span.start + byteLength name
            + '='.utf8Size + byteLength value := by
          rw [hread.passes.offset, ← hread.start, hx, byteLength_append, byteLength_cons]
          omega
        rw [hoffset]
        exact Tree.touches_pushText value (Tree.touches_nil _)
      refine ensures_seq (P := fun parts s2 => ∃ tail, RereadsPieces ctx.definition s1.cursor
        s2.cursor _ parts tail) (ensures_seq (keeps_pieces hg hq htouches) fun p s2 hp =>
          ensures_pure.2 fun _ => hp) fun parts s2 hparts => ensures_pure.2 fun _ => ⟨hword, ?_⟩
      rcases hparts with ⟨tail, hpieces⟩
      rw [htext] at hsplit ⊢
      exact rereads_envBinding hsplit hlexed hpieces
  · next hsplit =>
      exact ensures_pure.2 fun _ => ⟨rfl, fun _ => Option.eq_none_iff_forall_ne_some.2
        fun r => hsplit r.1 r.2⟩

end

end Grammar

end Ysh
