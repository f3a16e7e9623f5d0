import Ysh.Proofs.Lexing.Atom
import Ysh.Proofs.Reread.Basic

/-!
# Reading Printed Expressions

An operand that is an operation stands in parentheses, so a printed expression has at
most one operator outside brackets and precedence has no say in how it is read. What
is left to see is where each part ends: behind an operand stands the blank in front
of an operator or something that closes the expression, and behind an object a dot,
an arrow or a bracket may stand as well. A number is never an object.

Members, indices and calls are read by a loop behind a primary. Printed text is read
as far as a prefix of that loop goes, so an object with something behind it is what
the loop has made of it by then.

## Main definitions

* `EndsExpression`, `EndsOperand`, `EndsObject`: What stands behind.
* `RereadsObject`: A primary and steps read a printed text again.
* `RereadsExpression`: An expression is read again, as a whole and as an object.

## Theorems

* `attains_levels_operand`, `attains_levels_binary`: One operator, or none.
* `RereadsExpression.parenthesized`, `RereadsExpression.operand`,
  `RereadsExpression.receiver`: An expression in each of its places.
-/

namespace Ysh

open Grammar

/-! ## What stands behind an expression -/

/-- Behind the text an expression ends. -/
def EndsExpression (ctx : Context) (rest : List Char) : Prop :=
  rest = [] ∨ (∃ c ∈ [')', ']', '}', ',', ';'], ∃ r, rest = c :: r) ∨
    (ctx.inBrackets = false ∧ ∃ r, rest = '\n' :: r) ∨ ∃ r, rest = ' ' :: '.' :: '.' :: '<' :: r

/-- Behind the text an operand ends. -/
def EndsOperand (ctx : Context) (rest : List Char) : Prop :=
  EndsExpression ctx rest ∨
    ∃ (op : BinaryOperator) (r : List Char), rest = ' ' :: (op.spelling.toList ++ ' ' :: r)

/-- Behind the text an object ends, which may have a member, an index or a method. -/
def EndsObject (ctx : Context) (rest : List Char) : Prop :=
  EndsOperand ctx rest ∨ (∃ c r, rest = '.' :: c :: r ∧ Character.isNameStart c = true) ∨
    (∃ r, rest = '-' :: '>' :: r) ∨ ∃ r, rest = '[' :: r

/-- A token that ends an expression. -/
def Token.Kind.closesExpression : Token.Kind → Bool
  | endOfInput | newline | rightParen | rightBracket | rightBrace | comma | semicolon
  | range => true
  | _ => false

/-- The token of a binary operator. -/
def BinaryOperator.kind : BinaryOperator → Token.Kind
  | bitOr => .pipe
  | bitAnd => .ampersand
  | op => .operator op

@[simp] theorem BinaryOperator.binary?_kind (op : BinaryOperator) : op.kind.binary? = some op := by
  cases op <;> rfl

theorem lexed_binary (op : BinaryOperator) (r : List Char) :
    Lexed .expression op.spelling.toList op.kind (' ' :: r) := by
  cases op <;> exact ⟨rfl, rfl⟩

theorem EndsExpression.stands {ctx : Context} {rest : List Char} (h : EndsExpression ctx rest)
    {s : State} (hs : s.cursor.rest = rest) :
    ∃ x kind r, Stands .expression ctx s x kind r ∧ kind.closesExpression = true := by
  rcases h with rfl | ⟨c, hc, r, rfl⟩ | ⟨hout, r, rfl⟩ | ⟨r, rfl⟩
  · exact ⟨[], .endOfInput, [], State.Shows.stands ⟨0, hs⟩ ⟨rfl, rfl⟩ (.inl (by decide)), rfl⟩
  · simp only [List.mem_cons, List.not_mem_nil, or_false] at hc
    rcases hc with rfl | rfl | rfl | rfl | rfl
    · exact ⟨[')'], .rightParen, r, State.Shows.stands ⟨0, hs⟩ ⟨rfl, rfl⟩ (.inl (by decide)), rfl⟩
    · exact ⟨[']'], .rightBracket, r, State.Shows.stands ⟨0, hs⟩ ⟨rfl, rfl⟩ (.inl (by decide)), rfl⟩
    · exact ⟨['}'], .rightBrace, r, State.Shows.stands ⟨0, hs⟩ ⟨rfl, rfl⟩ (.inl (by decide)), rfl⟩
    · exact ⟨[','], .comma, r, State.Shows.stands ⟨0, hs⟩ ⟨rfl, rfl⟩ (.inl (by decide)), rfl⟩
    · exact ⟨[';'], .semicolon, r, State.Shows.stands ⟨0, hs⟩ ⟨rfl, rfl⟩ (.inl (by decide)), rfl⟩
  · exact ⟨['\n'], .newline, r, State.Shows.stands ⟨0, hs⟩ ⟨rfl, rfl⟩ (.inr (.inr hout)), rfl⟩
  · exact ⟨['.', '.', '<'], .range, r, State.Shows.stands ⟨1, hs⟩ ⟨rfl, rfl⟩ (.inl (by decide)),
      rfl⟩

/-- No step behind a primary, and no further operand, starts with the token. -/
def Token.Kind.endsOperand (kind : Token.Kind) : Bool :=
  kind.closesExpression || kind.binary?.isSome

theorem EndsOperand.next {ctx : Context} {rest : List Char} (h : EndsOperand ctx rest)
    {s : State} (hs : s.cursor.rest = rest) : (s.next .expression ctx).kind.endsOperand = true := by
  rcases h with h | ⟨op, r, rfl⟩
  · rcases h.stands hs with ⟨x, kind, r, hstands, hkind⟩
    rw [hstands.next.1, Token.Kind.endsOperand, hkind]
    rfl
  · have hstands : Stands .expression ctx s op.spelling.toList op.kind (' ' :: r) :=
      State.Shows.stands ⟨1, hs⟩ (lexed_binary op r) (.inl (by cases op <;> decide))
    rw [hstands.next.1, Token.Kind.endsOperand, op.binary?_kind]
    exact Bool.or_true _

theorem lexed_dot {c : Char} (hc : Character.isNameStart c = true) (r : List Char) :
    Lexed .expression ['.'] .dot (c :: r) := by
  have hne : ('.' == c) = false := by
    rw [beq_eq_false_iff_ne]
    rintro rfl
    exact absurd hc (by decide)
  refine ⟨rfl, ?_⟩
  change (expressionOperators.match? ('.' :: c :: r)).getD _ = _
  simp [OperatorTable.match?, expressionOperators, List.find?, List.isPrefixOf, hne]

theorem EndsObject.next {ctx : Context} {rest : List Char} (h : EndsObject ctx rest)
    {s : State} (hs : s.cursor.rest = rest) : (s.next .expression ctx).kind ≠ .leftParen := by
  have hstands : ∀ {x kind r}, Stands .expression ctx s x kind r → kind ≠ .leftParen →
      (s.next .expression ctx).kind ≠ .leftParen := by
    intro x kind r hstands hkind
    rwa [hstands.next.1]
  rcases h with h | ⟨c, r, rfl, hc⟩ | ⟨r, rfl⟩ | ⟨r, rfl⟩
  · intro hkind
    have hends := h.next hs
    rw [hkind] at hends
    cases hends
  · exact hstands (State.Shows.stands ⟨0, hs⟩ (lexed_dot hc r) (.inl (by decide))) (by decide)
  · have harrow : Stands .expression ctx s ['-', '>'] .arrow r :=
      State.Shows.stands ⟨0, hs⟩ ⟨rfl, rfl⟩ (.inl (by decide))
    exact hstands harrow (by decide)
  · have hbracket : Stands .expression ctx s ['['] .leftBracket r :=
      State.Shows.stands ⟨0, hs⟩ ⟨rfl, rfl⟩ (.inl (by decide))
    exact hstands hbracket (by decide)

/-- The characters that stand behind an object. -/
theorem EndsObject.head {ctx : Context} {rest : List Char} (h : EndsObject ctx rest) :
    ∀ c, rest.head? = some c → c ∈ [')', ']', '}', ',', ';', '\n', ' ', '.', '-', '['] := by
  intro c hc
  rcases h with ((rfl | ⟨d, hd, r, rfl⟩ | ⟨-, r, rfl⟩ | ⟨r, rfl⟩) | ⟨op, r, rfl⟩) |
    ⟨d, r, rfl, -⟩ | ⟨r, rfl⟩ | ⟨r, rfl⟩
  · cases hc
  · cases hc
    simp only [List.mem_cons, List.not_mem_nil, or_false] at hd
    rcases hd with rfl | rfl | rfl | rfl | rfl <;> simp
  all_goals
    cases hc
    simp

/-- What stands behind an object is no part of its last atom. -/
theorem EndsObject.atom {ctx : Context} {rest : List Char} (h : EndsObject ctx rest) :
    EndsAtom rest := by
  intro c hc
  have hhead := h.head c hc
  simp only [List.mem_cons, List.not_mem_nil, or_false] at hhead
  rcases hhead with rfl | rfl | rfl | rfl | rfl | rfl | rfl | rfl | rfl | rfl
  all_goals exact ⟨by decide, by decide, by decide⟩

/-- What stands behind an operand is no part of a number. -/
theorem EndsOperand.number {ctx : Context} {rest : List Char} (h : EndsOperand ctx rest) :
    EndsNumber rest := by
  intro c hc
  refine ⟨(EndsObject.atom (.inl h) c hc).1, ?_⟩
  rcases h with (rfl | ⟨d, hd, r, rfl⟩ | ⟨-, r, rfl⟩ | ⟨r, rfl⟩) | ⟨op, r, rfl⟩
  · cases hc
  · cases hc
    simp only [List.mem_cons, List.not_mem_nil, or_false] at hd
    rcases hd with rfl | rfl | rfl | rfl | rfl <;> decide
  all_goals
    cases hc
    decide

/-! ## What expressions start with -/

/-- A token that a primary starts with. -/
def Token.Kind.startsPrimary : Token.Kind → Bool
  | number | trueKeyword | falseKeyword | nullKeyword | quote _ _ | character | identifier
  | leftParen | leftBracket | leftBrace | operator .divide | wordList | opener _ => true
  | _ => false

/-- A token that an expression starts with. -/
def Token.Kind.startsExpression (kind : Token.Kind) : Bool :=
  kind.startsPrimary || kind.unary?.isSome

section

variable {g : Grammar} {ctx : Context} {s s' : State} {e : Expression}

/-- A primary is there only where a token stands that starts one. -/
theorem ensures_startsPrimary {D : List Diagnostic} :
    Ensures D g.primary ctx s fun _ _ => (s.next .expression ctx).kind.startsPrimary = true := by
  refine ensures_peek ?_
  rcases s.next .expression ctx with ⟨kind, text, span, immediate⟩
  cases kind with
  | operator op => cases op <;> first | exact ensures_throw | exact fun _ _ _ _ => rfl
  | _ => first | exact ensures_throw | exact fun _ _ _ _ => rfl

/-- A name is a primary only if it is not reserved. -/
theorem ensures_freePrimary {D : List Diagnostic} : Ensures D g.primary ctx s fun _ _ =>
    (s.next .expression ctx).kind = .identifier →
      isReserved (s.next .expression ctx).text = false := by
  refine ensures_peek ?_
  rcases s.next .expression ctx with ⟨kind, text, span, immediate⟩
  cases kind with
  | identifier =>
      exact ensures_ite (fun _ => ensures_bind (ensures_throw (s := s))) fun hfree =>
        fun _ _ _ _ _ => Bool.eq_false_iff.2 hfree
  | _ => exact fun _ _ _ _ => nofun

/-- What holds of every token that starts a primary and of every unary operator holds of the
    token that an expression starts with. -/
theorem next_of_yields {P : Token → Prop}
    (hunary : ∀ token : Token, token.kind.unary?.isSome = true → P token)
    (hprimary : ∀ D, Ensures D g.primary ctx s fun _ _ => P (s.next .expression ctx))
    {ls : List (List BinaryOperator)} (h : Yields (g.levels ls) ctx s e s') :
    P (s.next .expression ctx) := by
  induction ls generalizing e s' with
  | nil =>
      rcases hnone : (s.next .expression ctx).kind.unary? with _ | op
      · rcases yields_bind.1 h with ⟨kind, s₁, hkind, h⟩
        have hstays : kind.unary? = none ∧ s₁ = s := by
          cases hkind
          exact ⟨hnone, rfl⟩
        rw [hstays.1, hstays.2] at h
        rcases yields_bind.1 h with ⟨e₁, s₂, hread, -⟩
        exact hprimary s₂.diagnostics e₁ s₂ hread (List.prefix_refl _)
      · exact hunary _ (by rw [hnone]; rfl)
  | cons level tighter ih =>
      rcases yields_bind.1 h with ⟨e₁, s₁, htighter, -⟩
      exact ih htighter

/-- An expression is there only where a token stands that starts one. -/
theorem startsExpression_of_yields {ls : List (List BinaryOperator)}
    (h : Yields (g.levels ls) ctx s e s') :
    (s.next .expression ctx).kind.startsExpression = true := by
  refine next_of_yields (P := fun token => token.kind.startsExpression = true)
    (fun token htoken => ?_) (fun D => ensures_startsPrimary.mono fun _ _ hstarts => ?_) h
  · rw [Token.Kind.startsExpression, htoken, Bool.or_true]
  · rw [Token.Kind.startsExpression, hstarts, Bool.true_or]

/-- A name that an expression starts with is not reserved. -/
theorem free_of_yields {ls : List (List BinaryOperator)} (h : Yields (g.levels ls) ctx s e s') :
    (s.next .expression ctx).kind = .identifier →
      isReserved (s.next .expression ctx).text = false := by
  refine next_of_yields (P := fun token => token.kind = .identifier → isReserved token.text = false)
    (fun token htoken hkind => ?_) (fun D => ensures_freePrimary) h
  rw [hkind] at htoken
  cases htoken

theorem Attains.startsExpression {ls : List (List BinaryOperator)} {P : Expression → State → Prop}
    (h : Attains (g.levels ls) ctx s P) :
    (s.next .expression ctx).kind.startsExpression = true := by
  rcases h with ⟨e, s', hread, -⟩
  exact startsExpression_of_yields hread

/-! ## Steps behind a primary -/

/-- No step follows where an operand ends. -/
theorem attains_postfixStep_stop {P : Expression → State → Prop}
    (hends : (s.next .expression ctx).kind.endsOperand = true) (h : P e s) :
    Attains (g.postfixStep e) ctx s fun r s' => ∃ a, r = .stop a ∧ P a s' := by
  refine attains_look (a := (s.next .expression ctx).kind) rfl ?_
  generalize (s.next .expression ctx).kind = kind at hends
  cases kind with
  | operator op => exact attains_pure ⟨e, rfl, h⟩
  | _ => first | exact attains_pure ⟨e, rfl, h⟩ | cases hends

/-- A primary with steps behind it is a whole operand where an operand ends. -/
theorem attains_postfixed {P : Expression → State → Prop}
    (hprimary : Attains g.primary ctx s fun e t =>
      ∃ e' t', Runs g.postfixStep ctx e t e' t' ∧ P e' t')
    (hends : ∀ e t, P e t → (t.next .expression ctx).kind.endsOperand = true) :
    Attains g.postfixed ctx s P := by
  refine attains_seq hprimary fun e t he => ?_
  rcases he with ⟨e', t', hruns, he'⟩
  exact hruns.attains_loop (attains_postfixStep_stop (hends e' t' he') he')

/-! ## Levels of operators -/

/-- A level is done in front of anything but an operator of its own. -/
theorem attains_level_stop {level : List BinaryOperator} {operand : Parse Expression}
    {P : Expression → State → Prop}
    (hnext : ∀ op, (s.next .expression ctx).kind.binary? = some op → op ∉ level) (h : P e s) :
    Attains (levelRound level operand e) ctx s fun r s' => ∃ a, r = .stop a ∧ P a s' := by
  refine attains_look (a := (s.next .expression ctx).kind) rfl ?_
  rcases hbinary : (s.next .expression ctx).kind.binary? with _ | op
  · exact attains_pure ⟨e, rfl, h⟩
  · dsimp only
    rw [if_neg (by rw [List.contains_iff_mem]; exact hnext op hbinary)]
    exact attains_pure ⟨e, rfl, h⟩

/-- An operand in front of none of the operators. -/
theorem attains_levels_operand {P : Expression → State → Prop} {ls : List (List BinaryOperator)}
    (h : Attains g.unary ctx s P)
    (hnext : ∀ e t, P e t → ∀ op, (t.next .expression ctx).kind.binary? = some op →
      op ∉ ls.flatten) : Attains (g.levels ls) ctx s P := by
  induction ls with
  | nil => exact h
  | cons level tighter ih =>
      have hnot : ∀ e t, P e t → ∀ op, (t.next .expression ctx).kind.binary? = some op →
          op ∉ level ∧ op ∉ tighter.flatten := by
        intro e t he op hop
        have hop := hnext e t he op hop
        rwa [List.flatten_cons, List.mem_append, not_or] at hop
      refine attains_seq (ih fun e t he op hop => (hnot e t he op hop).2) fun e t he => ?_
      exact Runs.attains_loop (.refl e t)
        (attains_level_stop (fun op hop => (hnot e t he op hop).1) he)

theorem EndsExpression.binary? {rest : List Char} (h : EndsExpression ctx rest) {t : State}
    (ht : t.cursor.rest = rest) : (t.next .expression ctx).kind.binary? = none := by
  rcases h.stands ht with ⟨x, kind, r, hstands, hkind⟩
  rw [hstands.next.1]
  cases kind with
  | operator op => cases hkind
  | _ => first | rfl | cases hkind

/-- Two operands with an operator between them. The operator stands in one level
    only, so the looser levels take the operation for an operand, and the tighter ones
    see either operand alone. -/
theorem attains_levels_binary {op : BinaryOperator} {ls : List (List BinaryOperator)}
    {L R : Expression → Prop} {y rest : List Char} (hop : op ∈ ls.flatten)
    (honce : ls.flatten.Nodup)
    (hleft : Attains g.unary ctx s fun a t =>
      L a ∧ t.cursor.rest = ' ' :: (op.spelling.toList ++ ' ' :: y))
    (hright : ∀ t : State, t.cursor.rest = ' ' :: y →
      Attains g.unary ctx t fun b t' => R b ∧ t'.cursor.rest = rest)
    (hshorter : rest.length ≤ y.length) (hrest : EndsExpression ctx rest) :
    Attains (g.levels ls) ctx s fun e t =>
      (∃ a b, e = .infixed op a b ∧ L a ∧ R b) ∧ t.cursor.rest = rest := by
  have hnext : ∀ {t : State}, t.cursor.rest = ' ' :: (op.spelling.toList ++ ' ' :: y) →
      Stands .expression ctx t op.spelling.toList op.kind (' ' :: y) := fun ht =>
    State.Shows.stands ⟨1, ht⟩ (lexed_binary op y) (.inl (by cases op <;> decide))
  have hdone : ∀ {t : State} (ops : List BinaryOperator), t.cursor.rest = rest →
      ∀ op, (t.next .expression ctx).kind.binary? = some op → op ∉ ops := by
    intro t ops ht op hsome
    rw [hrest.binary? ht] at hsome
    cases hsome
  induction ls with
  | nil => cases hop
  | cons level tighter ih =>
      rw [List.flatten_cons] at hop honce
      have htwo := List.nodup_append.1 honce
      rcases List.mem_append.1 hop with hhere | htighter
      · -- The operator belongs to this level, so the tighter levels stop in front of it.
        have hnot : op ∉ tighter.flatten := fun h => htwo.2.2 op hhere op h rfl
        have hoperand : Attains (g.levels tighter) ctx s fun a t =>
            L a ∧ t.cursor.rest = ' ' :: (op.spelling.toList ++ ' ' :: y) := by
          refine attains_levels_operand hleft fun a t ha op' hop' => ?_
          rw [(hnext ha.2).next.1, op.binary?_kind] at hop'
          cases hop'
          exact hnot
        refine attains_seq hoperand fun a t ha => ?_
        have hround : Attains (levelRound level (g.levels tighter) a) ctx t fun r u =>
            ∃ b, r = .again (.infixed op a b) ∧ R b ∧ u.cursor.rest = rest := by
          have hstands := hnext ha.2
          refine attains_look hstands.peekKind ?_
          rw [op.binary?_kind]
          dsimp only
          rw [if_pos (by rw [List.contains_iff_mem]; exact hhere)]
          refine attains_seq hstands.advance fun token u hu => ?_
          refine attains_seq (attains_levels_operand (hright u hu.2.1)
            fun b v hv => hdone _ hv.2) fun b v hv => attains_pure ⟨b, rfl, hv⟩
        rcases hround with ⟨r, u, hround, hquiet, b, rfl, hb, hu⟩
        refine Runs.attains_loop (.head hround hquiet ?_ (.refl _ u))
          (attains_level_stop (hdone _ hu) ⟨⟨a, b, rfl, ha.1, hb⟩, hu⟩)
        rw [hu, ha.2]
        simp only [List.length_cons, List.length_append]
        omega
      · -- The operator belongs to a tighter level, and behind it nothing is left for this one.
        have hnot : op ∉ level := fun h => htwo.2.2 op h op htighter rfl
        refine attains_seq (ih htighter htwo.2.1) fun e t he => ?_
        exact Runs.attains_loop (.refl e t) (attains_level_stop (hdone _ he.2) he)

end

/-! ## Expressions in their places -/

/-- A primary and steps behind it read a printed text again. -/
def RereadsObject (d : Option Definition) (text : Nat → List Char)
    (ends : Context → List Char → Prop) (result : Expression → Prop) : Prop :=
  ∀ n ctx s indent rest, Room d n ctx s → ends ctx rest → s.Shows (text indent) rest →
    Attains (turns n).primary ctx s fun e t =>
      ∃ e' t', Runs (turns n).postfixStep ctx e t e' t' ∧ result e' ∧ t'.cursor.rest = rest

/-- What stands behind a primary: nothing may follow a number but what follows an
    operand. -/
def EndsPrimary : (blocked : Bool) → Context → List Char → Prop
  | true => EndsOperand
  | false => EndsObject

/-- An expression is read again, as a whole and, unless it is an operation, as an
    object. -/
structure RereadsExpression (d : Option Definition) (e : Expression) : Prop where
  whole : Rereads d (·.levels precedenceTable) (e.chars · "") EndsExpression (·.erase = e.erase)
  object : e.isOperation = false →
    RereadsObject d (e.chars · "") (EndsPrimary e.blocksPostfix) (·.erase = e.erase)

section

variable {d : Option Definition} {text : Nat → List Char}
  {ends : Context → List Char → Prop} {result : Expression → Prop}

theorem RereadsObject.postfixed (h : RereadsObject d text ends result)
    (hends : ∀ ctx rest, EndsOperand ctx rest → ends ctx rest) :
    Rereads d (·.postfixed) text EndsOperand result := by
  intro n ctx s indent rest hroom hrest hs
  exact attains_postfixed (h n ctx s indent rest hroom (hends ctx rest hrest) hs)
    fun e t he => hrest.next he.2

theorem Attains.startsPrimary {g : Grammar} {ctx : Context} {s : State}
    {P : Expression → State → Prop} (h : Attains g.primary ctx s P) :
    (s.next .expression ctx).kind.startsPrimary = true := by
  rcases h with ⟨e, s', hread, -⟩
  exact ensures_startsPrimary e s' hread (List.prefix_refl _)

/-- What is an object is read without a unary operator in front of it. -/
theorem RereadsObject.unary (h : RereadsObject d text ends result)
    (hends : ∀ ctx rest, EndsOperand ctx rest → ends ctx rest) :
    Rereads d (·.unary) text EndsOperand result := by
  intro n ctx s indent rest hroom hrest hs
  have hstarts := (h n ctx s indent rest hroom (hends ctx rest hrest) hs).startsPrimary
  have hunary : (s.next .expression ctx).kind.unary? = none := by
    generalize (s.next .expression ctx).kind = kind at hstarts
    cases kind with
    | operator op => cases op <;> first | rfl | cases hstarts
    | _ => first | rfl | cases hstarts
  refine attains_look (a := (s.next .expression ctx).kind) rfl ?_
  rw [hunary]
  exact h.postfixed hends n ctx s indent rest hroom hrest hs

theorem EndsOperand.primary {ctx : Context} {rest : List Char} (h : EndsOperand ctx rest)
    (blocked : Bool) : EndsPrimary blocked ctx rest := by
  cases blocked with
  | true => exact h
  | false => exact .inl h

/-- What is an object is an expression as well. -/
theorem RereadsObject.whole (h : RereadsObject d text ends result)
    (hends : ∀ ctx rest, EndsOperand ctx rest → ends ctx rest) :
    Rereads d (·.levels precedenceTable) text EndsExpression result := by
  intro n ctx s indent rest hroom hrest hs
  refine attains_levels_operand (h.unary hends n ctx s indent rest hroom (.inl hrest) hs)
    fun e t he op hop => ?_
  rw [hrest.binary? he.2] at hop
  cases hop

theorem RereadsExpression.of_object {e : Expression}
    (h : RereadsObject d (e.chars · "") (EndsPrimary e.blocksPostfix) (·.erase = e.erase)) :
    RereadsExpression d e where
  whole := h.whole fun _ _ hends => hends.primary _
  object _ := h

/-- A name that a printed expression starts with is not reserved. -/
theorem Rereads.free {n : Nat} {ctx : Context} {s : State} {indent : Nat} {rest : List Char}
    (h : Rereads d (·.levels precedenceTable) text EndsExpression result) (hroom : Room d n ctx s)
    (hrest : EndsExpression ctx rest) (hs : s.Shows (text indent) rest) :
    (s.next .expression ctx).kind = .identifier →
      isReserved (s.next .expression ctx).text = false := by
  rcases h n ctx s indent rest hroom hrest hs with ⟨e, s', hread, -⟩
  exact free_of_yields hread

/-- One turn and one level below, an expression is read by the grammar. -/
theorem Rereads.expression {n : Nat} {ctx : Context} {s : State} {indent : Nat} {rest : List Char}
    (h : Rereads d (·.levels precedenceTable) text EndsExpression result)
    (hroom : RoomBelow d n ctx s) (hrest : EndsExpression ctx rest)
    (hs : s.Shows (text indent) rest) :
    (s.next .expression ctx).kind.startsExpression = true ∧
      Attains (turns n).expression ctx s fun a t => result a ∧ t.cursor.rest = rest := by
  rcases hroom with ⟨n, rfl, hroom⟩
  have hread := h n _ s indent rest hroom hrest hs
  refine ⟨hread.startsExpression, attains_nested (x := (turns n).levels precedenceTable) ?_ hread⟩
  have hlevels := hroom.levels
  dsimp only at hlevels
  omega

end

namespace RereadsExpression

variable {d : Option Definition} {e : Expression} (h : RereadsExpression d e)
include h

theorem expression {n : Nat} {ctx : Context} {s : State} {indent : Nat} {rest : List Char}
    (hroom : RoomBelow d n ctx s) (hrest : EndsExpression ctx rest)
    (hs : s.Shows (e.chars indent "") rest) :
    (s.next .expression ctx).kind.startsExpression = true ∧
      Attains (turns n).expression ctx s fun a t => a.erase = e.erase ∧ t.cursor.rest = rest :=
  h.whole.expression hroom hrest hs

/-- Inside brackets the expression ends in front of the closing one. -/
theorem enclosed {n : Nat} {ctx : Context} {s : State} {indent : Nat} {rest : List Char} {c : Char}
    {closer : Token.Kind} {opening : Span}
    (hroom : ∀ b, ctx.depth < ctx.limits.depth ∧
      RoomBelow d n { ctx with depth := ctx.depth + 1, inBrackets := b } s)
    (hc : (c = ')' ∧ closer = .rightParen) ∨ (c = ']' ∧ closer = .rightBracket))
    (hs : s.Shows (e.chars indent "") (c :: rest)) :
    Attains ((turns n).enclosed closer opening) ctx s fun a t =>
      a.erase = e.erase ∧ t.cursor.rest = rest := by
  have hends : EndsExpression { ctx with depth := ctx.depth + 1, inBrackets := true }
      (c :: rest) := by
    refine .inr (.inl ⟨c, ?_, rest, rfl⟩)
    rcases hc with ⟨rfl, -⟩ | ⟨rfl, -⟩ <;> decide
  have hlexed : Lexed .expression [c] closer rest ∧ closer ≠ .newline := by
    rcases hc with ⟨rfl, rfl⟩ | ⟨rfl, rfl⟩ <;> exact ⟨⟨rfl, rfl⟩, by decide⟩
  refine attains_bracketed (hroom true).1 ?_
  refine attains_seq (h.expression (hroom true).2 hends hs).2 fun a t ha => ?_
  have hstands : Stands .expression { ctx with depth := ctx.depth + 1, inBrackets := true } t [c]
      closer rest := State.Shows.stands (.of_eq ha.2) hlexed.1 (.inl hlexed.2)
  exact attains_seq (hstands.expectClosing opening) fun token t' ht' =>
    attains_pure ⟨ha.1, ht'.2⟩

/-- In parentheses the expression is an object. -/
theorem parenthesized : RereadsObject d (fun indent => '(' :: (e.chars indent "" ++ [')']))
    (fun _ _ => True) (·.erase = e.erase) := by
  intro n ctx s indent rest hroom _ hs
  have hstands : Stands .expression ctx s ['('] .leftParen (e.chars indent "" ++ ')' :: rest) := by
    refine State.Shows.stands (x := ['(']) ?_ ⟨rfl, rfl⟩ (.inl (by decide))
    have hs' : s.Shows (['('] ++ (e.chars indent "" ++ [')'])) rest := hs
    simpa using hs'.assoc
  refine attains_look (a := s.next .expression ctx) rfl ?_
  dsimp only
  rw [hstands.next.1]
  refine attains_seq hstands.advance fun token t ht => ?_
  have hlt : t.cursor.rest.length < s.cursor.rest.length := by
    have hle := hs.length_le
    rw [ht.2.1]
    simp only [List.length_cons, List.length_append, List.length_nil] at hle ⊢
    omega
  refine (h.enclosed (hroom.below hlt).2 (.inl ⟨rfl, rfl⟩) (.of_eq ht.2.1)).mono
    fun a t' ha => ⟨a, t', .refl a t', ha⟩

/-- The text of the expression, in parentheses if they are needed. -/
theorem placed (needed blocked : Bool) (hop : e.isOperation = true → needed = true)
    (hblocked : needed = false → e.blocksPostfix = true → blocked = true) :
    RereadsObject d (fun indent => (Tree.parenthesize needed (e.write indent "")).toList)
      (EndsPrimary blocked) (·.erase = e.erase) := by
  intro n ctx s indent rest hroom hrest hs
  cases needed with
  | true =>
      have htext : (Tree.parenthesize true (e.write indent "")).toList
          = '(' :: (e.chars indent "" ++ [')']) := by
        change ("(" ++ e.write indent "" ++ ")").toList = _
        rw [String.toList_append, String.toList_append]
        rfl
      have hs : s.Shows ((Tree.parenthesize true (e.write indent "")).toList) rest := hs
      rw [htext] at hs
      exact h.parenthesized n ctx s indent rest hroom trivial hs
  | false =>
      refine h.object ?_ n ctx s indent rest hroom ?_ hs
      · exact Bool.eq_false_iff.2 fun hoperation => absurd (hop hoperation) (by decide)
      · cases hblocks : e.blocksPostfix with
        | true =>
            rw [hblocked rfl hblocks] at hrest
            exact hrest
        | false =>
            cases blocked with
            | true => exact .inl hrest
            | false => exact hrest

/-- The expression as an operand. -/
theorem operand : RereadsObject d
    (fun indent => (Tree.parenthesize e.isOperation (e.write indent "")).toList) EndsOperand
    (·.erase = e.erase) :=
  h.placed _ true id fun _ _ => rfl

/-- The expression as what has a member, an index or a method. -/
theorem receiver : RereadsObject d
    (fun indent =>
      (Tree.parenthesize (e.isOperation || e.blocksPostfix) (e.write indent "")).toList)
    EndsObject (·.erase = e.erase) := by
  refine h.placed _ false (fun hop => by rw [hop]; rfl) fun hneeded hblocks => ?_
  rw [hblocks, Bool.or_true] at hneeded
  cases hneeded

end RereadsExpression

end Ysh
