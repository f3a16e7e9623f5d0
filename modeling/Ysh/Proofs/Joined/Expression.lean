import Ysh.Proofs.Joined.Word

/-!
# Expressions in Surroundings

An expression is the one production that looks at the next token and then leaves it
where it stands, in a mode in which the text may go on in the next line without it. So
what is known behind an expression is that it rests in front of a token, or of the end
outside of all brackets. Inside of brackets the closing bracket is still to come.

## Theorems

* `Grammar.carries_primary`, `Grammar.carries_postfixed`: The parts of an expression.
* `Grammar.carries_expressionBody`: A whole expression.
-/

namespace Ysh

variable {w : Surroundings} {D : List Diagnostic} {ctx : Context}

@[simp] theorem Tree.infixed_shift (k : Nat) (op : BinaryOperator) (left right : Expression) :
    infixed op (left.shift k) (right.shift k) = (infixed op left right).shift k := by
  simp (disch := decide) [infixed, shift]

namespace Grammar

/-- A pattern that is closed is closed in the surroundings. -/
theorem carries_eggexBody (opening : Span) (s : State) :
    Ysh.Carries w D (eggexBody opening) (eggexBody (opening.shift w.size)) ctx s True
      fun _ _ => True := by
  refine carries_seq (M := fun p _ => p.2 = true) (carries_raw fun hclosed => ⟨trivial, ?_⟩)
    fun p s1 => carries_ite Iff.rfl (fun _ => carries_of_ensures fun hq => ensures_blame hq rfl)
      fun hclosed => Scan.carries_position (carries_pure ?_ fun _ => by simpa using hclosed)
  · have hbody : Eggex.bodyLength (s.cursor.within w).rest = Eggex.bodyLength s.cursor.rest :=
      Eggex.bodyLength_append_of_closed _ _ hclosed
    rcases Eggex.isBody_of_closed s.cursor.rest hclosed with ⟨body, left, hrest, -, hlength⟩
    have hle : body.length + 1 ≤ s.cursor.rest.length := by
      rw [hrest]
      simp
    unfold Cursor.eggexBody at hclosed ⊢
    rw [hbody]
    rcases hpair : Eggex.bodyLength s.cursor.rest with ⟨n, closed⟩
    rw [hpair] at hclosed hlength
    change closed = true at hclosed
    change n = body.length at hlength
    subst hclosed hlength
    dsimp only
    have htake : (s.cursor.within w).rest.take body.length = s.cursor.rest.take body.length :=
      List.take_append_of_le_length (Nat.le_of_succ_le hle)
    rw [htake, if_pos rfl, Cursor.advance_within hle]
    rfl
  · simp [Eggex.shift]

variable {g h : Grammar} [g.Stepwise] [h.Stepwise] (hg : Carries w D g h)
include hg

/-! ## Arguments -/

omit [h.Stepwise] in
theorem carries_namedArgument (s : State) : Ysh.Carries w D g.namedArgument h.namedArgument ctx s
    (s.Faces .expression ctx) fun _ s' => s'.Rests .expression ctx := by
  refine carries_seq (carries_bindingName s) fun name s1 => ?_
  refine .free (carries_seq (carries_expectAs (by simp)) fun _ s2 => ?_)
  refine .free (carries_seq (hg.expression ctx s2) fun value s3 => ?_)
  exact carries_pure (by simp (disch := decide) [Tree.shift]) id

theorem carries_namedArguments (s : State) :
    Ysh.Carries w D g.namedArguments h.namedArguments ctx s (s.Faces .expression ctx)
      fun _ s' => s'.Faces .expression ctx := by
  refine carries_seeKind State.Faces.stays (carries_ite Iff.rfl (fun hkind => ?_) fun _ =>
    carries_pure rfl id)
  refine carries_seq (carries_lift (carries_advance (by simp [hkind]))) fun _ s1 => ?_
  exact .free (carries_commaSeparated
    (fun s => (carries_namedArgument hg s).from fun _ _ => State.Faces.rests) s1)

theorem carries_argumentListBody (opening : Span) (s : State) :
    Ysh.Carries w D (g.argumentListBody opening) (h.argumentListBody (opening.shift w.size)) ctx s
      True fun _ _ => True := by
  refine .free (carries_bracketed (carries_seq (carries_commaSeparated
    (fun s => (hg.expression _ s).from fun _ _ => State.Faces.rests) s) fun positional s1 => ?_))
  refine carries_seq (carries_namedArguments hg s1) fun named s2 => ?_
  refine (carries_seq (carries_expectClosing (by simp)) fun _ s3 => ?_).mono
    (fun hsees => hsees.faces (by simp)) fun _ _ h => h
  exact carries_position (carries_pure (by simp (disch := decide) [Tree.shift]) id)

theorem carries_argumentList (s : State) : Ysh.Carries w D g.argumentList h.argumentList ctx s
    (s.Sees .expression .leftParen ctx) fun _ _ => True :=
  carries_seq (carries_expectAs (by simp)) fun opening s1 =>
    carries_argumentListBody hg opening.span s1

/-! ## Literals -/

theorem carries_listBody (opening : Span) (s : State) :
    Ysh.Carries w D (g.listBody opening) (h.listBody (opening.shift w.size)) ctx s True
      fun _ _ => True := by
  refine .free (carries_bracketed (carries_seq (carries_commaSeparated
    (fun s => (hg.expression _ s).from fun _ _ => State.Faces.rests) s) fun elements s1 => ?_))
  refine (carries_seq (carries_expectClosing (by simp)) fun _ s2 => ?_).mono
    (fun hsees => hsees.faces (by simp)) fun _ _ h => h
  exact carries_position (carries_pure (by simp [Tree.shift]) id)

theorem carries_dictKey (s : State) : Ysh.Carries w D g.dictKey h.dictKey ctx s
    (s.Faces .expression ctx) fun _ _ => True := by
  refine carries_see State.Faces.stays ?_
  dsimp only [Token.kind_shift]
  generalize hkind : (s.next .expression ctx).kind = kind
  cases kind with
  | quote style triple =>
      refine carries_seq (carries_lift (carries_advance (by simp [hkind]))) fun _ s1 => ?_
      refine carries_seq (carries_lift (carries_stringBody hg style triple _ s1)) fun t s2 => ?_
      exact carries_pure rfl id
  | leftBracket =>
      refine carries_seq (carries_lift (carries_advance (by simp [hkind]))) fun _ s1 => ?_
      refine .free (carries_seq (hg.expression ctx s1) fun key s2 => ?_)
      refine (carries_seq (carries_expectClosing (by simp)) fun _ s3 => ?_).mono
        (fun hsees => (hsees.faces (by simp)).rests) fun _ _ h => h
      exact carries_pure rfl fun _ => trivial
  | _ => exact carries_seq (carries_memberName s) fun name s1 => carries_pure rfl id

theorem carries_dictEntry (s : State) : Ysh.Carries w D g.dictEntry h.dictEntry ctx s
    (s.Faces .expression ctx) fun _ s' => s'.Rests .expression ctx := by
  refine carries_see State.Faces.stays (carries_seq (carries_dictKey hg s) fun key s1 => ?_)
  refine .free (carries_seq (carries_expectAs (by simp)) fun _ s2 => ?_)
  refine .free (carries_seq (hg.expression ctx s2) fun value s3 => ?_)
  exact carries_pure (by simp (disch := decide) [Tree.shift]) id

theorem carries_dictBody (opening : Span) (s : State) :
    Ysh.Carries w D (g.dictBody opening) (h.dictBody (opening.shift w.size)) ctx s True
      fun _ _ => True := by
  refine .free (carries_bracketed (carries_seq (carries_commaSeparated
    (fun s => (carries_dictEntry hg s).from fun _ _ => State.Faces.rests) s) fun entries s1 => ?_))
  refine (carries_seq (carries_expectClosing (by simp)) fun _ s2 => ?_).mono
    (fun hsees => hsees.faces (by simp)) fun _ _ h => h
  exact carries_position (carries_pure (by simp [Tree.shift]) id)

theorem carries_wordListRound (opening : Span) (words : Array Word) (s : State) :
    Ysh.Carries w D (g.wordListRound opening words)
      (h.wordListRound (opening.shift w.size) (shift w.size words)) ctx s (s.Faces .command ctx)
      (Round.Knows (fun _ s => s.Faces .command ctx) fun _ _ => True) := by
  refine carries_see State.Faces.stays (carries_ite Iff.rfl (fun hkind => ?_) fun _ =>
    carries_ite Iff.rfl (fun hkind => ?_) fun _ => carries_ite Iff.rfl (fun _ => ?_) fun _ =>
      carries_ite Iff.rfl (fun hpiece => ?_) fun _ => carries_unexpected)
  · refine carries_seq (carries_lift (carries_advance (by simp [hkind]))) fun _ s1 => ?_
    exact carries_pure rfl id
  · refine carries_seq (carries_lift (carries_advance (by simp [hkind]))) fun _ s1 => ?_
    exact carries_pure rfl fun _ => trivial
  · exact carries_of_ensures fun hq => ensures_seq (ensures_lift (ensures_report rfl))
      fun _ _ hnot => absurd hq hnot
  · refine (carries_seq (carries_word hg s) fun word s1 => ?_).mono State.Leads.faces fun _ _ h => h
    exact carries_pure (congrArg Round.again (shift_push w.size words word).symm) State.Faces.rests

theorem carries_wordListBody (opening : Span) (s : State) :
    Ysh.Carries w D (g.wordListBody opening) (h.wordListBody (opening.shift w.size)) ctx s True
      fun _ _ => True := by
  refine .free (carries_seq (carries_loop (shift_empty w.size).symm
    (ParseLoop.wordList opening).progresses (ParseLoop.wordList _).progresses
    fun words s => carries_wordListRound hg opening words s) fun words s1 => ?_)
  exact carries_position (carries_pure (by simp [Tree.shift, shift_toList]) id)

/-! ## Operators -/

theorem carries_primary (s : State) : Ysh.Carries w D g.primary h.primary ctx s
    (s.Faces .expression ctx) fun _ _ => True := by
  refine carries_see State.Faces.stays ?_
  dsimp only [Token.kind_shift, Token.span_shift, Token.text_shift]
  generalize hkind : (s.next .expression ctx).kind = kind
  have hadvance : kind ≠ .endOfInput → Ysh.Carries w D (liftM (advance .expression) : Parse Token)
      (liftM (advance .expression)) ctx s (s.Faces .expression ctx) fun _ _ => True :=
    fun hend => carries_advance (hkind ▸ hend)
  cases kind with
  | number | trueKeyword | falseKeyword | nullKeyword | character =>
      exact carries_seq (hadvance (by simp)) fun _ s1 => carries_pure rfl id
  | quote style triple =>
      refine carries_seq (hadvance (by simp)) fun _ s1 => ?_
      refine carries_seq (carries_lift (carries_stringBody hg style triple _ s1)) fun t s2 => ?_
      exact carries_pure rfl id
  | identifier =>
      refine carries_ite Iff.rfl (fun _ => ?_) fun _ => ?_
      · exact carries_of_ensures fun _ => ensures_bind (ensures_throw (s := s))
      · exact carries_seq (hadvance (by simp)) fun _ s1 => carries_pure rfl id
  | leftParen =>
      exact carries_seq (hadvance (by simp)) fun _ s1 => .free (carries_enclosed hg (by simp) _ s1)
  | leftBracket =>
      refine carries_seq (hadvance (by simp)) fun _ s1 => ?_
      exact carries_seq (carries_listBody hg _ s1) fun t s2 => carries_pure rfl id
  | leftBrace =>
      refine carries_seq (hadvance (by simp)) fun _ s1 => ?_
      exact carries_seq (carries_dictBody hg _ s1) fun t s2 => carries_pure rfl id
  | wordList =>
      refine carries_seq (hadvance (by simp)) fun _ s1 => ?_
      exact carries_seq (carries_wordListBody hg _ s1) fun t s2 => carries_pure rfl id
  | opener o =>
      refine carries_seq (hadvance (by simp)) fun _ s1 => ?_
      exact carries_seq (hg.expansion o _ ctx s1) fun e s2 => carries_pure rfl id
  | operator op =>
      cases op with
      | divide =>
          refine carries_seq (hadvance (by simp)) fun _ s1 => ?_
          exact carries_seq (carries_lift (carries_eggexBody _ s1)) fun e s2 => carries_pure rfl id
      | _ => exact carries_throw
  | _ => exact carries_throw

theorem carries_postfixStep (e : Expression) (s : State) :
    Ysh.Carries w D (g.postfixStep e) (h.postfixStep (e.shift w.size)) ctx s
      (s.Rests .expression ctx) (Round.Knows (fun _ s => s.Rests .expression ctx)
        fun _ s => s.Rests .expression ctx) := by
  refine carries_peekKind id fun kind' htwin => ?_
  rcases htwin with rfl | ⟨hend, rfl⟩
  · generalize hkind : (s.next .expression ctx).kind = kind
    have hadvance : kind ≠ .endOfInput → Ysh.Carries w D (liftM (advance .expression) : Parse Token)
        (liftM (advance .expression)) ctx s (s.Rests .expression ctx) fun _ _ => True :=
      fun hend => (carries_advance (hkind ▸ hend)).mono State.Faces.rests fun _ _ h => h
    have hparen : ∀ s : State, Ysh.Carries w D g.argumentList h.argumentList ctx s
        (s.Rests .expression ctx) fun _ _ => True := fun s =>
      (carries_argumentList hg s).mono (fun hsees => (hsees.faces (by simp)).rests) fun _ _ h => h
    cases kind with
    | dot =>
        refine carries_seq (hadvance (by simp)) fun _ s1 => ?_
        refine .free (carries_seq (carries_memberName s1) fun name s2 => ?_)
        refine .forget (s2.Rests .expression ctx) (carries_peekKind id fun kind' htwin =>
          carries_ite (htwin.eq_iff (by simp) (by simp)) (fun _ => ?_) fun _ => ?_)
        · refine carries_seq (hparen s2) fun arguments s3 => ?_
          exact carries_pure (congrArg Round.again (by simp (disch := decide) [Tree.shift]))
            fun _ => trivial
        · exact carries_pure (congrArg Round.again (by simp (disch := decide) [Tree.shift])) id
    | arrow =>
        refine carries_seq (hadvance (by simp)) fun _ s1 => ?_
        refine .free (carries_seq (carries_memberName s1) fun name s2 => ?_)
        refine .forget (s2.Rests .expression ctx) (carries_peekKind id fun kind' htwin =>
          carries_ite (not_congr (htwin.eq_iff (by simp) (by simp))) (fun _ => carries_unexpected)
            fun _ => carries_seq (hparen s2) fun arguments s3 => ?_)
        exact carries_pure (congrArg Round.again (by simp (disch := decide) [Tree.shift]))
          fun _ => trivial
    | leftBracket =>
        refine carries_seq (hadvance (by simp)) fun opening s1 => ?_
        refine .free (carries_seq (carries_enclosed hg (by simp) opening.span s1) fun i s2 => ?_)
        refine carries_position (carries_pure (congrArg Round.again ?_) fun _ => trivial)
        simp (disch := decide) [Tree.shift]
    | leftParen =>
        dsimp only
        rw [Tree.referenceName?_shift]
        rcases e.referenceName? with _ | name
        · exact carries_pure rfl id
        · refine carries_seq (hparen s) fun arguments s1 => ?_
          exact carries_pure (congrArg Round.again (by simp (disch := decide) [Tree.shift]))
            fun _ => trivial
    | _ => exact carries_pure rfl id
  · rw [hend]
    exact carries_pure rfl id

theorem carries_postfixed (s : State) : Ysh.Carries w D g.postfixed h.postfixed ctx s
    (s.Faces .expression ctx) fun _ s' => s'.Rests .expression ctx :=
  carries_seq ((carries_primary hg s).from fun _ _ _ => trivial) fun _ _ =>
    carries_loop rfl ParseLoop.postfixes.progresses ParseLoop.postfixes.progresses
      fun e s => carries_postfixStep hg e s

theorem carries_unary (s : State) : Ysh.Carries w D g.unary h.unary ctx s
    (s.Faces .expression ctx) fun _ s' => s'.Rests .expression ctx := by
  refine carries_seeKind State.Faces.stays ?_
  rcases hop : (s.next .expression ctx).kind.unary? with _ | op
  · exact carries_postfixed hg s
  · have hkind : (s.next .expression ctx).kind ≠ .endOfInput := by
      intro hend
      rw [hend] at hop
      cases hop
    refine carries_seq (carries_lift (carries_advance hkind)) fun token s1 => ?_
    refine .free (carries_seq (carries_postfixed hg s1) fun operand s2 => ?_)
    exact carries_pure (by simp (disch := decide) [Tree.shift]) id

omit hg [g.Stepwise] in
theorem carries_levelRound (level : List BinaryOperator) {operand operand' : Parse Expression}
    [Ysh.Stepwise operand] (hoperand : ∀ s, Ysh.Carries w D operand operand' ctx s
      (s.Faces .expression ctx) fun _ s' => s'.Rests .expression ctx)
    (left : Expression) (s : State) :
    Ysh.Carries w D (levelRound level operand left) (levelRound level operand' (left.shift w.size))
      ctx s (s.Rests .expression ctx) (Round.Knows (fun _ s => s.Rests .expression ctx)
        fun _ s => s.Rests .expression ctx) := by
  refine carries_peekKind id fun kind' htwin => ?_
  rw [htwin.apply Token.Kind.binary? rfl]
  rcases hop : (s.next .expression ctx).kind.binary? with _ | op
  · exact carries_pure rfl id
  · have hkind : (s.next .expression ctx).kind ≠ .endOfInput := by
      intro hend
      rw [hend] at hop
      cases hop
    refine carries_ite Iff.rfl (fun _ => ?_) fun _ => carries_pure rfl id
    refine (carries_seq (carries_lift (carries_advance hkind)) fun _ s1 => ?_).mono
      State.Faces.rests fun _ _ h => h
    refine .free (carries_seq (hoperand s1) fun right s2 => ?_)
    exact carries_pure (congrArg Round.again (by simp)) id

theorem carries_levels (table : List (List BinaryOperator)) :
    ∀ s, Ysh.Carries w D (g.levels table) (h.levels table) ctx s (s.Faces .expression ctx)
      fun _ s' => s'.Rests .expression ctx := by
  induction table with
  | nil => exact carries_unary hg
  | cons level tighter ih =>
      intro s
      exact carries_seq (ih s) fun left s1 => carries_loop rfl
        (ParseLoop.operators (g := g) level (g.levels tighter)).progresses
        (ParseLoop.operators (g := h) level (h.levels tighter)).progresses
        fun left s => carries_levelRound level ih left s

theorem carries_expressionBody (s : State) : Ysh.Carries w D g.expressionBody h.expressionBody
    ctx s (s.Faces .expression ctx) fun _ s' => s'.Rests .expression ctx :=
  carries_nested ((carries_levels hg precedenceTable s).mono
    (fun hfaces => ⟨hfaces.token, hfaces.clear⟩) fun _ _ hrests => hrests)

end Grammar

end Ysh
