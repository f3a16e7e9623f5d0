import Ysh.Proofs.Lexing.Quoted
import Ysh.Proofs.Progress.Basic

/-!
# Every Loop Ends

The loops of the grammar, and that each of them consumes. Most are plain: a round goes
on behind a token that it has consumed, and that token was not the end. Three are not.

A piece of a string is no token, so it has to be known that no piece is empty. The
list of statements and the arms of a case go on when an item could not be read, and an
item may fail in front of its first token: a limit is reached, or a pipe stands where
nothing can be piped. Then recovery has to pass that token. It does, because it stops
only in front of a terminator, which it consumes, and of a closing brace or parenthesis
that some list waits for; and no item starts with one of these. A list ends in front of
its own and takes any other as it stands.

## Main definitions

* `Grammar.ScanLoop`, `Grammar.ParseLoop`: The loops of the grammar.

## Theorems

* `Grammar.gains_statementOrError`: A statement that fails is passed over.
* `Grammar.gains_armOrNone`: So is an arm that fails.
* `Grammar.gains_piece`: A piece of a string is not empty.
* `Grammar.ends_statementList`: A list ends in front of what it waits for.
* `loops_progress`: Every loop of the grammar consumes, and so ends.
-/

namespace Ysh

namespace Grammar

variable {g : Grammar} [hg : g.Stepwise] {ctx : Context} {s : State}

/-! ## Statements -/

omit hg in
theorem passed_peek {mode : Mode} {α : Type} {f : Token → Scan α}
    (h : s.Passed (outcome (f (s.next mode ctx)) ctx s).2) :
    s.Passed (outcome (peek mode >>= f) ctx s).2 :=
  h

/-- A statement, or what stands in place of one that fails, takes at least its first
    token, unless a list may end in front of that. -/
theorem gains_statementOrError (hend : (s.next .command ctx).kind ≠ .endOfInput)
    (hclosing : ¬((s.next .command ctx).kind = .rightBrace ∨
      (s.next .command ctx).kind = .rightParen)) :
    Gains g.statementOrError (fun _ => True) ctx s := by
  refine Scan.gains_peek (begins_terminatedStatement.gains_attempt ?_ (fun _ => rfl) hend ?_)
  · intro r
    cases r <;> infer_instance
  · intro e s1 hnext
    exact (passed_recover (g := g) (by rwa [hnext]) (by rwa [hnext])).moves (.refl ctx.limits _)

/-- An item of a list takes something, and be it a closing token that nothing waits for. -/
theorem gains_listedStatement (closer : Option Token.Kind) :
    Gains (g.listedStatement closer) (fun o => o.isSome = true) ctx s := by
  refine gains_seq fun _ s1 => Scan.gains_peekKind (gains_ite (fun _ => gains_pure (by simp))
    fun hends => gains_ite (fun _ => ?_) fun hstray => ?_)
  · -- A closing token is consumed as it stands, whoever waits for it.
    refine gains_bind (fun _ => inferInstance) (gains_bind (fun _ => inferInstance) ?_)
    exact Scan.gains_advance fun h => hends (.inl h)
  · exact gains_bind (fun _ => inferInstance)
      (gains_statementOrError (fun h => hends (.inl h)) hstray)

theorem gains_skipStatementRound (closers : List Token.Kind) (depth : Nat) :
    Gains (g.skipStatementRound closers depth) Round.GoesOn ctx s := by
  refine Scan.gains_peek (gains_ite (fun _ => gains_pure id) fun hstop => ?_)
  refine gains_bind (fun _ => ?_) (Scan.gains_advance fun h => hstop (.inl h))
  split <;> infer_instance

omit hg in
theorem gains_skipRound {mode : Mode} {skips : Token.Kind → Bool} (h : skips .endOfInput = false)
    (u : Unit) : Gains (Scan.skipRound mode skips u) Round.GoesOn ctx s := by
  refine Scan.gains_peekKind (gains_ite (fun hskips => ?_) fun _ => gains_pure id)
  refine gains_bind (fun _ => inferInstance) (Scan.gains_advance fun hend => ?_)
  rw [hend, h] at hskips
  cases hskips

/-! ## Arms -/

theorem begins_casePattern : Begins g.casePattern fun _ => False := by
  refine begins_peek fun token => begins_ite (fun _ => begins_advance fun _ => inferInstance)
    fun _ => begins_ite (fun _ => begins_advance fun _ => inferInstance)
      fun _ => begins_ite (fun _ => ?_) fun _ => begins_unexpected
  exact begins_bind begins_word (fun _ => inferInstance) fun _ h => h.elim

theorem begins_caseArm : Begins g.caseArm fun _ => False :=
  begins_peek fun _ => begins_bind begins_casePattern (fun _ => inferInstance) fun _ h => h.elim

theorem gains_skipArmRound (depth : Nat) :
    Gains (g.skipArmRound depth) Round.GoesOn ctx s := by
  refine Scan.gains_peek ?_
  split
  · exact gains_pure id
  · exact gains_pure id
  · next hkind =>
      exact gains_bind (fun _ => inferInstance) (Scan.gains_advance (by simp [hkind]))
  · next hkind =>
      exact gains_bind (fun _ => inferInstance) (Scan.gains_advance (by simp [hkind]))
  · next hkind =>
      exact gains_bind (fun _ => inferInstance) (Scan.gains_advance (by simp [hkind]))
  · next hend _ _ _ _ => exact gains_bind (fun _ => inferInstance) (Scan.gains_advance hend)

/-- What is left of an arm is passed over, unless it has ended already. -/
theorem passed_skipArm (hend : (s.next .command ctx).kind ≠ .endOfInput)
    (hbrace : (s.next .command ctx).kind ≠ .rightBrace) :
    s.Passed (outcome g.skipArm ctx s).2 := by
  have hloop : Moves ctx.limits (outcome (g.skipArmRound 0) ctx s).2 (outcome g.skipArm ctx s).2 :=
    moves_loop (f := g.skipArmRound) (fun _ => inferInstance) ctx s
  refine (passed_peek ?_).moves hloop
  split
  · next h => exact absurd h hend
  · next h _ => exact absurd h hbrace
  all_goals exact passed_advance (fun _ => inferInstance) ctx s

/-- An arm, or nothing in place of one that fails, takes at least its first token. -/
theorem gains_armOrNone (hend : (s.next .command ctx).kind ≠ .endOfInput)
    (hbrace : (s.next .command ctx).kind ≠ .rightBrace) :
    Gains g.armOrNone (fun _ => True) ctx s := by
  refine begins_caseArm.gains_attempt ?_ (fun _ => rfl) hend ?_
  · intro r
    cases r <;> infer_instance
  · intro e s1 hnext
    exact (passed_skipArm (g := g) (by rwa [hnext]) (by rwa [hnext])).moves (.refl ctx.limits _)

theorem gains_armsRound (arms : Array Arm) :
    Gains (g.armsRound arms) Round.GoesOn ctx s := by
  refine gains_seq fun _ s1 => Scan.gains_peekKind (gains_ite (fun _ => gains_pure id) fun hends => ?_)
  rw [Bool.or_eq_true, decide_eq_true_eq, decide_eq_true_eq, not_or] at hends
  exact gains_bind (fun _ => inferInstance) (gains_armOrNone hends.2 hends.1)

/-! ## Words and strings -/

theorem gains_wordRound (p : List WordPart × Bool) : Gains (g.wordRound p) Round.GoesOn ctx s := by
  rcases p with ⟨parts, continuing⟩
  refine gains_peek (gains_ite (fun _ => gains_pure id) fun hpiece => gains_advance ?_
    fun _ => inferInstance)
  intro hend
  rw [hend] at hpiece
  exact hpiece rfl

omit hg in
/-- A piece of a string is not empty, whatever it is. -/
theorem gains_piece (style : StringStyle) (triple : Bool) (opening : Span) :
    Gains (raw (Cursor.piece style triple opening)) (fun r => ∃ piece, r = .ok piece) ctx s := by
  refine gains_raw ?_
  rintro ⟨piece, hpiece⟩
  unfold Cursor.piece at hpiece ⊢
  by_cases hempty : s.cursor.rest.isEmpty = true
  · rw [if_pos hempty] at hpiece
    cases hpiece
  · rw [if_neg hempty]
    have hne : s.cursor.rest ≠ [] := fun h => hempty (List.isEmpty_iff.2 h)
    exact s.cursor.offset_lt_advance (Quoted.form_within hne).1 hne

theorem gains_stringRound (style : StringStyle) (triple : Bool) (opening : Span)
    (fragments : Array Fragment) :
    Gains (g.stringRound style triple opening fragments) Round.GoesOn ctx s := by
  have hraw : Ysh.Moving (raw (Cursor.piece style triple opening)) :=
    moving_raw (Cursor.piece_after style triple opening)
  refine gains_then (gains_piece style triple opening) (fun r => ?_) fun r s1 hr => ?_
  · rcases r with e | (_ | _ | _ | ⟨opener, token⟩ | _)
    · infer_instance
    · infer_instance
    · infer_instance
    · infer_instance
    · refine Moving.bind (x := attempt (g.expansion opener token)) inferInstance fun r => ?_
      cases r <;> infer_instance
    · infer_instance
  · -- An error is no piece, and the round stops behind its report.
    rcases r with e | piece
    · exact gains_seq fun _ _ => gains_pure id
    · exact absurd ⟨piece, rfl⟩ hr

/-! ## Lists with commas -/

omit hg in
theorem gains_commaRound {α : Type} (ends : Token.Kind → Bool) (item : Parse α) [Ysh.Stepwise item]
    (items : Array α) : Gains (commaRound ends item items) Round.GoesOn ctx s := by
  refine gains_peekKind (gains_ite (fun _ => gains_pure id) fun _ => gains_seq fun a s1 => ?_)
  -- Whatever the item takes, a round that goes on takes the comma behind it.
  refine gains_peekKind (gains_ite (fun hcomma => ?_) fun _ => gains_pure id)
  exact gains_advance (by simp [hcomma]) fun _ => inferInstance

omit hg in
theorem gains_comma : Gains comma (fun found => found = true) ctx s := by
  refine Scan.gains_peekKind (gains_ite (fun hcomma => ?_) fun _ => gains_pure (by simp))
  exact gains_bind (fun _ => inferInstance) (Scan.gains_advance (by simp [hcomma]))

theorem gains_parameterRound (allowsRest : Bool) (a : Array Parameter × Option Parameter) :
    Gains (g.parameterRound allowsRest a) Round.GoesOn ctx s := by
  rcases a with ⟨parameters, rest⟩
  refine gains_peekKind (gains_ite (fun _ => gains_pure id) fun _ => gains_ite (fun _ => ?_)
    fun _ => ?_)
  · exact gains_seq fun _ _ => gains_pure id
  · refine gains_seq fun p s1 => ?_
    refine gains_then (gains_lift gains_comma) (fun _ => inferInstance) fun found s2 hfound => ?_
    exact gains_ite (fun h => absurd h hfound) fun _ => gains_pure id

omit hg in
theorem gains_furtherName : Gains furtherName (fun o => o.isSome = true) ctx s := by
  refine gains_then (gains_lift gains_comma) (fun _ => inferInstance) fun found s1 hfound => ?_
  exact gains_ite (fun h => absurd h hfound) fun _ => gains_pure (by simp)

theorem gains_wordListRound (opening : Span) (words : Array Word) :
    Gains (g.wordListRound opening words) Round.GoesOn ctx s := by
  refine gains_peek (gains_ite (fun _ => gains_seq fun _ _ => gains_pure id) fun _ => ?_)
  refine gains_ite (fun hline => gains_advance (by simp [hline]) fun _ => inferInstance)
    fun _ => ?_
  refine gains_ite (fun _ => gains_seq fun _ _ => gains_pure id) fun hend => ?_
  refine gains_ite (fun _ => ?_) fun _ => gains_unexpected
  exact gains_bind (fun _ => inferInstance) (begins_word.gains (fun _ _ => id) hend)

/-! ## Commands -/

theorem begins_redirection (descriptor : Option Nat) (start : Nat) (op : RedirectionOperator) :
    Begins (g.redirection descriptor start op) fun _ => False :=
  begins_advance fun _ => inferInstance

theorem begins_descriptorRedirection : Begins g.descriptorRedirection fun o => o = none := by
  refine begins_peek fun token => begins_ite (fun _ => begins_pure rfl) fun _ => ?_
  split
  · refine begins_ahead fun next => ?_
    split
    · refine begins_ite (fun _ => begins_pure rfl) fun _ => begins_advance fun _ => inferInstance
    · exact begins_pure rfl
  · exact begins_pure rfl

theorem begins_anyRedirection : Begins g.anyRedirection fun o => o = none := by
  refine begins_peek fun token => ?_
  split
  · exact begins_bind (begins_redirection _ _ _) (fun _ => inferInstance) fun _ h => h.elim
  · exact begins_descriptorRedirection

theorem gains_anyRedirection : Gains g.anyRedirection (fun o => o.isSome = true) ctx s := by
  by_cases hend : (s.next .command ctx).kind = .endOfInput
  · -- The end of input is no redirection, and no number in front of one.
    refine gains_peek ?_
    rw [hend]
    refine gains_peek ?_
    rw [hend]
    exact gains_pure (by simp)
  · exact begins_anyRedirection.gains (by rintro _ h rfl; cases h) hend

theorem gains_argument : Gains g.argument (fun o => o.isSome = true) ctx s := by
  refine gains_peekKind (gains_ite (fun _ => gains_pure (by simp)) fun hargument => ?_)
  have hend : (s.next .command ctx).kind ≠ .endOfInput := by
    intro hend
    rw [hend] at hargument
    exact hargument rfl
  refine gains_ite (fun _ => gains_unexpected) fun _ => ?_
  refine Begins.gains (Q := fun _ => False) ?_ (fun _ _ => id) hend
  refine begins_bind begins_anyRedirection (fun r => ?_) ?_
  · cases r <;> infer_instance
  · rintro _ rfl
    exact begins_bind begins_word (fun _ => inferInstance) fun _ h => h.elim

theorem gains_envBinding : Gains g.envBinding (fun o => o.isSome = true) ctx s := by
  refine gains_peek (gains_ite (fun _ => gains_pure (by simp)) fun hword => ?_)
  split
  · refine gains_advance ?_ fun _ => inferInstance
    simp [Decidable.not_not.1 hword]
  · exact gains_pure (by simp)

theorem gains_nextWord : Gains g.nextWord (fun o => o.isSome = true) ctx s := by
  refine gains_peekKind (gains_ite (fun hpiece => ?_) fun _ => gains_pure (by simp))
  refine gains_bind (fun _ => inferInstance) (begins_word.gains (fun _ _ => id) fun hend => ?_)
  rw [hend] at hpiece
  cases hpiece

theorem gains_furtherGlob : Gains g.furtherGlob (fun o => o.isSome = true) ctx s := by
  refine gains_peekKind (gains_ite (fun hpipe => ?_) fun _ => gains_pure (by simp))
  exact gains_advance (by simp [hpipe]) fun _ => inferInstance

theorem gains_accessor : Gains g.accessor (fun o => o.isSome = true) ctx s := by
  refine gains_peekKind ?_
  split
  · next hdot => exact gains_advance (by simp [hdot]) fun _ => inferInstance
  · next hbracket => exact gains_advance (by simp [hbracket]) fun _ => inferInstance
  · exact gains_pure (by simp)

theorem gains_pipeRound (left : Statement) : Gains (g.pipeRound left) Round.GoesOn ctx s := by
  refine gains_peekKind (gains_ite (fun hpipe => ?_) fun _ => gains_pure id)
  exact gains_advance (by simp [hpipe.1]) fun _ => inferInstance

/-! ## Expressions -/

theorem gains_argumentList : Gains g.argumentList (fun _ => True) ctx s :=
  gains_bind (fun _ => inferInstance) (gains_expectAs (by simp))

theorem gains_postfixStep (e : Expression) : Gains (g.postfixStep e) Round.GoesOn ctx s := by
  refine gains_peekKind ?_
  split
  · next hdot => exact gains_advance (by simp [hdot]) fun _ => inferInstance
  · next harrow => exact gains_advance (by simp [harrow]) fun _ => inferInstance
  · next hbracket => exact gains_advance (by simp [hbracket]) fun _ => inferInstance
  · split
    · exact gains_bind (fun _ => inferInstance) gains_argumentList
    · exact gains_pure id
  · exact gains_pure id

omit hg in
theorem gains_levelRound (level : List BinaryOperator) (operand : Parse Expression)
    [Ysh.Stepwise operand] (left : Expression) :
    Gains (levelRound level operand left) Round.GoesOn ctx s := by
  refine gains_peekKind ?_
  split
  · next op hop =>
      refine gains_ite (fun _ => gains_advance (fun hend => ?_) fun _ => inferInstance)
        fun _ => gains_pure id
      rw [hend] at hop
      cases hop
  · exact gains_pure id

/-! ## Branches -/

omit hg in
theorem gains_branchKeyword (text : String) :
    Gains (branchKeyword text) (fun o => o.isSome = true) ctx s := by
  refine Scan.gains_ahead (gains_ite (fun hcomes => ?_) fun _ => gains_pure (by simp))
  have hcomes : ((skipNewlines ctx s).2.next .command ctx).isWord text = true := hcomes
  have hkind : ((skipNewlines ctx s).2.next .command ctx).kind ≠ .endOfInput := by
    intro hend
    rw [Token.isWord, hend] at hcomes
    cases hcomes
  have hskip : Ysh.Moving skipNewlines := inferInstance
  intro o s' ho _
  -- The keyword stands where skipping the newlines has led, now as it did ahead.
  rcases yields_bind.1 ho with ⟨_, s1, hs1, ho⟩
  have hmoves := hskip.of_yields hs1
  cases hs1
  have hgains : Gains (do return some (← advance .command) : Scan (Option Token))
      (fun _ => True) ctx (skipNewlines ctx s).2 :=
    gains_bind (fun _ => inferInstance) (Scan.gains_advance hkind)
  exact Nat.lt_of_le_of_lt hmoves.offset_le (hgains o s' ho trivial)

theorem gains_elifBranch : Gains g.elifBranch (fun o => o.isSome = true) ctx s := by
  refine gains_then (gains_lift (gains_branchKeyword "elif")) (fun r => ?_) fun r s1 hr => ?_
  · cases r <;> infer_instance
  · cases r with
    | none => exact gains_pure (by simp)
    | some keyword => exact absurd rfl hr

/-! ## The loops -/

/-- A loop of the grammar that always has a result. -/
inductive ScanLoop (g : Grammar) : {σ : Type} → (σ → Scan (Round σ)) → Prop
  | statements (closer : Option Token.Kind) :
      ScanLoop g (collectRound (g.listedStatement closer))
  | recovery (closers : List Token.Kind) : ScanLoop g (g.skipStatementRound closers)
  | arms : ScanLoop g g.armsRound
  | skippedArm : ScanLoop g g.skipArmRound
  | string (style : StringStyle) (triple : Bool) (opening : Span) :
      ScanLoop g (g.stringRound style triple opening)
  | separators (mode : Mode) {skips : Token.Kind → Bool} (h : skips .endOfInput = false) :
      ScanLoop g (Scan.skipRound mode skips)

/-- A loop of the grammar that may fail. -/
inductive ParseLoop (g : Grammar) : {σ : Type} → (σ → Parse (Round σ)) → Prop
  | arguments : ParseLoop g (collectRound g.argument)
  | bindings : ParseLoop g (collectRound g.envBinding)
  | redirections : ParseLoop g (collectRound g.anyRedirection)
  | word : ParseLoop g g.wordRound
  | wordList (opening : Span) : ParseLoop g (g.wordListRound opening)
  /-- Lists, dicts, and the arguments of a call, with names and without. -/
  | items {α : Type} (ends : Token.Kind → Bool) (item : Parse α) [Ysh.Stepwise item] :
      ParseLoop g (commaRound ends item)
  | parameters (allowsRest : Bool) : ParseLoop g (g.parameterRound allowsRest)
  | names : ParseLoop g (collectRound furtherName)
  | words : ParseLoop g (collectRound g.nextWord)
  | branches : ParseLoop g (collectRound g.elifBranch)
  | globs : ParseLoop g (collectRound g.furtherGlob)
  | accessors : ParseLoop g (collectRound g.accessor)
  | pipeline : ParseLoop g g.pipeRound
  | postfixes : ParseLoop g g.postfixStep
  | operators (level : List BinaryOperator) (operand : Parse Expression) [Ysh.Stepwise operand] :
      ParseLoop g (levelRound level operand)

theorem ScanLoop.progresses {σ : Type} {step : σ → Scan (Round σ)} (h : g.ScanLoop step) :
    Progresses step ctx := by
  cases h with
  | statements closer =>
      exact progresses_of_gains fun items s =>
        gains_collectRound items (gains_listedStatement closer)
  | recovery closers => exact progresses_of_gains fun depth s => gains_skipStatementRound closers depth
  | arms => exact progresses_of_gains fun arms s => gains_armsRound arms
  | skippedArm => exact progresses_of_gains fun depth s => gains_skipArmRound depth
  | string style triple opening =>
      exact progresses_of_gains fun fragments s => gains_stringRound style triple opening fragments
  | separators mode hskips => exact progresses_of_gains fun u s => gains_skipRound hskips u

theorem ParseLoop.progresses {σ : Type} {step : σ → Parse (Round σ)} (h : g.ParseLoop step) :
    Progresses step ctx := by
  cases h with
  | arguments => exact progresses_of_gains fun items s => gains_collectRound items gains_argument
  | bindings => exact progresses_of_gains fun items s => gains_collectRound items gains_envBinding
  | redirections =>
      exact progresses_of_gains fun items s => gains_collectRound items gains_anyRedirection
  | word => exact progresses_of_gains fun p s => gains_wordRound p
  | wordList opening => exact progresses_of_gains fun words s => gains_wordListRound opening words
  | items ends item => exact progresses_of_gains fun items s => gains_commaRound ends item items
  | parameters allowsRest => exact progresses_of_gains fun a s => gains_parameterRound allowsRest a
  | names => exact progresses_of_gains fun items s => gains_collectRound items gains_furtherName
  | words => exact progresses_of_gains fun items s => gains_collectRound items gains_nextWord
  | branches => exact progresses_of_gains fun items s => gains_collectRound items gains_elifBranch
  | globs => exact progresses_of_gains fun items s => gains_collectRound items gains_furtherGlob
  | accessors => exact progresses_of_gains fun items s => gains_collectRound items gains_accessor
  | pipeline => exact progresses_of_gains fun left s => gains_pipeRound left
  | postfixes => exact progresses_of_gains fun e s => gains_postfixStep e
  | operators level operand =>
      exact progresses_of_gains fun left s => gains_levelRound level operand left

/-! ## Where a list ends -/

omit hg in
/-- A list gives no further statement where the input ends or where its closing token
    comes next. -/
theorem next_of_listedStatement_none {closer : Option Token.Kind} {s' : State}
    (h : Yields (g.listedStatement closer) ctx s none s') :
    (s'.next .command ctx).kind = .endOfInput ∨ some (s'.next .command ctx).kind = closer := by
  rcases yields_bind.1 h with ⟨u, s1, -, h⟩
  have h : Yields (if (s1.next .command ctx).kind = .endOfInput ∨
      some (s1.next .command ctx).kind = closer then return none
    else if (s1.next .command ctx).kind = .rightBrace ∨
      (s1.next .command ctx).kind = .rightParen then return some (← strayCloser)
    else return some (← g.statementOrError) : Scan (Option Statement)) ctx s1 none s' := h
  by_cases hends : (s1.next .command ctx).kind = .endOfInput ∨
      some (s1.next .command ctx).kind = closer
  · rw [if_pos hends] at h
    rcases yields_pure.1 h with ⟨-, rfl⟩
    exact hends
  · -- In the other cases there is a statement.
    rw [if_neg hends] at h
    split at h
    all_goals
      rcases yields_bind.1 h with ⟨t, s2, -, h⟩
      rcases yields_pure.1 h with ⟨hsome, -⟩
      cases hsome

/-- A list of statements ends at the end of input or in front of its closing token. -/
theorem ends_statementList (closer : Option Token.Kind) (ctx : Context) (s : State) :
    ((outcome (g.statementList closer) ctx s).2.next .command ctx).kind = .endOfInput ∨
      some ((outcome (g.statementList closer) ctx s).2.next .command ctx).kind = closer := by
  have hprogresses : Progresses (collectRound (g.listedStatement closer))
      { ctx with closers := closer.toList ++ ctx.closers } :=
    (ScanLoop.statements closer).progresses
  have hlist : (outcome (g.statementList closer) ctx s).2 =
      (outcome (loop (collectRound (g.listedStatement closer)) #[])
        { ctx with closers := closer.toList ++ ctx.closers } s).2 := rfl
  rw [hlist]
  rcases hprogresses.ends #[] s with ⟨n, -, hruns⟩
  refine hruns.leaves (Q := fun s' => (s'.next .command ctx).kind = .endOfInput ∨
    some (s'.next .command ctx).kind = closer) (fun items items' s1 s' hround => ?_)
    fun items e s1 s' hround => ?_
  · rcases yields_collectRound hround with ⟨t, -, hagain⟩ | ⟨hnone, -⟩
    · cases hagain
    · have hnext := next_of_listedStatement_none hnone
      rwa [State.next_command] at hnext ⊢
  · -- A list of statements does not fail.
    exact (Scan.outcome_ne_error hround).elim

end Grammar

/-- Every loop of the grammar makes progress, in whatever context and state it starts: a
    round that goes on has consumed something, and the loop ends by itself after no more
    of them than there are bytes left. A list of statements that waits for a token ends in
    front of it, or at the end of input. -/
theorem loops_progress (n : Nat) (ctx : Context) :
    (∀ (σ : Type) (step : σ → Scan (Round σ)), (Grammar.turns n).ScanLoop step →
      Progresses step ctx) ∧
    (∀ (σ : Type) (step : σ → Parse (Round σ)), (Grammar.turns n).ParseLoop step →
      Progresses step ctx) ∧
    ∀ (closer : Token.Kind) (s : State),
      let next := (outcome ((Grammar.turns n).statementList (some closer)) ctx s).2.next .command ctx
      next.kind = closer ∨ next.kind = .endOfInput := by
  refine ⟨fun σ step h => h.progresses, fun σ step h => h.progresses, fun closer s => ?_⟩
  rcases Grammar.ends_statementList (g := Grammar.turns n) (some closer) ctx s with hend | hcloser
  · exact .inr hend
  · exact .inl (Option.some.inj hcloser)

end Ysh
