import Ysh.Proofs.Joined.Compound

/-!
# Statements in Surroundings

What comes behind a complete statement ends it, and then everything is known that the
statement may need to have been known: it ends in the text as it ends in the surroundings.
Inside braces or parentheses the closing token is there, so a list of statements is the
same in the surroundings up to that token.

That closes the circle of productions. The grammar of the surroundings may have turned
more often: a grammar that reads nothing has nothing to be right about but a list of
statements that is empty, and in front of its closing token every list is.

## Main definitions

* `State.Ends`: What comes next ends a statement.
* `Grammar.ended`: What is read behind a statement.

## Theorems

* `Grammar.carries_statement`: Statements.
* `Grammar.carries_statementList`: Lists of statements up to a closing token.
* `Grammar.carries_turns`: The grammar does in surroundings what it does in the text, with
  at least as many turns.
-/

namespace Ysh

variable {w : Surroundings} {D : List Diagnostic} {ctx : Context}

theorem Token.Kind.endsStatement_of_closes {kind : Token.Kind}
    (h : [rightBrace, rightParen, endOfInput].contains kind = true) :
    kind.endsStatement = true := by
  rw [endsStatement, Bool.or_eq_true, List.contains_iff_mem]
  exact .inr (List.mem_cons_of_mem _ (List.contains_iff_mem.1 h))

/-- What comes next ends a statement, with nothing wrong in front of it. -/
structure State.Ends (ctx : Context) (s : State) : Prop where
  clear : s.Clear .command ctx
  kind : (s.next .command ctx).kind.endsStatement = true

theorem State.Ends.follows {s : State} (h : s.Ends ctx) : s.Follows ctx := by
  refine ⟨h.clear.rests, fun hword => ?_⟩
  have hkind := h.kind
  rw [hword] at hkind
  cases hkind

namespace Grammar

variable {g h : Grammar} [g.Stepwise] [h.Stepwise] (hg : Carries w D g h)

section

include hg

theorem carries_commandStatement (s : State) :
    Ysh.Carries w D g.commandStatement h.commandStatement ctx s (s.Leads ctx)
      fun _ s' => s'.Follows ctx :=
  carries_map (carries_commandCall hg true s) fun _ => rfl

/-- A statement that begins with a word. -/
theorem carries_wordStatement {s : State} (hword : (s.next .command ctx).kind = .word)
    (hctx : ctx.inBrackets = false) :
    Ysh.Carries w D (g.wordStatement (s.next .command ctx))
      (h.wordStatement ((s.next .command ctx).shift w.size)) ctx s (s.Faces .command ctx)
      fun _ s' => s'.Ends ctx := by
  have hend : (s.next .command ctx).kind ≠ .endOfInput := by simp [hword]
  have hcall : Ysh.Carries w D g.commandStatement h.commandStatement ctx s (s.Leads ctx)
      fun _ s' => s'.Ends ctx :=
    (carries_commandStatement hg s).from fun _ _ hends => hends.follows
  unfold wordStatement
  dsimp only [Token.text_shift, Token.span_shift]
  generalize (s.next .command ctx).text = text
  split
  · exact (carries_variableDeclaration hg hword).from fun _ _ hends =>
      hends.clear.rests_expression hends.kind hctx
  · exact (carries_assignment hg .nearest hword).from fun _ _ hends =>
      hends.clear.rests_expression hends.kind hctx
  · exact (carries_assignment hg .global hword).from fun _ _ hends =>
      hends.clear.rests_expression hends.kind hctx
  · exact (carries_constantDeclaration hg hword).from fun _ _ hends =>
      hends.clear.rests_expression hends.kind hctx
  · exact (carries_funcDefinition hg hword).from fun _ _ _ => trivial
  · exact (carries_procDefinition hg hword).from fun _ _ _ => trivial
  · exact (carries_forLoop hg hword hctx).from fun _ _ _ => trivial
  · exact (carries_whileLoop hg hword).from fun _ _ _ => trivial
  · exact (carries_conditional hg hword).from fun _ _ _ => trivial
  · exact (carries_caseStatement hg hword hctx).from fun _ _ _ => trivial
  · exact carries_throw
  · exact carries_throw
  · exact carries_throw
  · refine carries_read (carries_ite Iff.rfl (fun _ => ?_) fun _ => carries_ite Iff.rfl (fun _ => ?_)
      fun _ => hcall.mono State.Leads.faces fun _ _ h => h)
    · exact (carries_returnStatement hg hword).from fun _ _ hends => hends.clear.rests
    · refine Carries.mono (carries_startsShorthand hend
        (fun hleads : s.Leads ctx => hleads.behind hword _ rfl) fun starts hsecond =>
          carries_ite Iff.rfl (fun hstarts => ?_) fun _ => hcall) State.Leads.faces fun _ _ h => h
      exact (carries_shorthandConstant hg hend (hsecond hstarts)).from fun _ _ hends =>
        hends.clear.rests_expression hends.kind hctx

theorem carries_pipelineElement (s : State) (hctx : ctx.inBrackets = false) :
    Ysh.Carries w D g.pipelineElement h.pipelineElement ctx s (s.Faces .command ctx)
      fun _ s' => s'.Ends ctx := by
  refine carries_see State.Faces.stays (carries_ite Iff.rfl (fun hword => ?_) fun _ => ?_)
  · exact carries_wordStatement hg hword hctx
  · exact (carries_commandStatement hg s).mono State.Leads.faces fun _ _ hends => hends.follows

/-- What is piped into. A pipe ends what is in front of it. -/
theorem carries_pipeRound (left : Statement) (s : State) (hctx : ctx.inBrackets = false) :
    Ysh.Carries w D (g.pipeRound left) (h.pipeRound (left.shift w.size)) ctx s (s.Ends ctx)
      (Round.Knows (fun _ s => s.Ends ctx) fun _ s => s.Ends ctx) := by
  refine carries_peekKind (fun hends => hends.clear.rests) fun kind' htwin => carries_ite ?_
    (fun hpipe => ?_) fun _ => carries_pure rfl id
  · rw [Tree.isPipeable_shift, htwin.eq_iff (by simp) (by simp)]
  · refine (carries_seq (carries_lift (carries_advance (by simp [hpipe.1]))) fun _ s1 => ?_).mono
      (fun hfaces => ⟨hfaces.clear, by rw [hpipe.1]; rfl⟩) fun _ _ h => h
    refine .free (carries_seq (carries_lift (carries_skipNewlines s1)) fun _ s2 => ?_)
    refine (carries_seq (carries_pipelineElement hg s2 hctx) fun right s3 => ?_).mono
      State.Faces.stays fun _ _ h => h
    exact carries_pure (congrArg Round.again (by simp (disch := decide) [Tree.pipe, Tree.shift])) id

theorem carries_statement (s : State) (hctx : ctx.inBrackets = false) :
    Ysh.Carries w D g.statement h.statement ctx s (s.Faces .command ctx)
      fun _ s' => s'.Ends ctx := by
  have hdeeper : { ctx with depth := ctx.depth + 1 }.inBrackets = false := hctx
  refine carries_nested ((carries_seq (carries_pipelineElement hg s hdeeper) fun left s1 =>
    carries_loop (I := fun _ s => s.Ends _) (Q := fun _ s => s.Ends _) rfl
      ParseLoop.pipeline.progresses ParseLoop.pipeline.progresses
      fun left s => carries_pipeRound hg left s hdeeper).mono ?_ ?_)
  · exact fun hfaces => ⟨hfaces.token, hfaces.clear⟩
  · exact fun _ _ hends => ⟨hends.clear, hends.kind⟩

end

/-! ## Terminators -/

/-- What ends a statement. A terminator is consumed, and a closing token or the end of input
    stays where it is. -/
def ended (t : Statement) : Parse Statement := do
  let token ← peek .command
  if token.kind.isTerminator then
    let _ ← advance .command
    return t
  else if [.rightBrace, .rightParen, .endOfInput].contains token.kind then return t
  else throw (.missingTerminator token)

omit [g.Stepwise] in
/-- A terminated statement is a statement and what ends it. -/
theorem terminatedStatement_eq : g.terminatedStatement = g.statement >>= ended :=
  rfl

instance moving_ended (t : Statement) : Moving (ended t) := by
  unfold ended
  infer_instance

/-- A terminator is consumed, whatever is behind it. -/
theorem carries_terminator (t : Statement) {s : State}
    (hkind : (s.next .command ctx).kind.isTerminator = true) :
    Ysh.Carries w D (ended t) (ended (t.shift w.size)) ctx s
      (s.Ends ctx ∧ s.Stays w .command ctx) fun _ _ => True := by
  have hend : (s.next .command ctx).kind ≠ .endOfInput := by
    intro hend
    rw [hend] at hkind
    cases hkind
  refine carries_see And.right (carries_ite Iff.rfl (fun _ => ?_) fun hnot => absurd hkind hnot)
  refine (carries_seq (carries_lift (carries_advance hend)) fun _ s1 => ?_).mono
    (fun hfaces => ⟨⟨hfaces.clear, ?_⟩, hfaces.stays⟩) fun _ _ h => h
  · exact carries_pure rfl fun _ => trivial
  · rw [Token.Kind.endsStatement, hkind]
    rfl

theorem carries_ended (t : Statement) (s : State) : Ysh.Carries w D (ended t)
    (ended (t.shift w.size)) ctx s (s.Ends ctx ∧ s.Stays w .command ctx)
      fun _ s' => s'.Stays w .command ctx := by
  by_cases hkind : (s.next .command ctx).kind.isTerminator = true
  · exact (carries_terminator t hkind).from fun _ _ _ => trivial
  refine carries_see And.right (carries_ite Iff.rfl (fun h => absurd h hkind) fun _ =>
    carries_ite Iff.rfl (fun hcloser => ?_) fun _ => carries_throw)
  refine carries_pure rfl fun hstays => ⟨⟨hstays.clear, ?_⟩, hstays⟩
  exact Token.Kind.endsStatement_of_closes hcloser

section

include hg

theorem carries_terminatedStatement (s : State) (hctx : ctx.inBrackets = false) :
    Ysh.Carries w D g.terminatedStatement h.terminatedStatement ctx s (s.Faces .command ctx)
      fun _ s' => s'.Stays w .command ctx := by
  rw [terminatedStatement_eq, terminatedStatement_eq]
  exact carries_seq ((carries_statement hg s hctx).from fun _ _ => And.left) fun t s1 =>
    carries_ended t s1

/-! ## Lists of statements -/

theorem carries_statementOrError (s : State) (hctx : ctx.inBrackets = false) :
    Ysh.Carries w D g.statementOrError h.statementOrError ctx s (s.Faces .command ctx)
      fun _ s' => s'.Stays w .command ctx :=
  Scan.carries_see State.Faces.stays (Moving.carries_attempt
    (fun r => by cases r <;> infer_instance) (carries_terminatedStatement hg s hctx)
    (fun hq _ _ => ensures_blame hq rfl) fun _ _ => carries_pure rfl id)

theorem carries_listedStatement (closer : Option Token.Kind) (s : State)
    (hctx : ctx.inBrackets = false) :
    Ysh.Carries w D (g.listedStatement closer) (h.listedStatement closer) ctx s
      (s.Stays w .command ctx) fun _ s' => s'.Stays w .command ctx := by
  refine carries_seq (carries_skipSeparators s) fun _ s1 => ?_
  refine Scan.carries_seeKind id (carries_ite Iff.rfl (fun _ => carries_pure rfl id) fun _ =>
    carries_ite Iff.rfl (fun _ => ?_) fun _ => ?_)
  · exact carries_of_ensures fun hq => ensures_bind (ensures_strayCloser hq)
  · refine (carries_seq (carries_statementOrError hg s1 hctx) fun t s2 => ?_).mono
      State.Faces.stays fun _ _ h => h
    exact carries_pure rfl id

theorem carries_statementList (closer : Option Token.Kind) (s : State)
    (hctx : ctx.inBrackets = false) :
    Ysh.Carries w D (g.statementList closer) (h.statementList closer) ctx s
      (s.Stays w .command ctx) fun _ s' => s'.Stays w .command ctx := by
  have hcloser : { ctx with closers := closer.toList ++ ctx.closers }.inBrackets = false := hctx
  have hlist : Ysh.Carries w D (g.statementList closer) (h.statementList closer) ctx s _ _ :=
    carries_collect (ScanLoop.statements closer).progresses (ScanLoop.statements closer).progresses
      fun s => carries_listedStatement hg closer s hcloser
  exact hlist.mono (fun hstays => ⟨hstays.last, hstays.clear⟩)
    fun _ _ hstays => ⟨hstays.last, hstays.clear⟩

end

/-! ## The circle -/

/-- Where no token of the class comes next, there is nothing to skip. -/
theorem yields_skipWhile_stop {mode : Mode} {skips : Token.Kind → Bool} {s : State}
    (hskips : skips .endOfInput = false) (hnext : skips (s.next mode ctx).kind = false) :
    Yields (Scan.skipWhile mode skips) ctx s () s :=
  (ScanLoop.separators (g := turns 0) mode hskips).progresses.yields_stop
    (skipRound_stop (by simp [hnext]))

/-- In front of the token that closes it, a list of statements is empty. -/
theorem yields_statementList_nil {closer : Token.Kind} {s : State}
    (hcloser : closer = .rightBrace ∨ closer = .rightParen)
    (hkind : (s.next .command ctx).kind = closer) :
    Yields (h.statementList (some closer)) ctx s [] s := by
  have hskips : ((s.next .command ctx).kind == Token.Kind.newline
      || (s.next .command ctx).kind == .semicolon) = false := by
    rcases hcloser with rfl | rfl <;> rw [hkind] <;> rfl
  have hitem : Yields (h.listedStatement (some closer))
      { ctx with closers := [closer] ++ ctx.closers } s none s := by
    refine yields_bind.2 ⟨(), s, yields_skipWhile_stop rfl hskips, ?_⟩
    exact Scan.yields_peekKind.2 (yields_then (.inr (congrArg some hkind)) rfl)
  have hlist : Yields (collect (h.listedStatement (some closer)))
      { ctx with closers := [closer] ++ ctx.closers } s [] s :=
    yields_bind.2 ⟨#[], s, (ScanLoop.statements (some closer)).progresses.yields_stop
      (yields_bind.2 ⟨none, s, hitem, rfl⟩), rfl⟩
  exact hlist

/-- One turn more. -/
theorem carries_turn {n m : Nat} (hturns : Carries w D (turns n) (turns m)) :
    Carries w D (turns (n + 1)) (turns (m + 1)) where
  expression _ s := carries_expressionBody hturns s
  statements _ _ s hcloser hctx := (carries_statementList hturns _ s hctx).mono
    (fun _ => trivial) fun _ _ hsees => (hsees.faces (by rcases hcloser with rfl | rfl <;> simp)).stays
  expansion _ _ _ s := carries_expansionBody hturns _ _ s

/-- The grammar that reads nothing is right about a list of statements that is empty. -/
theorem carries_unread {closer : Token.Kind} {s : State} {m : Nat}
    (hcloser : closer = .rightBrace ∨ closer = .rightParen) :
    Ysh.Carries w D (unread.statements (some closer)) ((turns m).statements (some closer)) ctx s
      True fun _ s' => s'.Sees .command closer ctx := by
  intro _ ts s' hts _ hsees
  rcases yields_pure.1 hts with ⟨rfl, rfl⟩
  refine ⟨trivial, ?_⟩
  have hstays : s.Stays w .command ctx :=
    (hsees.faces (by rcases hcloser with rfl | rfl <;> simp)).stays
  cases m with
  | zero => rfl
  | succ m =>
      exact yields_statementList_nil (h := turns m) hcloser (hstays.kind_within.trans hsees.kind)

/-- The grammar does in surroundings what it does in the text, with at least as many turns. -/
theorem carries_turns {n m : Nat} (hle : n ≤ m) : Carries w D (turns n) (turns m) := by
  induction n generalizing m with
  | zero =>
      exact
        { expression := fun _ _ => carries_of_ensures fun _ => ensures_peek ensures_throw
          statements := fun closer ctx s hcloser _ => carries_unread hcloser
          expansion := fun _ _ _ _ => carries_throw }
  | succ n ih =>
      obtain ⟨m, rfl⟩ : ∃ k, m = k + 1 := ⟨m - 1, by omega⟩
      exact carries_turn (ih (Nat.le_of_succ_le_succ hle))

end Grammar

end Ysh
