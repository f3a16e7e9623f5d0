import Ysh.Proofs.Layout.Landing

/-!
# What Statements Begin With

Every statement begins with the next token of a command. If it fails without having
consumed anything, then nothing of it has been consumed, and whatever it has consumed
starts with that token. The node that stands for a statement that cannot be read
starts there as well, so it must be known that its reader, and the recovery behind
it, do not stop in front of that token.

## Main definitions

* `State.Passed`: A state lies behind the next token of another.
* `Begins`: A reader stays where it is, or passes the next token of a command.

## Theorems

* `begins_bind`: A sequence begins as its first reader does.
* `Grammar.begins_terminatedStatement`: A statement begins with its first token.
* `Grammar.passed_recover`: Recovery passes the token of a statement.
-/

namespace Ysh

/-- Where the token ends that a command at the place starts with. -/
def Cursor.commandStop (c : Cursor) : Nat :=
  (c.lookahead .command false).token.span.stop

/-- The state lies behind the next token of the other state. -/
def State.Passed (s s' : State) : Prop :=
  s.cursor.commandStop ≤ s'.cursor.offset

theorem State.next_command (ctx : Context) (s : State) :
    s.next .command ctx = (s.cursor.lookahead .command false).token :=
  rfl

/-- A token ends where the place behind it is. -/
theorem Cursor.stop_lookaheadFrom (mode : Mode) (overLines : Bool) (clock : List Char) :
    ∀ c : Cursor, (lookaheadFrom mode overLines clock c).token.span.stop =
      (lookaheadFrom mode overLines clock c).after.offset := by
  have hnext : ∀ {c : Cursor} {token : Token} {after : Cursor},
      c.nextToken mode = (.ok token, after) → token.span.stop = after.offset := by
    intro c token after h
    unfold Cursor.nextToken at h
    rcases Prod.mk.inj h with ⟨hresult, rfl⟩
    split at hresult
    · cases hresult
      rfl
    · cases hresult
  induction clock with
  | nil =>
      intro c
      rw [lookaheadFrom]
      rcases h : c.nextToken mode with ⟨error | token, after⟩
      · rfl
      · exact hnext h
  | cons x clock ih =>
      intro c
      rw [lookaheadFrom]
      rcases h : c.nextToken mode with ⟨error | token, after⟩
      · exact ih after
      · dsimp only
        split
        · exact ih after
        · exact hnext h

section

variable {m : Type → Type} [Monad m] [MonadStateOf State m] [Reads m] {α β σ : Type}

/-- However it ends, the reader stays where it is or passes the next token of a
    command. A result that it has without having consumed anything has the property. -/
def Begins (x : m α) (P : α → Prop) : Prop :=
  ∀ ctx s, match outcome x ctx s with
    | (.ok a, s') => s.Passed s' ∨ (s'.cursor = s.cursor ∧ P a)
    | (.error _, s') => s.Passed s' ∨ s'.cursor = s.cursor

variable {P P' : α → Prop}

theorem Begins.mono {x : m α} (h : Begins x P) (hP : ∀ a, P a → P' a) : Begins x P' := by
  intro ctx s
  have h := h ctx s
  rcases houtcome : outcome x ctx s with ⟨e | a, s'⟩
  · rwa [houtcome] at h
  · rw [houtcome] at h
    exact h.imp_right fun h => ⟨h.1, hP a h.2⟩

theorem begins_pure {a : α} (h : P a) : Begins (pure a : m α) P := by
  intro ctx s
  rw [Reads.outcome_pure]
  exact .inr ⟨rfl, h⟩

theorem State.Passed.moves {s s1 s' : State} {limits : Limits} (h : s.Passed s1)
    (hm : Moves limits s1 s') : s.Passed s' :=
  Nat.le_trans h hm.offset_le

/-- A sequence begins as its first reader does. Its second reader matters only where
    the first has consumed nothing. -/
theorem begins_bind {x : m α} {f : α → m β} {Q : β → Prop} (hx : Begins x P)
    (hm : ∀ a, Moving (f a)) (hf : ∀ a, P a → Begins (f a) Q) : Begins (x >>= f) Q := by
  intro ctx s
  have hx := hx ctx s
  rw [Reads.outcome_bind]
  rcases houtcome : outcome x ctx s with ⟨e | a, s1⟩
  · rwa [houtcome] at hx
  · rw [houtcome] at hx
    have hmoves := (hm a).moves ctx s1
    rcases hx with hpassed | ⟨hcursor, ha⟩
    · have hpassed := hpassed.moves hmoves
      change match outcome (f a) ctx s1 with | (.ok b, s') => _ | (.error _, s') => _
      rcases houtcome' : outcome (f a) ctx s1 with ⟨e | b, s'⟩
      · rw [houtcome'] at hpassed
        exact .inl hpassed
      · rw [houtcome'] at hpassed
        exact .inl hpassed
    · have hf := hf a ha ctx s1
      unfold State.Passed at hf ⊢
      rwa [hcursor] at hf

theorem begins_ite {c : Prop} [Decidable c] {x y : m α} (hx : c → Begins x P)
    (hy : ¬ c → Begins y P) : Begins (if c then x else y) P := by
  by_cases h : c
  · rw [if_pos h]
    exact hx h
  · rw [if_neg h]
    exact hy h

/-- A loop whose rounds begin with the next token, or leave the invariant. -/
theorem begins_loop {step : σ → m (Round σ)} {I : σ → Prop} {a : σ} (hm : ∀ a, Moving (step a))
    (ha : I a) (h : ∀ a, I a → Begins (step a) fun r => I r.value) : Begins (loop step a) I := by
  have hrounds : ∀ clock : List Char, ∀ a, I a → Begins (rounds step clock a) I := by
    intro clock
    induction clock with
    | nil =>
        intro a ha
        refine begins_bind (h a ha) (fun r => ?_) fun r hr => ?_
        · cases r <;> exact moving_pure _
        · cases r <;> exact begins_pure hr
    | cons c clock ih =>
        intro a ha
        refine begins_bind (h a ha) (fun r => ?_) fun r hr => ?_
        · cases r with
          | stop b => exact moving_pure _
          | again b => exact moving_rounds hm clock b
        · cases r with
          | stop b => exact begins_pure hr
          | again b => exact ih b hr
  refine begins_bind (P := fun _ => True) (fun ctx s => ?_)
    (fun s => moving_rounds hm s.cursor.rest a) fun s _ => hrounds s.cursor.rest a ha
  rw [Reads.outcome_get]
  exact .inr ⟨rfl, trivial⟩

theorem begins_collect {item : m (Option α)} (hm : Moving item) (h : Begins item fun _ => True) :
    Begins (collect item) fun _ => True := by
  refine begins_bind (P := fun _ => True) (begins_loop (I := fun _ => True)
    (fun _ => moving_collectRound) trivial fun as _ => ?_) (fun _ => moving_pure _)
    fun as _ => begins_pure trivial
  refine begins_bind h (fun r => ?_) fun r _ => ?_
  · cases r <;> exact moving_pure _
  · cases r <;> exact begins_pure trivial

/-- The first round of a loop is not undone by the others. -/
theorem moves_loop {f : σ → m (Round σ)} {a : σ} (hm : ∀ a, Moving (f a)) (ctx : Context)
    (s : State) : Moves ctx.limits (outcome (f a) ctx s).2 (outcome (loop f a) ctx s).2 := by
  have hrounds : ∀ clock : List Char, Moves ctx.limits (outcome (f a) ctx s).2
      (outcome (rounds f clock a) ctx s).2 := by
    intro clock
    rcases clock with _ | ⟨c, clock⟩
    all_goals
      rw [rounds, Reads.outcome_bind]
      rcases houtcome : outcome (f a) ctx s with ⟨e | r, s1⟩
      · exact .refl _ _
      · rcases r with b | b
        all_goals
          dsimp only
          first
            | rw [Reads.outcome_pure]; exact .refl _ _
            | exact (moving_rounds hm clock b).moves ctx s1
  unfold loop
  rw [Reads.outcome_bind, Reads.outcome_get]
  exact hrounds s.cursor.rest

end

/-! ## Looking and consuming -/

section

variable {α : Type} {P : α → Prop}

theorem begins_advance {f : Token → Parse α} (hm : ∀ token, Moving (f token)) :
    Begins (liftM (advance .command) >>= f) P := by
  refine begins_bind (P := fun _ => False) (fun ctx s => .inl ?_) hm fun _ h => h.elim
  exact Nat.le_of_eq (Cursor.stop_lookaheadFrom .command false s.cursor.rest s.cursor)

theorem Scan.begins_advance {f : Token → Scan α} (hm : ∀ token, Moving (f token)) :
    Begins (advance .command >>= f) P := by
  refine begins_bind (P := fun _ => False) (fun ctx s => .inl ?_) hm fun _ h => h.elim
  exact Nat.le_of_eq (Cursor.stop_lookaheadFrom .command false s.cursor.rest s.cursor)

theorem begins_throw {e : SyntaxError} : Begins (throw e : Parse α) P :=
  fun _ _ => .inr rfl

theorem begins_lift {x : Scan α} (h : Begins x P) : Begins (liftM x : Parse α) P :=
  h

theorem begins_attempt {x : Parse α} (h : Begins x P) : Begins (attempt x) fun _ => True := by
  intro ctx s
  have h := h ctx s
  have hrun : outcome x ctx s = x.run ctx s := rfl
  change s.Passed (x.run ctx s).2 ∨ ((x.run ctx s).2.cursor = s.cursor ∧ True)
  rw [← hrun]
  rcases houtcome : outcome x ctx s with ⟨e | a, s'⟩
  all_goals
    rw [houtcome] at h
    dsimp only at h ⊢
  · exact h.imp_right fun h => ⟨h, trivial⟩
  · exact h.imp_right fun h => ⟨h.1, trivial⟩

theorem Scan.begins_peek {mode : Mode} {f : Token → Scan α} (h : ∀ token, Begins (f token) P) :
    Begins (peek mode >>= f) P :=
  fun ctx s => h _ ctx s

theorem begins_peek {mode : Mode} {f : Token → Parse α} (h : ∀ token, Begins (f token) P) :
    Begins (liftM (peek mode) >>= f) P :=
  fun ctx s => h _ ctx s

theorem begins_peekKind {mode : Mode} {f : Token.Kind → Parse α} (h : ∀ kind, Begins (f kind) P) :
    Begins (liftM (peekKind mode) >>= f) P :=
  fun ctx s => h _ ctx s

theorem begins_read {f : Context → Parse α} (h : ∀ ctx, Begins (f ctx) P) :
    Begins (read >>= f) P :=
  fun ctx s => h ctx ctx s

theorem begins_position {f : Nat → Parse α} (h : ∀ n, Begins (f n) P) :
    Begins (liftM position >>= f) P :=
  fun ctx s => h _ ctx s

theorem begins_ahead {β : Type} {x : Scan β} {f : β → Parse α} (h : ∀ b, Begins (f b) P) :
    Begins (liftM (ahead x) >>= f) P :=
  fun ctx s => h _ ctx s

theorem begins_unexpected {mode : Mode} {expected : Expectation} :
    Begins (unexpected mode expected : Parse α) P :=
  begins_peek fun _ => begins_throw

theorem begins_nested {x : Parse α} (h : Begins x P) : Begins (nested x) P := by
  refine begins_read fun ctx => begins_ite (fun _ => begins_position fun _ => begins_throw)
    fun _ ctx' s => ?_
  exact h { ctx' with depth := ctx'.depth + 1 } s

end

theorem passed_advance {f : Token → Scan α} (hm : ∀ token, Moving (f token)) (ctx : Context)
    (s : State) : s.Passed (outcome (advance .command >>= f) ctx s).2 := by
  have h := Scan.begins_advance (P := fun _ => False) hm ctx s
  rcases houtcome : outcome (advance .command >>= f) ctx s with ⟨e | a, s'⟩
  · cases houtcome
  · rw [houtcome] at h
    exact h.resolve_right fun h => h.2

theorem passed_else {c : Prop} [Decidable c] (hc : ¬ c) {x y : Scan α} {ctx : Context} {s : State}
    (h : s.Passed (outcome y ctx s).2) : s.Passed (outcome (if c then x else y) ctx s).2 := by
  rwa [if_neg hc]

/-! ## Statements -/

namespace Grammar

variable {g : Grammar} [hg : g.Stepwise]

theorem begins_wordParts : Begins (g.wordParts [] false) fun parts => parts = [] := by
  refine begins_bind (begins_loop (I := fun p : List WordPart × Bool => p.1 = [])
    (fun _ => inferInstance) rfl ?_) (fun _ => inferInstance) fun p hp => begins_pure hp
  rintro ⟨parts, continuing⟩ hparts
  refine begins_peek fun token => begins_ite (fun _ => begins_pure hparts) fun _ => ?_
  exact begins_advance fun _ => inferInstance

theorem begins_word : Begins g.word fun _ => False := by
  refine begins_bind begins_wordParts (fun _ => inferInstance) fun parts hparts => ?_
  subst hparts
  exact begins_unexpected

theorem begins_commandName : Begins g.commandName fun _ => False :=
  begins_bind begins_word (fun _ => by split <;> infer_instance) fun _ h => h.elim

theorem begins_envBinding : Begins g.envBinding fun _ => True := by
  refine begins_peek fun token => begins_ite (fun _ => begins_pure trivial) fun _ => ?_
  split
  · exact begins_advance fun _ => inferInstance
  · exact begins_pure trivial

theorem begins_envBindings (start : Nat) : Begins (g.envBindings start) fun _ => True := by
  refine begins_bind (begins_collect inferInstance begins_envBinding) (fun _ => inferInstance)
    fun bindings _ => begins_peekKind fun kind => ?_
  exact begins_ite (fun _ => begins_position fun _ => begins_throw) fun _ => begins_pure trivial

omit hg in
theorem begins_negation : Begins negation fun _ => True := by
  refine begins_bind (P := fun _ => True) (fun _ _ => .inr ⟨rfl, trivial⟩) (fun _ => inferInstance)
    fun found _ => begins_ite (fun _ => ?_) fun _ => begins_pure trivial
  exact Scan.begins_advance fun _ => inferInstance

theorem begins_commandCall (allowsBlock : Bool) :
    Begins (g.commandCall allowsBlock) fun _ => False := by
  refine begins_peek fun token => ?_
  refine begins_bind (begins_lift begins_negation) (fun _ => inferInstance)
    fun _ _ => ?_
  refine begins_bind (begins_envBindings _) (fun _ => inferInstance) fun _ _ => ?_
  exact begins_bind begins_commandName (fun _ => inferInstance) fun _ h => h.elim

theorem begins_commandStatement : Begins g.commandStatement fun _ => False := by
  unfold commandStatement
  rw [map_eq_pure_bind]
  exact begins_bind (begins_commandCall true) (fun _ => inferInstance) fun _ h => h.elim

theorem begins_wordStatement (token : Token) : Begins (g.wordStatement token) fun _ => False := by
  unfold wordStatement
  split
  · exact begins_advance fun _ => inferInstance
  · exact begins_advance fun _ => inferInstance
  · exact begins_advance fun _ => inferInstance
  · exact begins_advance fun _ => inferInstance
  · exact begins_advance fun _ => inferInstance
  · exact begins_advance fun _ => inferInstance
  · exact begins_advance fun _ => inferInstance
  · exact begins_advance fun _ => inferInstance
  · exact begins_advance fun _ => inferInstance
  · exact begins_advance fun _ => inferInstance
  · exact begins_throw
  · exact begins_throw
  · exact begins_throw
  · refine begins_read fun ctx => begins_ite (fun _ => begins_advance fun _ => inferInstance)
      fun _ => begins_ite (fun _ => ?_) fun _ => begins_commandStatement
    refine begins_bind (P := fun _ => True) (x := (liftM startsShorthand : Parse Bool))
      (fun _ _ => .inr ⟨rfl, trivial⟩) (fun _ => inferInstance) fun found _ => ?_
    exact begins_ite (fun _ => begins_advance fun _ => inferInstance) fun _ => begins_commandStatement

theorem begins_pipelineElement : Begins g.pipelineElement fun _ => False :=
  begins_peek fun token => begins_ite (fun _ => begins_wordStatement token)
    fun _ => begins_commandStatement

theorem begins_statement : Begins g.statement fun _ => False :=
  begins_nested (begins_bind begins_pipelineElement (fun _ => inferInstance) fun _ h => h.elim)

/-- A statement begins with its first token. -/
theorem begins_terminatedStatement : Begins g.terminatedStatement fun _ => False :=
  begins_bind begins_statement (fun _ => inferInstance) fun _ h => h.elim

/-! ## Recovery -/

theorem begins_skipStatement : Begins g.skipStatement fun _ => True := by
  intro ctx s
  have hloop : Begins (loop (g.skipStatementRound ctx.closers) 0) fun _ => True := by
    refine begins_loop (I := fun _ => True) (fun _ => inferInstance) trivial fun depth _ => ?_
    refine Scan.begins_peek fun token => begins_ite (fun _ => begins_pure trivial) fun _ => ?_
    refine Scan.begins_advance fun _ => ?_
    split <;> infer_instance
  exact hloop ctx s

/-- A token at which a statement cannot end is passed over. -/
theorem passed_skipStatement {ctx : Context} {s : State}
    (hstop : ¬((s.next .command ctx).kind = .endOfInput ∨ ((0 : Nat) = 0 ∧
      ((s.next .command ctx).kind.isTerminator = true ∨
        (((s.next .command ctx).kind = .rightBrace ∨ (s.next .command ctx).kind = .rightParen) ∧
          ctx.closers.contains (s.next .command ctx).kind = true))))) :
    s.Passed (outcome g.skipStatement ctx s).2 := by
  have hloop : Moves ctx.limits (outcome (g.skipStatementRound ctx.closers 0) ctx s).2
      (outcome g.skipStatement ctx s).2 :=
    moves_loop (f := g.skipStatementRound ctx.closers) (fun _ => inferInstance) ctx s
  refine State.Passed.moves ?_ hloop
  refine passed_else hstop (passed_advance (fun _ => ?_) ctx s)
  split <;> infer_instance

/-- Recovery passes the token of a statement, unless a list may end in front of that. -/
theorem passed_recover {ctx : Context} {s : State}
    (hend : (s.next .command ctx).kind ≠ .endOfInput)
    (hclosing : ¬((s.next .command ctx).kind = .rightBrace ∨
      (s.next .command ctx).kind = .rightParen)) :
    s.Passed (outcome g.recover ctx s).2 := by
  generalize hs1 : (outcome g.skipStatement ctx s).2 = s1
  have hrecover : outcome g.recover ctx s =
      outcome (if (s1.next .command ctx).kind.isTerminator then do
        let _ ← advance .command
        return s1.cursor.offset
      else return s1.cursor.offset : Scan Nat) ctx s1 := by
    subst hs1
    unfold recover
    rw [Reads.outcome_bind]
    rfl
  rw [hrecover]
  by_cases hterminator : (s.next .command ctx).kind.isTerminator = true
  · have hskip : s.Passed s1 ∨ s1.cursor = s.cursor ∧ True := by
      rw [← hs1]
      exact begins_skipStatement (g := g) ctx s
    rcases hskip with hpassed | ⟨hcursor, -⟩
    · exact hpassed.moves (Moving.moves ctx s1)
    · -- Nothing was passed over, so the terminator still comes next.
      have hnext : s1.next .command ctx = s.next .command ctx := by
        rw [State.next_command, State.next_command, hcursor]
      rw [hnext, if_pos hterminator]
      have hpassed := passed_advance (fun _ => inferInstance) ctx s1
        (f := fun _ => (pure s1.cursor.offset : Scan Nat))
      unfold State.Passed at hpassed ⊢
      rwa [hcursor] at hpassed
  · have hpassed : s.Passed s1 := by
      rw [← hs1]
      refine passed_skipStatement ?_
      rintro (h | ⟨-, h | h⟩)
      · exact hend h
      · exact hterminator h
      · exact hclosing h.1
    exact hpassed.moves (Moving.moves ctx s1)

end Grammar

end Ysh
