import Ysh.Proofs.Movement

/-!
# Steps

What readers are made of. A production is a sequence of a few steps: it looks at the
next token, consumes it, reports, reads raw text, goes a level deeper. `Steps` lists
them, and it lists with each step what keeps it honest. A production sees little of
its context. Nothing that was read ahead depends on more than the place. And an error
that is caught is reported at once.

So a property that sequences keep is proved of the steps, and then it holds of every
production of every grammar whose three readers are made of steps. The productions
are taken through once, in the order in which they are defined, to see that they are.

An error that is about the text under it is never reported on its own. It is found by
reading that text, as the error in front of a token or as a bad escape, and the step
that reads the text reports it.

That a reader is made of steps says nothing of which. A `Routine` is the steps as a tree,
which can be run in more than one way.

## Main definitions

* `Diagnostic.isPositional`: A diagnostic about the text under it.
* `Scan.piece`: The next piece of a string, with a report of what is wrong with it.
* `Scan.Plain`: A reader that looks at the place and at nothing else.
* `Context.Aside`: A change of the context that leaves the limits alone.
* `Context.Change`: The changes that readers make.
* `Steps`: What a reader may be made of.
* `Stepwise`: A reader of either kind that is made of steps.
* `Routine`: The steps of a reader as a tree.
* `Routine.read`: The reader that a tree of steps is.
* `Grammar.Stepwise`: The three readers of a grammar are made of steps.

## Theorems

* `Steps.routine`: Whatever is made of steps is a routine.
* `Steps.moving`: Whatever is made of steps moves.
* `Grammar.stepwise_turns`: The readers of YSH are made of steps.
-/

namespace Ysh

/-! ## Faults in the text -/

/-- The error is about the text under it, and not about a literal that never ends. -/
def LexicalError.isPositional : LexicalError → Bool
  | invalidEscape _ _ | invalidByteEscape _ _ | unrecognizedInput _ _ | malformedNumber _ _ => true
  | unterminatedString _ _ _ | unterminatedWordList _ | unterminatedEggex _
  | unterminatedExpansion _ _ => false

/-- The diagnostic is about the text under it, which is no token or no escape. -/
def Diagnostic.isPositional : Diagnostic → Bool
  | lexical error => error.isPositional
  | syntactic _ | notice _ => false

/-- What is wrong with a piece of a string. -/
def Quoted.fault? : Except LexicalError Quoted.Piece → Option LexicalError
  | .ok (.badEscape error _ _) => some error
  | .ok _ => none
  | .error error => some error

/-- Reports an error, if there is one. -/
def Scan.tell : Option LexicalError → Scan Unit
  | some error => report (.lexical error)
  | none => pure ()

/-- The next piece of a string. What is wrong with it is reported. -/
def Scan.piece (style : StringStyle) (triple : Bool) (opening : Span) :
    Scan (Except LexicalError Quoted.Piece) := do
  let p ← raw (Cursor.piece style triple opening)
  tell (Quoted.fault? p)
  return p

/-! ## Readers that see the place alone -/

section

variable {α β σ : Type}

/-- What the reader gives and where it goes depends on the place, and on whether
    newlines mean anything there. -/
class Scan.Plain (x : Scan α) : Prop where
  same (ctx ctx' : Context) (s s' : State) : ctx.inBrackets = ctx'.inBrackets →
    s.cursor = s'.cursor → (x ctx s).1 = (x ctx' s').1 ∧
      (x ctx s).2.cursor = (x ctx' s').2.cursor

instance plain_pure (a : α) : Scan.Plain (pure a) :=
  ⟨fun _ _ _ _ _ hs => ⟨rfl, hs⟩⟩

theorem Scan.Plain.bind {x : Scan α} {f : α → Scan β} (hx : x.Plain) (hf : ∀ a, (f a).Plain) :
    (x >>= f).Plain := ⟨fun ctx ctx' s s' hctx hs => by
  have hfirst := hx.same ctx ctx' s s' hctx hs
  change (f (x ctx s).1 ctx (x ctx s).2).1 = (f (x ctx' s').1 ctx' (x ctx' s').2).1 ∧
    (f (x ctx s).1 ctx (x ctx s).2).2.cursor = (f (x ctx' s').1 ctx' (x ctx' s').2).2.cursor
  rw [hfirst.1]
  exact (hf _).same ctx ctx' _ _ hctx hfirst.2⟩

instance plain_bind {x : Scan α} {f : α → Scan β} [hx : x.Plain] [hf : ∀ a, (f a).Plain] :
    (x >>= f).Plain :=
  hx.bind hf

instance plain_ite {c : Prop} [Decidable c] {x y : Scan α} [hx : x.Plain] [hy : y.Plain] :
    Scan.Plain (if c then x else y) := by
  split
  · exact hx
  · exact hy

instance plain_lookahead (mode : Mode) : (Scan.lookahead mode).Plain :=
  ⟨fun ctx ctx' s s' hctx hs => by
    change s.cursor.lookahead mode (mode == .expression && ctx.inBrackets)
      = s'.cursor.lookahead mode (mode == .expression && ctx'.inBrackets) ∧ s.cursor = s'.cursor
    rw [hctx, hs]
    exact ⟨rfl, rfl⟩⟩

instance plain_peek (mode : Mode) : (peek mode).Plain :=
  (plain_lookahead mode).bind fun _ => plain_pure _

instance plain_peekKind (mode : Mode) : (peekKind mode).Plain :=
  (plain_peek mode).bind fun _ => plain_pure _

instance plain_peekWord (text : String) : (peekWord text).Plain :=
  (plain_peek .command).bind fun _ => plain_pure _

instance plain_advance (mode : Mode) : (advance mode).Plain :=
  ⟨fun ctx ctx' s s' hctx hs => by
    have hlook := ((plain_lookahead mode).same ctx ctx' s s' hctx hs).1
    exact ⟨congrArg Cursor.Lookahead.token hlook, congrArg Cursor.Lookahead.after hlook⟩⟩

instance plain_raw (read : Cursor → α × Cursor) : (raw read).Plain :=
  ⟨fun _ _ s s' _ hs => by
    change (read s.cursor).1 = (read s'.cursor).1 ∧ (read s.cursor).2 = (read s'.cursor).2
    rw [hs]
    exact ⟨rfl, rfl⟩⟩

theorem plain_rounds {step : σ → Scan (Round σ)} (h : ∀ a, (step a).Plain)
    (clock : List Char) : ∀ a, (rounds step clock a).Plain := by
  induction clock with
  | nil =>
      intro a
      refine (h a).bind fun r => ?_
      cases r <;> exact plain_pure _
  | cons c clock ih =>
      intro a
      refine (h a).bind fun r => ?_
      cases r with
      | stop b => exact plain_pure _
      | again b => exact ih b

instance plain_loop {step : σ → Scan (Round σ)} {a : σ} [h : ∀ a, (step a).Plain] :
    Scan.Plain (loop step a) :=
  ⟨fun ctx ctx' s s' hctx hs => by
    change (rounds step s.cursor.rest a ctx s).1 = (rounds step s'.cursor.rest a ctx' s').1 ∧
      (rounds step s.cursor.rest a ctx s).2.cursor
        = (rounds step s'.cursor.rest a ctx' s').2.cursor
    rw [← hs]
    exact (plain_rounds h s.cursor.rest a).same ctx ctx' s s' hctx hs⟩

end

/-! ## Steps -/

/-- The context, with other limits. -/
def Context.under (ctx : Context) (limits : Limits) : Context :=
  { ctx with limits }

/-- A change of the context that neither looks at the limits nor changes them. -/
def Context.Aside (f : Context → Context) : Prop :=
  ∀ ctx limits, f (ctx.under limits) = (f ctx).under limits

/-- What a reader does to the context for the reader inside it, but for going deeper. -/
inductive Context.Change where
  /-- An expression bracket is opened. -/
  | bracketed
  /-- Statements start, with newlines that mean something. -/
  | unbracketed
  /-- A list of statements waits for a closing token, if one is given. -/
  | awaiting (closer : Option Token.Kind)
  /-- The body of a definition starts. -/
  | defining (kind : Definition)

/-- The context behind the change. -/
def Context.Change.apply : Context.Change → Context → Context
  | bracketed, ctx => { ctx with inBrackets := true }
  | unbracketed, ctx => { ctx with inBrackets := false }
  | awaiting closer, ctx => { ctx with closers := closer.toList ++ ctx.closers }
  | defining kind, ctx => { ctx with definition := some kind }

theorem Context.Change.aside (change : Context.Change) : Context.Aside change.apply := by
  intro ctx limits
  cases change <;> rfl

theorem Context.Aside.limits {f : Context → Context} (h : Context.Aside f) (ctx : Context) :
    (f ctx).limits = ctx.limits := by
  have hf := congrArg Context.limits (h ctx ctx.limits)
  exact hf

section

variable {m : Type → Type} [Monad m] [MonadStateOf State m] [Reads m] {α β σ : Type}

/-- A reader of either kind as one that may fail. -/
def Reads.parse (x : m α) : Parse α :=
  fun ctx s => outcome x ctx s

theorem Reads.parse_pure (a : α) : Reads.parse (pure a : m α) = pure a := by
  funext ctx s
  exact Reads.outcome_pure a ctx s

theorem Reads.parse_bind (x : m α) (f : α → m β) :
    Reads.parse (x >>= f) = Reads.parse x >>= fun a => Reads.parse (f a) := by
  funext ctx s
  change outcome (x >>= f) ctx s = outcome (Reads.parse x >>= fun a => Reads.parse (f a)) ctx s
  rw [Reads.outcome_bind, Reads.outcome_bind]
  rfl

/-- A piece is read, and then there is a report to make or not. -/
theorem Reads.parse_piece (style : StringStyle) (triple : Bool) (opening : Span) :
    Reads.parse (Scan.piece style triple opening)
      = Reads.parse (raw (Cursor.piece style triple opening)) >>= fun p =>
        Reads.parse (Scan.tell (Quoted.fault? p)) >>= fun _ => pure p := by
  rw [Scan.piece, parse_bind]
  refine congrArg (Reads.parse (raw (Cursor.piece style triple opening)) >>= ·)
    (funext fun p => ?_)
  rw [parse_bind, parse_pure]

theorem moving_tell (error : Option LexicalError) : Moving (Reads.parse (Scan.tell error)) := by
  cases error with
  | none => exact moving_pure ()
  | some e => exact ⟨(moving_report (.lexical e)).moves⟩

/-- What a sequence comes to. -/
theorem Parse.bind_run (x : Parse α) (f : α → Parse β) (ctx : Context) (s : State) :
    (x >>= f) ctx s = match x ctx s with
      | (.ok a, s1) => f a ctx s1
      | (.error e, s1) => (.error e, s1) :=
  Reads.outcome_bind x f ctx s

/-- What is looked up in the context are never the limits. -/
theorem Parse.read_run {f : Context → Parse α} (haside : ∀ ctx limits, f (ctx.under limits) = f ctx)
    (ctx : Context) (limits : Limits) (s : State) :
    (read >>= f) (ctx.under limits) s = f ctx (ctx.under limits) s := by
  rw [← haside ctx limits]
  rfl

/-- Going a level deeper fails, or it reads there. -/
theorem Parse.nested_run (x : Parse α) (ctx : Context) (s : State) :
    nested x ctx s = if ctx.limits.depth ≤ ctx.depth then
      (.error (.nestingTooDeep ctx.limits.depth (.emptyAt s.cursor.offset)), s)
    else x { ctx with depth := ctx.depth + 1 } s := by
  change (if ctx.limits.depth ≤ ctx.depth then _ else _ : Parse α) ctx s = _
  split <;> rfl

/-- A reader that may fail, and what follows it: one thing behind a result, and behind
    an error its report and then another. -/
def Parse.orReport (x : Parse α) (f : α → Parse β) (k : SyntaxError → Parse β) : Parse β :=
  fun ctx s => match x ctx s with
    | (.ok a, s1) => f a ctx s1
    | (.error e, s1) => k e ctx (report (.syntactic e) ctx s1).2

theorem moving_orReport {x : Parse α} {f : α → Parse β} {k : SyntaxError → Parse β}
    (hx : Moving x) (hf : ∀ a, Moving (f a)) (hk : ∀ e, Moving (k e)) :
    Moving (Parse.orReport x f k) := ⟨fun ctx s => by
  have hx := hx.moves ctx s
  change Moves ctx.limits s (x ctx s).2 at hx
  change Moves ctx.limits s (match x ctx s with
    | (.ok a, s1) => f a ctx s1
    | (.error e, s1) => k e ctx (report (.syntactic e) ctx s1).2).2
  generalize x ctx s = r at hx ⊢
  rcases r with ⟨e | a, s1⟩
  · exact (hx.trans ((moving_report (.syntactic e)).moves ctx s1)).trans ((hk e).moves ctx _)
  · exact hx.trans ((hf a).moves ctx s1)⟩

/-- The reader is made of steps. -/
inductive Steps : {α : Type} → Parse α → Prop
  | pure {α : Type} (a : α) : Steps (pure a)
  | bind {α β : Type} {x : Parse α} {f : α → Parse β} (hx : Steps x) (hf : ∀ a, Steps (f a)) :
      Steps (x >>= f)
  | throw {α : Type} (e : SyntaxError) : Steps (throw e : Parse α)
  /-- What a reader looks up in its context are never the limits. -/
  | read {α : Type} {f : Context → Parse α} (hf : ∀ ctx, Steps (f ctx))
      (haside : ∀ ctx limits, f (ctx.under limits) = f ctx) : Steps (read >>= f)
  /-- The characters that are left are a clock. -/
  | clocked {α : Type} {f : List Char → Parse α} (hf : ∀ clock, Steps (f clock)) :
      Steps (getThe State >>= fun s => f s.cursor.rest)
  | look (mode : Mode) : Steps (Reads.parse (Scan.lookahead mode))
  | position : Steps (Reads.parse position)
  | report (d : Diagnostic) (h : d.isPositional = false) : Steps (Reads.parse (report d))
  | advance (mode : Mode) : Steps (Reads.parse (advance mode))
  | piece (style : StringStyle) (triple : Bool) (opening : Span) :
      Steps (Reads.parse (Scan.piece style triple opening))
  | raw {α : Type} {read : Cursor → α × Cursor} (h : ∀ c, ∃ n, (read c).2 = c.advance n) :
      Steps (Reads.parse (raw read))
  | ahead {α : Type} {x : Scan α} (hx : x.Plain) (hsteps : Steps (Reads.parse x)) :
      Steps (Reads.parse (ahead x))
  | nested {α : Type} {x : Parse α} (hx : Steps x) : Steps (nested x)
  | within {α : Type} {x : Parse α} (change : Context.Change) (hx : Steps x) :
      Steps fun ctx => x (change.apply ctx)
  | orReport {α β : Type} {x : Parse α} {f : α → Parse β} {k : SyntaxError → Parse β}
      (hx : Steps x) (hf : ∀ a, Steps (f a)) (hk : ∀ e, Steps (k e)) :
      Steps (Parse.orReport x f k)

/-- A reader of either kind that is made of steps. -/
class Stepwise (x : m α) : Prop where
  steps : Steps (Reads.parse x)

instance stepwise_pure (a : α) : Stepwise (pure a : m α) := ⟨by
  rw [Reads.parse_pure]
  exact .pure a⟩

theorem Stepwise.bind {x : m α} {f : α → m β} (hx : Stepwise x) (hf : ∀ a, Stepwise (f a)) :
    Stepwise (x >>= f) := ⟨by
  rw [Reads.parse_bind]
  exact .bind hx.steps fun a => (hf a).steps⟩

instance stepwise_bind {x : m α} {f : α → m β} [hx : Stepwise x] [hf : ∀ a, Stepwise (f a)] :
    Stepwise (x >>= f) :=
  hx.bind hf

instance stepwise_ite {c : Prop} [Decidable c] {x y : m α} [hx : Stepwise x]
    [hy : Stepwise y] : Stepwise (if c then x else y) := by
  split
  · exact hx
  · exact hy

instance stepwise_map [LawfulMonad m] {x : m α} {f : α → β} [Stepwise x] :
    Stepwise (f <$> x) := by
  rw [map_eq_pure_bind]
  infer_instance

theorem stepwise_rounds {step : σ → m (Round σ)} (h : ∀ a, Stepwise (step a))
    (clock : List Char) : ∀ a, Stepwise (rounds step clock a) := by
  induction clock with
  | nil =>
      intro a
      refine (h a).bind fun r => ?_
      cases r <;> exact stepwise_pure _
  | cons c clock ih =>
      intro a
      refine (h a).bind fun r => ?_
      cases r with
      | stop b => exact stepwise_pure _
      | again b => exact ih b

instance stepwise_loop {step : σ → m (Round σ)} {a : σ} [h : ∀ a, Stepwise (step a)] :
    Stepwise (loop step a) := ⟨by
  have hparse : Reads.parse (loop step a)
      = getThe State >>= fun s => Reads.parse (rounds step s.cursor.rest a) := by
    unfold loop
    rw [Reads.parse_bind]
    have hget : Reads.parse (getThe State : m State) = getThe State := by
      funext ctx s
      exact Reads.outcome_get ctx s
    rw [hget]
  rw [hparse]
  exact .clocked fun clock => (stepwise_rounds h clock a).steps⟩

instance stepwise_collectRound {item : m (Option α)} [h : Stepwise item] {items : Array α} :
    Stepwise (collectRound item items) := by
  refine h.bind fun r => ?_
  cases r <;> exact stepwise_pure _

instance stepwise_collect {item : m (Option α)} [Stepwise item] : Stepwise (collect item) := by
  unfold collect
  infer_instance

end

section

variable {α β : Type}

instance stepwise_lookahead (mode : Mode) : Stepwise (Scan.lookahead mode) :=
  ⟨.look mode⟩

instance stepwise_peek (mode : Mode) : Stepwise (peek mode) :=
  (stepwise_lookahead mode).bind fun _ => stepwise_pure _

instance stepwise_peekKind (mode : Mode) : Stepwise (peekKind mode) :=
  (stepwise_peek mode).bind fun _ => stepwise_pure _

instance stepwise_peekWord (text : String) : Stepwise (peekWord text) :=
  (stepwise_peek .command).bind fun _ => stepwise_pure _

instance stepwise_position : Stepwise position :=
  ⟨.position⟩

instance stepwise_throw (e : SyntaxError) : Stepwise (throw e : Parse α) :=
  ⟨.throw e⟩

theorem stepwise_report {d : Diagnostic} (h : d.isPositional = false) : Stepwise (report d) :=
  ⟨.report d h⟩

instance stepwise_syntactic (error : SyntaxError) : Stepwise (report (.syntactic error)) :=
  stepwise_report rfl

instance stepwise_notice (notice : Notice) : Stepwise (report (.notice notice)) :=
  stepwise_report rfl

instance stepwise_unterminatedWordList (span : Span) :
    Stepwise (report (.lexical (.unterminatedWordList span))) :=
  stepwise_report rfl

instance stepwise_unterminatedEggex (span : Span) :
    Stepwise (report (.lexical (.unterminatedEggex span))) :=
  stepwise_report rfl

instance stepwise_unterminatedExpansion (expected : Char) (span : Span) :
    Stepwise (report (.lexical (.unterminatedExpansion expected span))) :=
  stepwise_report rfl

instance stepwise_advance (mode : Mode) : Stepwise (advance mode) :=
  ⟨.advance mode⟩

instance stepwise_piece (style : StringStyle) (triple : Bool) (opening : Span) :
    Stepwise (Scan.piece style triple opening) :=
  ⟨.piece style triple opening⟩

theorem stepwise_raw {read : Cursor → α × Cursor} (h : ∀ c, ∃ n, (read c).2 = c.advance n) :
    Stepwise (raw read) :=
  ⟨.raw h⟩

instance stepwise_ahead (x : Scan α) [h : x.Plain] [hx : Stepwise x] : Stepwise (ahead x) :=
  ⟨.ahead h hx.steps⟩

instance stepwise_lift (x : Scan α) [h : Stepwise x] : Stepwise (liftM x : Parse α) :=
  ⟨h.steps⟩

instance stepwise_monadLift (x : Scan α) [h : Stepwise x] :
    Stepwise (MonadLift.monadLift x : Parse α) :=
  ⟨h.steps⟩

theorem Parse.stepwise_read {f : Context → Parse α} (hf : ∀ ctx, Stepwise (f ctx))
    (haside : ∀ ctx limits, f (ctx.under limits) = f ctx) : Stepwise (read >>= f) :=
  ⟨.read (fun ctx => (hf ctx).steps) haside⟩

theorem Scan.stepwise_read {f : Context → Scan α} (hf : ∀ ctx, Stepwise (f ctx))
    (haside : ∀ ctx limits, f (ctx.under limits) = f ctx) : Stepwise (read >>= f) :=
  ⟨.read (fun ctx => (hf ctx).steps) fun ctx limits => by rw [haside]⟩

theorem Parse.stepwise_within (change : Context.Change) (x : Parse α) [h : Stepwise x] :
    Stepwise (withReader change.apply x) :=
  ⟨.within change h.steps⟩

theorem Scan.stepwise_within (change : Context.Change) (x : Scan α) [h : Stepwise x] :
    Stepwise (withReader change.apply x) :=
  ⟨.within change h.steps⟩

instance stepwise_unbracketed (x : Scan α) [Stepwise x] : Stepwise (unbracketed x) :=
  Scan.stepwise_within .unbracketed x

instance stepwise_nested (x : Parse α) [h : Stepwise x] : Stepwise (nested x) :=
  ⟨.nested h.steps⟩

instance stepwise_bracketed (x : Parse α) [Stepwise x] : Stepwise (bracketed x) := by
  have hx := Parse.stepwise_within .bracketed x
  exact stepwise_nested (withReader Context.Change.bracketed.apply x)

/-- An error that is caught is reported, and then something else is read. -/
theorem stepwise_attempt {x : Parse α} {f : Except SyntaxError α → Scan β}
    {k : SyntaxError → Scan β} (hx : Stepwise x) (hf : ∀ a, Stepwise (f (.ok a)))
    (hk : ∀ e, Stepwise (k e))
    (hreport : ∀ e, f (.error e) = report (.syntactic e) >>= fun _ => k e) :
    Stepwise (attempt x >>= f) := ⟨by
  have hparse : Reads.parse (attempt x >>= f) =
      Parse.orReport x (fun a => Reads.parse (f (.ok a))) fun e => Reads.parse (k e) := by
    funext ctx s
    change ((.ok (f (x ctx s).1 ctx (x ctx s).2).1, (f (x ctx s).1 ctx (x ctx s).2).2) :
      Except SyntaxError β × State) = match x ctx s with
        | (.ok a, s1) => Reads.parse (f (.ok a)) ctx s1
        | (.error e, s1) => Reads.parse (k e) ctx (report (.syntactic e) ctx s1).2
    rcases x ctx s with ⟨_ | a, s1⟩
    · dsimp only
      rw [hreport]
      rfl
    · rfl
  rw [hparse]
  exact .orReport hx.steps (fun a => (hf a).steps) fun e => (hk e).steps⟩

instance stepwise_unexpected (mode : Mode) (expected : Expectation) :
    Stepwise (unexpected mode expected : Parse α) := by
  unfold unexpected
  infer_instance

instance stepwise_expectAs (mode : Mode) (kind : Token.Kind) (expected : Expectation) :
    Stepwise (expectAs mode kind expected) := by
  unfold expectAs
  infer_instance

instance stepwise_expect (mode : Mode) (kind : Token.Kind) : Stepwise (expect mode kind) :=
  stepwise_expectAs mode kind _

instance stepwise_expectClosing (mode : Mode) (closer : Token.Kind) (opening : Span) :
    Stepwise (expectClosing mode closer opening) := by
  unfold expectClosing
  infer_instance

instance plain_skipRound (mode : Mode) (skips : Token.Kind → Bool) (u : Unit) :
    (Scan.skipRound mode skips u).Plain := by
  unfold Scan.skipRound
  infer_instance

instance plain_skipNewlines : skipNewlines.Plain :=
  plain_loop

instance stepwise_skipRound (mode : Mode) (skips : Token.Kind → Bool) (u : Unit) :
    Stepwise (Scan.skipRound mode skips u) := by
  unfold Scan.skipRound
  infer_instance

instance stepwise_skipWhile (mode : Mode) (skips : Token.Kind → Bool) :
    Stepwise (Scan.skipWhile mode skips) :=
  stepwise_loop

instance stepwise_skipNewlines : Stepwise skipNewlines :=
  stepwise_skipWhile _ _

instance stepwise_skipSeparators : Stepwise skipSeparators :=
  stepwise_skipWhile _ _

instance stepwise_commaRound (ends : Token.Kind → Bool) (item : Parse α) [Stepwise item]
    (items : Array α) : Stepwise (commaRound ends item items) := by
  unfold commaRound
  infer_instance

instance stepwise_commaSeparated (ends : Token.Kind → Bool) (item : Parse α) [Stepwise item] :
    Stepwise (commaSeparated ends item) := by
  unfold commaSeparated
  infer_instance

end

/-! ## Routines -/

/-- A production as a tree of steps. -/
inductive Routine : Type → Type 1
  | pure {α : Type} (a : α) : Routine α
  | bind {α β : Type} (p : Routine α) (f : α → Routine β) : Routine β
  | throw {α : Type} (e : SyntaxError) : Routine α
  /-- What follows depends on the context. -/
  | consult {α : Type} (f : Context → Routine α) : Routine α
  /-- What follows has the characters that are left for a clock. -/
  | clocked {α : Type} (f : List Char → Routine α) : Routine α
  | look (mode : Mode) : Routine Cursor.Lookahead
  | position : Routine Nat
  | report (d : Diagnostic) : Routine Unit
  | advance (mode : Mode) : Routine Token
  | raw {α : Type} (read : Cursor → α × Cursor) (h : ∀ c, ∃ n, (read c).2 = c.advance n) : Routine α
  | ahead {α : Type} (p : Routine α) : Routine α
  | nested {α : Type} (p : Routine α) : Routine α
  | within {α : Type} (change : Context.Change) (p : Routine α) : Routine α
  | orReport {α β : Type} (p : Routine α) (f : α → Routine β) (k : SyntaxError → Routine β) :
      Routine β

namespace Routine

/-- The routine as the grammar reads it. -/
def read : {α : Type} → Routine α → Parse α
  | _, pure a => Pure.pure a
  | _, bind p f => p.read >>= fun a => (f a).read
  | _, throw e => MonadExcept.throw e
  | _, consult f => MonadReader.read >>= fun ctx => (f ctx).read
  | _, clocked f => getThe State >>= fun s => (f s.cursor.rest).read
  | _, look mode => Reads.parse (Scan.lookahead mode)
  | _, position => Reads.parse Scan.position
  | _, report d => Reads.parse (Scan.report d)
  | _, advance mode => Reads.parse (Scan.advance mode)
  | _, raw read _ => Reads.parse (Scan.raw read)
  | _, ahead p => fun ctx s => ((p.read ctx s).1, s)
  | _, nested p => Parse.nested p.read
  | _, within change p => fun ctx => p.read (change.apply ctx)
  | _, orReport p f k => Parse.orReport p.read (fun a => (f a).read) fun e => (k e).read

/-- The report of an error, if there is one. -/
def tell : Option LexicalError → Routine Unit
  | some error => report (.lexical error)
  | none => pure ()

theorem read_tell (error : Option LexicalError) :
    (tell error).read = Reads.parse (Scan.tell error) := by
  cases error <;> rfl

end Routine

/-- Whatever is made of steps is a routine. -/
theorem Steps.routine {α : Type} {x : Parse α} (h : Steps x) : ∃ p : Routine α, p.read = x := by
  induction h with
  | pure a => exact ⟨.pure a, rfl⟩
  | bind _ _ hx hf =>
      rcases hx with ⟨p, rfl⟩
      rcases Classical.axiomOfChoice hf with ⟨q, hq⟩
      exact ⟨.bind p q, congrArg (p.read >>= ·) (funext hq)⟩
  | throw e => exact ⟨.throw e, rfl⟩
  | read _ _ hf =>
      rcases Classical.axiomOfChoice hf with ⟨q, hq⟩
      exact ⟨.consult q, congrArg (MonadReader.read >>= ·) (funext hq)⟩
  | clocked _ hf =>
      rcases Classical.axiomOfChoice hf with ⟨q, hq⟩
      exact ⟨.clocked q, congrArg (getThe State >>= ·) (funext fun s => hq s.cursor.rest)⟩
  | look mode => exact ⟨.look mode, rfl⟩
  | position => exact ⟨.position, rfl⟩
  | report d => exact ⟨.report d, rfl⟩
  | advance mode => exact ⟨.advance mode, rfl⟩
  | piece style triple opening =>
      refine ⟨.bind (.raw _ (Cursor.piece_after style triple opening)) fun p =>
        .bind (.tell (Quoted.fault? p)) fun _ => .pure p, ?_⟩
      rw [Reads.parse_piece]
      refine congrArg (Reads.parse (Scan.raw (Cursor.piece style triple opening)) >>= ·)
        (funext fun p => ?_)
      exact congrArg (· >>= fun _ => Pure.pure p) (Routine.read_tell (Quoted.fault? p))
  | raw h => exact ⟨.raw _ h, rfl⟩
  | ahead _ _ hx =>
      rcases hx with ⟨p, hp⟩
      refine ⟨.ahead p, ?_⟩
      funext ctx s
      change ((p.read ctx s).1, s) = _
      rw [hp]
      rfl
  | nested _ hx =>
      rcases hx with ⟨p, rfl⟩
      exact ⟨.nested p, rfl⟩
  | within change _ hx =>
      rcases hx with ⟨p, rfl⟩
      exact ⟨.within change p, rfl⟩
  | orReport _ _ _ hx hf hk =>
      rcases hx with ⟨p, rfl⟩
      rcases Classical.axiomOfChoice hf with ⟨q, hq⟩
      rcases Classical.axiomOfChoice hk with ⟨r, hr⟩
      refine ⟨.orReport p q r, ?_⟩
      change Parse.orReport p.read (fun a => (q a).read) (fun e => (r e).read) = _
      rw [funext hq, funext hr]

/-! ## Movement -/

/-- Every routine moves. -/
theorem Routine.moving {α : Type} (p : Routine α) : Moving p.read := by
  induction p with
  | pure a => exact moving_pure a
  | bind _ _ hp hf => exact hp.bind hf
  | throw e => exact moving_throw e
  | consult _ hf => exact moving_readParse.bind hf
  | clocked _ hf => exact moving_getThe.bind fun s => hf s.cursor.rest
  | look mode => exact ⟨fun ctx s => .refl ctx.limits s⟩
  | position => exact ⟨moving_position.moves⟩
  | report d => exact ⟨(moving_report d).moves⟩
  | advance mode => exact ⟨(moving_advance mode).moves⟩
  | raw _ h => exact ⟨(moving_raw h).moves⟩
  | ahead => exact ⟨fun ctx s => .refl ctx.limits s⟩
  | nested p hp => exact moving_nested p.read
  | within change p hp => exact moving_aside change.aside.limits p.read
  | orReport _ _ _ hp hf hk => exact moving_orReport hp hf hk

/-- Whatever is made of steps moves. -/
theorem Steps.moving {α : Type} {x : Parse α} (h : Steps x) : Moving x := by
  rcases h.routine with ⟨p, rfl⟩
  exact p.moving

instance (priority := low) moving_of_stepwise {m : Type → Type} [Monad m]
    [MonadStateOf State m] [Reads m] {α : Type} (x : m α) [h : Stepwise x] : Moving x :=
  ⟨h.steps.moving.moves⟩

namespace Grammar

/-- The three readers of a grammar are made of steps. -/
class Stepwise (g : Grammar) : Prop where
  expression : Ysh.Stepwise g.expression
  statements (closer : Option Token.Kind) : Ysh.Stepwise (g.statements closer)
  expansion (opener : Opener) (token : Token) : Ysh.Stepwise (g.expansion opener token)

attribute [instance] Stepwise.expression Stepwise.statements Stepwise.expansion

instance stepwise_bindingName : Ysh.Stepwise bindingName := by
  unfold bindingName
  infer_instance

instance stepwise_memberName : Ysh.Stepwise memberName := by
  unfold memberName
  infer_instance

variable {g : Grammar} [g.Stepwise]

/-! ## Words, strings and expansions -/

/-- What a piece adds to the fragments of a string, behind the report of what is wrong
    with it. -/
def takePiece (g : Grammar) (fragments : Array Fragment) :
    Except LexicalError Quoted.Piece → Scan (Round (Array Fragment))
  | .ok (.text value span) => return .again (fragments.push (.text value span))
  | .ok (.escape raw span) => return .again (fragments.push (.escape raw span))
  | .ok (.badEscape _ raw span) => return .again (fragments.push (.text raw span))
  | .ok (.expansion opener token) => do
      match ← attempt (g.expansion opener token) with
      | .ok e => return .again (fragments.push (.expansionFragment e))
      | .error error =>
          report (.syntactic error)
          return .again fragments
  | .ok (.close _) | .error _ => return .stop fragments

/-- A round reads a piece, reports what is wrong with it, and takes it. -/
theorem stringRound_eq (g : Grammar) (style : StringStyle) (triple : Bool) (opening : Span)
    (fragments : Array Fragment) : g.stringRound style triple opening fragments
      = Scan.piece style triple opening >>= g.takePiece fragments := by
  unfold Scan.piece
  simp only [bind_assoc, pure_bind]
  refine congrArg (raw (Cursor.piece style triple opening) >>= ·) (funext fun p => ?_)
  rcases p with e | (_ | _ | _ | _ | _) <;> rfl

instance stepwise_stringRound (style : StringStyle) (triple : Bool) (opening : Span)
    (fragments : Array Fragment) :
    Ysh.Stepwise (g.stringRound style triple opening fragments) := by
  rw [stringRound_eq]
  refine (stepwise_piece style triple opening).bind fun p => ?_
  rcases p with e | (_ | _ | _ | ⟨opener, token⟩ | _)
  · exact stepwise_pure _
  · exact stepwise_pure _
  · exact stepwise_pure _
  · exact stepwise_pure _
  · exact stepwise_attempt (x := g.expansion opener token) inferInstance inferInstance
      (fun e => stepwise_pure _) fun e => rfl
  · exact stepwise_pure _

instance stepwise_stringBody (style : StringStyle) (triple : Bool) (opening : Span) :
    Ysh.Stepwise (g.stringBody style triple opening) := by
  unfold stringBody
  infer_instance

instance stepwise_pushPiece (token : Token) (parts : List WordPart) :
    Ysh.Stepwise (g.pushPiece token parts) := by
  unfold pushPiece
  split <;> infer_instance

instance stepwise_wordRound (a : List WordPart × Bool) : Ysh.Stepwise (g.wordRound a) := by
  unfold wordRound
  infer_instance

instance stepwise_wordParts (parts : List WordPart) (continuing : Bool) :
    Ysh.Stepwise (g.wordParts parts continuing) := by
  unfold wordParts
  infer_instance

instance stepwise_word : Ysh.Stepwise g.word := by
  unfold word
  infer_instance

instance stepwise_bracedName : Ysh.Stepwise bracedName :=
  stepwise_raw Cursor.bracedName?_after

instance stepwise_defaultMark : Ysh.Stepwise defaultMark :=
  stepwise_raw Cursor.defaultMark_after

instance stepwise_closingBrace : Ysh.Stepwise closingBrace :=
  stepwise_raw fun c => c.closingBrace?_after

instance plain_closingBrace : closingBrace.Plain :=
  plain_raw _

instance stepwise_atClosingBrace : Ysh.Stepwise atClosingBrace :=
  stepwise_ahead _

instance stepwise_bracedDefault : Ysh.Stepwise g.bracedDefault := by
  unfold bracedDefault
  infer_instance

instance stepwise_expectBrace (opening : Span) : Ysh.Stepwise (expectBrace opening) := by
  unfold expectBrace
  infer_instance

instance stepwise_bracedBody (opener : Token) : Ysh.Stepwise (g.bracedBody opener) := by
  refine Stepwise.bind (x := liftM bracedName) inferInstance fun r => ?_
  split <;> infer_instance

instance stepwise_enclosed (closer : Token.Kind) (opening : Span) :
    Ysh.Stepwise (g.enclosed closer opening) := by
  unfold enclosed
  infer_instance

instance stepwise_parenthesized : Ysh.Stepwise g.parenthesized := by
  unfold parenthesized
  infer_instance

instance stepwise_body (closer : Token.Kind) : Ysh.Stepwise (g.body closer) := by
  unfold body
  infer_instance

instance stepwise_expansionBody (opener : Opener) (token : Token) :
    Ysh.Stepwise (g.expansionBody opener token) := by
  cases opener <;> (unfold expansionBody; infer_instance)

/-! ## Expressions -/

instance stepwise_eggexBody (opening : Span) : Ysh.Stepwise (eggexBody opening) := by
  have hraw := stepwise_raw Cursor.eggexBody_after
  exact hraw.bind inferInstance

instance stepwise_namedArgument : Ysh.Stepwise g.namedArgument := by
  unfold namedArgument
  infer_instance

instance stepwise_namedArguments : Ysh.Stepwise g.namedArguments := by
  unfold namedArguments
  infer_instance

instance stepwise_argumentListBody (opening : Span) : Ysh.Stepwise (g.argumentListBody opening) := by
  unfold argumentListBody
  infer_instance

instance stepwise_argumentList : Ysh.Stepwise g.argumentList := by
  unfold argumentList
  infer_instance

instance stepwise_listBody (opening : Span) : Ysh.Stepwise (g.listBody opening) := by
  unfold listBody
  infer_instance

instance stepwise_dictKey : Ysh.Stepwise g.dictKey := by
  refine Stepwise.bind (x := liftM (peek .expression)) inferInstance fun token => ?_
  split <;> infer_instance

instance stepwise_dictEntry : Ysh.Stepwise g.dictEntry := by
  unfold dictEntry
  infer_instance

instance stepwise_dictBody (opening : Span) : Ysh.Stepwise (g.dictBody opening) := by
  unfold dictBody
  infer_instance

instance stepwise_wordListRound (opening : Span) (words : Array Word) :
    Ysh.Stepwise (g.wordListRound opening words) := by
  unfold wordListRound
  infer_instance

instance stepwise_wordListBody (opening : Span) : Ysh.Stepwise (g.wordListBody opening) := by
  unfold wordListBody
  infer_instance

instance stepwise_primary : Ysh.Stepwise g.primary := by
  refine Stepwise.bind (x := liftM (peek .expression)) inferInstance fun token => ?_
  split <;> infer_instance

instance stepwise_postfixStep (e : Expression) : Ysh.Stepwise (g.postfixStep e) := by
  refine Stepwise.bind (x := liftM (peekKind .expression)) inferInstance fun kind => ?_
  split
  · infer_instance
  · infer_instance
  · infer_instance
  · split <;> infer_instance
  · infer_instance

instance stepwise_postfixed : Ysh.Stepwise g.postfixed := by
  unfold postfixed
  infer_instance

instance stepwise_unary : Ysh.Stepwise g.unary := by
  refine Stepwise.bind (x := liftM (peekKind .expression)) inferInstance fun kind => ?_
  split <;> infer_instance

instance stepwise_levelRound (level : List BinaryOperator) (operand : Parse Expression)
    [Ysh.Stepwise operand] (left : Expression) : Ysh.Stepwise (levelRound level operand left) := by
  refine Stepwise.bind (x := liftM (peekKind .expression)) inferInstance fun kind => ?_
  split <;> infer_instance

instance stepwise_levels (table : List (List BinaryOperator)) : Ysh.Stepwise (g.levels table) := by
  induction table with
  | nil => exact stepwise_unary
  | cons level tighter ih =>
      unfold levels
      infer_instance

instance stepwise_expressionBody : Ysh.Stepwise g.expressionBody := by
  unfold expressionBody
  infer_instance

/-! ## Declarations -/

instance stepwise_nameAndValue : Ysh.Stepwise g.nameAndValue := by
  unfold nameAndValue
  infer_instance

instance stepwise_variableDeclaration : Ysh.Stepwise g.variableDeclaration := by
  unfold variableDeclaration
  infer_instance

instance stepwise_constantDeclaration : Ysh.Stepwise g.constantDeclaration := by
  unfold constantDeclaration
  infer_instance

instance stepwise_secondToken : Ysh.Stepwise secondToken :=
  stepwise_ahead _

instance stepwise_startsShorthand : Ysh.Stepwise startsShorthand := by
  unfold startsShorthand
  infer_instance

instance stepwise_shorthandConstant : Ysh.Stepwise g.shorthandConstant := by
  unfold shorthandConstant
  infer_instance

instance stepwise_accessor : Ysh.Stepwise g.accessor := by
  refine Stepwise.bind (x := liftM (peekKind .expression)) inferInstance fun kind => ?_
  split <;> infer_instance

instance stepwise_assignmentOperator : Ysh.Stepwise assignmentOperator := by
  refine Stepwise.bind (x := liftM (peekKind .expression)) inferInstance fun kind => ?_
  split <;> infer_instance

instance stepwise_assignment (scope : AssignmentScope) : Ysh.Stepwise (g.assignment scope) := by
  unfold assignment
  infer_instance

/-! ## Commands -/

instance stepwise_closingBraceStop (opening : Span) : Ysh.Stepwise (closingBraceStop opening) := by
  exact stepwise_attempt (x := expectClosing .command .rightBrace opening) inferInstance
    inferInstance (fun e => stepwise_position) fun e => rfl

instance stepwise_block : Ysh.Stepwise g.block := by
  unfold block
  infer_instance

instance stepwise_envBinding : Ysh.Stepwise g.envBinding := by
  unfold envBinding
  refine Stepwise.bind inferInstance fun token => ?_
  refine @stepwise_ite _ _ _ _ _ _ _ _ _ inferInstance ?_
  split <;> infer_instance

instance stepwise_redirection (descriptor : Option Nat) (start : Nat)
    (op : RedirectionOperator) : Ysh.Stepwise (g.redirection descriptor start op) := by
  unfold redirection
  infer_instance

instance stepwise_descriptorRedirection : Ysh.Stepwise g.descriptorRedirection := by
  unfold descriptorRedirection
  refine Stepwise.bind inferInstance fun token => ?_
  refine @stepwise_ite _ _ _ _ _ _ _ _ _ inferInstance ?_
  split
  · refine Stepwise.bind inferInstance fun next => ?_
    split <;> infer_instance
  · infer_instance

instance stepwise_anyRedirection : Ysh.Stepwise g.anyRedirection := by
  refine Stepwise.bind (x := liftM (peek .command)) inferInstance fun token => ?_
  split <;> infer_instance

instance stepwise_argument : Ysh.Stepwise g.argument := by
  unfold argument
  refine Stepwise.bind inferInstance fun kind => ?_
  refine @stepwise_ite _ _ _ _ _ _ _ _ _ inferInstance ?_
  refine @stepwise_ite _ _ _ _ _ _ _ _ _ inferInstance ?_
  refine Stepwise.bind inferInstance fun r => ?_
  cases r <;> infer_instance

instance stepwise_callArguments : Ysh.Stepwise g.callArguments := by
  unfold callArguments
  infer_instance

instance stepwise_negation : Ysh.Stepwise negation := by
  unfold negation
  infer_instance

instance stepwise_commandName : Ysh.Stepwise g.commandName := by
  unfold commandName
  refine Stepwise.bind inferInstance fun name => ?_
  split <;> infer_instance

instance stepwise_envBindings (start : Nat) : Ysh.Stepwise (g.envBindings start) := by
  unfold envBindings
  infer_instance

instance stepwise_callBlock (allowsBlock : Bool) : Ysh.Stepwise (g.callBlock allowsBlock) := by
  unfold callBlock
  infer_instance

instance stepwise_commandCall (allowsBlock : Bool) : Ysh.Stepwise (g.commandCall allowsBlock) := by
  unfold commandCall
  infer_instance

/-! ## Definitions -/

instance stepwise_comma : Ysh.Stepwise comma := by
  unfold comma
  infer_instance

instance stepwise_parameter : Ysh.Stepwise g.parameter := by
  unfold parameter
  infer_instance

instance stepwise_endOfTier (fault : ParameterFault) : Ysh.Stepwise (endOfTier fault) := by
  unfold endOfTier
  infer_instance

instance stepwise_restParameter (allowed : Bool) : Ysh.Stepwise (restParameter allowed) := by
  unfold restParameter
  infer_instance

instance stepwise_parameterRound (allowsRest : Bool) (a : Array Parameter × Option Parameter) :
    Ysh.Stepwise (g.parameterRound allowsRest a) := by
  unfold parameterRound
  infer_instance

instance stepwise_parameterGroup (allowsRest : Bool) :
    Ysh.Stepwise (g.parameterGroup allowsRest) := by
  unfold parameterGroup
  infer_instance

instance stepwise_blockParameter : Ysh.Stepwise g.blockParameter := by
  unfold blockParameter
  infer_instance

instance stepwise_nextTier {α : Type} (tier : Token → Parse α) [∀ token, Ysh.Stepwise (tier token)] :
    Ysh.Stepwise (nextTier tier) := by
  unfold nextTier
  infer_instance

instance stepwise_noFurtherTier (fault : ParameterFault) : Ysh.Stepwise (noFurtherTier fault) := by
  unfold noFurtherTier
  infer_instance

instance stepwise_funcTiers (opening : Span) : Ysh.Stepwise (g.funcTiers opening) := by
  unfold funcTiers
  infer_instance

instance stepwise_procTiers (opening : Span) : Ysh.Stepwise (g.procTiers opening) := by
  unfold procTiers
  infer_instance

instance stepwise_parameterList (kind : Definition) (opening : Span) :
    Ysh.Stepwise (g.parameterList kind opening) := by
  cases kind <;> (unfold parameterList; infer_instance)

instance stepwise_definitionBody (kind : Definition) : Ysh.Stepwise (g.definitionBody kind) :=
  Parse.stepwise_within (.defining kind) _

instance stepwise_funcDefinition : Ysh.Stepwise g.funcDefinition := by
  unfold funcDefinition
  infer_instance

instance stepwise_procName : Ysh.Stepwise procName := by
  unfold procName
  infer_instance

instance stepwise_procParameters : Ysh.Stepwise g.procParameters := by
  unfold procParameters
  infer_instance

instance stepwise_procDefinition : Ysh.Stepwise g.procDefinition := by
  unfold procDefinition
  infer_instance

instance stepwise_returnValue : Ysh.Stepwise g.returnValue := by
  unfold returnValue
  refine Stepwise.bind inferInstance fun kind => Parse.stepwise_read (fun ctx => ?_) fun _ _ => rfl
  split <;> infer_instance

instance stepwise_returnStatement : Ysh.Stepwise g.returnStatement := by
  unfold returnStatement
  infer_instance

/-! ## Loops and conditions -/

instance stepwise_condition : Ysh.Stepwise g.condition := by
  unfold condition
  infer_instance

instance stepwise_whileLoop : Ysh.Stepwise g.whileLoop := by
  unfold whileLoop
  infer_instance

instance stepwise_furtherName : Ysh.Stepwise furtherName := by
  unfold furtherName
  infer_instance

instance stepwise_loopNames : Ysh.Stepwise loopNames := by
  unfold loopNames
  infer_instance

instance stepwise_rangeOrValue : Ysh.Stepwise g.rangeOrValue := by
  unfold rangeOrValue
  infer_instance

instance stepwise_nextWord : Ysh.Stepwise g.nextWord := by
  unfold nextWord
  infer_instance

instance stepwise_iterable : Ysh.Stepwise g.iterable := by
  unfold iterable
  infer_instance

instance stepwise_forLoop : Ysh.Stepwise g.forLoop := by
  unfold forLoop
  infer_instance

instance stepwise_branch (keyword : Token) : Ysh.Stepwise (g.branch keyword) := by
  unfold branch
  infer_instance

instance stepwise_branchKeyword (text : String) : Ysh.Stepwise (branchKeyword text) := by
  unfold branchKeyword
  infer_instance

instance stepwise_elifBranch : Ysh.Stepwise g.elifBranch := by
  unfold elifBranch
  refine Stepwise.bind inferInstance fun r => ?_
  cases r <;> infer_instance

instance stepwise_elseBody : Ysh.Stepwise g.elseBody := by
  unfold elseBody
  refine Stepwise.bind inferInstance fun r => ?_
  cases r <;> infer_instance

instance stepwise_conditional : Ysh.Stepwise g.conditional := by
  unfold conditional
  infer_instance

/-! ## Case -/

instance stepwise_furtherGlob : Ysh.Stepwise g.furtherGlob := by
  unfold furtherGlob
  infer_instance

instance stepwise_globPattern : Ysh.Stepwise g.globPattern := by
  unfold globPattern
  infer_instance

instance stepwise_parenthesizedPattern : Ysh.Stepwise g.parenthesizedPattern := by
  unfold parenthesizedPattern
  infer_instance

instance stepwise_casePattern : Ysh.Stepwise g.casePattern := by
  unfold casePattern
  infer_instance

instance stepwise_caseArm : Ysh.Stepwise g.caseArm := by
  unfold caseArm
  infer_instance

instance stepwise_skipArmRound (depth : Nat) : Ysh.Stepwise (g.skipArmRound depth) := by
  refine Stepwise.bind (x := peek .command) inferInstance fun token => ?_
  split <;> infer_instance

instance stepwise_skipArm : Ysh.Stepwise g.skipArm := by
  unfold skipArm
  infer_instance

instance stepwise_armOrNone : Ysh.Stepwise g.armOrNone := by
  exact stepwise_attempt (x := g.caseArm) (k := fun _ => do g.skipArm; return none)
    inferInstance inferInstance inferInstance fun e => rfl

instance stepwise_armsRound (arms : Array Arm) : Ysh.Stepwise (g.armsRound arms) := by
  unfold armsRound
  infer_instance

instance stepwise_caseArms : Ysh.Stepwise g.caseArms := by
  unfold caseArms
  infer_instance

instance stepwise_caseStatement : Ysh.Stepwise g.caseStatement := by
  unfold caseStatement
  infer_instance

/-! ## Statements -/

instance stepwise_commandStatement : Ysh.Stepwise g.commandStatement := by
  unfold commandStatement
  infer_instance

instance stepwise_wordStatement (token : Token) : Ysh.Stepwise (g.wordStatement token) := by
  unfold wordStatement
  split
  case h_14 => exact Parse.stepwise_read inferInstance fun _ _ => rfl
  all_goals infer_instance

instance stepwise_pipelineElement : Ysh.Stepwise g.pipelineElement := by
  unfold pipelineElement
  infer_instance

instance stepwise_pipeRound (left : Statement) : Ysh.Stepwise (g.pipeRound left) := by
  unfold pipeRound
  infer_instance

instance stepwise_statement : Ysh.Stepwise g.statement := by
  unfold statement
  infer_instance

instance stepwise_terminatedStatement : Ysh.Stepwise g.terminatedStatement := by
  unfold terminatedStatement
  infer_instance

instance stepwise_skipStatementRound (closers : List Token.Kind) (depth : Nat) :
    Ysh.Stepwise (g.skipStatementRound closers depth) := by
  refine Stepwise.bind (x := peek .command) inferInstance fun token => ?_
  refine @stepwise_ite _ _ _ _ _ _ _ _ _ inferInstance (Stepwise.bind inferInstance fun _ => ?_)
  split <;> infer_instance

instance stepwise_skipStatement : Ysh.Stepwise g.skipStatement := by
  exact Scan.stepwise_read (fun ctx => inferInstance) fun _ _ => rfl

instance stepwise_recover : Ysh.Stepwise g.recover := by
  unfold recover
  infer_instance

instance stepwise_strayCloser : Ysh.Stepwise strayCloser := by
  unfold strayCloser
  infer_instance

instance stepwise_statementOrError : Ysh.Stepwise g.statementOrError := by
  unfold statementOrError
  refine Stepwise.bind inferInstance fun token => ?_
  exact stepwise_attempt (x := g.terminatedStatement) inferInstance inferInstance
    (fun e => inferInstance) fun e => rfl

instance stepwise_listedStatement (closer : Option Token.Kind) :
    Ysh.Stepwise (g.listedStatement closer) := by
  unfold listedStatement
  infer_instance

instance stepwise_statementList (closer : Option Token.Kind) :
    Ysh.Stepwise (g.statementList closer) :=
  Scan.stepwise_within (.awaiting closer) (collect (g.listedStatement closer))

instance stepwise_program : Ysh.Stepwise g.program := by
  unfold program
  infer_instance

/-! ## The language -/

/-- The readers of YSH are made of steps. -/
instance stepwise_turns (n : Nat) : Stepwise (turns n) := by
  induction n with
  | zero =>
      refine ⟨?_, fun closer => stepwise_pure _, fun opener token => stepwise_throw _⟩
      change Ysh.Stepwise (do throw (.expectedExpression (← peek .expression)) : Parse Expression)
      infer_instance
  | succ n ih => exact ⟨stepwise_expressionBody, stepwise_statementList, stepwise_expansionBody⟩

instance stepwise_forState (s : State) : Stepwise (forState s) :=
  stepwise_turns _

end Grammar

end Ysh
