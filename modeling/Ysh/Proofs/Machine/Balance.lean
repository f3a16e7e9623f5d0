import Ysh.Proofs.Machine.Reachable

/-!
# Balance

A production of the machine bumps counters on its way in, and may leave at any point in
between with an error. Whether it does or not, the counters are what they were. Since the
place never goes back and no diagnostic is withdrawn, a call leaves behind nothing but
what it has read and reported.

This is what makes it safe to go on with a machine on which something has failed. After
any number of calls, whatever they were and however they ended, the machine in front of
the rest of the source is at no depth, inside no bracket and waits for nothing, so it
reads the rest as a program.

## Main definitions

* `Machine.Balanced`: What a call leaves as it was.
* `Machine.Called`: One production is called after the other.

## Theorems

* `Machine.Fresh.balanced_run`: A production leaves the machine balanced.
* `Machine.Called.balanced`: So do any number of them.
* `Machine.calls_balanced`: And what follows is read as if nothing had been called.
-/

namespace Ysh

namespace Machine

/-- The counters of `m'` are those of `m`. It is not further back in the source, and has
    all the diagnostics. -/
structure Balanced (m m' : Machine) : Prop where
  limits : m'.limits = m.limits
  depth : m'.depth = m.depth
  nesting : m'.nesting = m.nesting
  closers : m'.closers = m.closers
  definition : m'.definition = m.definition
  forward : m.place.offset ≤ m'.place.offset
  kept : m.diagnostics <+: m'.diagnostics

/-- The machine `m'` is left when productions have been called on `m`, one after the
    other. They may all have failed. -/
inductive Called (m : Machine) : Machine → Prop
  | nothing : Called m m
  | call {m' : Machine} {n : Type → Type} [Monad n] [MonadStateOf State n] [Reads n] {α : Type}
      (h : Called m m') (x : n α) [Stepwise x] : Called m (m'.run x).2

variable {limits : Limits} {source : String} {m m' m'' : Machine}

namespace Balanced

theorem refl (m : Machine) : m.Balanced m :=
  ⟨rfl, rfl, rfl, rfl, rfl, Nat.le_refl _, List.prefix_rfl⟩

theorem trans (h : m.Balanced m') (h' : m'.Balanced m'') : m.Balanced m'' where
  limits := h'.limits.trans h.limits
  depth := h'.depth.trans h.depth
  nesting := h'.nesting.trans h.nesting
  closers := h'.closers.trans h.closers
  definition := h'.definition.trans h.definition
  forward := Nat.le_trans h.forward h'.forward
  kept := h.kept.trans h'.kept

/-- The counters are one frame, and reading moves. -/
theorem of_moves (hframe : m'.frame = m.frame) (hmoves : Moves limits m.state m'.state) :
    m.Balanced m' where
  limits := congrArg Frame.limits hframe
  depth := congrArg Frame.depth hframe
  nesting := congrArg Frame.nesting hframe
  closers := congrArg Frame.closers hframe
  definition := congrArg Frame.definition hframe
  forward := hmoves.offset_le
  kept := hmoves.kept

/-- Balance keeps the context. -/
theorem context (h : m.Balanced m') : m'.context = m.context := by
  unfold Machine.context Machine.frame
  rw [h.limits, h.depth, h.nesting, h.closers, h.definition]

end Balanced

/-- Whether a production fails or not, it leaves the machine balanced. -/
theorem Fresh.balanced_run {n : Type → Type} [Monad n] [MonadStateOf State n] [Reads n]
    {α : Type} (h : m.Fresh) (x : n α) [Stepwise x] : m.Balanced (m.run x).2 := by
  have hrun := h.run x
  have hmoves := (moving_of_stepwise x).moves m.context m.state
  rw [← hrun.state] at hmoves
  exact .of_moves hrun.frame hmoves

namespace Called

theorem reachable (h : m.Called m') (hm : m.Reachable limits source) :
    m'.Reachable limits source := by
  induction h with
  | nothing => exact hm
  | call _ x ih => exact ih.run x

/-- However often something has been called, the machine is balanced. -/
theorem balanced (h : m.Called m') (hm : m.Reachable limits source) : m.Balanced m' := by
  induction h with
  | nothing => exact .refl m
  | call hcalls x ih => exact ih.trans ((hcalls.reachable hm).fresh.balanced_run x)

end Called

end Machine

/-- Parsing is balanced, whether it succeeds or fails. From a reachable machine every
    production, and all of the grammar are made of steps, comes to what reading comes to.
    It leaves all counters as they were, the place no further back, and the diagnostics in
    place. So after any number of calls a machine is still outside of everything: newlines
    mean something, and it reads the rest of the source as a program, at no depth. -/
theorem Machine.calls_balanced {limits : Limits} {source : String} {m : Machine}
    (hm : m.Reachable limits source) :
    (∀ {n : Type → Type} [Monad n] [MonadStateOf State n] [Reads n] {α : Type} (x : n α)
      [Stepwise x], m.Follows (m.run x) (outcome x m.context m.state) ∧
        m.Balanced (m.run x).2) ∧
    ∀ m', (Machine.start limits source).Called m' →
      m'.depth = 0 ∧ m'.nesting = 0 ∧ m'.closers = [] ∧ m'.definition = none ∧
      (∀ mode, m'.overLines mode = false) ∧
      (m'.run (Grammar.forState m'.state).program).1 = .ok (readProgram limits m'.state).1 ∧
      (m'.run (Grammar.forState m'.state).program).2.state = (readProgram limits m'.state).2 := by
  refine ⟨fun x => ⟨hm.fresh.run x, hm.fresh.balanced_run x⟩, fun m' hcalls => ?_⟩
  have hbalanced := hcalls.balanced .start
  have hnesting : m'.nesting = 0 := hbalanced.nesting
  have hrest := (hcalls.reachable .start).fresh.run (Grammar.forState m'.state).program
  rw [hbalanced.context] at hrest
  refine ⟨hbalanced.depth, hnesting, hbalanced.closers, hbalanced.definition, fun mode => ?_,
    hrest.result, hrest.state⟩
  unfold Machine.overLines
  rw [hnesting]
  exact Bool.and_false _

/-- Inside a bracket, the expression `(1` opens another one and fails there, because nothing
    closes it. The machine was one level deep and in one bracket, and so it is afterwards. -/
theorem Machine.unclosed_parenthesis_balanced :
    let m := ({ Machine.start {} "(1" with depth := 1 } : Machine).enter .bracketed
    let call := m.run (Grammar.turns 4).expressionBody
    m.Reachable {} "(1" ∧ call.1.isOk = false ∧ m.Balanced call.2 ∧
      call.2.depth = 1 ∧ call.2.nesting = 1 := by
  intro m call
  have hm : m.Reachable {} "(1" := .enter (.deeper .start) .bracketed
  have hread : (outcome (Grammar.turns 4).expressionBody
      { limits := {}, depth := 1, inBrackets := true } (.ofSource "(1")).1.isOk = false := by
    decide +kernel
  rcases (calls_balanced hm).1 (Grammar.turns 4).expressionBody with ⟨hfollows, hbalanced⟩
  exact ⟨hm, (congrArg Except.isOk hfollows.result).trans hread, hbalanced, hbalanced.depth,
    hbalanced.nesting⟩

end Ysh
