import Ysh.Proofs.Machine.Basic

/-!
# Reachable Machines

A machine may be asked about in the middle of a production: inside a bracket that is
still open, ahead of a place it will go back to, with a token kept that was looked at in
the other mode. `Machine.Reachable` closes the machine in front of a source under all
that a routine does on its way, and so it holds of every such machine. It asks for less
than a routine keeps to, a checkpoint may come from anywhere, and is the larger for it.

The one thing that has to hold of all of them is that the kept token is fresh. Looking
makes it so, consuming and reading raw and going back forget it, and no counter matters
to it: with what mode and what newlines it was looked at is kept along with it.

A production of the grammar is run by executing a routine of its own. Which routine
that is makes no difference that can be seen.

## Main definitions

* `Machine.Reachable`: The machines that a parse of a source can come to.
* `Stepwise.routine`, `Machine.run`: A production, executed by the machine.

## Theorems

* `Machine.Reachable.fresh`: What a reachable machine keeps is fresh.
* `Machine.Reachable.exec`: A routine leads from reachable machines to reachable ones.
* `Machine.Reachable.run`: Running a production is reading it.
* `Machine.parse_eq`: A parse is what the machine does with the program.
-/

namespace Ysh

namespace Machine

/-- The machines that a parse of the source can come to, in the middle of a production or
    at its end. -/
inductive Reachable (limits : Limits) (source : String) : Machine → Prop
  | start : Reachable limits source (.start limits source)
  | look {m : Machine} (h : Reachable limits source m) (mode : Mode) :
      Reachable limits source (m.look mode).2
  | advance {m : Machine} (h : Reachable limits source m) (mode : Mode) :
      Reachable limits source (m.advance mode).2
  | raw {m : Machine} {α : Type} (h : Reachable limits source m) (read : Cursor → α × Cursor)
      (hread : ∀ c, ∃ n, (read c).2 = c.advance n) : Reachable limits source (m.raw read).2
  | report {m : Machine} (h : Reachable limits source m) (d : Diagnostic) :
      Reachable limits source (m.report d)
  | restore {m before : Machine} (h : Reachable limits source m)
      (hbefore : Reachable limits source before) :
      Reachable limits source (m.restore before.checkpoint)
  | deeper {m : Machine} (h : Reachable limits source m) :
      Reachable limits source { m with depth := m.depth + 1 }
  | shallower {m : Machine} (h : Reachable limits source m) :
      Reachable limits source { m with depth := m.depth - 1 }
  | enter {m : Machine} (h : Reachable limits source m) (change : Context.Change) :
      Reachable limits source (m.enter change)
  | leave {m before : Machine} (h : Reachable limits source m)
      (hbefore : Reachable limits source before) (change : Context.Change) :
      Reachable limits source (m.leave before change)

variable {limits : Limits} {source : String} {m : Machine}

/-- The token that a reachable machine keeps is the one that would be lexed. -/
theorem Reachable.fresh (h : m.Reachable limits source) : m.Fresh := by
  induction h with
  | start => exact fresh_of_none rfl
  | look _ mode ih => exact (ih.look mode).2.1
  | advance _ mode ih => exact (Routine.follows (.advance mode) _ ih).fresh
  | raw => exact fresh_of_none rfl
  | report _ d ih => exact ih.report d
  | restore => exact fresh_of_none rfl
  | deeper _ ih | shallower _ ih => exact ih
  | enter _ change ih => exact ih.enter change
  | leave _ _ change ih => exact (leave_state _ _ change).2 ih

/-- Whatever a routine does, it does from reachable machines to reachable ones. -/
theorem Reachable.exec {α : Type} (p : Routine α) (h : m.Reachable limits source) :
    (p.exec m).2.Reachable limits source := by
  induction p generalizing m with
  | pure | throw | position => exact h
  | bind p f hp hf =>
      have hfirst := hp h
      rw [Routine.exec]
      generalize p.exec m = r at hfirst ⊢
      rcases r with ⟨e | a, m1⟩
      · exact hfirst
      · exact hf a hfirst
  | consult f hf => exact hf m.context h
  | clocked f hf => exact hf m.place.rest h
  | look mode => exact h.look mode
  | report d => exact h.report d
  | advance mode => exact h.advance mode
  | raw read hread => exact h.raw read hread
  | ahead p hp => exact (hp h).restore h
  | nested p hp =>
      rw [Routine.exec]
      by_cases hdeep : m.limits.depth ≤ m.depth
      · rw [if_pos hdeep]
        exact h
      · rw [if_neg hdeep]
        exact (hp h.deeper).shallower
  | within change p hp => exact (hp (h.enter change)).leave h change
  | orReport p f k hp hf hk =>
      have hfirst := hp h
      rw [Routine.exec]
      generalize p.exec m = r at hfirst ⊢
      rcases r with ⟨e | a, m1⟩
      · exact hk e (hfirst.report (.syntactic e))
      · exact hf a hfirst

end Machine

/-! ## Running productions -/

section

variable {n : Type → Type} [Monad n] [MonadStateOf State n] [Reads n] {α : Type}

/-- A routine that a production is. -/
noncomputable def Stepwise.routine (x : n α) [h : Stepwise x] : Routine α :=
  Classical.choose h.steps.routine

theorem Stepwise.read_routine (x : n α) [h : Stepwise x] :
    (Stepwise.routine x).read = Reads.parse x :=
  Classical.choose_spec h.steps.routine

namespace Machine

/-- The machine runs a production. -/
noncomputable def run (m : Machine) (x : n α) [Stepwise x] : Except SyntaxError α × Machine :=
  (Stepwise.routine x).exec m

variable {limits : Limits} {source : String} {m : Machine}

/-- Running a production comes to what reading it comes to, with the same counters as
    before. -/
theorem Fresh.run (h : m.Fresh) (x : n α) [Stepwise x] :
    m.Follows (m.run x) (outcome x m.context m.state) := by
  have hfollows := (Stepwise.routine x).follows m h
  rwa [Stepwise.read_routine] at hfollows

theorem Reachable.run (h : m.Reachable limits source) (x : n α) [Stepwise x] :
    (m.run x).2.Reachable limits source :=
  h.exec _

end Machine

end

/-- A parse is what the machine does with the program, from the start of the source. -/
theorem Machine.parse_eq (limits : Limits) (source : String)
    (hsize : source.utf8ByteSize ≤ limits.inputSize) :
    ∃ statements after,
      (Machine.start limits source).run (Grammar.forState (.ofSource source)).program
        = (.ok statements, after) ∧
      parse limits source = .ofStatements source statements after.diagnostics := by
  have hrun := (Machine.fresh_of_none (m := .start limits source) rfl).run
    (Grammar.forState (.ofSource source)).program
  refine ⟨(readProgram limits (.ofSource source)).1, _, Prod.ext hrun.result rfl, ?_⟩
  have hparse : parse limits source = finish limits source (.ofSource source) := by
    unfold parse
    exact if_neg (Nat.not_lt_of_le hsize)
  rw [hparse]
  exact congrArg (fun s : State => Parsed.ofStatements source
    (readProgram limits (.ofSource source)).1 s.diagnostics) hrun.state.symm

end Ysh
