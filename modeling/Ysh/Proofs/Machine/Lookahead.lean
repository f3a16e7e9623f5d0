import Ysh.Proofs.Machine.Reachable

/-!
# Looking Ahead is not Seen

Whether the machine has looked at the next token, in which mode and how often, shows in
what it keeps and in where its lexer stands. No routine depends on either. The same goes
for reading ahead of the next token and going back: the checkpoint has the place and the
number of diagnostics, and everything else has been restored by then.

Three productions read ahead. The test for a constant in short always goes back. The
number in front of a redirection and the keyword of a further branch are consumed if
they are there, and if they are not then nothing has happened.

## Main definitions

* `Machine.Unseen`: Two machines that no routine tells apart.
* `Machine.peeks`: Any number of looks at the next token.

## Theorems

* `Machine.unseen_of_state`: What a machine keeps is not seen.
* `Grammar.stays_descriptorRedirection`: A number that is an argument is left alone.
* `Grammar.stays_branchKeyword`: So are newlines with no branch behind them.
* `Machine.lookahead_unseen`: Looking and reading ahead are not seen.
-/

namespace Ysh

namespace Machine

/-- The machine `m'` is `m` but for what no routine can see: it has read and reported the
    same, has the same limits and counters, and whatever it executes comes to the same. -/
structure Unseen (m m' : Machine) : Prop where
  place : m'.place = m.place
  diagnostics : m'.diagnostics = m.diagnostics
  frame : m'.frame = m.frame
  result {α : Type} (p : Routine α) : (p.exec m').1 = (p.exec m).1
  state {α : Type} (p : Routine α) : (p.exec m').2.state = (p.exec m).2.state

/-- Looks at the next token in one mode after the other. -/
def peeks (m : Machine) (modes : List Mode) : Machine :=
  modes.foldl (fun m mode => (m.look mode).2) m

variable {m m' : Machine}

/-- What a machine keeps is not seen, if it is fresh. -/
theorem unseen_of_state (h : m.Fresh) (h' : m'.Fresh) (hstate : m'.state = m.state)
    (hframe : m'.frame = m.frame) : m.Unseen m' := by
  have hruns : ∀ {α : Type} (p : Routine α), m'.Follows (p.exec m') (p.read m.context m.state) := by
    intro α p
    have hrun := p.follows m' h'
    rwa [hstate, Machine.context, hframe] at hrun
  refine ⟨congrArg State.cursor hstate, congrArg State.diagnostics hstate, hframe, fun p => ?_,
    fun p => ?_⟩
  · exact (hruns p).result.trans (p.follows m h).result.symm
  · exact (hruns p).state.trans (p.follows m h).state.symm

theorem Fresh.peeks (h : m.Fresh) (modes : List Mode) :
    (m.peeks modes).Fresh ∧ (m.peeks modes).state = m.state ∧ (m.peeks modes).frame = m.frame := by
  induction modes generalizing m with
  | nil => exact ⟨h, rfl, rfl⟩
  | cons mode modes ih =>
      rcases h.look mode with ⟨-, hfresh, hstate, hframe⟩
      rcases ih hfresh with ⟨hfresh', hstate', hframe'⟩
      exact ⟨hfresh', hstate'.trans hstate, hframe'.trans hframe⟩

section

variable {n : Type → Type} [Monad n] [MonadStateOf State n] [Reads n] {α : Type}

/-- A production that leaves the place and the diagnostics alone is not seen. -/
theorem Fresh.unseen_run (h : m.Fresh) (x : n α) [Stepwise x]
    (hstays : (outcome x m.context m.state).2 = m.state) : m.Unseen (m.run x).2 := by
  have hrun := h.run x
  exact unseen_of_state h hrun.fresh (hrun.state.trans hstays) hrun.frame

/-- A production that finds nothing, and leaves everything alone when it does, is not
    seen if it finds nothing. -/
theorem Fresh.unseen_run_none (h : m.Fresh) (x : n (Option α)) [Stepwise x]
    (hstays : ∀ D, Ensures D x m.context m.state fun o s' => o = none → s' = m.state)
    (hnone : (m.run x).1 = .ok none) : m.Unseen (m.run x).2 := by
  refine h.unseen_run x ?_
  have hresult : (outcome x m.context m.state).1 = .ok none := (h.run x).result.symm.trans hnone
  exact hstays _ none _ (Prod.ext hresult rfl) List.prefix_rfl rfl

end

end Machine

namespace Grammar

variable {g : Grammar} [g.Stepwise] {ctx : Context} {s : State} {D : List Diagnostic}

/-- A number that no redirection touches is left where it is. -/
theorem stays_descriptorRedirection :
    Ensures D g.descriptorRedirection ctx s fun o s' => o = none → s' = s := by
  refine ensures_peek (ensures_ite (fun _ => ensures_pure.2 fun _ _ => rfl) fun _ => ?_)
  split
  · refine Moving.ensures_seq (fun next => ?_) (ensures_lift ensures_ahead) ?_
    · split <;> infer_instance
    · rintro next s1 rfl
      split
      · refine ensures_ite (fun _ => ensures_pure.2 fun _ _ => rfl) fun _ => ?_
        -- From here on there is a redirection, or an error.
        refine ensures_skip fun _ s2 => ensures_ite (fun _ => ensures_throw) fun _ => ?_
        exact ensures_skip fun r s3 => ensures_pure.2 fun _ => by simp
      · exact ensures_pure.2 fun _ _ => rfl
  · exact ensures_pure.2 fun _ _ => rfl

omit [g.Stepwise] in
/-- Newlines with no branch behind them are left where they are. -/
theorem stays_branchKeyword {text : String} :
    Ensures D (branchKeyword text) ctx s fun o s' => o = none → s' = s := by
  refine ensures_seq ensures_ahead ?_
  rintro comes s1 rfl
  refine ensures_ite (fun _ => ensures_skip fun _ s2 => ?_) fun _ => ensures_pure.2 fun _ _ => rfl
  exact ensures_skip fun keyword s3 => ensures_pure.2 fun _ => by simp

end Grammar

/-- Looking ahead and speculating are not seen. In every reachable machine the token that
    is kept, with the errors in front of it, is the one that would be lexed from the place
    behind the last token, and so the machine comes to what the reader comes to, which
    keeps nothing and lexes every time. However often the next token is looked at, in
    whatever modes, and whatever is read before a checkpoint is restored, no routine that
    follows comes to anything else. That is so for the test for a constant in short, for a
    number that turns out to be an argument, and for the search for a branch that is not
    there. -/
theorem Machine.lookahead_unseen {limits : Limits} {source : String} {m : Machine}
    (hm : m.Reachable limits source) :
    (∀ kept, m.kept = some kept → kept.found = m.place.lookahead kept.mode kept.overLines) ∧
    (∀ (α : Type) (p : Routine α), m.Follows (p.exec m) (p.read m.context m.state)) ∧
    (∀ modes, m.Unseen (m.peeks modes)) ∧
    (∀ (α : Type) (p : Routine α), m.Unseen ((p.exec m).2.restore m.checkpoint)) ∧
    m.Unseen (m.run Grammar.startsShorthand).2 ∧
    (∀ n, (m.run (Grammar.turns n).descriptorRedirection).1 = .ok none →
      m.Unseen (m.run (Grammar.turns n).descriptorRedirection).2) ∧
    ∀ text, (m.run (Grammar.branchKeyword text)).1 = .ok none →
      m.Unseen (m.run (Grammar.branchKeyword text)).2 := by
  have hfresh := hm.fresh
  refine ⟨hfresh, fun α p => p.follows m hfresh, fun modes => ?_, fun α p => ?_,
    hfresh.unseen_run _ rfl, fun n => ?_, fun text => ?_⟩
  · rcases hfresh.peeks modes with ⟨hpeeked, hstate, hframe⟩
    exact unseen_of_state hfresh hpeeked hstate hframe
  · have hahead := (Routine.ahead p).follows m hfresh
    exact unseen_of_state hfresh hahead.fresh hahead.state hahead.frame
  · exact hfresh.unseen_run_none _ fun D => Grammar.stays_descriptorRedirection
  · exact hfresh.unseen_run_none _ fun D => Grammar.stays_branchKeyword

/-- The `2` of `2 >x` is kept as a number of an expression. It is looked at again as a
    word, in front of an operator but with a gap between, and that leaves no trace. -/
theorem Machine.number_before_gap_unseen :
    let m := ((Machine.start {} "2 >x").look .expression).2
    m.Reachable {} "2 >x" ∧
      (m.run (Grammar.turns 1).descriptorRedirection).1 = .ok none ∧
      m.Unseen (m.run (Grammar.turns 1).descriptorRedirection).2 := by
  intro m
  have hm : m.Reachable {} "2 >x" := .look .start .expression
  have hread : (outcome (Grammar.turns 1).descriptorRedirection { limits := {} }
    (.ofSource "2 >x")).1 = .ok none := rfl
  have hnone : (m.run (Grammar.turns 1).descriptorRedirection).1 = .ok none :=
    (hm.fresh.run _).result.trans hread
  rcases lookahead_unseen hm with ⟨-, -, -, -, -, hnumber, -⟩
  exact ⟨hm, hnone, hnumber 1 hnone⟩

end Ysh
