import Ysh.Proofs.Steps

/-!
# The Reader as a Machine

The reader of the grammar lexes a token every time it looks at it, hands its context
down, and forgets a context when a production returns. A machine that reads at the same
speed as it looks does none of this. It keeps the token that it has looked at, with the
errors in front of it, until that token is consumed or something makes it stale. It has
counters for what the context says, which a production bumps on its way in and has to
restore on its way out, also when it fails. And where it looks further ahead than one
token it goes back to a checkpoint.

All of that could go wrong, and none of it is seen in the results. A routine can be run
both ways: read as the grammar reads it, and executed by the machine. What the machine
keeps is only a copy of what it would lex again, `Machine.Fresh`, and with that in hand
both ways come to the same.

## Main definitions

* `Machine`: The places, the token that is kept, the diagnostics, and the counters.
* `Machine.look`, `Machine.advance`, `Machine.raw`, `Machine.restore`: What it does.
* `Machine.enter`, `Machine.leave`: The counters on the way in and on the way out.
* `Routine.exec`: A routine as the machine executes it.
* `Machine.Fresh`: The token that is kept is the one that would be lexed.
* `Machine.frame`: The limits and the counters.

## Theorems

* `Machine.leave_frame`: A change of the counters that is taken back leaves no trace.
* `Routine.follows`: Executing a routine is reading it, and leaves the counters alone.
-/

namespace Ysh

/-! ## The machine -/

/-- A token that has been looked at, with how it was looked at. -/
structure Kept where
  mode : Mode
  overLines : Bool
  found : Cursor.Lookahead

/-- What the machine has between two steps. -/
structure Machine where
  limits : Limits
  /-- The place behind the last token that was consumed. -/
  place : Cursor
  /-- Where the lexer stands. -/
  lexer : Cursor
  /-- The token that was looked at last. -/
  kept : Option Kept := none
  diagnostics : List Diagnostic := []
  /-- The levels of nesting around the production that runs. -/
  depth : Nat := 0
  /-- The expression brackets that are open. -/
  nesting : Nat := 0
  /-- The closing tokens that the statement lists around wait for, the innermost first. -/
  closers : List Token.Kind := []
  /-- The definition whose body is being read. -/
  definition : Option Definition := none

namespace Machine

/-- The machine in front of a source. -/
def start (limits : Limits) (source : String) : Machine where
  limits := limits
  place := .ofSource source
  lexer := .ofSource source

/-- Newlines mean nothing in the expressions inside brackets. -/
def overLines (m : Machine) (mode : Mode) : Bool :=
  mode == .expression && decide (0 < m.nesting)

/-- The token that is kept, if it was looked at in the mode and with newlines meaning
    what they mean now. -/
def kept? (m : Machine) (mode : Mode) : Option Cursor.Lookahead :=
  match m.kept with
  | some kept =>
      if kept.mode = mode ∧ kept.overLines = m.overLines mode then some kept.found else none
  | none => none

/-- The next token in a mode, with the errors in front of it. It is lexed from the place
    behind the last token, unless it is kept already. -/
def look (m : Machine) (mode : Mode) : Cursor.Lookahead × Machine :=
  match m.kept? mode with
  | some found => (found, m)
  | none =>
      let found := m.place.lookahead mode (m.overLines mode)
      (found, { m with lexer := found.after, kept := some ⟨mode, m.overLines mode, found⟩ })

/-- Adds a diagnostic, unless there are as many as the limit allows. -/
def report (m : Machine) (d : Diagnostic) : Machine :=
  if m.diagnostics.length < m.limits.diagnostics then
    { m with diagnostics := m.diagnostics ++ [d] }
  else m

/-- Reports the errors in front of a token. -/
def reportAll (m : Machine) (errors : List LexicalError) : Machine :=
  errors.foldl (fun m error => m.report (.lexical error)) m

/-- Consumes the next token in a mode: it is no longer kept, and the errors in front of
    it are reported now. -/
def advance (m : Machine) (mode : Mode) : Token × Machine :=
  let (next, m) := m.look mode
  let m := { m with kept := none }.reportAll next.errors
  (next.token, { m with place := next.after, lexer := next.after })

/-- Hands the lexer over at the very place behind the last token. -/
def raw {α : Type} (m : Machine) (read : Cursor → α × Cursor) : α × Machine :=
  let m := { m with kept := none, lexer := m.place }
  let (result, after) := read m.lexer
  (result, { m with place := after, lexer := after })

/-- What a speculation goes back to. -/
structure Checkpoint where
  place : Cursor
  /-- The number of diagnostics. -/
  diagnostics : Nat

def checkpoint (m : Machine) : Checkpoint :=
  ⟨m.place, m.diagnostics.length⟩

/-- Goes back to a checkpoint. The counters stay as they are. -/
def restore (m : Machine) (saved : Checkpoint) : Machine :=
  { m with
    place := saved.place, lexer := saved.place, kept := none
    diagnostics := m.diagnostics.take saved.diagnostics }

/-- Bumps the counters for a change of the context. -/
def enter (m : Machine) : Context.Change → Machine
  | .bracketed => { m with nesting := m.nesting + 1 }
  | .unbracketed => { m with nesting := 0 }
  | .awaiting closer => { m with closers := closer.toList ++ m.closers }
  | .defining kind => { m with definition := some kind }

/-- Takes a change of the context back: what was counted is counted down, what was
    pushed is popped, and what was replaced comes back from the machine before. -/
def leave (m before : Machine) : Context.Change → Machine
  | .bracketed => { m with nesting := m.nesting - 1 }
  | .unbracketed => { m with nesting := before.nesting }
  | .awaiting none => m
  | .awaiting (some _) => { m with closers := m.closers.tail }
  | .defining _ => { m with definition := before.definition }

/-- The limits and the counters. -/
structure Frame where
  limits : Limits
  depth : Nat
  nesting : Nat
  closers : List Token.Kind
  definition : Option Definition

def frame (m : Machine) : Frame :=
  ⟨m.limits, m.depth, m.nesting, m.closers, m.definition⟩

/-- What the counters say about where the machine is. -/
def Frame.context (frame : Frame) : Context where
  limits := frame.limits
  depth := frame.depth
  inBrackets := decide (0 < frame.nesting)
  closers := frame.closers
  definition := frame.definition

def context (m : Machine) : Context :=
  m.frame.context

/-- What the machine has read and reported. -/
def state (m : Machine) : State where
  cursor := m.place
  diagnostics := m.diagnostics

end Machine

/-! ## Executing routines -/

/-- A routine as the machine executes it. -/
def Routine.exec : {α : Type} → Routine α → Machine → Except SyntaxError α × Machine
  | _, pure a, m => (.ok a, m)
  | _, bind p f, m =>
      match p.exec m with
      | (.ok a, m) => (f a).exec m
      | (.error e, m) => (.error e, m)
  | _, throw e, m => (.error e, m)
  | _, consult f, m => (f m.context).exec m
  | _, clocked f, m => (f m.place.rest).exec m
  | _, look mode, m => (.ok (m.look mode).1, (m.look mode).2)
  | _, position, m => (.ok m.place.offset, m)
  | _, report d, m => (.ok (), m.report d)
  | _, advance mode, m => (.ok (m.advance mode).1, (m.advance mode).2)
  | _, raw read _, m => (.ok (m.raw read).1, (m.raw read).2)
  | _, ahead p, m => ((p.exec m).1, (p.exec m).2.restore m.checkpoint)
  | _, nested p, m =>
      if m.limits.depth ≤ m.depth then
        (.error (.nestingTooDeep m.limits.depth (.emptyAt m.place.offset)), m)
      else
        let (result, after) := p.exec { m with depth := m.depth + 1 }
        (result, { after with depth := after.depth - 1 })
  | _, within change p, m =>
      let (result, after) := p.exec (m.enter change)
      (result, after.leave m change)
  | _, orReport p f k, m =>
      match p.exec m with
      | (.ok a, m) => (f a).exec m
      | (.error e, m) => (k e).exec (m.report (.syntactic e))

/-! ## The token that is kept -/

namespace Machine

/-- The token that is kept is the one that would be lexed from the place behind the last
    token, in its mode and with newlines meaning what they meant. -/
def Fresh (m : Machine) : Prop :=
  ∀ kept, m.kept = some kept → kept.found = m.place.lookahead kept.mode kept.overLines

variable {m : Machine}

/-- Looking gives the next token and changes nothing but what is kept. -/
theorem Fresh.look (h : m.Fresh) (mode : Mode) :
    (m.look mode).1 = m.place.lookahead mode (m.overLines mode) ∧
      (m.look mode).2.Fresh ∧ (m.look mode).2.state = m.state ∧ (m.look mode).2.frame = m.frame := by
  unfold Machine.look
  rcases hkept : m.kept? mode with _ | found
  · refine ⟨rfl, ?_, rfl, rfl⟩
    rintro kept ⟨⟩
    rfl
  · refine ⟨?_, h, rfl, rfl⟩
    unfold Machine.kept? at hkept
    rcases hcache : m.kept with _ | kept
    · rw [hcache] at hkept
      cases hkept
    · rw [hcache] at hkept
      dsimp only at hkept
      split at hkept
      · next hsame =>
          cases hkept
          have hfresh := h kept hcache
          rwa [hsame.1, hsame.2] at hfresh
      · cases hkept

theorem report_frame (m : Machine) (d : Diagnostic) : (m.report d).frame = m.frame := by
  unfold Machine.report
  split <;> rfl

theorem report_state (m : Machine) (d : Diagnostic) :
    (m.report d).state = (Scan.report d m.context m.state).2 := by
  change _ = if m.diagnostics.length < m.limits.diagnostics then
    { m.state with diagnostics := m.diagnostics ++ [d] } else m.state
  unfold Machine.report
  split <;> rfl

theorem report_kept (m : Machine) (d : Diagnostic) : (m.report d).kept = m.kept := by
  unfold Machine.report
  split <;> rfl

theorem Fresh.report (h : m.Fresh) (d : Diagnostic) : (m.report d).Fresh := by
  intro kept hkept
  rw [report_kept] at hkept
  have hplace : (m.report d).place = m.place := by
    unfold Machine.report
    split <;> rfl
  rw [hplace]
  exact h kept hkept

theorem reportAll_spec (errors : List LexicalError) (m : Machine) :
    (m.reportAll errors).frame = m.frame ∧ (m.reportAll errors).kept = m.kept ∧
      (m.reportAll errors).state = (Ysh.reportAll errors m.context m.state).2 := by
  induction errors generalizing m with
  | nil => exact ⟨rfl, rfl, rfl⟩
  | cons e errors ih =>
      rcases ih (m.report (.lexical e)) with ⟨hframe, hkept, hstate⟩
      have hreport := m.report_frame (.lexical e)
      refine ⟨hframe.trans hreport, hkept.trans (m.report_kept _), ?_⟩
      rw [context, hreport, report_state] at hstate
      exact hstate

/-- Bumping the counters is changing the context. -/
theorem context_enter (m : Machine) (change : Context.Change) :
    (m.enter change).context = change.apply m.context := by
  cases change with
  | bracketed =>
      have hopen : decide (0 < m.nesting + 1) = true := decide_eq_true (Nat.succ_pos _)
      exact congrArg (fun inBrackets => { m.context with inBrackets }) hopen
  | unbracketed | awaiting | defining => rfl

/-- A change that is taken back leaves the counters as they were before. -/
theorem leave_frame {after : Machine} {change : Context.Change}
    (h : after.frame = (m.enter change).frame) : (after.leave m change).frame = m.frame := by
  have hlimits : after.limits = (m.enter change).limits := congrArg Frame.limits h
  have hdepth : after.depth = (m.enter change).depth := congrArg Frame.depth h
  have hnesting : after.nesting = (m.enter change).nesting := congrArg Frame.nesting h
  have hclosers : after.closers = (m.enter change).closers := congrArg Frame.closers h
  have hdefinition : after.definition = (m.enter change).definition := congrArg Frame.definition h
  rcases change with _ | _ | (_ | closer) | kind
  all_goals
    simp only [Machine.enter] at hlimits hdepth hnesting hclosers hdefinition
    simp [Machine.leave, Machine.frame, hlimits, hdepth, hnesting, hclosers, hdefinition]

/-- Taking a change back touches the counters only. -/
theorem leave_state (m before : Machine) (change : Context.Change) :
    (m.leave before change).state = m.state ∧ (m.Fresh → (m.leave before change).Fresh) := by
  rcases change with _ | _ | (_ | _) | _ <;> exact ⟨rfl, id⟩

theorem Fresh.enter (h : m.Fresh) (change : Context.Change) : (m.enter change).Fresh := by
  cases change <;> exact h

theorem state_enter (m : Machine) (change : Context.Change) : (m.enter change).state = m.state := by
  cases change <;> rfl

theorem fresh_of_none (h : m.kept = none) : m.Fresh := by
  intro kept hkept
  rw [h] at hkept
  cases hkept

end Machine

/-! ## Two ways to run a routine -/

/-- The machine comes to what the reader comes to, with the same counters as before, and
    keeps no token but the next one. -/
structure Machine.Follows {α : Type} (m : Machine) (r : Except SyntaxError α × Machine)
    (r' : Except SyntaxError α × State) : Prop where
  result : r.1 = r'.1
  state : r.2.state = r'.2
  fresh : r.2.Fresh
  frame : r.2.frame = m.frame

namespace Machine.Follows

variable {α : Type} {m m1 : Machine} {r : Except SyntaxError α × Machine}
  {r' : Except SyntaxError α × State}

/-- Both ways end with one result or one error, and at one place. -/
theorem ends (h : m.Follows r r') : ∃ result m1,
    r = (result, m1) ∧ r' = (result, m1.state) ∧ m1.Fresh ∧ m1.frame = m.frame :=
  ⟨r.1, r.2, rfl, Prod.ext h.result.symm h.state.symm, h.fresh, h.frame⟩

/-- What is executed behind a routine has the counters in front of it. -/
theorem behind (h : m1.Follows r r') (hframe : m1.frame = m.frame) : m.Follows r r' :=
  { h with frame := h.frame.trans hframe }

end Machine.Follows

namespace Routine

variable {m : Machine}

theorem follows_advance (h : m.Fresh) (mode : Mode) :
    m.Follows ((advance mode).exec m) ((advance mode).read m.context m.state) := by
  rcases h.look mode with ⟨hfound, -, hstate, hframe⟩
  change m.Follows (.ok (m.advance mode).1, (m.advance mode).2)
    (.ok (m.place.lookahead mode (m.overLines mode)).token,
      { (reportAll (m.place.lookahead mode (m.overLines mode)).errors m.context m.state).2 with
        cursor := (m.place.lookahead mode (m.overLines mode)).after })
  unfold Machine.advance
  generalize m.look mode = looked at hfound hstate hframe
  rcases looked with ⟨found, m1⟩
  dsimp only at hfound hstate hframe ⊢
  rw [← hfound]
  rcases Machine.reportAll_spec found.errors { m1 with kept := none } with ⟨hframe', hkept, hstate'⟩
  have hcontext : ({ m1 with kept := none } : Machine).context = m.context :=
    congrArg Machine.Frame.context hframe
  have hfront : ({ m1 with kept := none } : Machine).state = m.state := hstate
  rw [hcontext, hfront] at hstate'
  refine ⟨rfl, ?_, Machine.fresh_of_none hkept, hframe'.trans hframe⟩
  exact congrArg (fun s : State => { s with cursor := found.after }) hstate'

/-- Executing a routine from a machine that keeps the next token is reading it. The
    counters are what they were, whether the routine fails or not. -/
theorem follows {α : Type} (p : Routine α) (m : Machine) (h : m.Fresh) :
    m.Follows (p.exec m) (p.read m.context m.state) := by
  induction p generalizing m with
  | pure a => exact ⟨rfl, rfl, h, rfl⟩
  | bind p f hp hf =>
      rcases (hp m h).ends with ⟨result, m1, hexec, hread, hfresh, hframe⟩
      have hcontext : m1.context = m.context := congrArg Machine.Frame.context hframe
      change m.Follows _ ((p.read >>= fun a => (f a).read) m.context m.state)
      rw [Parse.bind_run, hread, exec, hexec]
      cases result with
      | error e => exact ⟨rfl, rfl, hfresh, hframe⟩
      | ok a =>
          have hsecond := hf a m1 hfresh
          rw [hcontext] at hsecond
          exact hsecond.behind hframe
  | throw e => exact ⟨rfl, rfl, h, rfl⟩
  | consult f hf => exact hf m.context m h
  | clocked f hf => exact hf m.place.rest m h
  | look mode =>
      rcases h.look mode with ⟨hfound, hfresh, hstate, hframe⟩
      exact ⟨congrArg Except.ok hfound, hstate, hfresh, hframe⟩
  | position => exact ⟨rfl, rfl, h, rfl⟩
  | report d => exact ⟨rfl, m.report_state d, h.report d, m.report_frame d⟩
  | advance mode => exact follows_advance h mode
  | raw read hread =>
      exact ⟨rfl, rfl, Machine.fresh_of_none rfl, rfl⟩
  | ahead p hp =>
      have hrun := hp m h
      refine ⟨hrun.result, ?_, Machine.fresh_of_none rfl, hrun.frame⟩
      -- Nothing is withdrawn while looking ahead, so cutting the list back to its length
      -- gives the list that was there.
      have hkept := (p.moving.moves m.context m.state).kept
      rw [show (outcome p.read m.context m.state).2 = (p.exec m).2.state from hrun.state.symm]
        at hkept
      have hcut : (p.exec m).2.diagnostics.take m.diagnostics.length = m.diagnostics :=
        List.prefix_iff_eq_take.1 hkept |>.symm
      change (⟨m.place, (p.exec m).2.diagnostics.take m.diagnostics.length⟩ : State) = m.state
      rw [hcut]
      rfl
  | nested p hp =>
      have hrun := hp { m with depth := m.depth + 1 } h
      have hread : (nested p).read m.context m.state = if m.limits.depth ≤ m.depth then
          (.error (.nestingTooDeep m.limits.depth (.emptyAt m.place.offset)), m.state)
        else p.read { m.context with depth := m.depth + 1 } m.state := Parse.nested_run _ _ _
      rw [hread, exec]
      by_cases hdeep : m.limits.depth ≤ m.depth
      · rw [if_pos hdeep, if_pos hdeep]
        exact ⟨rfl, rfl, h, rfl⟩
      · rw [if_neg hdeep, if_neg hdeep]
        have hback := congrArg
          (fun frame : Machine.Frame => { frame with depth := frame.depth - 1 }) hrun.frame
        exact ⟨hrun.result, hrun.state, hrun.fresh, hback⟩
  | within change p hp =>
      have hrun := hp (m.enter change) (h.enter change)
      rw [m.context_enter, m.state_enter] at hrun
      have hleave := (p.exec (m.enter change)).2.leave_state m change
      exact ⟨hrun.result, hleave.1.trans hrun.state, hleave.2 hrun.fresh, Machine.leave_frame hrun.frame⟩
  | orReport p f k hp hf hk =>
      rcases (hp m h).ends with ⟨result, m1, hexec, hread, hfresh, hframe⟩
      have hcontext : m1.context = m.context := congrArg Machine.Frame.context hframe
      change m.Follows _
        (Parse.orReport p.read (fun a => (f a).read) (fun e => (k e).read) m.context m.state)
      rw [Parse.orReport, hread, exec, hexec]
      cases result with
      | error e =>
          have hreport := m1.report_frame (.syntactic e)
          have hsecond := hk e (m1.report (.syntactic e)) (hfresh.report _)
          rw [Machine.context, hreport, m1.report_state, ← Machine.context, hcontext] at hsecond
          exact hsecond.behind (hreport.trans hframe)
      | ok a =>
          have hsecond := hf a m1 hfresh
          rw [hcontext] at hsecond
          exact hsecond.behind hframe

end Routine

end Ysh
