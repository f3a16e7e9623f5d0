import Ysh.Proofs.Coverage.Statement

/-!
# Rounds that Consume

A loop is given a clock as long as the text that is left, so that it can be defined at
all. Whether the clock matters is another question. It does not if every round that
goes on has consumed something: then the text runs out before the clock does, and the
loop does what it would do without a clock.

`LoopRuns` is the loop without a clock, with its rounds counted. What each loop of the
grammar has to show is only that a round that goes on has moved the place, which is
`Gains` of the round; that the loop ends, and how soon, follows for all of them at once.

## Main definitions

* `LoopRuns`: The rounds of a loop one after the other, without a clock.
* `Gains`: A result is had only by consuming something.
* `Progresses`: A loop whose rounds consume, and which therefore ends.

## Theorems

* `LoopRuns.unique`: A loop runs in one way only.
* `progresses_of_gains`: Rounds that consume make a loop that ends by itself.
* `gains_bind`, `gains_then`: Sequences in which one reader consumes.
* `Scan.gains_advance`: A token that is not the end is consumed.
-/

namespace Ysh

/-! ## Places -/

theorem Cursor.byteLength_rest (c : Cursor) : byteLength c.rest = c.stop - c.offset := by
  rw [stop, Nat.add_sub_cancel_left]

theorem Moves.stop_eq {limits : Limits} {s s' : State} (h : Moves limits s s') :
    s'.cursor.stop = s.cursor.stop := by
  rcases h.forward with ⟨n, hn⟩
  rw [hn, Cursor.stop_advance]

section

variable {m : Type → Type} [Monad m] [MonadStateOf State m] [Reads m] {α β σ : Type}
  {ctx : Context} {s : State}

/-! ## Loops without a clock -/

/-- The rounds of a loop, one after the other: so many that go on, and then the one that
    leaves the loop, with the result or the error that it leaves it with. -/
inductive LoopRuns (step : σ → m (Round σ)) (ctx : Context) :
    Nat → σ → State → Except SyntaxError σ × State → Prop
  | stop {a b : σ} {s s' : State} (h : outcome (step a) ctx s = (.ok (.stop b), s')) :
      LoopRuns step ctx 0 a s (.ok b, s')
  | fail {a : σ} {e : SyntaxError} {s s' : State} (h : outcome (step a) ctx s = (.error e, s')) :
      LoopRuns step ctx 0 a s (.error e, s')
  | again {n : Nat} {a b : σ} {s s1 : State} {r : Except SyntaxError σ × State}
      (h : outcome (step a) ctx s = (.ok (.again b), s1)) (hrest : LoopRuns step ctx n b s1 r) :
      LoopRuns step ctx (n + 1) a s r

/-- A loop runs in one way only, so its rounds can be counted. -/
theorem LoopRuns.unique {step : σ → m (Round σ)} {n n' : Nat} {a : σ}
    {r r' : Except SyntaxError σ × State} (h : LoopRuns step ctx n a s r)
    (h' : LoopRuns step ctx n' a s r') : n = n' ∧ r = r' := by
  induction h generalizing n' with
  | stop hstep | fail hstep =>
      cases h' with
      | stop hstep' | fail hstep' | again hstep' _ =>
          rw [hstep] at hstep'
          cases hstep'
          try exact ⟨rfl, rfl⟩
  | again hstep _ ih =>
      cases h' with
      | stop hstep' | fail hstep' =>
          rw [hstep] at hstep'
          cases hstep'
      | again hstep' hrest' =>
          rw [hstep] at hstep'
          cases hstep'
          rcases ih hrest' with ⟨rfl, hr⟩
          exact ⟨rfl, hr⟩

/-- Where a loop is left, there stands what its last round left behind. -/
theorem LoopRuns.leaves {step : σ → m (Round σ)} {n : Nat} {a : σ}
    {r : Except SyntaxError σ × State} {Q : State → Prop} (h : LoopRuns step ctx n a s r)
    (hstop : ∀ a b s s', outcome (step a) ctx s = (.ok (.stop b), s') → Q s')
    (hfail : ∀ a e s s', outcome (step a) ctx s = (.error e, s') → Q s') : Q r.2 := by
  induction h with
  | stop h => exact hstop _ _ _ _ h
  | fail h => exact hfail _ _ _ _ h
  | again _ _ ih => exact ih

/-- The rounds of a loop take no report back. -/
theorem LoopRuns.kept {step : σ → m (Round σ)} {n : Nat} {a : σ}
    {r : Except SyntaxError σ × State} (hm : ∀ a, Moving (step a))
    (h : LoopRuns step ctx n a s r) : s.diagnostics <+: r.2.diagnostics := by
  induction h with
  | @stop a b s s' hstep | @fail a e s s' hstep =>
      have hmoves := (hm a).moves ctx s
      rw [hstep] at hmoves
      exact hmoves.kept
  | @again n a b s s1 r hstep _ ih => exact ((hm a).of_yields hstep).kept.trans ih

/-! ## Gains -/

/-- A result with the property is had only by consuming something. -/
def Gains (x : m α) (P : α → Prop) (ctx : Context) (s : State) : Prop :=
  ∀ a s', Yields x ctx s a s' → P a → s.cursor.offset < s'.cursor.offset

/-- The round goes on. -/
def Round.GoesOn : Round σ → Prop
  | .stop _ => False
  | .again _ => True

/-- Every round that goes on has consumed something; and the loop comes to an end by
    itself, after no more of these rounds than there are bytes left. -/
structure Progresses (step : σ → m (Round σ)) (ctx : Context) : Prop where
  consumes (a b : σ) (s s' : State) (h : Yields (step a) ctx s (.again b) s') :
    s.cursor.offset < s'.cursor.offset
  ends (a : σ) (s : State) : ∃ n, n ≤ byteLength s.cursor.rest ∧
    LoopRuns step ctx n a s (outcome (loop step a) ctx s)

/-- With a clock as long as the text, a loop whose rounds consume does not notice that
    it has one. -/
theorem runs_of_gains {step : σ → m (Round σ)} (hm : ∀ a, Moving (step a))
    (h : ∀ a s, Gains (step a) Round.GoesOn ctx s) (clock : List Char) (a : σ) (s : State)
    (hclock : s.cursor.rest.length ≤ clock.length) :
    ∃ n, n ≤ byteLength s.cursor.rest ∧
      LoopRuns step ctx n a s (outcome (rounds step clock a) ctx s) := by
  induction clock generalizing a s with
  | nil =>
      rw [rounds, Reads.outcome_bind]
      rcases hstep : outcome (step a) ctx s with ⟨e | b | b, s1⟩
      · exact ⟨0, Nat.zero_le _, .fail hstep⟩
      · dsimp only
        rw [Reads.outcome_pure]
        exact ⟨0, Nat.zero_le _, .stop hstep⟩
      · -- No text is left that the round could have consumed.
        have hlt := ((hm a).of_yields hstep).length_lt (h a s _ _ hstep trivial)
        exact absurd (Nat.lt_of_lt_of_le hlt hclock) (Nat.not_lt_zero _)
  | cons c clock ih =>
      rw [rounds, Reads.outcome_bind]
      rcases hstep : outcome (step a) ctx s with ⟨e | b | b, s1⟩
      · exact ⟨0, Nat.zero_le _, .fail hstep⟩
      · dsimp only
        rw [Reads.outcome_pure]
        exact ⟨0, Nat.zero_le _, .stop hstep⟩
      · have hmoves := (hm a).of_yields hstep
        have hoffset := h a s _ _ hstep trivial
        have hlt := hmoves.length_lt hoffset
        have hstop := hmoves.stop_eq
        rcases ih b s1 (by rw [List.length_cons] at hclock; omega) with ⟨n, hn, hruns⟩
        refine ⟨n + 1, ?_, .again hstep hruns⟩
        rw [Cursor.byteLength_rest] at hn ⊢
        have hle : s1.cursor.offset ≤ s1.cursor.stop := Nat.le_add_right _ _
        omega

/-- Rounds that consume make a loop that ends by itself. -/
theorem progresses_of_gains {step : σ → m (Round σ)} [hm : ∀ a, Moving (step a)]
    (h : ∀ a s, Gains (step a) Round.GoesOn ctx s) : Progresses step ctx where
  consumes a b s s' hstep := h a s _ _ hstep trivial
  ends a s := by
    have hruns := runs_of_gains hm h s.cursor.rest a s (Nat.le_refl _)
    have hloop : outcome (loop step a) ctx s = outcome (rounds step s.cursor.rest a) ctx s := by
      unfold loop
      rw [Reads.outcome_bind, Reads.outcome_get]
    rwa [hloop]

/-! ## Loops round by round -/

theorem Progresses.yields_stop {step : σ → m (Round σ)} {a b : σ} {s' : State}
    (hends : Progresses step ctx) (hstop : Yields (step a) ctx s (.stop b) s') :
    Yields (loop step a) ctx s b s' := by
  rcases hends.ends a s with ⟨n, -, hruns⟩
  exact (hruns.unique (.stop hstop)).2

theorem Progresses.outcome_again {step : σ → m (Round σ)} {a b : σ} {s1 : State}
    (hends : Progresses step ctx) (hagain : Yields (step a) ctx s (.again b) s1) :
    outcome (loop step a) ctx s = outcome (loop step b) ctx s1 := by
  rcases hends.ends a s with ⟨n, -, hruns⟩
  rcases hends.ends b s1 with ⟨k, -, hrest⟩
  exact (hruns.unique (.again hagain hrest)).2

/-- A loop is its first round, and then the loop from where that has led. -/
theorem Progresses.ensures_round {D : List Diagnostic} {step : σ → m (Round σ)}
    [hm : ∀ a, Moving (step a)] {Q : σ → State → Prop} {a : σ} (hends : Progresses step ctx)
    (h : Ensures D (step a) ctx s fun r s1 =>
      match r with
      | .stop b => Q b s1
      | .again b => Ensures D (loop step b) ctx s1 Q) :
    Ensures D (loop step a) ctx s Q := by
  intro b s' hb hD
  rcases hends.ends a s with ⟨n, -, hruns⟩
  rw [show outcome (loop step a) ctx s = (.ok b, s') from hb] at hruns
  cases hruns with
  | stop hstep => exact h _ _ hstep hD
  | again hstep hrest =>
      exact h _ _ hstep ((hrest.kept hm).trans hD) b s' ((hends.outcome_again hstep).symm.trans hb) hD

/-- A loop depends on a state only by what its first round does with it. -/
theorem Progresses.outcome_congr {step : σ → m (Round σ)} {a : σ} {t : State}
    (hends : Progresses step ctx) (h : outcome (step a) ctx s = outcome (step a) ctx t) :
    outcome (loop step a) ctx s = outcome (loop step a) ctx t := by
  rcases hends.ends a s with ⟨n, -, hruns⟩
  rcases hends.ends a t with ⟨k, -, hruns'⟩
  have hsame : LoopRuns step ctx n a t (outcome (loop step a) ctx s) := by
    generalize outcome (loop step a) ctx s = r at hruns ⊢
    cases hruns with
    | stop hstep => exact .stop (h.symm.trans hstep)
    | fail hstep => exact .fail (h.symm.trans hstep)
    | again hstep hrest => exact .again (h.symm.trans hstep) hrest
  exact (hsame.unique hruns').2

/-- A loop comes to its end through rounds that each keep the invariant, up to the one
    that stops it. -/
theorem Progresses.ensures_loop {D : List Diagnostic} {step : σ → m (Round σ)}
    [hm : ∀ a, Moving (step a)] {I Q : σ → State → Prop} {a : σ} (hends : Progresses step ctx)
    (ha : I a s) (h : ∀ a s, I a s → Ensures D (step a) ctx s (Round.Keeps I Q)) :
    Ensures D (loop step a) ctx s Q := by
  intro b s' hb hD
  rcases hends.ends a s with ⟨n, -, hruns⟩
  rw [show outcome (loop step a) ctx s = (.ok b, s') from hb] at hruns
  clear hb
  generalize hr : (Except.ok b, s') = r at hruns
  induction hruns with
  | stop hstep =>
      cases hr
      exact h _ _ ha _ _ hstep hD
  | fail hstep => cases hr
  | again hstep hrest ih =>
      have hkept := hrest.kept hm
      rw [← hr] at hkept
      exact ih (h _ _ ha _ _ hstep (hkept.trans hD)) hr

/-- Items that are collected one by one keep an invariant of those that are there. -/
theorem Progresses.ensures_collect {D : List Diagnostic} {item : m (Option α)}
    [hm : Moving item] {I Q : List α → State → Prop}
    (hends : Progresses (collectRound item) ctx) (hstart : I [] s)
    (h : ∀ as s, I as s → Ensures D item ctx s fun r s' =>
      match r with
      | some a => I (as ++ [a]) s'
      | none => Q as s') :
    Ensures D (collect item) ctx s Q := by
  refine ensures_seq (hends.ensures_loop (I := fun as s => I as.toList s)
    (Q := fun as s => Q as.toList s) hstart fun as s has => ?_) fun as s1 has =>
      ensures_pure.2 fun _ => has
  refine Moving.ensures_seq (fun r => by cases r <;> exact moving_pure _) (h as.toList s has)
    fun r s1 hr => ?_
  cases r with
  | none => exact ensures_pure.2 fun _ => hr
  | some a =>
      refine ensures_pure.2 fun _ => ?_
      change I (as.push a).toList s1
      rwa [Array.toList_push]

variable {P : α → Prop}

theorem gains_pure {a : α} (h : ¬ P a) : Gains (pure a : m α) P ctx s := by
  intro b s' hb hP
  rcases yields_pure.1 hb with ⟨rfl, -⟩
  exact absurd hP h

theorem gains_ite {c : Prop} [Decidable c] {x y : m α} (hx : c → Gains x P ctx s)
    (hy : ¬ c → Gains y P ctx s) : Gains (if c then x else y) P ctx s := by
  by_cases h : c
  · rw [if_pos h]
    exact hx h
  · rw [if_neg h]
    exact hy h

/-- A sequence of which the first reader consumes. -/
theorem gains_bind {x : m α} {f : α → m β} {P : β → Prop} (hf : ∀ a, Moving (f a))
    (hx : Gains x (fun _ => True) ctx s) : Gains (x >>= f) P ctx s := by
  intro b s' hb _
  rcases yields_bind.1 hb with ⟨a, s1, ha, hb⟩
  exact Nat.lt_of_lt_of_le (hx a s1 ha trivial) ((hf a).of_yields hb).offset_le

/-- A sequence whose first reader consumes, or else the second does behind it. -/
theorem gains_then {x : m α} {f : α → m β} {P : β → Prop} {Q : α → Prop} [hx : Moving x]
    (hfirst : Gains x Q ctx s) (hf : ∀ a, Moving (f a))
    (h : ∀ a s1, ¬ Q a → Gains (f a) P ctx s1) : Gains (x >>= f) P ctx s := by
  intro b s' hb hP
  rcases yields_bind.1 hb with ⟨a, s1, ha, hb⟩
  by_cases hQ : Q a
  · exact Nat.lt_of_lt_of_le (hfirst a s1 ha hQ) ((hf a).of_yields hb).offset_le
  · exact Nat.lt_of_le_of_lt (hx.of_yields ha).offset_le (h a s1 hQ b s' hb hP)

/-- A sequence of which the second reader consumes, wherever the first has gone. -/
theorem gains_seq {x : m α} {f : α → m β} {P : β → Prop} [hx : Moving x]
    (h : ∀ a s1, Gains (f a) P ctx s1) : Gains (x >>= f) P ctx s := by
  intro b s' hb hP
  rcases yields_bind.1 hb with ⟨a, s1, ha, hb⟩
  exact Nat.lt_of_le_of_lt (hx.of_yields ha).offset_le (h a s1 b s' hb hP)

/-- A reader that begins with the next token consumes it, if it is not the end. -/
theorem Begins.gains {x : m α} {Q : α → Prop} (h : Begins x Q) (hQ : ∀ a, P a → ¬ Q a)
    (hkind : (s.next .command ctx).kind ≠ .endOfInput) : Gains x P ctx s := by
  intro a s' hx hP
  have hbegins := h ctx s
  rw [show outcome x ctx s = (.ok a, s') from hx] at hbegins
  exact (hbegins.resolve_right fun hstays => hQ a hP hstays.2).offset_lt hkind

/-- The items of a list are rounds: one that gives an item goes on, and the one that
    gives none is the last. -/
theorem yields_collectRound {item : m (Option α)} {items : Array α} {r : Round (Array α)}
    {s' : State} (h : Yields (collectRound item items) ctx s r s') :
    (∃ a, Yields item ctx s (some a) s' ∧ r = .again (items.push a)) ∨
      (Yields item ctx s none s' ∧ r = .stop items) := by
  rcases yields_bind.1 h with ⟨o, s1, ho, h⟩
  cases o with
  | none =>
      rcases yields_pure.1 h with ⟨rfl, rfl⟩
      exact .inr ⟨ho, rfl⟩
  | some a =>
      rcases yields_pure.1 h with ⟨rfl, rfl⟩
      exact .inl ⟨a, ho, rfl⟩

/-- Items are added behind those that are there. -/
theorem LoopRuns.append {item : m (Option α)} {n : Nat} {as bs : Array α} {s' : State}
    (front : Array α) (h : LoopRuns (collectRound item) ctx n as s (.ok bs, s')) :
    LoopRuns (collectRound item) ctx n (front ++ as) s (.ok (front ++ bs), s') := by
  generalize hr : (Except.ok bs, s') = r at h
  induction h with
  | stop hstep =>
      cases hr
      rcases yields_collectRound hstep with ⟨a, -, hagain⟩ | ⟨hnone, hstop⟩
      · cases hagain
      · cases hstop
        exact .stop (yields_bind.2 ⟨none, _, hnone, yields_pure.2 ⟨rfl, rfl⟩⟩)
  | fail => cases hr
  | again hstep hrest ih =>
      rcases yields_collectRound hstep with ⟨a, ha, hagain⟩ | ⟨-, hstop⟩
      · cases hagain
        refine .again (yields_bind.2 ⟨some a, _, ha, yields_pure.2 ⟨rfl, rfl⟩⟩) ?_
        rw [← Array.append_push]
        exact ih hr
      · cases hstop

theorem gains_collectRound {item : m (Option α)} (items : Array α)
    (h : Gains item (fun o => o.isSome = true) ctx s) :
    Gains (collectRound item items) Round.GoesOn ctx s := by
  intro r s' hr hgoes
  rcases yields_collectRound hr with ⟨a, ha, -⟩ | ⟨-, rfl⟩
  · exact h (some a) s' ha rfl
  · exact hgoes.elim

end

/-! ## Looking and consuming -/

section

variable {α β : Type} {P : α → Prop} {ctx : Context} {s : State} {mode : Mode}

theorem Scan.outcome_ne_error {x : Scan α} {e : SyntaxError} {s' : State}
    (h : outcome x ctx s = (.error e, s')) : False := by
  have hresult : Except.ok (x ctx s).1 = .error e := congrArg Prod.fst h
  cases hresult

theorem Scan.gains_peek {f : Token → Scan α} (h : Gains (f (s.next mode ctx)) P ctx s) :
    Gains (peek mode >>= f) P ctx s :=
  h

theorem Scan.gains_peekKind {f : Token.Kind → Scan α}
    (h : Gains (f (s.next mode ctx).kind) P ctx s) : Gains (peekKind mode >>= f) P ctx s :=
  h

theorem gains_peek {f : Token → Parse α} (h : Gains (f (s.next mode ctx)) P ctx s) :
    Gains (liftM (peek mode) >>= f) P ctx s :=
  h

theorem gains_peekKind {f : Token.Kind → Parse α}
    (h : Gains (f (s.next mode ctx).kind) P ctx s) :
    Gains (liftM (peekKind mode) >>= f) P ctx s :=
  h

theorem gains_unexpected {expected : Expectation} :
    Gains (unexpected mode expected : Parse α) P ctx s := by
  intro a s' h
  cases h

theorem gains_lift {x : Scan α} (h : Gains x P ctx s) : Gains (liftM x : Parse α) P ctx s :=
  h

/-- A token that is not the end is consumed. -/
theorem Scan.gains_advance (hkind : (s.next mode ctx).kind ≠ .endOfInput) :
    Gains (advance mode) (fun _ => True) ctx s := by
  intro token s' h _
  cases h
  have hlt := Cursor.lt_stop_lookahead hkind
  rw [Cursor.lookahead, Cursor.stop_lookaheadFrom] at hlt
  exact hlt

theorem gains_advance {f : Token → Parse α} (hkind : (s.next mode ctx).kind ≠ .endOfInput)
    (hf : ∀ token, Moving (f token)) : Gains (liftM (advance mode) >>= f) P ctx s :=
  gains_bind hf (gains_lift (Scan.gains_advance hkind))

theorem gains_expectAs {kind : Token.Kind} {expected : Expectation} (hkind : kind ≠ .endOfInput) :
    Gains (expectAs mode kind expected) (fun _ => True) ctx s := by
  refine gains_peekKind (gains_ite (fun hnext => ?_) fun _ => gains_unexpected)
  exact Scan.gains_advance (by rwa [hnext])

/-! ## Skipping tokens -/

section

variable {skips : Token.Kind → Bool} {u : Unit} {s1 : State}

theorem skipRound_again {token : Token} (hskips : skips (s.next mode ctx).kind = true)
    (h : Yields (advance mode) ctx s token s1) :
    Yields (Scan.skipRound mode skips u) ctx s (.again ()) s1 :=
  Scan.yields_peekKind.2 (yields_then hskips (yields_bind.2 ⟨token, s1, h, rfl⟩))

theorem skipRound_stop (hskips : ¬ skips (s.next mode ctx).kind = true) :
    Yields (Scan.skipRound mode skips u) ctx s (.stop ()) s :=
  Scan.yields_peekKind.2 (yields_else hskips rfl)

/-- What a round does that skips a token. -/
theorem skipRound_cases {r : Round Unit} (h : Yields (Scan.skipRound mode skips u) ctx s r s1) :
    (skips (s.next mode ctx).kind = true ∧ r = .again () ∧
        ∃ token, Yields (advance mode) ctx s token s1) ∨
      (skips (s.next mode ctx).kind = false ∧ r = .stop () ∧ s1 = s) := by
  have h := Scan.yields_peekKind.1 h
  cases hskips : skips (s.next mode ctx).kind with
  | true =>
      rw [if_pos hskips] at h
      rcases yields_bind.1 h with ⟨token, s2, htoken, h⟩
      rcases yields_pure.1 h with ⟨rfl, rfl⟩
      exact .inl ⟨rfl, rfl, token, htoken⟩
  | false =>
      rw [if_neg (by simp [hskips])] at h
      rcases yields_pure.1 h with ⟨rfl, rfl⟩
      exact .inr ⟨rfl, rfl, rfl⟩

end

/-- What is looked up ahead leaves the place where it is. -/
theorem Scan.gains_ahead {x : Scan β} {f : β → Scan α} (h : Gains (f (x ctx s).1) P ctx s) :
    Gains (ahead x >>= f) P ctx s :=
  h

theorem gains_raw {read : Cursor → α × Cursor}
    (h : P (read s.cursor).1 → s.cursor.offset < (read s.cursor).2.offset) :
    Gains (raw read) P ctx s := by
  intro a s' hr
  cases hr
  exact h

/-- A token of a command depends on the place alone. -/
theorem State.next_command_congr {s1 : State} (h : s1.cursor = s.cursor) :
    s1.next .command ctx = s.next .command ctx := by
  rw [State.next_command, State.next_command, h]

/-- A reader that begins with the next token either has a result or fails. Where it has
    failed without consuming anything, what follows its report has to pass that token. -/
theorem Begins.gains_attempt {x : Parse α} {f : Except SyntaxError α → Scan β}
    {k : SyntaxError → Scan β} (hx : Begins x fun _ => False) (hf : ∀ r, Moving (f r))
    (hreport : ∀ e, f (.error e) = report (.syntactic e) >>= fun _ => k e)
    (hkind : (s.next .command ctx).kind ≠ .endOfInput)
    (hfail : ∀ e (s1 : State), s1.next .command ctx = s.next .command ctx →
      s1.Passed (outcome (k e) ctx s1).2) :
    Gains (attempt x >>= f) (fun _ => True) ctx s := by
  intro b s' hb _
  rcases yields_bind.1 hb with ⟨r, s1, hr, hb⟩
  have hbegins := hx ctx s
  have hmoves := ((hf r).of_yields hb).offset_le
  have hr : outcome x ctx s = (r, s1) := by
    cases hr
    rfl
  rw [hr] at hbegins
  cases r with
  | ok a =>
      have hpassed : s.Passed s1 := hbegins.resolve_right fun hstays => hstays.2
      exact Nat.lt_of_lt_of_le (hpassed.offset_lt hkind) hmoves
  | error e =>
      rcases hbegins with hpassed | hcursor
      · exact Nat.lt_of_lt_of_le (hpassed.offset_lt hkind) hmoves
      · -- Nothing was consumed, and the report leaves the place alone.
        rw [hreport] at hb
        rcases yields_bind.1 hb with ⟨u, s2, hu, hk⟩
        have hs2 : s2.cursor = s.cursor := by
          cases hu
          rw [report_cursor, hcursor]
        have hpassed := hfail e s2 (State.next_command_congr hs2)
        rw [show outcome (k e) ctx s2 = (.ok b, s') from hk] at hpassed
        unfold State.Passed at hpassed
        rw [hs2] at hpassed
        exact State.Passed.offset_lt hpassed hkind

end

end Ysh
