import Ysh.Proofs.Joined.Statement

/-!
# The Line Behind a Text

Where a text has ended, its surroundings have a newline. The list of statements at the
top goes on behind it, and the place where it goes on is the start of the next line,
whichever way the text has ended. If the text ends with a statement, then the statement
consumes the newline as its terminator. If it ends with separators, then the newline is
one separator more, and those of the next line are more of the same.

The two runs are compared round by round, from the end of the text backwards. In the
surroundings the list stands where it stands in the text, until the newline has been
consumed. From then on the text has nothing more to read.

## Main definitions

* `State.AtEnd`: The text is at its end, with nothing wrong in front of it.
* `State.nextLine`: The state at the start of the line behind the text.
* `State.Reaches`: The same state in the surroundings, or the start of that line.

## Theorems

* `outcome_skipWhile_line`, `outcome_skipSeparators_line`: Separators go on in the next line.
* `Grammar.ended_reaches`, `Grammar.listedStatement_reaches`: The last statement of a text
  ends in the next line at the latest.
* `Grammar.outcome_loop_line`: The list of statements goes on in the next line.
-/

namespace Ysh

variable {w : Surroundings} {D : List Diagnostic} {ctx : Context} {more : List Char}

namespace State

/-- The state at the start of the line behind the text. -/
def nextLine (w : Surroundings) (more : List Char) (s : State) : State :=
  ⟨⟨more, s.cursor.stop + w.size + 1⟩, w.reports ++ s.diagnostics.map (Diagnostic.shift w.size)⟩

/-- The end comes next, with nothing wrong in front of it. -/
structure AtEnd (ctx : Context) (s : State) : Prop where
  kind : (s.next .command ctx).kind = .endOfInput
  clear : s.Clear .command ctx

/-- Where a reader of the text leaves the state, it is left in the surroundings as well,
    or else the newline behind the text has been consumed. -/
def Reaches (w : Surroundings) (more : List Char) (ctx : Context) (s t : State) : Prop :=
  t = s.within w ∨ (s.AtEnd ctx ∧ t = s.nextLine w more)

theorem AtEnd.ends {s : State} (h : s.AtEnd ctx) : s.Ends ctx :=
  ⟨h.clear, by rw [h.kind]; rfl⟩

/-- At the end of the text there is a newline to consume in the surroundings. -/
theorem AtEnd.newline {s : State} (h : s.AtEnd ctx) (hbehind : w.behind = '\n' :: more) :
    ((s.within w).next .command ctx).kind = .newline ∧
      ∃ token, Yields (advance .command) ctx (s.within w) token (s.nextLine w more) := by
  rcases Cursor.lookahead_line h.kind h.clear hbehind with ⟨token, hnext, hkind⟩
  have hahead : (s.within w).ahead .command ctx = ⟨token, [], ⟨more, s.cursor.stop + w.size + 1⟩⟩ :=
    hnext
  have hnewline : ((s.within w).next .command ctx).kind = .newline := by
    change ((s.within w).ahead .command ctx).token.kind = _
    rw [hahead]
    exact hkind
  have hclear : (s.within w).Clear .command ctx := congrArg Cursor.Lookahead.errors hahead
  have hadvance := hclear.yields_advance
  rw [hahead] at hadvance
  exact ⟨hnewline, _, hadvance⟩

end State

/-! ## Separators -/

/-- What is skipped up to the end of the text goes on in the next line, if newlines are
    skipped. -/
theorem outcome_skipWhile_line {skips : Token.Kind → Bool} (hlast : skips .endOfInput = false)
    (hline : skips .newline = true) {n : Nat} {u v : Unit} {s s' : State}
    (hw : Fits w ctx.limits D) (hbehind : w.behind = '\n' :: more)
    (hruns : LoopRuns (Scan.skipRound .command skips) ctx n u s (.ok v, s'))
    (hD : s'.diagnostics <+: D) (hend : s'.AtEnd ctx) :
    s.Clear .command ctx ∧ outcome (Scan.skipWhile .command skips) ctx (s.within w) =
      outcome (Scan.skipWhile .command skips) ctx (s'.nextLine w more) := by
  have hprogresses : Progresses (Scan.skipRound .command skips) ctx :=
    (Grammar.ScanLoop.separators (g := .turns 0) .command hlast).progresses
  generalize hr : (Except.ok v, s') = r at hruns
  induction hruns with
  | stop hstep =>
      cases hr
      rcases skipRound_cases hstep with ⟨-, hagain, -⟩ | ⟨-, -, rfl⟩
      · cases hagain
      · -- The newline is one token more.
        rcases hend.newline hbehind with ⟨hnewline, token, htoken⟩
        exact ⟨hend.clear,
          hprogresses.outcome_again (skipRound_again (by rwa [hnewline]) htoken)⟩
  | fail => cases hr
  | @again n u v s s1 r hstep hrest ih =>
      subst hr
      rcases skipRound_cases hstep with ⟨hskips, -, token, htoken⟩ | ⟨-, hstop, -⟩
      · have hkind : (s.next .command ctx).kind ≠ .endOfInput := by
          intro heof
          rw [heof, hlast] at hskips
          cases hskips
        have hm : ∀ u, Moving (Scan.skipRound .command skips u) := fun _ => inferInstance
        rcases carries_advance hkind hw token s1 htoken ((hrest.kept hm).trans hD) trivial with
          ⟨hfaces, hy⟩
        have hnext := (hfaces.stays (w := w)).kind_within
        exact ⟨hfaces.clear, (hprogresses.outcome_again
          (skipRound_again (by rwa [hnext]) hy)).trans (ih rfl).2⟩
      · cases hstop

/-- Separators up to the end of the text go on in the next line. -/
theorem outcome_skipSeparators_line {s s' : State} (hw : Fits w ctx.limits D)
    (hbehind : w.behind = '\n' :: more) (hx : Yields skipSeparators ctx s () s')
    (hD : s'.diagnostics <+: D) (hend : s'.AtEnd ctx) :
    s.Clear .command ctx ∧ outcome skipSeparators ctx (s.within w) =
      outcome skipSeparators ctx (s'.nextLine w more) := by
  have hprogresses : Progresses (Scan.skipRound .command fun kind =>
      kind == .newline || kind == .semicolon) ctx :=
    (Grammar.ScanLoop.separators (g := .turns 0) .command rfl).progresses
  rcases hprogresses.ends () s with ⟨n, -, hruns⟩
  rw [show outcome (loop _ ()) ctx s = _ from hx] at hruns
  exact outcome_skipWhile_line rfl rfl hw hbehind hruns hD hend

namespace Grammar

variable {g h : Grammar} [g.Stepwise] [h.Stepwise] (hg : Carries w D g h)

/-! ## Statements -/

theorem ended_reaches {t t' : Statement} {s s' : State} (hw : Fits w ctx.limits D)
    (hbehind : w.behind = '\n' :: more) (hx : Yields (ended t) ctx s t' s')
    (hD : s'.diagnostics <+: D) (hend : s'.AtEnd ctx) :
    s.Ends ctx ∧ ∃ s'', s'.Reaches w more ctx s'' ∧
      Yields (ended (t.shift w.size)) ctx (s.within w) (t'.shift w.size) s'' := by
  by_cases hkind : (s.next .command ctx).kind.isTerminator = true
  · rcases carries_terminator t hkind hw t' s' hx hD trivial with ⟨hbefore, hy⟩
    exact ⟨hbefore.1, _, .inl rfl, hy⟩
  -- Where nothing is consumed, the statement ends with the text.
  have hx := yields_peek.1 hx
  rw [if_neg hkind] at hx
  by_cases hcloser : [Token.Kind.rightBrace, .rightParen, .endOfInput].contains
      (s.next .command ctx).kind = true
  · rw [if_pos hcloser] at hx
    rcases yields_pure.1 hx with ⟨rfl, rfl⟩
    rcases hend.newline hbehind with ⟨hnewline, token, htoken⟩
    refine ⟨hend.ends, _, .inr ⟨hend, rfl⟩, yields_peek.2 (yields_then ?_ ?_)⟩
    · rw [hnewline]
      rfl
    · exact yields_bind.2 ⟨token, _, htoken, rfl⟩
  · rw [if_neg hcloser] at hx
    cases hx

section

include hg

theorem terminatedStatement_reaches {t : Statement} {s s' : State} (hw : Fits w ctx.limits D)
    (hbehind : w.behind = '\n' :: more) (hctx : ctx.inBrackets = false)
    (hx : Yields g.terminatedStatement ctx s t s') (hD : s'.diagnostics <+: D)
    (hend : s'.AtEnd ctx) :
    s.Faces .command ctx ∧ ∃ s'', s'.Reaches w more ctx s'' ∧
      Yields h.terminatedStatement ctx (s.within w) (t.shift w.size) s'' := by
  rw [terminatedStatement_eq] at hx
  rcases yields_bind.1 hx with ⟨t1, s1, ht1, hx⟩
  rcases ended_reaches hw hbehind hx hD hend with ⟨hends, s'', hreaches, hy⟩
  rcases carries_statement hg s hctx hw t1 s1 ht1
    (((moving_ended t1).of_yields hx).kept.trans hD) hends with ⟨hfaces, hy1⟩
  refine ⟨hfaces, s'', hreaches, ?_⟩
  rw [terminatedStatement_eq]
  exact yields_bind.2 ⟨_, _, hy1, hy⟩

end

/-- In a parse without errors nothing stands in place of a statement. -/
theorem ensures_statementOrError {s : State} (hq : Quiet ctx.limits D) :
    Ensures D g.statementOrError ctx s fun t s' => Yields g.terminatedStatement ctx s t s' := by
  refine Scan.ensures_peek (Moving.ensures_bind (fun r => by cases r <;> infer_instance) ?_)
  intro r s1 hr _
  cases r with
  | ok t => exact ensures_pure.2 fun _ => yields_attempt.1 hr
  | error e => exact ensures_blame hq rfl

omit [g.Stepwise] in
theorem yields_statementOrError {t : Statement} {s s' : State}
    (h : Yields g.terminatedStatement ctx s t s') : Yields g.statementOrError ctx s t s' :=
  Scan.yields_peek.2 (yields_bind.2 ⟨.ok t, s', yields_attempt.2 h, rfl⟩)

/-- What the next statement of the list at the top is made of, or else its end. -/
theorem ensures_listedStatement {s : State} (hq : Quiet ctx.limits D) :
    Ensures D (g.listedStatement none) ctx s fun o s' => ∃ s1, Yields skipSeparators ctx s () s1 ∧
      ((o = none ∧ s' = s1) ∨ ∃ t, o = some t ∧ Yields g.terminatedStatement ctx s1 t s' ∧
        ¬((s1.next .command ctx).kind = .endOfInput ∨ some (s1.next .command ctx).kind = none) ∧
        ¬((s1.next .command ctx).kind = .rightBrace ∨
          (s1.next .command ctx).kind = .rightParen)) := by
  refine ensures_bind fun _ s1 hskip _ => Scan.ensures_peekKind (ensures_ite
    (fun _ => ensures_pure.2 fun _ => ⟨s1, hskip, .inl ⟨rfl, rfl⟩⟩) fun hends =>
      ensures_ite (fun _ => ensures_bind (ensures_strayCloser hq)) fun hstray => ?_)
  exact ensures_seq (ensures_statementOrError hq) fun t s2 ht =>
    ensures_pure.2 fun _ => ⟨s1, hskip, .inr ⟨t, rfl, ht, hends, hstray⟩⟩

omit [g.Stepwise] [h.Stepwise] in
/-- At the end of the text the list is at its end. -/
theorem yields_listedStatement_none {s : State} (hkind : (s.next .command ctx).kind = .endOfInput) :
    Yields (h.listedStatement none) ctx s none s :=
  yields_bind.2 ⟨(), s, yields_skipWhile_stop rfl (by rw [hkind]; rfl),
    Scan.yields_peekKind.2 (yields_then (.inl hkind) rfl)⟩

section

include hg

theorem listedStatement_reaches {t : Statement} {s s' : State} (hw : Fits w ctx.limits D)
    (hbehind : w.behind = '\n' :: more) (hctx : ctx.inBrackets = false)
    (hx : Yields (g.listedStatement none) ctx s (some t) s') (hD : s'.diagnostics <+: D)
    (hclear : s'.Clear .command ctx) :
    s.Clear .command ctx ∧ ∃ s'', s'.Reaches w more ctx s'' ∧
      Yields (h.listedStatement none) ctx (s.within w) (some (t.shift w.size)) s'' := by
  by_cases hkind : (s'.next .command ctx).kind = .endOfInput
  · rcases ensures_listedStatement hw.quiet _ s' hx hD with
      ⟨s1, hskip, ⟨hnone, -⟩ | ⟨_, ⟨⟩, ht, hends, hstray⟩⟩
    · cases hnone
    rcases terminatedStatement_reaches hg hw hbehind hctx ht hD ⟨hkind, hclear⟩ with
      ⟨hfaces, s'', hreaches, hy⟩
    have hm : Moving g.terminatedStatement := inferInstance
    rcases carries_skipSeparators s hw () s1 hskip ((hm.of_yields ht).kept.trans hD) hfaces.stays with
      ⟨hstays, hyskip⟩
    refine ⟨hstays.clear, s'', hreaches, yields_bind.2 ⟨(), _, hyskip, Scan.yields_peekKind.2 ?_⟩⟩
    rw [(hfaces.stays (w := w)).kind_within]
    exact yields_else hends (yields_else hstray
      (yields_bind.2 ⟨_, _, yields_statementOrError hy, rfl⟩))
  · rcases carries_listedStatement hg none s hctx hw (some t) s' hx hD
      ⟨fun hend => absurd hend hkind, hclear⟩ with ⟨hstays, hy⟩
    exact ⟨hstays.clear, _, .inl rfl, hy⟩

/-- The list goes on in the next line. By induction on its rounds in the text, where what
    is known comes from behind. -/
theorem outcome_loop_line {n : Nat} {ts us : Array Statement} {s s' : State}
    (hw : Fits w ctx.limits D) (hbehind : w.behind = '\n' :: more) (hctx : ctx.inBrackets = false)
    (hruns : LoopRuns (collectRound (g.listedStatement none)) ctx n ts s (.ok us, s'))
    (hD : s'.diagnostics <+: D) (hclear : s'.Clear .command ctx) :
    s.Clear .command ctx ∧
      outcome (loop (collectRound (h.listedStatement none)) (shift w.size ts)) ctx (s.within w) =
        outcome (loop (collectRound (h.listedStatement none)) (shift w.size us)) ctx
          (s'.nextLine w more) := by
  have hends : Progresses (collectRound (h.listedStatement none)) ctx :=
    (ScanLoop.statements none).progresses
  generalize hr : (Except.ok us, s') = r at hruns
  induction hruns with
  | @stop a b s t hstep =>
      cases hr
      rcases yields_collectRound hstep with ⟨_, _, hagain⟩ | ⟨hnone, hstop⟩
      · cases hagain
      · cases hstop
        have hlast := (next_of_listedStatement_none hnone).resolve_right (by simp)
        rcases ensures_listedStatement hw.quiet _ s' hnone hD with
          ⟨_, hskip, ⟨-, rfl⟩ | ⟨_, hsome, -⟩⟩
        · rcases outcome_skipSeparators_line hw hbehind hskip hD ⟨hlast, hclear⟩ with
            ⟨hclear', hline⟩
          exact ⟨hclear', hends.outcome_congr (outcome_bind_congr (outcome_bind_congr hline))⟩
        · cases hsome
  | fail => cases hr
  | @again n a b s s1 r hstep hrest ih =>
      subst hr
      rcases ih rfl with ⟨hclear1, hline⟩
      rcases yields_collectRound hstep with ⟨t, ht, hagain⟩ | ⟨_, hstop⟩
      · cases hagain
        have hm : ∀ ts, Moving (collectRound (g.listedStatement none) ts) := fun _ => inferInstance
        rcases listedStatement_reaches hg hw hbehind hctx ht ((hrest.kept hm).trans hD) hclear1 with
          ⟨hclear, s'', hreaches, hy⟩
        have hround : Yields (collectRound (h.listedStatement none) (shift w.size a)) ctx
            (s.within w) (.again (shift w.size (a.push t))) s'' := by
          rw [shift_push]
          exact yields_bind.2 ⟨_, _, hy, rfl⟩
        refine ⟨hclear, (hends.outcome_again hround).trans ?_⟩
        rcases hreaches with rfl | ⟨hend, rfl⟩
        · exact hline
        · -- The text has no more statements.
          rcases hrest.unique (.stop (yields_bind.2
            ⟨none, _, yields_listedStatement_none hend.kind, rfl⟩)) with ⟨-, hlast⟩
          cases hlast
          rfl
      · cases hstop

end

end Grammar

end Ysh
