import Ysh.Proofs.Progress.Loops

/-!
# Arms That Are Passed Over

What is left of an arm that cannot be read is passed over token by token. The grammar of
its block plays no part in this: strings are read as such, and of all other tokens only
the braces count. So the block is passed over as a whole if its braces are paired as
tokens, and then the arm costs no more than itself. The arms go on behind it with what
they had in front of it.

Braces that are tokens are not all there are. The brace of `${` belongs to the opener and
is not counted, while the one that closes it is a token like any other. Such an expansion
is not paired, and a block with one in it ends too early.

## Main definitions

* `Grammar.Paired`: From one place to another the braces are paired.
* `Grammar.Malformed`: An arm that cannot be read, with a block whose braces are paired.

## Theorems

* `Grammar.Paired.outcome_loop`: Paired braces leave the depth of a skip as it is.
* `Grammar.Paired.yields_skipArm`: The skip ends behind the block.
* `Grammar.Malformed.outcome_arms`: An arm that cannot be read costs only itself.
-/

namespace Ysh

/-- A token that says nothing about where a block ends. -/
def Token.Kind.isInert : Token.Kind → Bool
  | .endOfInput | .leftBrace | .rightBrace | .quote _ _ => false
  | _ => true

namespace Grammar

/-- From one place to another, the braces that are tokens are paired. There may be blocks
    among the tokens or not. -/
inductive Paired (g : Grammar) (ctx : Context) : Bool → State → State → Prop
  | nil {blocks : Bool} {s : State} : Paired g ctx blocks s s
  | inert {blocks : Bool} {s t u : State} {token : Token} :
      (s.next .command ctx).kind.isInert = true → Yields (advance .command) ctx s token t →
      Paired g ctx blocks t u → Paired g ctx blocks s u
  | string {blocks : Bool} {s t u v : State} {style : StringStyle} {triple : Bool} {token : Token}
      {literal : StringLiteral} : (s.next .command ctx).kind = .quote style triple →
      Yields (advance .command) ctx s token t →
      Yields (g.stringBody style triple (s.next .command ctx).span) ctx t literal u →
      Paired g ctx blocks u v → Paired g ctx blocks s v
  | block {s t u v w : State} {opening closing : Token} :
      (s.next .command ctx).kind = .leftBrace → Yields (advance .command) ctx s opening t →
      Paired g ctx true t u → (u.next .command ctx).kind = .rightBrace →
      Yields (advance .command) ctx u closing v → Paired g ctx true v w → Paired g ctx true s w

/-- An arm that cannot be read, from its first token to behind its block. There is no brace
    between the error and the block, and those of the block are paired. -/
inductive Malformed (g : Grammar) (ctx : Context) : State → SyntaxError → State → Prop
  | intro {s s1 s2 s3 s4 s5 s' : State} {error : SyntaxError} {opening closing : Token} :
      outcome g.caseArm ctx s = (.error error, s1) →
      Yields (report (.syntactic error)) ctx s1 () s2 → Paired g ctx false s2 s3 →
      (s3.next .command ctx).kind = .leftBrace → Yields (advance .command) ctx s3 opening s4 →
      Paired g ctx true s4 s5 → (s5.next .command ctx).kind = .rightBrace →
      Yields (advance .command) ctx s5 closing s' → Malformed g ctx s error s'

/-! ## One token -/

section

variable {g : Grammar} {ctx : Context} {s t u : State} {token : Token} {depth : Nat}

theorem skipArmRound_inert (h : (s.next .command ctx).kind.isInert = true)
    (hadvance : Yields (advance .command) ctx s token t) :
    Yields (g.skipArmRound depth) ctx s (.again depth) t := by
  refine Scan.yields_peek.2 ?_
  generalize s.next .command ctx = next at h ⊢
  split
  case h_6 => exact yields_bind.2 ⟨token, t, hadvance, rfl⟩
  all_goals
    next hkind =>
      rw [hkind] at h
      cases h

theorem skipArmRound_string {style : StringStyle} {triple : Bool} {literal : StringLiteral}
    (h : (s.next .command ctx).kind = .quote style triple)
    (hadvance : Yields (advance .command) ctx s token t)
    (hbody : Yields (g.stringBody style triple (s.next .command ctx).span) ctx t literal u) :
    Yields (g.skipArmRound depth) ctx s (.again depth) u := by
  refine Scan.yields_peek.2 ?_
  rw [h]
  exact yields_bind.2 ⟨token, t, hadvance, yields_bind.2 ⟨literal, u, hbody, rfl⟩⟩

theorem skipArmRound_leftBrace (h : (s.next .command ctx).kind = .leftBrace)
    (hadvance : Yields (advance .command) ctx s token t) :
    Yields (g.skipArmRound depth) ctx s (.again (depth + 1)) t := by
  refine Scan.yields_peek.2 ?_
  rw [h]
  exact yields_bind.2 ⟨token, t, hadvance, rfl⟩

/-- The brace that closes the block ends the skip, and one that closes a block in it does
    not. -/
theorem skipArmRound_rightBrace (depth : Nat) (h : (s.next .command ctx).kind = .rightBrace)
    (hadvance : Yields (advance .command) ctx s token t) :
    Yields (g.skipArmRound (depth + 1)) ctx s
      (if depth = 0 then .stop depth else .again depth) t := by
  refine Scan.yields_peek.2 ?_
  rw [h]
  exact yields_bind.2 ⟨token, t, hadvance, rfl⟩

theorem yields_attempt_error {α : Type} {x : Parse α} {error : SyntaxError}
    (h : outcome x ctx s = (.error error, t)) : Yields (attempt x) ctx s (.error error) t := by
  change (Except.ok (x.run ctx s).1, (x.run ctx s).2) = _
  rw [show x.run ctx s = (.error error, t) from h]

end

/-! ## Blocks -/

section

variable {g : Grammar} [hg : g.Stepwise] {ctx : Context}

/-- In a block, paired braces leave the depth as it is. -/
theorem Paired.outcome_loop {blocks : Bool} {s t : State} (h : Paired g ctx blocks s t)
    (depth : Nat) (hdepth : blocks = true → 0 < depth) :
    outcome (loop g.skipArmRound depth) ctx s = outcome (loop g.skipArmRound depth) ctx t := by
  have hends : Progresses g.skipArmRound ctx := ScanLoop.skippedArm.progresses
  induction h generalizing depth with
  | nil => rfl
  | inert hkind hadvance _ ih =>
      exact (hends.outcome_again (skipArmRound_inert hkind hadvance)).trans (ih depth hdepth)
  | string hkind hadvance hbody _ ih =>
      exact (hends.outcome_again (skipArmRound_string hkind hadvance hbody)).trans (ih depth hdepth)
  | block hopen hopening _ hclose hclosing _ ihInner ihRest =>
      have hpos : 0 < depth := hdepth rfl
      have hback := skipArmRound_rightBrace (g := g) depth hclose hclosing
      rw [if_neg (by omega)] at hback
      calc outcome (loop g.skipArmRound depth) ctx _
        _ = outcome (loop g.skipArmRound (depth + 1)) ctx _ :=
            hends.outcome_again (skipArmRound_leftBrace hopen hopening)
        _ = outcome (loop g.skipArmRound (depth + 1)) ctx _ :=
            ihInner (depth + 1) fun _ => Nat.succ_pos depth
        _ = outcome (loop g.skipArmRound depth) ctx _ := hends.outcome_again hback
        _ = outcome (loop g.skipArmRound depth) ctx _ := ihRest depth hdepth

/-- The skip ends behind the first block, if its braces are paired. -/
theorem Paired.yields_skipArm {s t u v w : State} {opening closing : Token}
    (hfront : Paired g ctx false s t) (hopen : (t.next .command ctx).kind = .leftBrace)
    (hopening : Yields (advance .command) ctx t opening u) (hbody : Paired g ctx true u v)
    (hclose : (v.next .command ctx).kind = .rightBrace)
    (hclosing : Yields (advance .command) ctx v closing w) : Yields g.skipArm ctx s () w := by
  have hends : Progresses g.skipArmRound ctx := ScanLoop.skippedArm.progresses
  have hlast := skipArmRound_rightBrace (g := g) 0 hclose hclosing
  rw [if_pos rfl] at hlast
  have hskip : Yields (loop g.skipArmRound 0) ctx s 0 w :=
    calc outcome (loop g.skipArmRound 0) ctx s
      _ = outcome (loop g.skipArmRound 0) ctx t := hfront.outcome_loop 0 (by simp)
      _ = outcome (loop g.skipArmRound 1) ctx u :=
          hends.outcome_again (skipArmRound_leftBrace hopen hopening)
      _ = outcome (loop g.skipArmRound 1) ctx v := hbody.outcome_loop 1 fun _ => Nat.one_pos
      _ = (.ok 0, w) := hends.yields_stop hlast
  exact yields_bind.2 ⟨0, w, hskip, rfl⟩

variable {s s' : State} {error : SyntaxError}

/-- An arm that cannot be read is none, and the reader goes on behind its block. -/
theorem Malformed.yields_armOrNone (h : Malformed g ctx s error s') :
    Yields g.armOrNone ctx s none s' := by
  rcases h with ⟨herror, hreport, hfront, hopen, hopening, hbody, hclose, hclosing⟩
  have hskip := hfront.yields_skipArm hopen hopening hbody hclose hclosing
  refine yields_bind.2 ⟨_, _, yields_attempt_error herror, ?_⟩
  exact yields_bind.2 ⟨(), _, hreport, yields_bind.2 ⟨(), s', hskip, rfl⟩⟩

/-- An arm that cannot be read costs only itself: the arms go on behind its block with
    those in front of it. -/
theorem Malformed.outcome_arms (h : Malformed g ctx s error s') (arms : Array Arm) {s0 : State}
    (hseparators : Yields skipSeparators ctx s0 () s)
    (hends : (s.next .command ctx).kind ≠ .rightBrace ∧ (s.next .command ctx).kind ≠ .endOfInput) :
    outcome (loop g.armsRound arms) ctx s0 = outcome (loop g.armsRound arms) ctx s' := by
  have hprogresses : Progresses g.armsRound ctx := ScanLoop.arms.progresses
  refine hprogresses.outcome_again ?_
  refine yields_bind.2 ⟨(), s, hseparators, Scan.yields_peekKind.2 (yields_else ?_ ?_)⟩
  · rw [Bool.or_eq_true, decide_eq_true_eq, decide_eq_true_eq, not_or]
    exact hends
  · refine yields_bind.2 ⟨none, s', h.yields_armOrNone, ?_⟩
    rw [Option.toList_none]
    simp [yields_pure]

end

end Grammar

/-- The brace that closes an expansion is taken for that of the block. What is left is a
    further error, and the arm behind it is none of the case. -/
example :
    (parse {} "case (x) {; (1 +) { echo ${a} }; b { echo c }; }\n").diagnostics.length = 2 := by
  decide +kernel

end Ysh
