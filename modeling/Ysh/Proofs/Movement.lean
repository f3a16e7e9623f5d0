import Ysh.Proofs.Outcome

/-!
# Movement

No production withdraws a diagnostic, reports more than the limit allows, or goes
back in the source. Each of them is made of the same few steps, and for all but
two of these that is plain: a step looks, reports or reads. Looking at what a
reader would read undoes what it did, and consuming a token reports what stood in
front of it and goes to where looking has found it to end.

The productions themselves are sequences of these steps, so nothing has to be said
about them here.

## Main definitions

* `reportAll`: Reports the errors in front of a token.

## Theorems

* `Cursor.lookahead_after`: The next token ends at a place further on.
* `moving_advance`: Consuming a token moves.
* `moving_nested`: Reading a level deeper moves, if what is read there does.
-/

namespace Ysh

/-! ## Places -/

namespace Cursor

/-- A reader that takes a character goes further on. -/
theorem offset_lt_advance (c : Cursor) {n : Nat} (hpos : 0 < n) (hne : c.rest ≠ []) :
    c.offset < (c.advance n).offset := by
  rcases n with _ | n
  · exact absurd hpos (Nat.lt_irrefl 0)
  · rcases hrest : c.rest with _ | ⟨x, rest⟩
    · exact absurd hrest hne
    · have hx := x.utf8Size_pos
      simp only [advance, hrest, List.take_succ_cons, byteLength_cons]
      omega

theorem nextToken_after (mode : Mode) (c : Cursor) : ∃ n, (c.nextToken mode).2 = c.advance n :=
  ⟨_, c.advance_advance _ _⟩

theorem lookaheadFrom_after (mode : Mode) (overLines : Bool) (clock : List Char) :
    ∀ c : Cursor, ∃ n, (lookaheadFrom mode overLines clock c).after = c.advance n := by
  induction clock with
  | nil =>
      intro c
      rcases nextToken_after mode c with ⟨n, hn⟩
      refine ⟨n, ?_⟩
      rw [← hn, lookaheadFrom]
      rcases c.nextToken mode with ⟨_ | _, after⟩ <;> rfl
  | cons x clock ih =>
      intro c
      rcases nextToken_after mode c with ⟨n, hn⟩
      have hrest : ∀ after, after = c.advance n →
          ∃ k, (lookaheadFrom mode overLines clock after).after = c.advance k := by
        rintro _ rfl
        rcases ih (c.advance n) with ⟨k, hk⟩
        exact ⟨n + k, by rw [hk, advance_advance]⟩
      rw [lookaheadFrom]
      rcases h : c.nextToken mode with ⟨e | token, after⟩
      · rw [h] at hn
        exact hrest after hn
      · rw [h] at hn
        dsimp only
        split
        · exact hrest after hn
        · exact ⟨n, hn⟩

/-- The next token ends at a place further on. -/
theorem lookahead_after (mode : Mode) (overLines : Bool) (c : Cursor) :
    ∃ n, (c.lookahead mode overLines).after = c.advance n :=
  lookaheadFrom_after mode overLines c.rest c

theorem piece_after (style : StringStyle) (triple : Bool) (opening : Span) (c : Cursor) :
    ∃ n, (c.piece style triple opening).2 = c.advance n := by
  rw [piece]
  split
  · exact ⟨0, c.advance_zero.symm⟩
  · exact ⟨_, rfl⟩

theorem bracedName?_after (c : Cursor) : ∃ n, c.bracedName?.2 = c.advance n := by
  rw [bracedName?]
  split
  · exact ⟨_, rfl⟩
  · exact ⟨0, c.advance_zero.symm⟩

theorem defaultMark_after (c : Cursor) : ∃ n, c.defaultMark.2 = c.advance n := by
  rw [defaultMark]
  split
  · exact ⟨_, rfl⟩
  · exact ⟨0, c.advance_zero.symm⟩

theorem closingBrace?_after (c : Cursor) : ∃ n, c.closingBrace?.2 = c.advance n := by
  rw [closingBrace?]
  split
  · exact ⟨_, rfl⟩
  · exact ⟨0, c.advance_zero.symm⟩

theorem eggexBody_after (c : Cursor) : ∃ n, c.eggexBody.2 = c.advance n :=
  ⟨_, rfl⟩

end Cursor

/-! ## Steps -/

section

variable {α : Type}

instance moving_peek (mode : Mode) : Moving (peek mode) :=
  ⟨fun ctx s => .refl ctx.limits s⟩

instance moving_peekKind (mode : Mode) : Moving (peekKind mode) :=
  ⟨fun ctx s => .refl ctx.limits s⟩

instance moving_peekWord (text : String) : Moving (peekWord text) :=
  ⟨fun ctx s => .refl ctx.limits s⟩

instance moving_position : Moving position :=
  ⟨fun ctx s => .refl ctx.limits s⟩

instance moving_readScan : Moving (read : Scan Context) :=
  ⟨fun ctx s => .refl ctx.limits s⟩

instance moving_readParse : Moving (read : Parse Context) :=
  ⟨fun ctx s => .refl ctx.limits s⟩

instance moving_throw (e : SyntaxError) : Moving (throw e : Parse α) :=
  ⟨fun ctx s => .refl ctx.limits s⟩

instance moving_ahead (x : Scan α) : Moving (ahead x) :=
  ⟨fun ctx s => .refl ctx.limits s⟩

instance moving_lift (x : Scan α) [h : Moving x] : Moving (liftM x : Parse α) :=
  ⟨h.moves⟩

instance moving_monadLift (x : Scan α) [h : Moving x] : Moving (MonadLift.monadLift x : Parse α) :=
  ⟨h.moves⟩

instance moving_attempt (x : Parse α) [h : Moving x] : Moving (attempt x) :=
  ⟨h.moves⟩

theorem report_cursor (d : Diagnostic) (ctx : Context) (s : State) :
    (report d ctx s).2.cursor = s.cursor := by
  change State.cursor (if s.diagnostics.length < ctx.limits.diagnostics then
    { s with diagnostics := s.diagnostics ++ [d] } else s) = _
  split <;> rfl

instance moving_report (d : Diagnostic) : Moving (report d) := ⟨fun ctx s => by
  change Moves ctx.limits s (if s.diagnostics.length < ctx.limits.diagnostics then
    { s with diagnostics := s.diagnostics ++ [d] } else s)
  split
  · case isTrue h =>
      refine ⟨⟨0, s.cursor.advance_zero.symm⟩, List.prefix_append _ _, fun _ => ?_⟩
      rw [List.length_append]
      exact h
  · exact .refl _ s⟩

/-- Reports the errors in front of a token. -/
def reportAll (errors : List LexicalError) : Scan Unit :=
  errors.forM fun error => report (.lexical error)

theorem reportAll_cursor (errors : List LexicalError) (ctx : Context) :
    ∀ s, (reportAll errors ctx s).2.cursor = s.cursor := by
  induction errors with
  | nil => exact fun s => rfl
  | cons e errors ih =>
      intro s
      change (reportAll errors ctx (report (.lexical e) ctx s).2).2.cursor = _
      rw [ih, report_cursor]

theorem moving_reportAll (errors : List LexicalError) : Moving (reportAll errors) := by
  induction errors with
  | nil => exact moving_pure _
  | cons e errors ih => exact (moving_report _).bind fun _ => ih

/-- Consuming a token moves. -/
instance moving_advance (mode : Mode) : Moving (advance mode) := ⟨fun ctx s => by
  rcases s.cursor.lookahead_after mode (mode == .expression && ctx.inBrackets) with ⟨n, hn⟩
  have hr := (moving_reportAll
    (s.cursor.lookahead mode (mode == .expression && ctx.inBrackets)).errors).moves ctx s
  exact ⟨⟨n, hn⟩, hr.kept, hr.bounded⟩⟩

theorem moving_raw {read : Cursor → α × Cursor} (h : ∀ c, ∃ n, (read c).2 = c.advance n) :
    Moving (raw read) :=
  ⟨fun _ s => ⟨h s.cursor, List.prefix_rfl, id⟩⟩

theorem moving_aside {f : Context → Context} (hf : ∀ ctx, (f ctx).limits = ctx.limits)
    (x : Parse α) [h : Moving x] : Moving (m := Parse) fun ctx => x (f ctx) := ⟨fun ctx s => by
  have h := h.moves (f ctx) s
  rw [hf] at h
  exact h⟩

instance moving_nested (x : Parse α) [Moving x] : Moving (nested x) := by
  have hx := moving_aside (f := fun ctx => { ctx with depth := ctx.depth + 1 })
    (fun _ => rfl) x
  exact moving_readParse.bind fun ctx =>
    @moving_ite _ _ _ _ _ _ _ _ _ inferInstance hx

end

/-! ## Consuming a token -/

section

variable {mode : Mode} {ctx : Context} {s s' : State} {D : List Diagnostic}

/-- A token without errors in front of it is consumed, and that is all. -/
theorem yields_advance_of_quiet
    (h : (s.cursor.lookahead mode (mode == .expression && ctx.inBrackets)).errors = []) :
    Yields (advance mode) ctx s (s.next mode ctx)
      ⟨(s.cursor.lookahead mode (mode == .expression && ctx.inBrackets)).after, s.diagnostics⟩ := by
  refine Prod.ext rfl ?_
  change State.mk (s.cursor.lookahead mode (mode == .expression && ctx.inBrackets)).after
    (reportAll (s.cursor.lookahead mode (mode == .expression && ctx.inBrackets)).errors
      ctx s).2.diagnostics = _
  rw [h]
  rfl

/-- In a quiet parse no errors stand in front of a token that is consumed. -/
theorem yields_advance {token : Token} (hq : Quiet ctx.limits D)
    (h : Yields (advance mode) ctx s token s') (hD : s'.diagnostics <+: D) :
    token = s.next mode ctx ∧
      s'.cursor = (s.cursor.lookahead mode (mode == .expression && ctx.inBrackets)).after ∧
      s'.diagnostics = s.diagnostics ∧
      (s.cursor.lookahead mode (mode == .expression && ctx.inBrackets)).errors = [] := by
  have hcursor := congrArg (·.2.cursor) h
  have hdiagnostics := congrArg (·.2.diagnostics) h
  change (s.cursor.lookahead mode (mode == .expression && ctx.inBrackets)).after = s'.cursor
    at hcursor
  change (reportAll (s.cursor.lookahead mode (mode == .expression && ctx.inBrackets)).errors
    ctx s).2.diagnostics = s'.diagnostics at hdiagnostics
  refine ⟨ensures_advance token s' h hD, hcursor.symm, ?_⟩
  rcases herrors : (s.cursor.lookahead mode (mode == .expression && ctx.inBrackets)).errors with
    _ | ⟨error, errors⟩
  · rw [herrors] at hdiagnostics
    exact ⟨hdiagnostics.symm, rfl⟩
  · -- The first of the errors has been reported.
    exfalso
    rw [herrors] at hdiagnostics
    have hkept := ((moving_reportAll errors).moves ctx (report (.lexical error) ctx s).2).kept
    refine ensures_report (d := .lexical error) (s := s) rfl () _ rfl ?_ hq
    rw [← hdiagnostics] at hD
    exact hkept.trans hD

end

end Ysh
