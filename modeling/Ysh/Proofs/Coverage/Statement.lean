import Ysh.Program
import Ysh.Proofs.Coverage.Compound
import Ysh.Proofs.Layout.Begins

/-!
# Programs Lose Nothing

A statement that cannot be read is an error, so in a quiet parse every item of a list
is a statement that was read. What remains is the end: the list at the top ends only
where no more input is, because a statement takes the token that it begins with, and
the rounds of a loop do not run out before the text does.

## Theorems

* `Cursor.lt_stop_lookahead`: A token that is not the end takes something.
* `Grammar.ensures_statementList_end`: The list at the top ends at the end of input.
* `Grammar.lossless_turns`: No turn of the grammar loses anything.
* `parse_loses_nothing`: A source is cut into the leaves of its tree and fillers.
-/

namespace Ysh

variable {D : List Diagnostic}

/-! ## Progress -/

namespace Cursor

theorem lt_after_of_nextToken {mode : Mode} {c after : Cursor} {token : Token}
    (h : c.nextToken mode = (.ok token, after)) (hkind : token.kind ≠ .endOfInput) :
    c.offset < after.offset := by
  rcases offers_of_nextToken h with ⟨front, text, hfront, hread, -⟩
  have hle := hfront.offset_le
  have hpos := hread.lexed.advances.resolve_right hkind
  rw [hread.passes.offset]
  rcases text with _ | ⟨x, text⟩
  · exact absurd hpos (Nat.lt_irrefl 0)
  · have hx := x.utf8Size_pos
    rw [byteLength_cons]
    omega

theorem lt_after_of_lookaheadFrom {mode : Mode} {overLines : Bool} (clock : List Char) :
    ∀ c : Cursor, (lookaheadFrom mode overLines clock c).token.kind ≠ .endOfInput →
      c.offset < (lookaheadFrom mode overLines clock c).after.offset := by
  have hle : ∀ {c after : Cursor} {r}, c.nextToken mode = (r, after) → c.offset ≤ after.offset := by
    intro c after r h
    rcases nextToken_after mode c with ⟨n, hn⟩
    rw [h] at hn
    have hn : after = c.advance n := hn
    rw [hn]
    exact c.offset_le_advance n
  induction clock with
  | nil =>
      intro c h
      rw [lookaheadFrom] at h ⊢
      rcases hnext : c.nextToken mode with ⟨e | token, after⟩
      · rw [hnext] at h
        exact absurd rfl h
      · rw [hnext] at h
        exact lt_after_of_nextToken hnext h
  | cons x clock ih =>
      intro c h
      rw [lookaheadFrom] at h ⊢
      rcases hnext : c.nextToken mode with ⟨e | token, after⟩
      · rw [hnext] at h
        exact Nat.lt_of_le_of_lt (hle hnext) (ih after h)
      · rw [hnext] at h
        dsimp only at h ⊢
        split at h
        · next hline =>
            rw [if_pos hline]
            exact Nat.lt_of_le_of_lt (hle hnext) (ih after h)
        · next hline =>
            rw [if_neg hline]
            exact lt_after_of_nextToken hnext h

/-- A token that is not the end takes something. -/
theorem lt_stop_lookahead {mode : Mode} {overLines : Bool} {c : Cursor}
    (h : (c.lookahead mode overLines).token.kind ≠ .endOfInput) :
    c.offset < (c.lookahead mode overLines).token.span.stop := by
  unfold lookahead at h ⊢
  rw [stop_lookaheadFrom]
  exact lt_after_of_lookaheadFrom c.rest c h

end Cursor

namespace Moves

variable {limits : Limits} {s s' : State}

/-- Where the place is further on there is less text left. -/
theorem length_lt (h : Moves limits s s') (hlt : s.cursor.offset < s'.cursor.offset) :
    s'.cursor.rest.length < s.cursor.rest.length := by
  rcases h.forward with ⟨n, hn⟩
  have hrest : s'.cursor.rest = s.cursor.rest.drop n := congrArg Cursor.rest hn
  have hoffset : s'.cursor.offset = s.cursor.offset + byteLength (s.cursor.rest.take n) :=
    congrArg Cursor.offset hn
  refine Nat.lt_of_not_le fun hge => ?_
  -- As much text as before means that no character was passed.
  rw [hrest, List.length_drop] at hge
  have htake : s.cursor.rest.take n = [] := by
    rw [← List.length_eq_zero_iff, List.length_take]
    omega
  rw [hoffset, htake, byteLength_nil] at hlt
  omega

end Moves

namespace State.Passed

variable {limits : Limits} {ctx : Context} {s s' : State}

/-- Behind a token that is not the end the place is further on. -/
theorem offset_lt (h : s.Passed s') (hkind : (s.next .command ctx).kind ≠ .endOfInput) :
    s.cursor.offset < s'.cursor.offset := by
  have hstop : s.cursor.offset < s.cursor.commandStop := Cursor.lt_stop_lookahead hkind
  exact Nat.lt_of_lt_of_le hstop h

/-- Behind a token that is not the end there is less left. -/
theorem length_lt (h : s.Passed s') (hmoves : Moves limits s s')
    (hkind : (s.next .command ctx).kind ≠ .endOfInput) :
    s'.cursor.rest.length < s.cursor.rest.length :=
  hmoves.length_lt (h.offset_lt hkind)

end State.Passed

theorem Token.Kind.isFixed_of_isTerminator {kind : Token.Kind} (h : kind.isTerminator = true) :
    kind.isFixed = true := by
  cases kind with
  | semicolon | doubleSemicolon | ampersand | newline => rfl
  | _ => cases h

namespace Grammar

variable {g : Grammar} [g.Stepwise] (hg : g.Lossless D)

section

include hg

/-! ## Statements -/

theorem lossless_commandStatement : Ysh.Lossless D g.commandStatement Tree.leaves := by
  intro ctx s hq
  exact ensures_map ((lossless_commandCall hg true ctx s hq).mono fun call s1 h => h)

omit [g.Stepwise] hg in
theorem ensures_shorthandAhead {f : Bool → Parse Statement} {ctx : Context} {s : State}
    {Q : Statement → State → Prop}
    (h : ∀ found, (found = true → ((advance .command ctx s).2.next .command ctx).isWord "=" = true) →
      Ensures D (f found) ctx s Q) :
    Ensures D (liftM startsShorthand >>= f) ctx s Q :=
  h _ fun hfound => (Bool.and_eq_true_iff.1 hfound).1

theorem covers_wordStatement {ctx : Context} {s : State} (hq : Quiet ctx.limits D) :
    Ensures D (g.wordStatement (s.next .command ctx)) ctx s fun t s' =>
      Covers s.cursor t.leaves s'.cursor := by
  unfold wordStatement
  split
  · next hword => exact covers_variableDeclaration hg hq (by rw [hword]; decide)
  · next hword => exact covers_assignment hg .nearest hq (by rw [hword]; decide)
  · next hword => exact covers_assignment hg .global hq (by rw [hword]; decide)
  · next hword => exact covers_constantDeclaration hg hq (by rw [hword]; decide)
  · next hword => exact covers_funcDefinition hg hq (by rw [hword]; decide)
  · next hword => exact covers_procDefinition hg hq (by rw [hword]; decide)
  · next hword => exact covers_forLoop hg hq (by rw [hword]; decide)
  · next hword => exact covers_whileLoop hg hq (by rw [hword]; decide)
  · next hword => exact covers_conditional hg hq (by rw [hword]; decide)
  · next hword => exact covers_caseStatement hg hq (by rw [hword]; decide)
  · exact ensures_throw
  · exact ensures_throw
  · exact ensures_throw
  · refine ensures_read (ensures_ite (fun hreturn => ?_) fun _ => ensures_ite (fun _ => ?_)
      fun _ => lossless_commandStatement hg ctx s hq)
    · exact covers_returnStatement hg hq (by rw [hreturn.1]; decide)
    · refine ensures_shorthandAhead fun found hequals => ensures_ite (fun hfound => ?_)
        fun _ => lossless_commandStatement hg ctx s hq
      refine covers_shorthandConstant hg hq ?_
      rw [Token.text_of_isWord (hequals hfound)]
      decide

theorem lossless_pipelineElement : Ysh.Lossless D g.pipelineElement Tree.leaves := by
  intro ctx s hq
  exact ensures_peek (ensures_ite (fun _ => covers_wordStatement hg hq)
    fun _ => lossless_commandStatement hg ctx s hq)

theorem covers_pipeRound {left : Statement} {c : Cursor} {ctx : Context} {s : State}
    (hq : Quiet ctx.limits D) (h : Covers c left.leaves s.cursor) :
    Ensures D (g.pipeRound left) ctx s fun r s' => Covers c r.value.leaves s'.cursor := by
  refine ensures_peekKind (ensures_ite (fun hpipe => ?_) fun _ => ensures_pure.2 fun _ => h)
  refine ensures_fixed hq (by rw [hpipe.1]; rfl) fun s1 hs1 => ?_
  refine ensures_seq (ensures_lift (lossless_skipWhile (fun kind hkind => ?_) ctx s1 hq))
    fun _ s2 hskip => ?_
  · rw [beq_iff_eq.1 hkind]
    rfl
  · refine ensures_seq (lossless_pipelineElement hg ctx s2 hq) fun right s3 hright =>
      ensures_pure.2 fun _ => ?_
    exact h.append (hs1.after (hskip.after hright))

theorem lossless_statement : Ysh.Lossless D g.statement Tree.leaves := by
  intro ctx s hq
  refine ensures_nested fun _ => ?_
  refine ensures_seq (lossless_pipelineElement hg _ s hq) fun first s1 hfirst => ?_
  exact ensures_loop_state (I := fun (t : Statement) s' => Covers s.cursor t.leaves s'.cursor) hfirst
    fun left s2 h => covers_pipeRound hg hq h

theorem lossless_terminatedStatement : Ysh.Lossless D g.terminatedStatement Tree.leaves := by
  intro ctx s hq
  refine ensures_seq (lossless_statement hg ctx s hq) fun t s1 h => ensures_peek ?_
  refine ensures_ite (fun hends => ?_) fun _ => ensures_ite (fun _ => ensures_pure.2 fun _ => h)
    fun _ => ensures_throw
  refine ensures_fixed hq (Token.Kind.isFixed_of_isTerminator hends) fun s2 hs2 =>
    ensures_pure.2 fun _ => h.upTo hs2

/-! ## Lists of statements -/

/-- A statement that cannot be read is an error. -/
theorem lossless_statementOrError : Ysh.Lossless D g.statementOrError Tree.leaves := by
  intro ctx s hq
  refine Scan.ensures_peek (Moving.ensures_seq (fun r => by cases r <;> infer_instance)
    (ensures_attempt (lossless_terminatedStatement hg ctx s hq)) fun r s1 hr => ?_)
  cases r with
  | ok t => exact ensures_pure.2 fun _ => hr t rfl
  | error e => exact ensures_blame hq rfl

omit [g.Stepwise] hg in
/-- A closing token that nothing waits for is an error. -/
theorem ensures_strayCloser {ctx : Context} {s : State} {Q : Statement → State → Prop}
    (hq : Quiet ctx.limits D) : Ensures D strayCloser ctx s Q :=
  ensures_skip fun _ _ => ensures_blame hq rfl

theorem lossless_listedStatement (closer : Option Token.Kind) :
    Ysh.Lossless D (g.listedStatement closer) fun o => o.toList.flatMap Tree.leaves := by
  intro ctx s hq
  refine ensures_seq (lossless_skipSeparators ctx s hq) fun _ s1 hskip => ?_
  refine Scan.ensures_peekKind (ensures_ite (fun _ => ensures_pure.2 fun _ => hskip) fun _ =>
    ensures_ite (fun _ => ensures_bind (ensures_strayCloser hq)) fun _ => ?_)
  refine ensures_seq (lossless_statementOrError hg ctx s1 hq) fun t s2 ht =>
    ensures_pure.2 fun _ => ?_
  exact hskip.after (ht.append (.nil _))

theorem lossless_statementList (closer : Option Token.Kind) :
    Ysh.Lossless D (g.statementList closer) (·.flatMap Tree.leaves) :=
  fun ctx s hq => lossless_collect (lossless_listedStatement hg closer)
    { ctx with closers := closer.toList ++ ctx.closers } s hq

end

/-! ## The end of input -/

omit hg in
/-- A statement takes the token that it begins with. -/
theorem ensures_statementOrError_takes {ctx : Context} {s : State} (hq : Quiet ctx.limits D)
    (hkind : (s.next .command ctx).kind ≠ .endOfInput) :
    Ensures D g.statementOrError ctx s fun _ s' =>
      s'.cursor.rest.length < s.cursor.rest.length := by
  have hpasses : Ensures D g.terminatedStatement ctx s fun _ s' =>
      s'.cursor.rest.length < s.cursor.rest.length := by
    intro t s1 hyields _
    have hbegins := begins_terminatedStatement (g := g) ctx s
    rw [show outcome g.terminatedStatement ctx s = (.ok t, s1) from hyields] at hbegins
    have hpassed : s.Passed s1 := hbegins.resolve_right fun h => h.2
    have hm : Ysh.Moving g.terminatedStatement := inferInstance
    exact hpassed.length_lt (hm.of_yields hyields) hkind
  refine Scan.ensures_peek (Moving.ensures_seq (fun r => by cases r <;> infer_instance)
    (ensures_attempt hpasses) fun r s1 hr => ?_)
  cases r with
  | ok t => exact ensures_pure.2 fun _ => hr t rfl
  | error e => exact ensures_blame hq rfl

/-- An item of the list at the top takes something, and there is none at the end of
    input only. -/
theorem ensures_listedStatement_takes {ctx : Context} {s : State} (hq : Quiet ctx.limits D) :
    Ensures D (g.listedStatement none) ctx s fun o s' =>
      o.elim ((s'.next .command ctx).kind = .endOfInput) fun _ =>
        s'.cursor.rest.length < s.cursor.rest.length := by
  refine ensures_seq (P := fun _ s1 => s1.cursor.rest.length ≤ s.cursor.rest.length)
    (fun u s1 hyields _ => ?_) fun _ s1 hle => ?_
  · have hm : Ysh.Moving skipSeparators := inferInstance
    exact (hm.of_yields hyields).length_le
  · refine Scan.ensures_peekKind (ensures_ite (fun hend => ensures_pure.2 fun _ => ?_) fun hend =>
      ensures_ite (fun _ => ensures_bind (ensures_strayCloser hq)) fun _ => ?_)
    · exact hend.resolve_right (by simp)
    · refine ensures_seq (ensures_statementOrError_takes hq fun h => hend (.inl h))
        fun t s2 hlt => ensures_pure.2 fun _ => Nat.lt_of_lt_of_le hlt hle

/-- The list at the top ends at the end of input. -/
theorem ensures_statementList_end {ctx : Context} {s : State} (hq : Quiet ctx.limits D) :
    Ensures D (g.statementList none) ctx s fun _ s' =>
      (s'.next .command ctx).kind = .endOfInput := by
  have hlist : Ensures D (collect (g.listedStatement none)) { ctx with closers := [] ++ ctx.closers }
      s fun _ s' => (s'.next .command ctx).kind = .endOfInput := by
    refine ensures_seq (ensures_loop_stop (I := fun _ _ => True)
      (Q := fun _ s' => (s'.next .command ctx).kind = .endOfInput) trivial ?_)
      fun _ s1 h => ensures_pure.2 fun _ => h
    intro items s1 _
    refine Moving.ensures_seq (fun r => by cases r <;> exact moving_pure _)
      (ensures_listedStatement_takes (s := s1) hq) ?_
    rintro (_ | t) s2 h
    · exact ensures_pure.2 fun _ => h
    · exact ensures_pure.2 fun _ => ⟨trivial, h⟩
  exact hlist

/-- A whole program is covered up to the end of input. -/
theorem covers_program (ctx : Context) (s : State) (hg : g.Lossless D) (hq : Quiet ctx.limits D) :
    Ensures D g.program ctx s fun ts s' =>
      Covers s.cursor (ts.flatMap Tree.leaves) s'.cursor ∧ s'.cursor.rest = [] := by
  refine ensures_seq ((lossless_statementList hg none ctx s hq).and (ensures_statementList_end hq)) ?_
  rintro ts s1 ⟨hts, hend⟩
  refine ensures_seq (ensures_offers hq) ?_
  rintro token s2 ⟨rfl, hoffers⟩
  refine ensures_pure.2 fun _ => ⟨hts.upTo (hoffers.fixed (by rw [hend]; rfl)), ?_⟩
  rcases hoffers with ⟨front, text, -, hread, -⟩
  have hlexed := hread.lexed
  rw [hend] at hlexed
  exact hlexed.endOfInput.2

/-! ## The circle -/

/-- No turn of the grammar loses anything. -/
theorem lossless_turns (D : List Diagnostic) (n : Nat) : (turns n).Lossless D := by
  induction n with
  | zero =>
      exact
        { expression := fun _ _ _ => ensures_peek ensures_throw
          statements := fun _ _ _ _ => ensures_pure.2 fun _ => .nil _
          expansion := fun _ _ => ensures_throw }
  | succ n ih =>
      exact
        { expression := lossless_expressionBody ih
          statements := fun closer => lossless_statementList ih closer
          expansion := fun hq h => covers_expansionBody ih hq h }

end Grammar

/-! ## Programs -/

/-- A parse without errors, with room for more diagnostics, has looked at its source. -/
theorem parse_eq_finish_of_hasErrors {limits : Limits} {source : String}
    (h : (parse limits source).hasErrors = false) :
    parse limits source = finish limits source (.ofSource source) := by
  unfold parse at h ⊢
  dsimp only at h ⊢
  by_cases hsize : limits.inputSize < source.utf8ByteSize
  · rw [if_pos hsize] at h
    cases h
  · rw [if_neg hsize]

/-- A parse that reports fewer diagnostics than it may, and no error, loses nothing. The
    source is cut into the leaves of the tree and fillers; the leaves stand one behind
    the other, and each is spelled as the tree says. -/
theorem parse_loses_nothing (limits : Limits) (source : String)
    (hroom : (parse limits source).diagnostics.length < limits.diagnostics)
    (herrors : (parse limits source).hasErrors = false) :
    ((parse limits source).program.leaves.Pairwise fun l l' => l.span.stop ≤ l'.span.start) ∧
      (∀ l ∈ (parse limits source).program.leaves,
        ∃ text, l.span.text? source = some (.ofList text) ∧ l.Spelled text) ∧
      ∃ last, last.rest = [] ∧
        Covers (.ofSource source) (parse limits source).program.leaves last := by
  have hfinish := parse_eq_finish_of_hasErrors herrors
  rw [hfinish] at hroom herrors ⊢
  have hq : Quiet limits (finish limits source (.ofSource source)).diagnostics :=
    ⟨hroom, hasErrors_eq_false.1 herrors⟩
  have hprogram := Grammar.covers_program { limits } (.ofSource source)
    (Grammar.lossless_turns _ _) hq _ _ rfl List.prefix_rfl
  have hleaves : (finish limits source (.ofSource source)).program.leaves =
      (readProgram limits (.ofSource source)).1.flatMap Tree.leaves := Tree.leaves_ofList _
  rw [hleaves]
  have hcovers := hprogram.1
  exact ⟨hcovers.leaves_ordered, hcovers.leaf_text [] rfl rfl, _, hprogram.2, hcovers⟩

/-- The digits of a descriptor are filler, and so are a comment and the equals sign of a
    binding, but the number of an argument is a leaf. -/
theorem leaves_of_redirected_call :
    (parse {} "a=b c\\d 2 2>&1 # e").program.leaves =
        [⟨.plain, "a", .between 0 1⟩, ⟨.plain, "b", .between 2 3⟩, ⟨.plain, "c", .between 4 5⟩,
          ⟨.escaped, "d", .between 5 7⟩, ⟨.plain, "2", .between 8 9⟩,
          ⟨.plain, "1", .between 13 14⟩] ∧
      ∃ last, last.rest = [] ∧ Covers (.ofSource "a=b c\\d 2 2>&1 # e")
        (parse {} "a=b c\\d 2 2>&1 # e").program.leaves last :=
  ⟨by decide +kernel, (parse_loses_nothing {} _ (by decide +kernel) (by decide +kernel)).2.2⟩

end Ysh
