import Ysh.Proofs.Joined.Declaration

/-!
# Control Flow in Surroundings

The keyword in the middle of a loop over names is what ends the names, so it is looked at
as an expression before it is read as a word. Newlines in front of a branch are looked
past. What is behind them in the surroundings is never a branch, or else a line of its own
would have begun with one.

## Theorems

* `Grammar.carries_condition`, `Grammar.carries_whileLoop`, `Grammar.carries_forLoop`.
* `Grammar.carries_branchKeyword`: No branch is found behind the text.
* `Grammar.carries_conditional`, `Grammar.carries_caseStatement`.
-/

namespace Ysh

variable {w : Surroundings} {D : List Diagnostic} {ctx : Context}

/-! ## Looking at a word as an expression -/

/-- The keyword of a loop over names is a token of an expression too. -/
theorem State.Faces.rests_of_isWord_in {s : State} (h : s.Faces .command ctx)
    (hin : (s.next .command ctx).isWord "in" = true) (hctx : ctx.inBrackets = false) :
    s.Rests .expression ctx := by
  refine h.clear.rests_expression_of hctx fun cs n hl htext => ?_
  have hword := Bool.and_eq_true_iff.1 hin
  rw [beq_iff_eq.1 hword.2] at htext
  have hlist := congrArg String.toList htext
  rcases cs with _ | ⟨c, cs⟩
  · simp at hlist
  · rcases n with _ | n
    · simp at hlist
    · have hc : c = 'i' := by
        simp only [List.take_succ_cons, String.toList_ofList] at hlist
        exact (List.cons_eq_cons.1 hlist).1
      subst hc
      exact ⟨_, _, rfl⟩

/-- What comes next inside brackets comes next outside of them, or else a newline. -/
theorem State.Faces.rests_of_inBrackets {s : State}
    (h : s.Faces .expression { ctx with inBrackets := true }) (hctx : ctx.inBrackets = false) :
    s.Rests .expression ctx := by
  intro hend
  unfold State.next at hend
  rw [hctx] at hend
  have htoken := h.token
  change (s.cursor.lookahead .expression true).token.kind ≠ _ at htoken
  change (s.cursor.lookahead .expression false).token.kind = _ at hend
  rw [Cursor.lookahead_overLines, if_neg (by simp [hend])] at htoken
  exact absurd hend htoken

/-! ## Looking past newlines -/

theorem ensures_skipNewlines_next (s : State) : Ensures D skipNewlines ctx s fun _ s' =>
    s'.next .command ctx = (s.cursor.lookahead .command true).token := by
  refine ensures_loop_stop (I := fun _ s1 => (s1.cursor.lookahead .command true).token =
    (s.cursor.lookahead .command true).token) (Q := fun _ s1 => s1.next .command ctx =
      (s.cursor.lookahead .command true).token) rfl fun _ s1 hs1 => ?_
  rw [Cursor.lookahead_overLines] at hs1
  refine Scan.ensures_peekKind (ensures_ite (fun hline => ?_) fun hline =>
    ensures_pure.2 fun _ => ?_)
  · have hline : (s1.next .command ctx).kind = .newline := beq_iff_eq.1 hline
    have hm : Moving (advance .command) := inferInstance
    refine ensures_bind fun token s2 htoken hD => ensures_pure.2 fun hD => ⟨?_, ?_⟩
    case refine_2 =>
      exact (hm.of_yields htoken).length_lt
        (Scan.gains_advance (by simp [hline]) token s2 htoken trivial)
    have hline : (s1.cursor.lookahead .command false).token.kind = .newline := hline
    rw [if_pos hline] at hs1
    change (s2.cursor.lookahead .command true).token = _
    rw [(next_of_advance htoken).2]
    exact hs1
  · have hline : (s1.cursor.lookahead .command false).token.kind ≠ .newline :=
      fun h => hline (beq_iff_eq.2 h)
    rw [if_neg hline] at hs1
    exact hs1

/-- Behind the newlines comes what comes next where newlines are passed over. -/
theorem next_of_skipNewlines (ctx : Context) (s : State) :
    (skipNewlines ctx s).2.next .command ctx = (s.cursor.lookahead .command true).token :=
  ensures_skipNewlines_next s () _ rfl List.prefix_rfl

namespace Grammar

variable {g h : Grammar} [g.Stepwise] [h.Stepwise] (hg : Carries w D g h)

/-! ## Branches -/

/-- A branch comes next in the surroundings if one comes next in the text. -/
theorem carries_branchKeyword {text : String} (htext : text = "elif" ∨ text = "else") (s : State) :
    Ysh.Carries w D (branchKeyword text) (branchKeyword text) ctx s True fun _ _ => True := by
  have hcomes : ∀ s : State, Yields (ahead (do skipNewlines; peekWord text)) ctx s
      ((s.cursor.lookahead .command true).token.isWord text) s := by
    intro s
    rw [← next_of_skipNewlines ctx]
    rfl
  refine carries_look (R := fun comes =>
    comes = (s.cursor.lookahead .command true).token.isWord text) (hcomes s)
    ⟨_, hcomes (s.within w), fun _ => ?_⟩ ⟨_, rfl⟩ ?_
  · cases hfound : (s.cursor.lookahead .command true).token.isWord text with
    | false => exact Cursor.isWord_lookahead_within htext s.cursor hfound
    | true =>
        have hword := beq_iff_eq.1 (Bool.and_eq_true_iff.1 hfound).1
        change ((s.cursor.within w).lookahead .command true).token.isWord text = true
        rw [Cursor.lookahead_within s.cursor fun hend => by simp [hword] at hend]
        exact hfound
  · rintro _ rfl
    refine carries_ite Iff.rfl (fun hfound => ?_) fun _ => carries_pure rfl id
    have hword := beq_iff_eq.1 (Bool.and_eq_true_iff.1 hfound).1
    refine .free (carries_bind (carries_skipNewlines s) fun _ s1 hs1 => ?_)
    have hs1 : s1 = (skipNewlines ctx s).2 := congrArg Prod.snd hs1.symm
    have hkind : (s1.next .command ctx).kind ≠ .endOfInput := by
      rw [hs1, next_of_skipNewlines]
      simp [hword]
    refine (carries_seq (carries_advance hkind) fun keyword s2 => ?_).mono State.Faces.stays
      fun _ _ h => h
    exact carries_pure rfl id

section

include hg

theorem carries_condition (s : State) : Ysh.Carries w D g.condition h.condition ctx s
    (s.Faces .command ctx) fun _ s' => s'.Follows ctx := by
  refine carries_seeKind State.Faces.stays (carries_ite Iff.rfl (fun _ => ?_) fun _ => ?_)
  · refine (carries_seq (carries_parenthesized hg s) fun value s1 => ?_).mono
      (fun hsees => hsees.faces (by simp)) fun _ _ h => h
    exact carries_pure rfl fun _ => trivial
  · refine (carries_seq (carries_commandCall hg false s) fun call s1 => ?_).mono
      State.Leads.faces fun _ _ h => h
    exact carries_pure rfl id

theorem carries_branch (keyword : Token) (s : State) :
    Ysh.Carries w D (g.branch keyword) (h.branch (keyword.shift w.size)) ctx s
      (s.Faces .command ctx) fun _ _ => True := by
  refine carries_seq (carries_condition hg s) fun condition s1 => ?_
  refine (carries_seq (carries_block hg s1) fun body s2 => ?_).mono
    (fun hsees => (hsees.faces (by simp)).follows (by simp [hsees.kind])) fun _ _ h => h
  exact carries_pure (by simp (disch := decide) [Tree.shift]) id

theorem carries_elifBranch (s : State) : Ysh.Carries w D g.elifBranch h.elifBranch ctx s True
    fun _ _ => True := by
  refine Moving.carries_bind (fun o => by cases o <;> infer_instance)
    (carries_lift (carries_branchKeyword (.inl rfl) s)) fun keyword s1 _ => ?_
  rcases keyword with _ | keyword
  · exact carries_pure rfl id
  · exact .free (carries_seq (carries_branch hg keyword s1) fun branch s2 => carries_pure rfl id)

omit [h.Stepwise] in
theorem carries_elseBody (s : State) : Ysh.Carries w D g.elseBody h.elseBody ctx s True
    fun _ _ => True := by
  refine Moving.carries_bind (fun o => by cases o <;> infer_instance)
    (carries_lift (carries_branchKeyword (.inr rfl) s)) fun keyword s1 _ => ?_
  rcases keyword with _ | keyword
  · exact carries_pure rfl id
  · exact .free (carries_seq (carries_block hg s1) fun body s2 => carries_pure rfl id)

theorem carries_conditional {s : State} (hword : (s.next .command ctx).kind = .word) :
    Ysh.Carries w D g.conditional h.conditional ctx s (s.Faces .command ctx) fun _ _ => True := by
  refine carries_seq (carries_lift (carries_advance (by simp [hword]))) fun keyword s1 => ?_
  refine .free (carries_seq (carries_branch hg keyword s1) fun first s2 => ?_)
  refine carries_seq (carries_collect ParseLoop.branches.progresses ParseLoop.branches.progresses
    (carries_elifBranch hg)) fun others s3 => ?_
  refine carries_seq (carries_elseBody hg s3) fun otherwise s4 => ?_
  refine carries_position (carries_pure ?_ id)
  have hbranches : shift w.size first :: shift w.size others =
      (first :: others).map (Tree.shift w.size) := rfl
  rw [hbranches, Tree.ofList_shift]
  simp [Tree.shift]

/-! ## Loops -/

theorem carries_whileLoop {s : State} (hword : (s.next .command ctx).kind = .word) :
    Ysh.Carries w D g.whileLoop h.whileLoop ctx s (s.Faces .command ctx) fun _ _ => True := by
  refine carries_seq (carries_lift (carries_advance (by simp [hword]))) fun keyword s1 => ?_
  refine .free (carries_seq (carries_condition hg s1) fun condition s2 => ?_)
  refine (carries_seq (carries_block hg s2) fun body s3 => ?_).mono
    (fun hsees => (hsees.faces (by simp)).follows (by simp [hsees.kind])) fun _ _ h => h
  exact carries_pure (by simp (disch := decide) [Tree.shift]) id

omit hg [g.Stepwise] in
theorem carries_furtherName (s : State) : Ysh.Carries w D furtherName furtherName ctx s
    (s.Rests .expression ctx) fun _ s' => s'.Rests .expression ctx := by
  refine carries_seq (M := fun found s1 => found = false → s1.Rests .expression ctx)
    (carries_lift (carries_comma s)) fun found s1 => carries_ite Iff.rfl (fun hfound => ?_)
      fun _ => carries_pure rfl fun hrests _ => hrests
  refine (carries_seq (carries_bindingName s1) fun name s2 => ?_).mono
    (fun _ hnot => absurd (hfound.symm.trans hnot) (by simp)) fun _ _ h => h
  exact carries_pure rfl fun _ => trivial

omit hg [g.Stepwise] in
theorem carries_loopNames (s : State) : Ysh.Carries w D loopNames loopNames ctx s
    (s.Faces .expression ctx) fun _ s' => s'.Rests .expression ctx := by
  refine carries_seq (carries_bindingName s) fun first s1 => ?_
  have hends : Progresses (collectRound furtherName) ctx :=
    (ParseLoop.names (g := turns 0)).progresses
  exact .free (carries_seq (carries_collect hends hends carries_furtherName) fun others s2 =>
    carries_pure rfl id)

omit [h.Stepwise] in
theorem carries_rangeOrValue (s : State) : Ysh.Carries w D g.rangeOrValue h.rangeOrValue ctx s
    (s.Faces .expression ctx) fun _ s' => s'.Rests .expression ctx := by
  refine carries_seq (hg.expression ctx s) fun first s1 => ?_
  refine carries_peekKind id fun kind' htwin => carries_ite (htwin.eq_iff (by simp) (by simp))
    (fun hkind => ?_) fun _ => carries_pure rfl id
  refine (carries_seq (carries_lift (carries_advance (by simp [hkind]))) fun _ s2 => ?_).mono
    State.Faces.rests fun _ _ h => h
  refine .free (carries_seq (hg.expression ctx s2) fun last s3 => ?_)
  exact carries_pure (by simp (disch := decide) [Tree.shift]) id

theorem carries_nextWord (s : State) : Ysh.Carries w D g.nextWord h.nextWord ctx s
    (s.Rests .command ctx) fun _ s' => s'.Rests .command ctx := by
  refine carries_peekKind id fun kind' htwin => carries_ite ?_ (fun _ => ?_) fun _ =>
    carries_pure rfl id
  · rw [htwin.apply Token.Kind.isWordPiece rfl]
  · refine (carries_seq (carries_word hg s) fun word s1 => ?_).mono
      (fun hleads => hleads.faces.rests) fun _ _ h => h
    exact carries_pure rfl id

theorem carries_iterable (s : State) : Ysh.Carries w D g.iterable h.iterable ctx s
    (s.Rests .command ctx) fun _ s' => s'.Rests .command ctx := by
  refine carries_peekKind id fun kind' htwin => carries_ite (htwin.eq_iff (by simp) (by simp))
    (fun hkind => ?_) fun _ => ?_
  · refine (carries_seq (carries_lift (carries_advance (by simp [hkind]))) fun opening s1 => ?_).mono
      State.Faces.rests fun _ _ h => h
    refine carries_bracketed (.free (carries_seq (carries_rangeOrValue hg s1) fun items s2 => ?_))
    refine (carries_seq (carries_expectClosing (by simp)) fun _ s3 => ?_).mono
      (fun hsees => (hsees.faces (by simp)).rests) fun _ _ h => h
    exact carries_pure rfl fun _ => trivial
  · refine carries_seq (carries_collect ParseLoop.words.progresses ParseLoop.words.progresses
      (carries_nextWord hg)) fun words s1 => ?_
    refine carries_ite ?_ (fun _ => carries_unexpected) fun _ => carries_pure ?_ id
    · cases words <;> exact Iff.rfl
    · simp [Tree.shift]

theorem carries_forLoop {s : State} (hword : (s.next .command ctx).kind = .word)
    (hctx : ctx.inBrackets = false) : Ysh.Carries w D g.forLoop h.forLoop ctx s
      (s.Faces .command ctx) fun _ _ => True := by
  refine carries_seq (carries_lift (carries_advance (by simp [hword]))) fun keyword s1 => ?_
  refine .free (carries_seq (carries_loopNames s1) fun names s2 => ?_)
  refine Carries.mono (carries_peekWord ?_ (carries_ite Iff.rfl (fun _ => ?_) fun hin => ?_))
    (fun hin : s2.Faces .command ctx ∧ (s2.next .command ctx).isWord "in" = true =>
      hin.1.rests_of_isWord_in hin.2 hctx) fun _ _ h => h
  · exact fun hin => hin.1.rests
  · exact carries_of_ensures fun _ => ensures_bind ensures_unexpected
  have hin : (s2.next .command ctx).isWord "in" = true := by simpa using hin
  have hkind := beq_iff_eq.1 (Bool.and_eq_true_iff.1 hin).1
  refine (carries_seq (carries_lift (carries_advance (by simp [hkind]))) fun _ s3 => ?_).mono
    (fun hfaces => ⟨hfaces, hin⟩) fun _ _ h => h
  refine .free (carries_seq (carries_iterable hg s3) fun items s4 => ?_)
  refine (carries_seq (carries_block hg s4) fun body s5 => ?_).mono
    (fun hsees => (hsees.faces (by simp)).rests) fun _ _ h => h
  exact carries_pure (by simp (disch := decide) [Tree.shift]) id

/-! ## Patterns -/

theorem carries_furtherGlob (s : State) : Ysh.Carries w D g.furtherGlob h.furtherGlob ctx s
    (s.Rests .command ctx) fun _ s' => s'.Rests .command ctx := by
  refine carries_peekKind id fun kind' htwin => carries_ite (htwin.eq_iff (by simp) (by simp))
    (fun hkind => ?_) fun _ => carries_pure rfl id
  refine (carries_seq (carries_lift (carries_advance (by simp [hkind]))) fun _ s1 => ?_).mono
    State.Faces.rests fun _ _ h => h
  exact .free (carries_seq (carries_word hg s1) fun word s2 => carries_pure rfl id)

theorem carries_globPattern (s : State) : Ysh.Carries w D g.globPattern h.globPattern ctx s
    (s.Leads ctx) fun _ s' => s'.Rests .command ctx := by
  refine carries_seq (carries_word hg s) fun first s1 => ?_
  refine carries_seq (carries_collect ParseLoop.globs.progresses ParseLoop.globs.progresses
    (carries_furtherGlob hg)) fun others s2 => carries_pure ?_ id
  have hglobs : shift w.size first :: shift w.size others =
      (first :: others).map (Tree.shift w.size) := rfl
  have hlast : (shift w.size others).getLastD (shift w.size first) =
      (others.getLastD first).shift w.size := by
    rw [List.getLastD_eq_getLast?, List.getLastD_eq_getLast?]
    change (others.map (Tree.shift w.size)).getLast?.getD _ = _
    rw [List.getLast?_map]
    rcases others.getLast? with _ | last <;> rfl
  rw [hglobs, Tree.ofList_shift, hlast]
  simp (disch := decide) [Tree.shift]

omit [h.Stepwise] in
theorem carries_parenthesizedPattern {s : State} (hkind : (s.next .command ctx).kind = .leftParen)
    (hctx : ctx.inBrackets = false) :
    Ysh.Carries w D g.parenthesizedPattern h.parenthesizedPattern ctx s (s.Faces .command ctx)
      fun _ _ => True := by
  refine carries_seq (carries_lift (carries_advance (by simp [hkind]))) fun opening s1 => ?_
  refine .forget (s1.Rests .expression ctx) (carries_peek id fun next' htwin => carries_ite ?_
    (fun helse => ?_) fun _ => ?_)
  · rcases htwin with rfl | ⟨hend, hline⟩
    · exact Iff.rfl
    · exact iff_of_false (fun h => by simp [hend] at h) fun h => by simp [hline] at h
  · refine (carries_seq (carries_lift (carries_advance (by simp [helse.1]))) fun _ s2 => ?_).mono
      State.Faces.rests fun _ _ h => h
    refine .free (carries_seq (carries_expectClosing (by simp)) fun closing s3 => ?_)
    exact carries_pure (by simp [Tree.shift]) id
  · refine (carries_seq (carries_enclosed hg (by simp) opening.span s1) fun e s2 => ?_).mono
      (fun hfaces => hfaces.rests_of_inBrackets hctx) fun _ _ h => h
    exact carries_pure rfl id

theorem carries_casePattern (s : State) (hctx : ctx.inBrackets = false) :
    Ysh.Carries w D g.casePattern h.casePattern ctx s (s.Faces .command ctx)
      fun _ s' => s'.Rests .command ctx := by
  refine carries_see State.Faces.stays (carries_ite Iff.rfl (fun hkind => ?_) fun _ =>
    carries_ite Iff.rfl (fun hslash => ?_) fun _ => carries_ite Iff.rfl (fun _ => ?_) fun _ =>
      carries_unexpected)
  · exact (carries_parenthesizedPattern hg hkind hctx).from fun _ _ _ => trivial
  · have hword := beq_iff_eq.1 (Bool.and_eq_true_iff.1 hslash).1
    refine carries_seq (carries_lift (carries_advance (by simp [hword]))) fun _ s1 => ?_
    refine .free (carries_seq (carries_lift (carries_eggexBody _ s1)) fun e s2 => ?_)
    exact carries_pure rfl fun _ => trivial
  · exact (carries_globPattern hg s).mono State.Leads.faces fun _ _ h => h

/-! ## Cases -/

theorem carries_caseArm (s : State) (hctx : ctx.inBrackets = false) :
    Ysh.Carries w D g.caseArm h.caseArm ctx s (s.Faces .command ctx) fun _ _ => True := by
  refine carries_see State.Faces.stays ?_
  refine carries_seq (carries_casePattern hg s hctx) fun pattern s1 => ?_
  refine (carries_seq (carries_block hg s1) fun body s2 => ?_).mono
    (fun hsees => (hsees.faces (by simp)).rests) fun _ _ h => h
  exact carries_pure (by simp (disch := decide) [Tree.shift]) id

theorem carries_armOrNone (s : State) (hctx : ctx.inBrackets = false) :
    Ysh.Carries w D g.armOrNone h.armOrNone ctx s (s.Faces .command ctx) fun _ _ => True :=
  Moving.carries_attempt (fun r => by cases r <;> infer_instance) (carries_caseArm hg s hctx)
    (fun hq _ _ => ensures_blame hq rfl) fun _ _ => carries_pure rfl id

theorem carries_armsRound (arms : Array Arm) (s : State) (hctx : ctx.inBrackets = false) :
    Ysh.Carries w D (g.armsRound arms) (h.armsRound (shift w.size arms)) ctx s
      (s.Stays w .command ctx) (Round.Knows (fun _ s => s.Stays w .command ctx)
        fun _ s => s.Sees .command .rightBrace ctx) := by
  refine carries_seq (carries_skipSeparators s) fun _ s1 => ?_
  refine Scan.carries_seeKind id (carries_ite Iff.rfl (fun _ => ?_) fun _ => ?_)
  · exact carries_pure rfl fun hsees => (hsees.faces (by simp)).stays
  · refine (carries_seq (carries_armOrNone hg s1 hctx) fun arm s2 => ?_).mono State.Faces.stays
      fun _ _ h => h
    refine carries_pure (congrArg Round.again ?_) fun _ => trivial
    rcases arm with _ | arm
    · exact Array.toList_inj.1 (by simp [shift])
    · exact Array.toList_inj.1 (by simp [shift])

theorem carries_caseArms (s : State) (hctx : ctx.inBrackets = false) :
    Ysh.Carries w D g.caseArms h.caseArms ctx s (s.Stays w .command ctx)
      fun _ s' => s'.Sees .command .rightBrace ctx :=
  carries_seq (carries_loop (I := fun _ s => s.Stays w .command ctx)
    (Q := fun _ s => s.Sees .command .rightBrace ctx) (shift_empty w.size).symm
    ScanLoop.arms.progresses ScanLoop.arms.progresses fun arms s =>
      carries_armsRound hg arms s hctx) fun arms _ => carries_pure (shift_toList w.size arms) id

theorem carries_caseStatement {s : State} (hword : (s.next .command ctx).kind = .word)
    (hctx : ctx.inBrackets = false) : Ysh.Carries w D g.caseStatement h.caseStatement ctx s
      (s.Faces .command ctx) fun _ _ => True := by
  refine carries_seq (carries_lift (carries_advance (by simp [hword]))) fun keyword s1 => ?_
  refine .free (carries_seq (carries_parenthesized hg s1) fun subject s2 => ?_)
  refine .free (carries_seq (carries_expectAs (by simp)) fun opening s3 => ?_)
  have hdeeper : { ctx with depth := ctx.depth + 1 }.inBrackets = false := hctx
  have harms := carries_nested (carries_lift (carries_caseArms hg s3 hdeeper))
  refine .free (carries_seq (M := fun _ s4 => s4.Sees .command .rightBrace ctx)
    (harms.from fun _ _ hsees => ⟨hsees.kind, hsees.clear⟩) fun arms s4 => ?_)
  refine carries_seq (carries_lift (carries_closingBraceStop _ s4)) fun stop s5 => ?_
  exact carries_pure (by simp [Tree.shift]) id

end

end Grammar

end Ysh
