import Ysh.Proofs.Joined.Command

/-!
# Declarations and Definitions in Surroundings

Most statements begin with a keyword, and a keyword that is consumed was there. What is
behind it is an expression up to the end of the statement, or a block, which closes
itself. A constant in short has no keyword. It is known by its second token, so that has
to be there as well.

## Theorems

* `Grammar.carries_variableDeclaration`, `Grammar.carries_assignment`, …: New values for
  names and places.
* `Grammar.carries_parameterList`: Parameters.
* `Grammar.carries_funcDefinition`, `Grammar.carries_procDefinition`,
  `Grammar.carries_returnStatement`.
-/

namespace Ysh

variable {w : Surroundings} {D : List Diagnostic} {ctx : Context}

section

variable {α : Type} [Shift α] {s : State} {Pre : Prop} {Post : α → State → Prop}

/-- Whether a constant in short comes next is the same in the surroundings. -/
theorem carries_startsShorthand {f f' : Bool → Parse α}
    (hkind : (s.next .command ctx).kind ≠ .endOfInput)
    (hpre : Pre → (s.behind ctx).Rests .command ctx)
    (h : ∀ starts, (starts = true → ((s.behind ctx).next .command ctx).kind = .word) →
      Carries w D (f starts) (f' starts) ctx s Pre Post) :
    Carries w D (liftM Grammar.startsShorthand >>= f) (liftM Grammar.startsShorthand >>= f') ctx s
      Pre Post := by
  have hword : ∀ starts, starts = (((s.behind ctx).next .command ctx).isWord "=" &&
      !((s.behind ctx).next .command ctx).immediate) →
        starts = true → ((s.behind ctx).next .command ctx).kind = .word := by
    rintro _ rfl hstarts
    exact beq_iff_eq.1 (Bool.and_eq_true_iff.1 (Bool.and_eq_true_iff.1 hstarts).1).1
  have hsecond : Carries w D
      (liftM Grammar.secondToken >>= fun second => f (second.isWord "=" && !second.immediate))
      (liftM Grammar.secondToken >>= fun second => f' (second.isWord "=" && !second.immediate))
      ctx s Pre Post := by
    refine carries_secondToken hkind hpre fun token htwin => ?_
    have hsame : (token.isWord "=" && !token.immediate) =
        (((s.behind ctx).next .command ctx).isWord "=" &&
          !((s.behind ctx).next .command ctx).immediate) := by
      rw [htwin.isWord]
      rcases htwin with rfl | ⟨hend, -⟩
      · rfl
      · rw [Token.isWord, hend]
        rfl
    rw [hsame]
    exact h _ (hword _ rfl)
  exact hsecond

end

namespace Grammar

variable {g h : Grammar} [g.Stepwise] [h.Stepwise] (hg : Carries w D g h)

/-! ## Declarations -/

section

include hg

omit [h.Stepwise] in
theorem carries_nameAndValue (s : State) : Ysh.Carries w D g.nameAndValue h.nameAndValue ctx s
    (s.Faces .expression ctx) fun _ s' => s'.Rests .expression ctx := by
  refine carries_seq (carries_bindingName s) fun name s1 => ?_
  refine .free (carries_seq (carries_expectAs (by simp)) fun _ s2 => ?_)
  exact .free (carries_seq (hg.expression ctx s2) fun value s3 => carries_pure rfl id)

omit [h.Stepwise] in
theorem carries_variableDeclaration {s : State} (hword : (s.next .command ctx).kind = .word) :
    Ysh.Carries w D g.variableDeclaration h.variableDeclaration ctx s (s.Faces .command ctx)
      fun _ s' => s'.Rests .expression ctx := by
  refine carries_seq (carries_lift (carries_advance (by simp [hword]))) fun keyword s1 => ?_
  refine .free (carries_seq (carries_nameAndValue hg s1) fun r s2 => carries_pure ?_ id)
  simp (disch := decide) [Tree.shift, shift]

omit [h.Stepwise] in
theorem carries_constantDeclaration {s : State} (hword : (s.next .command ctx).kind = .word) :
    Ysh.Carries w D g.constantDeclaration h.constantDeclaration ctx s (s.Faces .command ctx)
      fun _ s' => s'.Rests .expression ctx := by
  refine carries_seq (carries_lift (carries_advance (by simp [hword]))) fun keyword s1 => ?_
  refine .free (carries_seq (carries_nameAndValue hg s1) fun r s2 => carries_pure ?_ id)
  simp (disch := decide) [Tree.shift, shift]

omit [h.Stepwise] in
/-- A constant in short is known by its second token, which is there. -/
theorem carries_shorthandConstant {s : State} (hkind : (s.next .command ctx).kind ≠ .endOfInput)
    (hsecond : ((s.behind ctx).next .command ctx).kind = .word) :
    Ysh.Carries w D g.shorthandConstant h.shorthandConstant ctx s (s.Leads ctx)
      fun _ s' => s'.Rests .expression ctx := by
  refine carries_bind (carries_lift (carries_advanced (fun s1 => s1.Faces .command ctx) hkind
    fun s1 hs1 hfaces hequals => ⟨hfaces, fun _ s2 hs2 =>
      hequals.rests.of_cursor (hs2.trans hs1.symm)⟩)) fun name s1 hname => ?_
  have hs1 : (s1.next .command ctx).kind ≠ .endOfInput := by
    unfold State.next
    rw [(next_of_advance hname).2]
    change ((s.behind ctx).next .command ctx).kind ≠ _
    simp [hsecond]
  refine carries_seq (carries_lift (carries_advance hs1)) fun _ s2 => ?_
  refine .free (carries_seq (hg.expression ctx s2) fun value s3 => carries_pure ?_ id)
  simp (disch := decide) [Tree.shift, nameOf, Identifier.shift]

omit [h.Stepwise] in
theorem carries_accessor (s : State) : Ysh.Carries w D g.accessor h.accessor ctx s
    (s.Rests .expression ctx) fun _ s' => s'.Rests .expression ctx := by
  refine carries_peekKind id fun kind' htwin => ?_
  rcases htwin with rfl | ⟨hend, rfl⟩
  · generalize hkind : (s.next .expression ctx).kind = kind
    have hadvance : kind ≠ .endOfInput → Ysh.Carries w D (liftM (advance .expression) : Parse Token)
        (liftM (advance .expression)) ctx s (s.Rests .expression ctx) fun _ _ => True :=
      fun hend => (carries_advance (hkind ▸ hend)).mono State.Faces.rests fun _ _ h => h
    cases kind with
    | dot =>
        refine carries_seq (hadvance (by simp)) fun dot s1 => ?_
        refine .free (carries_seq (carries_memberName s1) fun name s2 => ?_)
        exact carries_pure (congrArg some (by simp [Tree.shift])) fun _ => trivial
    | leftBracket =>
        refine carries_seq (hadvance (by simp)) fun opening s1 => ?_
        refine .free (carries_seq (carries_enclosed hg (by simp) opening.span s1) fun i s2 => ?_)
        exact carries_position (carries_pure (congrArg some (by simp [Tree.shift])) fun _ => trivial)
    | _ => exact carries_pure rfl id
  · rw [hend]
    exact carries_pure rfl id

omit hg [g.Stepwise] in
theorem carries_assignmentOperator (s : State) :
    Ysh.Carries w D assignmentOperator assignmentOperator ctx s (s.Faces .expression ctx)
      fun _ _ => True := by
  refine carries_seeKind State.Faces.stays ?_
  generalize hkind : (s.next .expression ctx).kind = kind
  cases kind with
  | assignment op =>
      refine carries_seq (carries_lift (carries_advance (by simp [hkind]))) fun _ s1 => ?_
      exact carries_pure rfl id
  | _ => exact carries_unexpected

theorem carries_assignment (scope : AssignmentScope) {s : State}
    (hword : (s.next .command ctx).kind = .word) :
    Ysh.Carries w D (g.assignment scope) (h.assignment scope) ctx s (s.Faces .command ctx)
      fun _ s' => s'.Rests .expression ctx := by
  refine carries_seq (carries_lift (carries_advance (by simp [hword]))) fun keyword s1 => ?_
  refine .free (carries_seq (carries_bindingName s1) fun name s2 => ?_)
  refine .free (carries_seq (carries_collect ParseLoop.accessors.progresses
    ParseLoop.accessors.progresses (carries_accessor hg)) fun steps s3 => ?_)
  refine (carries_seq (carries_assignmentOperator s3) fun op s4 => ?_).mono State.Faces.rests
    fun _ _ h => h
  refine .free (carries_seq (hg.expression ctx s4) fun value s5 => carries_pure ?_ id)
  simp (disch := decide) [Tree.shift, shift]

end

/-! ## Parameters -/

theorem carries_comma (s : State) : Ysh.Carries w D comma comma ctx s (s.Rests .expression ctx)
    fun found s' => found = false → s'.Rests .expression ctx := by
  refine Scan.carries_peekKind id fun kind' htwin => carries_ite (htwin.eq_iff (by simp) (by simp))
    (fun hkind => ?_) fun _ => carries_pure rfl fun hrests => hrests rfl
  refine (carries_seq (carries_advance (by simp [hkind])) fun _ s1 => ?_).mono State.Faces.rests
    fun _ _ h => h
  exact carries_pure rfl fun _ => trivial

theorem carries_endOfTier (fault : ParameterFault) (s : State) :
    Ysh.Carries w D (endOfTier fault) (endOfTier fault) ctx s (s.Rests .expression ctx)
      fun _ s' => s'.Faces .expression ctx := by
  refine carries_seq (M := fun _ s1 => s1.Faces .expression ctx)
    ((carries_lift (carries_comma s)).from fun _ _ hfaces _ => hfaces.rests) fun _ s1 => ?_
  refine carries_see State.Faces.stays (carries_ite Iff.rfl (fun _ => ?_) fun _ =>
    carries_pure rfl id)
  exact carries_throw

section

include hg

omit [h.Stepwise] in
theorem carries_parameter (s : State) : Ysh.Carries w D g.parameter h.parameter ctx s
    (s.Faces .expression ctx) fun _ s' => s'.Rests .expression ctx := by
  refine carries_seq (carries_bindingName s) fun name s1 => ?_
  refine .forget (s1.Rests .expression ctx) (carries_peekKind id fun kind' htwin =>
    carries_ite (htwin.eq_iff (by simp) (by simp)) (fun hkind => ?_) fun _ => ?_)
  · refine (carries_seq (carries_lift (carries_advance (by simp [hkind]))) fun _ s2 => ?_).mono
      State.Faces.rests fun _ _ h => h
    refine .free (carries_seq (hg.expression ctx s2) fun value s3 => carries_pure ?_ id)
    simp (disch := decide) [Tree.shift]
  · exact carries_pure (by simp [Tree.shift]) id

omit hg [g.Stepwise] in
theorem carries_restParameter (allowed : Bool) {s : State}
    (hkind : (s.next .expression ctx).kind ≠ .endOfInput) :
    Ysh.Carries w D (restParameter allowed) (restParameter allowed) ctx s (s.Faces .expression ctx)
      fun _ s' => s'.Faces .expression ctx := by
  refine carries_seq (carries_lift (carries_advance hkind)) fun dots s1 => ?_
  refine carries_ite Iff.rfl (fun _ => ?_) fun _ => ?_
  · exact carries_of_ensures fun _ => ensures_bind ensures_throw
  refine .free (carries_seq (carries_bindingName s1) fun name s2 => ?_)
  refine .free (carries_seq (carries_endOfTier _ s2) fun _ s3 => ?_)
  exact carries_pure (by simp [Tree.shift]) id

omit [h.Stepwise] in
theorem carries_parameterRound (allowsRest : Bool) (p : Array Parameter × Option Parameter)
    (s : State) : Ysh.Carries w D (g.parameterRound allowsRest p)
      (h.parameterRound allowsRest (shift w.size p)) ctx s (s.Faces .expression ctx)
      (Round.Knows (fun _ s => s.Faces .expression ctx) fun _ s => s.Faces .expression ctx) := by
  rcases p with ⟨parameters, rest⟩
  refine carries_seeKind State.Faces.stays (carries_ite Iff.rfl (fun _ => carries_pure rfl id)
    fun _ => carries_ite Iff.rfl (fun hkind => ?_) fun _ => ?_)
  · refine carries_seq (carries_restParameter allowsRest (by simp [hkind])) fun r s1 => ?_
    exact carries_pure rfl id
  · refine carries_seq (carries_parameter hg s) fun parameter s1 => ?_
    have hpush : (shift w.size parameters).push (shift w.size parameter) =
        shift w.size (parameters.push parameter) := (shift_push w.size parameters parameter).symm
    dsimp only [shift] at hpush ⊢
    rw [hpush]
    refine carries_seq (carries_lift (carries_comma s1)) fun found s2 => carries_ite Iff.rfl
      (fun hfound => carries_pure rfl fun _ hnot => ?_) fun _ =>
        carries_pure rfl fun hfaces _ => hfaces.rests
    cases hfound.symm.trans hnot

theorem carries_parameterGroup (allowsRest : Bool) (s : State) :
    Ysh.Carries w D (g.parameterGroup allowsRest) (h.parameterGroup allowsRest) ctx s
      (s.Faces .expression ctx) fun _ s' => s'.Faces .expression ctx := by
  refine carries_see State.Faces.stays (carries_seq (carries_loop
    (I := fun _ s => s.Faces .expression ctx) (Q := fun _ s => s.Faces .expression ctx)
    (Prod.ext (shift_empty w.size).symm rfl) (ParseLoop.parameters allowsRest).progresses
    (ParseLoop.parameters allowsRest).progresses
    fun p s => carries_parameterRound hg allowsRest p s) fun p s1 => ?_)
  rcases p with ⟨parameters, rest⟩
  refine carries_position (carries_pure ?_ id)
  have hparameters : (shift w.size parameters).toList = parameters.toList.map (Tree.shift w.size) :=
    shift_toList w.size parameters
  dsimp only [shift] at hparameters ⊢
  rw [hparameters]
  simp [Tree.shift, Nat.add_max_add_right]

omit [h.Stepwise] in
theorem carries_blockParameter (s : State) :
    Ysh.Carries w D g.blockParameter h.blockParameter ctx s (s.Faces .expression ctx)
      fun _ s' => s'.Faces .expression ctx := by
  refine carries_see State.Faces.stays (carries_ite Iff.rfl (fun _ => carries_pure rfl id) fun _ =>
    carries_ite Iff.rfl (fun _ => carries_throw) fun _ => ?_)
  refine carries_seq (carries_parameter hg s) fun parameter s1 => ?_
  exact carries_seq (carries_endOfTier _ s1) fun _ s2 => carries_pure rfl id

omit hg [g.Stepwise] in
theorem carries_nextTier {α : Type} [Shift α] {tier tier' : Token → Parse α}
    [∀ token, Ysh.Stepwise (tier token)]
    (h : ∀ token s, Ysh.Carries w D (tier token) (tier' (token.shift w.size)) ctx s
      (s.Faces .expression ctx) fun _ s' => s'.Faces .expression ctx) (s : State) :
    Ysh.Carries w D (nextTier tier) (nextTier tier') ctx s (s.Faces .expression ctx)
      fun _ s' => s'.Faces .expression ctx := by
  refine carries_seeKind State.Faces.stays (carries_ite Iff.rfl (fun hkind => ?_) fun _ =>
    carries_pure rfl id)
  refine carries_seq (carries_lift (carries_advance (by simp [hkind]))) fun separator s1 => ?_
  exact .free (carries_seq (h separator s1) fun a s2 => carries_pure rfl id)

omit hg [g.Stepwise] in
theorem carries_noFurtherTier (fault : ParameterFault) (s : State) :
    Ysh.Carries w D (noFurtherTier fault) (noFurtherTier fault) ctx s (s.Faces .expression ctx)
      fun _ s' => s'.Faces .expression ctx :=
  carries_seq (carries_nextTier (fun _ _ => carries_throw) s) fun _ _ => carries_pure rfl id

theorem carries_funcTiers (opening : Span) (s : State) :
    Ysh.Carries w D (g.funcTiers opening) (h.funcTiers (opening.shift w.size)) ctx s
      (s.Faces .expression ctx) fun _ _ => True := by
  refine carries_seq (carries_parameterGroup hg true s) fun positional s1 => ?_
  refine carries_seq (carries_nextTier (fun separator s => ?_) s1) fun named s2 => ?_
  · rw [show (shift w.size positional).takesNothing = positional.takesNothing from
      Tree.takesNothing_shift w.size positional]
    refine carries_ite Iff.rfl (fun _ => ?_) fun _ => carries_parameterGroup hg false s
    exact carries_of_ensures fun _ => ensures_bind ensures_throw
  refine carries_seq (carries_noFurtherTier _ s2) fun _ s3 => ?_
  refine (carries_seq (carries_expectClosing (by simp)) fun _ s4 => ?_).mono
    (fun hsees => hsees.faces (by simp)) fun _ _ h => h
  exact carries_position (carries_pure (by simp [Tree.shift]) id)

theorem carries_procTiers (opening : Span) (s : State) :
    Ysh.Carries w D (g.procTiers opening) (h.procTiers (opening.shift w.size)) ctx s
      (s.Faces .expression ctx) fun _ _ => True := by
  refine carries_seq (carries_parameterGroup hg true s) fun positional s1 => ?_
  refine carries_seq (carries_nextTier (fun _ s => carries_parameterGroup hg true s) s1)
    fun typed s2 => ?_
  refine carries_seq (carries_nextTier (fun _ s => carries_parameterGroup hg false s) s2)
    fun named s3 => ?_
  refine carries_seq (carries_nextTier (fun _ s => carries_blockParameter hg s) s3)
    fun block s4 => ?_
  refine carries_seq (carries_noFurtherTier _ s4) fun _ s5 => ?_
  refine (carries_seq (carries_expectClosing (by simp)) fun _ s6 => ?_).mono
    (fun hsees => hsees.faces (by simp)) fun _ _ h => h
  have hblock : (shift w.size block).join = shift w.size block.join := by
    rcases block with _ | _ | _ <;> rfl
  rw [hblock]
  exact carries_position (carries_pure (by simp [Tree.shift]) id)

theorem carries_parameterList (kind : Definition) (opening : Span) (s : State) :
    Ysh.Carries w D (g.parameterList kind opening) (h.parameterList kind (opening.shift w.size)) ctx
      s True fun _ _ => True := by
  refine carries_bracketed ?_
  cases kind with
  | func => exact .free (carries_funcTiers hg opening s)
  | proc => exact .free (carries_procTiers hg opening s)

/-! ## Definitions -/

omit [h.Stepwise] in
theorem carries_definitionBody (kind : Definition) (s : State) :
    Ysh.Carries w D (g.definitionBody kind) (h.definitionBody kind) ctx s
      (s.Sees .command .leftBrace ctx) fun _ _ => True := by
  have hblock : Ysh.Carries w D g.block h.block { ctx with definition := some kind } s
      (s.Sees .command .leftBrace _) fun _ _ => True := carries_block hg s
  have hsees : s.Sees .command .leftBrace { ctx with definition := some kind } →
      s.Sees .command .leftBrace ctx := fun hsees => ⟨hsees.kind, hsees.clear⟩
  exact hblock.mono hsees fun _ _ h => h

theorem carries_funcDefinition {s : State} (hword : (s.next .command ctx).kind = .word) :
    Ysh.Carries w D g.funcDefinition h.funcDefinition ctx s (s.Faces .command ctx)
      fun _ _ => True := by
  refine carries_seq (carries_lift (carries_advance (by simp [hword]))) fun keyword s1 => ?_
  refine .free (carries_seq (carries_bindingName s1) fun name s2 => ?_)
  refine .free (carries_seq (carries_expectAs (by simp)) fun opening s3 => ?_)
  refine carries_seq (carries_parameterList hg .func opening.span s3) fun parameters s4 => ?_
  refine .free (carries_seq (carries_definitionBody hg .func s4) fun body s5 => ?_)
  exact carries_pure (by simp (disch := decide) [Tree.shift]) id

omit hg [g.Stepwise] in
theorem carries_procName (s : State) : Ysh.Carries w D procName procName ctx s
    (s.Faces .command ctx) fun _ _ => True := by
  refine carries_see State.Faces.stays (carries_ite Iff.rfl (fun _ => ?_) fun hkind => ?_)
  · exact carries_of_ensures fun _ => ensures_bind ensures_throw
  have hword : (s.next .command ctx).kind = .word := Decidable.not_not.1 hkind
  refine carries_ite Iff.rfl (fun _ => ?_) fun _ => ?_
  · exact carries_of_ensures fun _ => ensures_bind ensures_throw
  exact carries_seq (carries_lift (carries_advance (by simp [hword]))) fun _ s1 =>
    carries_pure rfl id

theorem carries_procParameters (s : State) :
    Ysh.Carries w D g.procParameters h.procParameters ctx s (s.Rests .command ctx)
      fun _ s' => s'.Rests .command ctx := by
  refine carries_peekKind id fun kind' htwin => carries_ite (htwin.eq_iff (by simp) (by simp))
    (fun hkind => ?_) fun _ => carries_pure rfl id
  refine (carries_seq (carries_lift (carries_advance (by simp [hkind]))) fun opening s1 => ?_).mono
    State.Faces.rests fun _ _ h => h
  exact carries_seq (carries_parameterList hg .proc opening.span s1) fun parameters s2 =>
    carries_pure rfl fun _ => trivial

theorem carries_procDefinition {s : State} (hword : (s.next .command ctx).kind = .word) :
    Ysh.Carries w D g.procDefinition h.procDefinition ctx s (s.Faces .command ctx)
      fun _ _ => True := by
  refine carries_seq (carries_lift (carries_advance (by simp [hword]))) fun keyword s1 => ?_
  refine .free (carries_seq (carries_procName s1) fun name s2 => ?_)
  refine .free (carries_seq (carries_procParameters hg s2) fun parameters s3 => ?_)
  refine (carries_seq (carries_definitionBody hg .proc s3) fun body s4 => ?_).mono
    (fun hsees => (hsees.faces (by simp)).rests) fun _ _ h => h
  exact carries_pure (by simp (disch := decide) [Tree.shift]) id

/-! ## Return -/

theorem carries_returnValue (s : State) : Ysh.Carries w D g.returnValue h.returnValue ctx s
    (s.Rests .command ctx) fun _ s' => s'.Rests .command ctx := by
  refine carries_peekKind id fun kind' htwin => carries_read ?_
  rw [htwin.apply Token.Kind.isWordPiece rfl]
  have hword : Ysh.Carries w D
      (if (s.next .command ctx).kind.isWordPiece then
        (do return some (.returnedWord (← g.word)) : Parse (Option ReturnValue)) else return none)
      (if (s.next .command ctx).kind.isWordPiece then
        (do return some (.returnedWord (← h.word)) : Parse (Option ReturnValue)) else return none)
      ctx s (s.Rests .command ctx) fun _ s' => s'.Rests .command ctx := by
    refine carries_ite Iff.rfl (fun _ => ?_) fun _ => carries_pure rfl id
    refine (carries_seq (carries_word hg s) fun word s1 => ?_).mono
      (fun hleads => hleads.faces.rests) fun _ _ h => h
    exact carries_pure rfl id
  rcases ctx.definition with _ | _ | _
  · exact hword
  · refine carries_ite (htwin.eq_iff (by simp) (by simp)) (fun _ => ?_) fun _ => carries_pure rfl id
    refine (carries_seq (carries_parenthesized hg s) fun value s1 => ?_).mono
      (fun hsees => (hsees.faces (by simp)).rests) fun _ _ h => h
    exact carries_pure rfl fun _ => trivial
  · exact hword

theorem carries_returnStatement {s : State} (hword : (s.next .command ctx).kind = .word) :
    Ysh.Carries w D g.returnStatement h.returnStatement ctx s (s.Faces .command ctx)
      fun _ s' => s'.Rests .command ctx := by
  refine carries_seq (carries_lift (carries_advance (by simp [hword]))) fun keyword s1 => ?_
  refine .free (carries_seq (carries_returnValue hg s1) fun value s2 => ?_)
  exact carries_position (carries_pure (by simp [Tree.shift]) id)

end

end Grammar

end Ysh
