import Ysh.Proofs.Coverage.Compound
import Ysh.Proofs.Spacing.Command

/-!
# Definitions and Control Flow in the Squeezed Source

Most of these productions are a keyword and then what is already known. Two look further
than they read. A conditional looks over newlines for `elif` and `else` and goes back when
there is none, so the text behind it must be seen past newlines as well. A case arm does
the same for the brace that closes the statement.

## Theorems

* `mirrors_parameterGroup`, `mirrors_parameterList`: Parameters.
* `retraces_funcDefinition`, `retraces_procDefinition`: Definitions.
* `retraces_whileLoop`, `retraces_forLoop`, `retraces_conditional`,
  `retraces_caseStatement`: Control flow.
-/

namespace Ysh

open Lexeme Spanned

namespace Grammar

variable {gaps : Gaps} {D : List Diagnostic} {n : Nat} {g h : Grammar} [g.Stepwise]
  [h.Stepwise] {ctx : Context} {s : State} {origin : Nat} {seen : List Leaf} {J : State → Prop}

/-! ## Parameters -/

theorem mirrors_comma : Ysh.Mirrors gaps D (n + 1) comma comma ctx (fun _ => [])
    (·.Sees gaps .expression ctx) fun _ => (·.Sees gaps .expression ctx) := by
  intro s
  refine retraces_peekKind id (retraces_ite Iff.rfl (fun hkind => ?_) fun _ =>
    retraces_pure rfl fun _ => rfl)
  refine retraces_fixed (by rw [hkind]; rfl) (by simp [hkind]) fun s1 span => ?_
  exact Retraces.free (retraces_pure rfl fun _ => rfl)

theorem mirrors_endOfTier {fault : ParameterFault} : Ysh.Mirrors gaps D (n + 1) (endOfTier fault)
    (endOfTier fault) ctx (fun _ => []) (·.Sees gaps .expression ctx)
    fun _ => (·.Sees gaps .expression ctx) := by
  intro s
  refine retraces_bind mirrors_comma.lift.retraces fun _ _ s1 _ => retraces_peek id fun span =>
    retraces_ite Iff.rfl (fun _ => retraces_throw) fun _ => retraces_pure rfl fun _ => rfl

theorem retraces_restParameter {allowed : Bool} (hdots : (s.next .expression ctx).kind = .ellipsis) :
    Retraces gaps D (n + 1) J (restParameter allowed) (restParameter allowed) ctx origin seen s
      (fun p => seen ++ p.leaves) (s.cursor.Sees gaps .expression ctx)
      fun _ => (·.Sees gaps .expression ctx) := by
  refine retraces_fixed (by rw [hdots]; rfl) (by simp [hdots]) fun s1 span => ?_
  refine retraces_ite Iff.rfl (fun _ => retraces_of_ensures fun _ =>
    ensures_bind (ensures_throw (s := s1))) fun _ => ?_
  refine Retraces.free (retraces_bind (P := fun _ => (·.Sees gaps .expression ctx))
    (Retraces.loose (Retraces.down mirrors_bindingName.retraces))
    fun name name' s2 hname => ?_)
  refine retraces_bind (Retraces.down mirrors_endOfTier.retraces) fun _ _ s3 _ => ?_
  exact retraces_pure (by simp_all [Tree.erase]) (by simp [Tree.leaves])

section

variable (hg : g.Mirrors gaps D n n h)
include hg

omit [h.Stepwise] in
theorem mirrors_parameter : Ysh.Mirrors gaps D (n + 1) g.parameter h.parameter ctx Tree.leaves
    (·.Sees gaps .expression ctx) fun _ => (·.Sees gaps .expression ctx) := by
  intro s
  refine retraces_bind (P := fun _ => (·.Sees gaps .expression ctx))
    (Retraces.loose mirrors_bindingName.retraces)
    fun name name' s1 hname => retraces_peekKind id (retraces_ite Iff.rfl (fun hkind => ?_) fun _ => ?_)
  · refine retraces_fixed (by rw [hkind]; rfl) (by simp [hkind]) fun s2 span => ?_
    refine Retraces.free (retraces_bind (hg.expression ctx).retraces fun value value' s3 hvalue => ?_)
    exact retraces_pure (by simp_all [Tree.erase]) (by simp [Tree.leaves])
  · exact retraces_pure (by simp_all [Tree.erase]) (by simp [Tree.leaves])

omit [h.Stepwise] in
/-- The next parameter of a tier is read alike. Only the last round finds a rest parameter. -/
theorem retraces_parameterRound {allowsRest : Bool} {p q : Array Parameter × Option Parameter}
    (hpq : erase q = erase p) (hrest : p.2 = none) :
    Retraces gaps D (n + 1) J (g.parameterRound allowsRest p) (h.parameterRound allowsRest q) ctx
      origin (tierLeaves p) s (fun r => tierLeaves r.value) (s.cursor.Sees gaps .expression ctx)
      (Round.Asks (fun _ => (·.Sees gaps .expression ctx))
        fun _ => (·.Sees gaps .expression ctx)) := by
  rcases p with ⟨parameters, rest⟩
  rcases q with ⟨parameters', rest'⟩
  have hparameters : parameters'.map Tree.erase = parameters.map Tree.erase := congrArg Prod.fst hpq
  have hsame : rest'.map Tree.erase = rest.map Tree.erase := congrArg Prod.snd hpq
  cases hrest
  obtain rfl : rest' = none := Option.map_eq_none_iff.1 hsame
  refine retraces_peekKind id (retraces_ite Iff.rfl (fun _ => ?_) fun _ =>
    retraces_ite Iff.rfl (fun hdots => ?_) fun _ => ?_)
  · exact retraces_pure (by simp [hparameters]) fun _ => rfl
  · refine retraces_bind (retraces_restParameter hdots) fun r r' s1 hr => ?_
    exact retraces_pure (by simp_all) (by simp [tierLeaves, Round.value])
  · refine retraces_bind (mirrors_parameter hg).retraces fun p p' s1 hp => ?_
    refine retraces_bind mirrors_comma.lift.retraces fun found found' s2 hfound => ?_
    refine retraces_ite (by rw [show found' = found from hfound]) (fun _ => ?_) fun _ => ?_
    · exact retraces_pure (by simp_all) (by simp [tierLeaves, Round.value])
    · exact retraces_pure (by simp_all) (by simp [tierLeaves, Round.value])

omit [g.Stepwise] [h.Stepwise] hg in
theorem ensures_parameterRound {allowsRest : Bool} {p : Array Parameter × Option Parameter}
    (hrest : p.2 = none) : Ensures D (g.parameterRound allowsRest p) ctx s
      (Round.Keeps (fun p _ => p.2 = none) fun _ _ => True) := by
  rcases p with ⟨parameters, rest⟩
  refine ensures_peekKind (ensures_ite (fun _ => ensures_pure.2 fun _ => trivial) fun _ =>
    ensures_ite (fun _ => ?_) fun _ => ?_)
  · exact ensures_skip fun _ s1 => ensures_pure.2 fun _ => trivial
  · refine ensures_skip fun p s1 => ensures_skip fun found s2 => ?_
    exact ensures_ite (fun _ => ensures_pure.2 fun _ => hrest) fun _ => ensures_pure.2 fun _ => trivial

theorem mirrors_parameterGroup (allowsRest : Bool) : Ysh.Mirrors gaps D (n + 1)
    (g.parameterGroup allowsRest) (h.parameterGroup allowsRest) ctx Tree.leaves
    (·.Sees gaps .expression ctx) fun _ => (·.Sees gaps .expression ctx) := by
  intro s
  have hloop : Retraces gaps D (n + 1) (fun _ => True) (loop (g.parameterRound allowsRest) (#[], none))
      (loop (h.parameterRound allowsRest) (#[], none)) ctx s.cursor.offset [] s tierLeaves
      (s.cursor.Sees gaps .expression ctx) fun _ => (·.Sees gaps .expression ctx) := by
    refine Retraces.knowing (J := fun _ => (none : Option Parameter) = none) ?_ fun _ _ => rfl
    exact retraces_loopWith (I := fun p _ => p.2 = none)
      (P := fun _ => (·.Sees gaps .expression ctx)) (ParseLoop.parameters allowsRest).progresses
      (ParseLoop.parameters allowsRest).progresses
      (fun _ _ p _ hrest => ensures_parameterRound (p := p) hrest)
      (fun _ _ p _ hrest => ensures_parameterRound (p := p) hrest)
      (fun _ _ _ hpq hrest => retraces_parameterRound hg hpq hrest) (a := (#[], none)) rfl rfl
  refine retraces_peek id fun span => retraces_bind (Retraces.knowing hloop fun _ _ => trivial)
    fun p p' s1 hp => retraces_position fun stop => retraces_pure ?_ ?_
  · have hp : p'.1.map Tree.erase = p.1.map Tree.erase ∧ p'.2.map Tree.erase = p.2.map Tree.erase :=
      Prod.mk.inj hp
    have hlist := congrArg Array.toList hp.1
    rw [Array.toList_map, Array.toList_map] at hlist
    simp [Tree.erase, hlist, hp.2]
  · simp [Tree.leaves, tierLeaves]

omit [h.Stepwise] in
theorem mirrors_blockParameter : Ysh.Mirrors gaps D (n + 1) g.blockParameter h.blockParameter ctx
    (fun o => o.toList.flatMap Tree.leaves) (·.Sees gaps .expression ctx)
    fun _ => (·.Sees gaps .expression ctx) := by
  intro s
  refine retraces_peek id fun span => retraces_ite Iff.rfl (fun _ => retraces_pure rfl fun _ => rfl)
    fun _ => retraces_ite Iff.rfl (fun _ => retraces_throw) fun _ => ?_
  refine Retraces.knowing (retraces_bind (mirrors_parameter hg).retraces fun p p' s1 hp => ?_)
    fun _ _ => trivial
  refine retraces_bind mirrors_endOfTier.retraces fun _ _ s2 _ => ?_
  exact retraces_pure (congrArg some hp) (by simp)

omit [g.Stepwise] [h.Stepwise] hg in
/-- What stands behind a semicolon is read alike. -/
theorem mirrors_nextTier {α : Type} [Spanned α] {tier tier' : Token → Parse α}
    [∀ token, Ysh.Stepwise (tier token)] (leaves : α → List Leaf)
    (h : ∀ token token', Ysh.Mirrors gaps D n (tier token) (tier' token') ctx leaves
      (·.Sees gaps .expression ctx) fun _ => (·.Sees gaps .expression ctx)) :
    Ysh.Mirrors gaps D (n + 1) (nextTier tier) (nextTier tier') ctx
      (fun o => o.toList.flatMap leaves) (·.Sees gaps .expression ctx)
      fun _ => (·.Sees gaps .expression ctx) := by
  intro s
  refine retraces_peekKind id (retraces_ite Iff.rfl (fun hkind => ?_) fun _ =>
    retraces_pure rfl fun _ => rfl)
  refine retraces_fixed (by rw [hkind]; rfl) (by simp [hkind]) fun s1 span => ?_
  refine Retraces.free (retraces_bind (h _ _).retraces fun a b s2 hab => ?_)
  exact retraces_pure (congrArg some hab) (by simp)

omit [g.Stepwise] [h.Stepwise] hg in
theorem mirrors_noFurtherTier {fault : ParameterFault} : Ysh.Mirrors gaps D (n + 1)
    (noFurtherTier fault) (noFurtherTier fault) ctx (fun _ => []) (·.Sees gaps .expression ctx)
    fun _ => (·.Sees gaps .expression ctx) := by
  intro s
  refine retraces_bind (mirrors_nextTier (fun _ => [])
    fun _ _ s => retraces_throw).retraces fun o o' s1 _ => retraces_pure rfl fun p => ?_
  cases o <;> rfl

omit [g.Stepwise] [h.Stepwise] hg in
theorem takesNothing_erase {a b : ParameterGroup} (hab : b.erase = a.erase) :
    b.takesNothing = a.takesNothing := by
  cases a with
  | parameterGroup parameters rest span =>
      cases b with
      | parameterGroup parameters' rest' span' =>
          have hparts := Tree.parameterGroup.inj hab
          have hparameters := congrArg Tree.isEmpty hparts.1
          have hrest := congrArg Tree.isEmpty hparts.2.1
          rw [Tree.isEmpty_erase, Tree.isEmpty_erase] at hparameters hrest
          rw [Tree.takesNothing, Tree.takesNothing, hparameters, hrest]

theorem mirrors_funcTiers {opening opening' : Span} : Ysh.Mirrors gaps D (n + 1)
    (g.funcTiers opening) (h.funcTiers opening') ctx Tree.leaves (·.Sees gaps .expression ctx)
    fun _ _ => True := by
  intro s
  refine retraces_bind (mirrors_parameterGroup hg true).retraces fun a b s1 hab => ?_
  refine retraces_bind (mirrors_nextTier Tree.leaves fun token token' s =>
    retraces_ite (by rw [takesNothing_erase hab]) (fun _ => retraces_of_ensures fun _ =>
      ensures_bind (ensures_throw (s := s))) fun _ =>
      Retraces.down (mirrors_parameterGroup hg false s)).retraces fun named named' s2 hnamed => ?_
  refine retraces_bind mirrors_noFurtherTier.retraces fun _ _ s3 _ => ?_
  refine Retraces.down (retraces_expectClosing rfl (by simp) fun s4 span _ => ?_)
  refine retraces_position fun stop => retraces_done ?_ ?_
  · simp_all [Tree.erase]
  · simp [Tree.leaves]

theorem mirrors_procTiers {opening opening' : Span} : Ysh.Mirrors gaps D (n + 1)
    (g.procTiers opening) (h.procTiers opening') ctx Tree.leaves (·.Sees gaps .expression ctx)
    fun _ _ => True := by
  intro s
  have hgroup : ∀ allowsRest (_ _ : Token), Ysh.Mirrors gaps D n (g.parameterGroup allowsRest)
      (h.parameterGroup allowsRest) ctx Tree.leaves (·.Sees gaps .expression ctx)
      fun _ => (·.Sees gaps .expression ctx) :=
    fun allowsRest _ _ s => Retraces.down (mirrors_parameterGroup hg allowsRest s)
  refine retraces_bind (mirrors_parameterGroup hg true).retraces fun a b s1 hab => ?_
  refine retraces_bind (mirrors_nextTier Tree.leaves (hgroup true)).retraces
    fun typed typed' s2 htyped => ?_
  refine retraces_bind (mirrors_nextTier Tree.leaves (hgroup false)).retraces
    fun named named' s3 hnamed => ?_
  refine retraces_bind (mirrors_nextTier (fun o => o.toList.flatMap Tree.leaves)
    fun _ _ s => Retraces.down (mirrors_blockParameter hg s)).retraces fun block block' s4 hblock => ?_
  refine retraces_bind mirrors_noFurtherTier.retraces fun _ _ s5 _ => ?_
  refine Retraces.down (retraces_expectClosing rfl (by simp) fun s6 span _ => ?_)
  have hjoin : block'.join.map Tree.erase = block.join.map Tree.erase := by
    rw [← Option.join_map_eq_map_join, ← Option.join_map_eq_map_join]
    exact congrArg Option.join hblock
  refine retraces_position fun stop => retraces_done ?_ ?_
  · simp_all [Tree.erase]
  · rcases block with _ | _ | _ <;> simp [Tree.leaves]

theorem mirrors_parameterList (kind : Definition) {opening opening' : Span} :
    Ysh.Mirrors gaps D (n + 1) (g.parameterList kind opening) (h.parameterList kind opening') ctx
      Tree.leaves (fun _ => True) fun _ _ => True := by
  intro s
  cases kind with
  | func => exact Retraces.free (retraces_bracketed (mirrors_funcTiers hg s))
  | proc => exact Retraces.free (retraces_bracketed (mirrors_procTiers hg s))

/-! ## Definitions -/

omit [h.Stepwise] in
theorem mirrors_definitionBody (kind : Definition) : Ysh.Mirrors gaps D (n + 1)
    (g.definitionBody kind) (h.definitionBody kind) ctx Tree.leaves (·.Stops gaps)
    fun _ _ => True := by
  have hblock : Ysh.Mirrors gaps D (n + 1) g.block h.block { ctx with definition := some kind }
      Tree.leaves (·.Stops gaps) fun _ _ => True := mirrors_block hg
  exact fun s => hblock s

theorem retraces_funcDefinition (hkeyword : (s.next .command ctx).text ∈ keywords)
    (hend : (s.next .command ctx).kind ≠ .endOfInput) :
    Retraces gaps D (n + 1) J g.funcDefinition h.funcDefinition ctx origin seen s
      (fun t => seen ++ t.leaves) (s.cursor.Sees gaps .command ctx) fun _ _ => True := by
  refine retraces_keyword hkeyword hend fun s1 span => ?_
  refine Retraces.free (retraces_bind (P := fun _ => (·.Sees gaps .expression ctx))
    (Retraces.loose (Retraces.down mirrors_bindingName.retraces))
    fun name name' s2 hname => Retraces.down (retraces_expectAs rfl (by simp) fun s3 span' _ => ?_))
  refine Retraces.free (retraces_bind (P := fun _ => (·.Stops gaps))
    (Retraces.loose (Retraces.down (mirrors_parameterList hg .func).retraces))
    fun ps ps' s4 hps => ?_)
  refine retraces_bind (Retraces.down (mirrors_definitionBody hg .func).retraces)
    fun body body' s5 hbody => ?_
  exact retraces_done (by simp_all [Tree.erase]) (by simp [Tree.leaves])

omit [g.Stepwise] [h.Stepwise] hg in
theorem mirrors_procName : Ysh.Mirrors gaps D (n + 1) procName procName ctx
    (fun name => [name.leaf]) (·.Sees gaps .command ctx) fun _ _ => True := by
  intro s
  refine retraces_peek id fun span => retraces_ite Iff.rfl (fun _ => retraces_of_ensures fun _ =>
    ensures_bind (ensures_throw (s := s))) fun hword => ?_
  refine retraces_ite Iff.rfl (fun _ => retraces_of_ensures fun _ =>
    ensures_bind (ensures_throw (s := s))) fun _ => ?_
  refine retraces_advance (Token.leaves_self _)
    (by simp [Decidable.not_not.1 hword]) fun s1 span' _ => ?_
  exact retraces_done rfl fun _ => rfl

theorem mirrors_procParameters : Ysh.Mirrors gaps D (n + 1) g.procParameters h.procParameters ctx
    (fun o => o.toList.flatMap Tree.leaves) (·.Sees gaps .command ctx)
    fun _ => (·.Sees gaps .command ctx) := by
  intro s
  refine retraces_peekKind id (retraces_ite Iff.rfl (fun hkind => ?_) fun _ =>
    retraces_pure rfl fun _ => rfl)
  refine retraces_fixed (by rw [hkind]; rfl) (by simp [hkind]) fun s1 span => ?_
  refine Retraces.free (Retraces.loose (retraces_bind (Retraces.down
    (mirrors_parameterList hg .proc).retraces) fun ps ps' s2 hps => ?_))
  exact retraces_done (congrArg some hps) (by simp)

theorem retraces_procDefinition (hkeyword : (s.next .command ctx).text ∈ keywords)
    (hend : (s.next .command ctx).kind ≠ .endOfInput) :
    Retraces gaps D (n + 1) J g.procDefinition h.procDefinition ctx origin seen s
      (fun t => seen ++ t.leaves) (s.cursor.Sees gaps .command ctx) fun _ _ => True := by
  refine retraces_keyword hkeyword hend fun s1 span => ?_
  refine Retraces.free (retraces_bind (P := fun _ => (·.Sees gaps .command ctx))
    (Retraces.loose (Retraces.down mirrors_procName.retraces))
    fun name name' s2 hname => ?_)
  refine retraces_bind (P := fun _ => (·.Stops gaps)) (Retraces.demand
    (Retraces.down (mirrors_procParameters hg).retraces) fun _ _ => Cursor.Stops.seen)
    fun ps ps' s3 hps => ?_
  refine retraces_bind (Retraces.down (mirrors_definitionBody hg .proc).retraces)
    fun body body' s4 hbody => ?_
  exact retraces_done (by simp_all [Tree.erase]) (by simp [Tree.leaves])

/-! ## Return -/

/-- What is returned is read alike. -/
theorem mirrors_returnValue : Ysh.Mirrors gaps D n g.returnValue h.returnValue ctx
    (fun o => o.toList.flatMap Tree.leaves) (·.Sees gaps .command ctx)
    fun _ => (·.Sees gaps .command ctx) := by
  intro s
  refine retraces_peekKind id (retraces_read ?_)
  have hword : Retraces gaps D n (fun _ => True) (if (s.next .command ctx).kind.isWordPiece then do
        return some (.returnedWord (← g.word)) else return none : Parse (Option ReturnValue))
      (if (s.next .command ctx).kind.isWordPiece then do
        return some (.returnedWord (← h.word)) else return none) ctx s.cursor.offset [] s
      (fun o => o.toList.flatMap Tree.leaves) (s.cursor.Sees gaps .command ctx)
      fun _ => (·.Sees gaps .command ctx) := by
    refine retraces_ite Iff.rfl (fun _ => ?_) fun _ => retraces_pure rfl fun _ => rfl
    refine Retraces.weaken (retraces_bind (Retraces.down (mirrors_word hg).retraces)
      fun w w' s1 hw => ?_) Cursor.Opening.seen
    exact retraces_pure (by simp_all [Tree.erase]) (by simp [Tree.leaves])
  dsimp only
  split
  · refine retraces_ite Iff.rfl (fun _ => ?_) fun _ => retraces_pure rfl fun _ => rfl
    refine Retraces.loose (retraces_bind (mirrors_parenthesized hg).retraces
      fun e e' s1 he => ?_)
    exact retraces_done (by simp_all [Tree.erase]) (by simp [Tree.leaves])
  · exact hword

theorem retraces_returnStatement (hkeyword : (s.next .command ctx).text ∈ keywords)
    (hend : (s.next .command ctx).kind ≠ .endOfInput) :
    Retraces gaps D (n + 1) J g.returnStatement h.returnStatement ctx origin seen s
      (fun t => seen ++ t.leaves) (s.cursor.Sees gaps .command ctx)
      fun _ => (·.Sees gaps .command ctx) := by
  refine retraces_keyword hkeyword hend fun s1 span => ?_
  refine Retraces.free (retraces_bind (mirrors_returnValue hg).retraces fun v v' s2 hv => ?_)
  exact retraces_position fun stop => retraces_pure (by simp_all [Tree.erase]) (by simp [Tree.leaves])

/-! ## Loops -/

theorem mirrors_condition (hctx : ctx.inBrackets = false) : Ysh.Mirrors gaps D n g.condition
    h.condition ctx Tree.leaves (·.Sees gaps .command ctx) fun _ => (·.Stops gaps) := by
  intro s
  refine retraces_peekKind id (retraces_ite Iff.rfl (fun _ => ?_) fun _ => ?_)
  · refine Retraces.loose (retraces_bind (mirrors_parenthesized hg).retraces
      fun e e' s1 he => ?_)
    exact retraces_done (by simp_all [Tree.erase]) (by simp [Tree.leaves])
  · refine Retraces.weaken (retraces_bind (Retraces.down (mirrors_commandCall hg false hctx).retraces)
      fun call call' s1 hcall => ?_) Cursor.Opening.seen
    exact retraces_pure (by simp_all [Tree.erase]) (by simp [Tree.leaves])

theorem retraces_whileLoop (hctx : ctx.inBrackets = false)
    (hkeyword : (s.next .command ctx).text ∈ keywords)
    (hend : (s.next .command ctx).kind ≠ .endOfInput) :
    Retraces gaps D (n + 1) J g.whileLoop h.whileLoop ctx origin seen s
      (fun t => seen ++ t.leaves) (s.cursor.Sees gaps .command ctx) fun _ _ => True := by
  refine retraces_keyword hkeyword hend fun s1 span => ?_
  refine Retraces.free (retraces_bind (mirrors_condition hg hctx).retraces fun c c' s2 hc => ?_)
  refine retraces_bind (Retraces.down (mirrors_block hg).retraces) fun body body' s3 hbody => ?_
  exact retraces_done (by simp_all [Tree.erase]) (by simp [Tree.leaves])

omit [g.Stepwise] [h.Stepwise] hg in
theorem mirrors_furtherName : Ysh.Mirrors gaps D (n + 1) furtherName furtherName ctx
    (fun o => o.toList.flatMap fun name => [name.leaf]) (·.Sees gaps .expression ctx)
    fun _ => (·.Sees gaps .expression ctx) := by
  intro s
  refine retraces_bind mirrors_comma.lift.retraces fun found found' s1 hfound => ?_
  refine retraces_ite (by rw [show found' = found from hfound]) (fun _ => ?_)
    fun _ => retraces_pure rfl fun _ => rfl
  refine Retraces.loose (retraces_bind mirrors_bindingName.retraces fun name name' s2 hname => ?_)
  exact retraces_done (congrArg some hname) (by simp)

omit [g.Stepwise] [h.Stepwise] hg in
theorem mirrors_loopNames : Ysh.Mirrors gaps D (n + 1) loopNames loopNames ctx
    (·.map Identifier.leaf) (·.Sees gaps .expression ctx)
    fun _ => (·.Sees gaps .expression ctx) := by
  have hends : Progresses (collectRound furtherName) ctx := (ParseLoop.names (g := turns 0)).progresses
  intro s
  refine retraces_bind (P := fun _ => (·.Sees gaps .expression ctx))
    (Retraces.loose mirrors_bindingName.retraces) fun first first' s1 hfirst => ?_
  refine retraces_bind (mirrors_collect (Q := (·.Sees gaps .expression ctx)) hends hends
    fun s => Retraces.demand (mirrors_furtherName s) ?_).retraces fun names names' s2 hnames => ?_
  · rintro (_ | _) _ hsees <;> exact hsees
  · exact retraces_pure (by simp_all) (by simp [List.map_eq_flatMap])

omit [h.Stepwise] in
theorem mirrors_rangeOrValue : Ysh.Mirrors gaps D n g.rangeOrValue h.rangeOrValue ctx Tree.leaves
    (·.Sees gaps .expression ctx) fun _ => (·.Sees gaps .expression ctx) := by
  intro s
  refine retraces_bind (hg.expression ctx).retraces fun first first' s1 hfirst =>
    retraces_peekKind id (retraces_ite Iff.rfl (fun hkind => ?_) fun _ => ?_)
  · refine Retraces.down (retraces_fixed (by rw [hkind]; rfl) (by simp [hkind]) fun s2 span => ?_)
    refine Retraces.free (retraces_bind (hg.expression ctx).retraces fun last last' s3 hlast => ?_)
    exact retraces_pure (by simp_all [Tree.erase]) (by simp [Tree.leaves])
  · exact retraces_pure (by simp_all [Tree.erase]) (by simp [Tree.leaves])

theorem mirrors_nextWord : Ysh.Mirrors gaps D (n + 1) g.nextWord h.nextWord ctx
    (fun o => o.toList.flatMap Tree.leaves) (·.Opening gaps)
    fun o => o.elim (·.Sees gaps .command ctx) fun _ => (·.Opening gaps) := by
  intro s
  refine retraces_peekKind Cursor.Opening.seen (retraces_ite Iff.rfl (fun _ => ?_) fun hpiece => ?_)
  · refine retraces_bind (P := fun _ => (·.Opening gaps)) (Retraces.demand
      (mirrors_word hg).retraces fun _ _ => Cursor.Opening.seen) fun w w' s1 hw => ?_
    exact retraces_pure (congrArg some hw) (by simp)
  · refine Retraces.weaken (retraces_pure rfl fun _ => rfl) fun hsees =>
      Cursor.opening_of_seen hsees fun hword => hpiece ?_
    rw [State.next_command, hword]
    rfl

theorem mirrors_iterable : Ysh.Mirrors gaps D (n + 1) g.iterable h.iterable ctx Tree.leaves
    (·.Sees gaps .command ctx) fun _ => (·.Sees gaps .command ctx) := by
  intro s
  refine retraces_peekKind id (retraces_ite Iff.rfl (fun hkind => ?_) fun _ => ?_)
  · refine Retraces.loose (retraces_fixed (by rw [hkind]; rfl) (by simp [hkind]) fun s1 span => ?_)
    refine Retraces.free (retraces_bracketed (retraces_bind (mirrors_rangeOrValue hg).retraces
      fun i i' s2 hi => Retraces.down (retraces_expectClosing rfl (by simp) fun s3 span' _ => ?_)))
    exact retraces_done hi fun _ => rfl
  · refine Retraces.weaken (retraces_bind (mirrors_collect (ParseLoop.words (g := g)).progresses
      (ParseLoop.words (g := h)).progresses (mirrors_nextWord hg)).retraces
      fun ws ws' s1 hws => ?_) Cursor.Opening.seen
    have hws : ws'.map Tree.erase = ws.map Tree.erase := hws
    refine retraces_ite ?_ (fun _ => retraces_unexpected) fun _ => ?_
    · rw [← List.isEmpty_map (f := Tree.erase), hws, List.isEmpty_map]
    · exact retraces_pure (by simp_all [Tree.erase]) (by simp [Tree.leaves])

/-- A loop is read alike. The word behind its names ends them in either mode. -/
theorem retraces_forLoop (hctx : ctx.inBrackets = false)
    (hkeyword : (s.next .command ctx).text ∈ keywords)
    (hend : (s.next .command ctx).kind ≠ .endOfInput) :
    Retraces gaps D (n + 1) J g.forLoop h.forLoop ctx origin seen s
      (fun t => seen ++ t.leaves) (s.cursor.Sees gaps .command ctx) fun _ _ => True := by
  refine retraces_keyword hkeyword hend fun s1 span => ?_
  refine Retraces.free (retraces_bind (Retraces.down (mirrors_loopNames).retraces)
    fun names names' s2 hnames => ?_)
  refine Retraces.weaken (Retraces.only (c := (s2.next .command ctx).isWord "in")
    (retraces_peekWord id (retraces_ite Iff.rfl (fun _ => ?_) fun hin => ?_)) fun hin => ?_)
    fun ⟨hsees, hin⟩ => ?_
  · exact retraces_of_ensures fun _ => ensures_bind (ensures_unexpected (s := s2))
  · rw [Bool.not_eq_true', Bool.not_eq_false] at hin
    refine Retraces.down (retraces_keyword ?_ (fun hend => ?_) fun s3 span' => ?_)
    · rw [Token.text_of_isWord hin]
      decide
    · rw [Token.isWord, hend] at hin
      cases hin
    · refine Retraces.free (retraces_bind (P := fun _ => (·.Stops gaps)) (Retraces.demand
        (Retraces.down (mirrors_iterable hg).retraces) fun _ _ => Cursor.Stops.seen)
        fun i i' s4 hi => ?_)
      refine retraces_bind (Retraces.down (mirrors_block hg).retraces) fun body body' s5 hbody => ?_
      exact retraces_done (by simp_all [Tree.erase]) (by simp [Tree.leaves])
  · refine ensures_peekWord (ensures_ite (fun _ => ensures_bind (ensures_unexpected (s := s2)))
      fun hnot => absurd ?_ hin)
    rwa [Bool.not_eq_true', Bool.not_eq_false] at hnot
  · have hname := Cursor.Seen.inName hsees (Token.text_of_isWord hin)
    rwa [Cursor.Sees, hctx]

/-! ## Branches -/

theorem mirrors_branch (hctx : ctx.inBrackets = false) {keyword keyword' : Token} :
    Ysh.Mirrors gaps D n (g.branch keyword) (h.branch keyword') ctx Tree.leaves
      (·.Sees gaps .command ctx) fun _ _ => True := by
  intro s
  refine retraces_bind (mirrors_condition hg hctx).retraces fun c c' s1 hc => ?_
  refine retraces_bind (Retraces.down (mirrors_block hg).retraces) fun body body' s2 hbody => ?_
  exact retraces_done (by simp_all [Tree.erase]) (by simp [Tree.leaves])

omit [g.Stepwise] [h.Stepwise] hg in
theorem isWord_keyword {token : Token} {text : String} (h : token.isWord text = true)
    (hkeyword : text ∈ keywords) : token.text ∈ keywords ∧ token.kind ≠ .endOfInput := by
  refine ⟨(Token.text_of_isWord h).symm ▸ hkeyword, fun hend => ?_⟩
  rw [Token.isWord, hend] at h
  cases h

omit [g.Stepwise] [h.Stepwise] hg in
/-- A keyword is found on a later line, or not found, in both sources. -/
theorem mirrors_branchKeyword {text : String} (htext : text ∈ keywords) :
    Ysh.Mirrors gaps D (n + 1) (branchKeyword text) (branchKeyword text) ctx (fun _ => [])
      (·.Seen gaps .command true) fun o => o.elim (·.Seen gaps .command true) fun _ _ => True := by
  intro s
  refine retraces_look (R := (· = ((skipNewlines ctx s).2.next .command ctx).isWord text))
    (K := fun _ _ => True) (fun found s1 hlook => ?_) rfl (fun hlines t ht => ?_) ?_
  · cases hlook
    exact ⟨rfl, rfl⟩
  · rcases skipNewlines_squeezed hlines ht with ⟨span, hspan⟩
    refine ⟨((skipNewlines ctx t).2.next .command ctx).isWord text, ?_, trivial, rfl⟩
    rw [hspan]
    rfl
  · rintro _ rfl
    refine retraces_ite Iff.rfl (fun hcomes => ?_) fun _ => ?_
    · refine Moving.retraces_bindWith (fun _ => inferInstance)
        (E := fun _ s1 => s1 = (skipNewlines ctx s).2) (fun _ s1 hyields _ => ?_)
        (mirrors_skipWhile (fun kind hkind => ?_) rfl rfl).retraces fun _ _ s1 _ hs1 => ?_
      · cases hyields
        rfl
      · rw [beq_iff_eq.1 hkind]
        rfl
      · rw [← hs1] at hcomes
        rcases isWord_keyword hcomes htext with ⟨hkeyword, hend⟩
        refine Retraces.loose (retraces_keyword hkeyword hend fun s2 span => ?_)
        exact retraces_done rfl fun _ => rfl
    · exact Retraces.knowing (retraces_pure rfl fun _ => rfl) fun _ _ => trivial

omit [g.Stepwise] [h.Stepwise] hg in
/-- What stands behind a keyword of a later line is read alike. -/
theorem mirrors_keywordThen {α : Type} [Spanned α] {text : String} (htext : text ∈ keywords)
    {x y : Token → Parse α} [∀ keyword, Ysh.Stepwise (x keyword)] {leaves : α → List Leaf}
    {P : Cursor → Prop} (hx : ∀ keyword keyword', Ysh.Mirrors gaps D n (x keyword) (y keyword')
      ctx leaves P fun _ _ => True) :
    Ysh.Mirrors gaps D n
      (do match ← branchKeyword text with
        | some keyword => return some (← x keyword)
        | none => return none : Parse (Option α))
      (do match ← branchKeyword text with
        | some keyword => return some (← y keyword)
        | none => return none) ctx
      (fun o => o.toList.flatMap leaves) (·.Seen gaps .command true)
      fun _ => (·.Seen gaps .command true) := by
  intro s
  refine Moving.retraces_bind (fun o => by cases o <;> infer_instance)
    (Retraces.down (mirrors_branchKeyword htext).lift.retraces) fun o o' s1 ho => ?_
  cases o with
  | none =>
      cases o' with
      | some _ => cases ho
      | none => exact retraces_pure rfl fun _ => rfl
  | some keyword =>
      cases o' with
      | none => cases ho
      | some keyword' =>
          refine Retraces.free (Retraces.loose (retraces_bind (hx keyword keyword').retraces
            fun b b' s2 hb => ?_))
          exact retraces_done (congrArg some hb) (by simp)

theorem mirrors_elifBranch (hctx : ctx.inBrackets = false) : Ysh.Mirrors gaps D n g.elifBranch
    h.elifBranch ctx (fun o => o.toList.flatMap Tree.leaves) (·.Seen gaps .command true)
    fun _ => (·.Seen gaps .command true) :=
  mirrors_keywordThen (by decide) fun _ _ => mirrors_branch hg hctx

omit [h.Stepwise] in
theorem mirrors_elseBody : Ysh.Mirrors gaps D (n + 1) g.elseBody h.elseBody ctx
    (fun o => o.toList.flatMap Tree.leaves) (·.Seen gaps .command true)
    fun _ => (·.Seen gaps .command true) :=
  mirrors_keywordThen (by decide) fun _ _ => mirrors_block hg

theorem retraces_conditional (hctx : ctx.inBrackets = false)
    (hkeyword : (s.next .command ctx).text ∈ keywords)
    (hend : (s.next .command ctx).kind ≠ .endOfInput) :
    Retraces gaps D (n + 1) J g.conditional h.conditional ctx origin seen s
      (fun t => seen ++ t.leaves) (s.cursor.Sees gaps .command ctx)
      fun _ => (·.Seen gaps .command true) := by
  refine retraces_keyword hkeyword hend fun s1 span => ?_
  refine Retraces.free (retraces_bind (P := fun _ => (·.Seen gaps .command true))
    (Retraces.loose (mirrors_branch hg hctx).retraces)
    fun first first' s2 hfirst => ?_)
  refine retraces_bind (mirrors_collect (Q := (·.Seen gaps .command true))
    (ParseLoop.branches (g := g)).progresses (ParseLoop.branches (g := h)).progresses
    fun s => Retraces.demand (mirrors_elifBranch hg hctx s) ?_).retraces
    fun others others' s3 hothers => ?_
  · rintro (_ | _) _ hlines <;> exact hlines
  refine retraces_bind (Retraces.down (mirrors_elseBody hg).retraces) fun o o' s4 ho => ?_
  refine retraces_position fun stop => retraces_pure ?_ ?_
  · simp_all [Tree.erase]
  · simp [Tree.leaves]

/-! ## Case -/

theorem mirrors_furtherGlob : Ysh.Mirrors gaps D (n + 1) g.furtherGlob h.furtherGlob ctx
    (fun o => o.toList.flatMap Tree.leaves) (·.Sees gaps .command ctx)
    fun _ => (·.Sees gaps .command ctx) := by
  intro s
  refine retraces_peekKind id (retraces_ite Iff.rfl (fun hkind => ?_) fun _ =>
    retraces_pure rfl fun _ => rfl)
  refine retraces_fixed (by rw [hkind]; rfl) (by simp [hkind]) fun s1 span => ?_
  refine Retraces.free (retraces_bind (Retraces.down (mirrors_word hg).retraces)
    fun w w' s2 hw => ?_)
  exact retraces_pure (congrArg some hw) (by simp)

theorem mirrors_globPattern : Ysh.Mirrors gaps D (n + 1) g.globPattern h.globPattern ctx
    Tree.leaves (·.Opening gaps) fun _ => (·.Sees gaps .command ctx) := by
  intro s
  refine retraces_bind (mirrors_word hg).retraces fun first first' s1 hfirst => ?_
  refine retraces_bind (mirrors_collect (Q := (·.Sees gaps .command ctx))
    (ParseLoop.globs (g := g)).progresses (ParseLoop.globs (g := h)).progresses
    fun s => Retraces.demand (mirrors_furtherGlob hg s) ?_).retraces fun others others' s2 hothers => ?_
  · rintro (_ | _) _ hsees <;> exact hsees
  · exact retraces_pure (by simp_all [Tree.erase]) (by simp [Tree.leaves])

omit [h.Stepwise] in
/-- A pattern in parentheses is read alike. Whether it is `else` is known from a token that
    is read without passing over newlines, and what is not `else` is read past them. -/
theorem retraces_parenthesizedPattern (hctx : ctx.inBrackets = false)
    (hparen : (s.next .command ctx).kind = .leftParen) :
    Retraces gaps D (n + 1) J g.parenthesizedPattern h.parenthesizedPattern ctx origin seen s
      (fun p => seen ++ p.leaves) (s.cursor.Sees gaps .command ctx) fun _ _ => True := by
  have hline : ∀ {c : Cursor}, c.Seen gaps .expression true → c.Sees gaps .expression ctx := by
    intro c hseen
    rw [Cursor.Sees, hctx]
    exact hseen.inLine
  refine retraces_fixed (by rw [hparen]; rfl) (by simp [hparen]) fun s1 span => ?_
  refine Retraces.free (retraces_peek (@id (s1.cursor.Sees gaps .expression ctx)) fun span' =>
    retraces_ite Iff.rfl (fun helse => ?_) fun _ => ?_)
  · refine Retraces.down (retraces_keyword ?_ (by simp [helse.1]) fun s2 span'' => ?_)
    · rw [helse.2]
      decide
    · refine Retraces.free (Retraces.down (retraces_expectClosing rfl (by simp) fun s3 _ _ => ?_))
      exact retraces_done rfl (by simp [Tree.leaves])
  · refine Retraces.weaken (retraces_bind (mirrors_enclosed hg rfl (by simp)).retraces
      fun e e' s2 he => ?_) hline
    exact retraces_done (by simp_all [Tree.erase]) (by simp [Tree.leaves])

theorem mirrors_casePattern (hctx : ctx.inBrackets = false) : Ysh.Mirrors gaps D (n + 1)
    g.casePattern h.casePattern ctx Tree.leaves (·.Sees gaps .command ctx)
    fun _ => (·.Sees gaps .command ctx) := by
  intro s
  refine retraces_peek id fun span => retraces_ite Iff.rfl (fun hparen => ?_) fun _ =>
    retraces_ite Iff.rfl (fun hslash => ?_) fun _ => retraces_ite Iff.rfl (fun _ => ?_) fun _ =>
      retraces_unexpected
  · exact Retraces.loose (retraces_parenthesizedPattern hg hctx hparen)
  · refine Retraces.loose (retraces_advance (Token.leaves_self _)
      (fun hend => ?_) fun s1 span' hoffers => ?_)
    · rw [Token.isWord, hend] at hslash
      cases hslash
    · refine retraces_bind (Retraces.lift (retraces_eggexBody rfl hoffers.bounds.1))
        fun e e' s2 he => ?_
      exact retraces_done (by simp_all [Tree.erase]) fun _ => rfl
  · exact Retraces.knowing (Retraces.weaken (mirrors_globPattern hg).retraces Cursor.Opening.seen)
      fun _ _ => trivial

theorem mirrors_caseArm (hctx : ctx.inBrackets = false) : Ysh.Mirrors gaps D (n + 1) g.caseArm
    h.caseArm ctx Tree.leaves (·.Sees gaps .command ctx) fun _ _ => True := by
  intro s
  refine retraces_peek id fun span => ?_
  refine retraces_bind (P := fun _ => (·.Stops gaps)) (Retraces.demand (Retraces.knowing
    (mirrors_casePattern hg hctx).retraces fun _ _ => trivial) fun _ _ => Cursor.Stops.seen)
    fun p p' s1 hp => ?_
  refine retraces_bind (mirrors_block hg).retraces fun body body' s2 hbody => ?_
  exact retraces_done (by simp_all [Tree.erase]) (by simp [Tree.leaves])

/-- In a quiet parse there is an arm. -/
theorem mirrors_armOrNone (hctx : ctx.inBrackets = false) : Ysh.Mirrors gaps D (n + 1)
    g.armOrNone h.armOrNone ctx (fun o => o.toList.flatMap Tree.leaves)
    (·.Sees gaps .command ctx) fun _ _ => True := by
  intro s
  refine retraces_attempt (fun r => by cases r <;> infer_instance) (mirrors_caseArm hg hctx).retraces
    (fun arm arm' s1 harm => ?_) fun e s1 hq => ?_
  · exact retraces_done (congrArg some harm) (by simp)
  · exact ensures_seq (ensures_report rfl) fun _ s2 hnot => absurd hq hnot

omit [g.Stepwise] [h.Stepwise] hg in
theorem mirrors_skipSeparators : Ysh.Mirrors gaps D (n + 1) skipSeparators skipSeparators ctx
    (fun _ => []) (·.Seen gaps .command true) fun _ => (·.Sees gaps .command ctx) := by
  refine mirrors_skipWhile (fun kind hkind => ?_) rfl rfl
  rw [Bool.or_eq_true, beq_iff_eq, beq_iff_eq] at hkind
  rcases hkind with rfl | rfl <;> rfl

/-- The next arm of a case is read alike. -/
theorem retraces_armsRound (hctx : ctx.inBrackets = false) {as bs : Array Arm}
    (hab : erase bs = erase as) : Retraces gaps D (n + 1) (fun _ => True) (g.armsRound as)
      (h.armsRound bs) ctx origin (as.toList.flatMap Tree.leaves) s
      (fun r => r.value.toList.flatMap Tree.leaves) (s.cursor.Seen gaps .command true)
      (Round.Asks (fun _ => (·.Seen gaps .command true))
        fun _ => (·.Sees gaps .command ctx)) := by
  have hab : bs.map Tree.erase = as.map Tree.erase := hab
  refine retraces_bind mirrors_skipSeparators.retraces fun _ _ s1 _ => ?_
  rw [List.append_nil]
  refine retraces_peekKind id (retraces_ite Iff.rfl (fun _ => ?_) fun _ => ?_)
  · exact retraces_pure (by simp [hab]) fun _ => rfl
  · refine Retraces.loose (retraces_bind (mirrors_armOrNone hg hctx).retraces
      fun o o' s2 ho => ?_)
    refine retraces_done ?_ (by simp [Round.value])
    have ho : o'.map Tree.erase = o.map Tree.erase := ho
    cases o <;> cases o' <;> simp_all

theorem mirrors_caseArms (hctx : ctx.inBrackets = false) : Ysh.Mirrors gaps D (n + 1)
    g.caseArms h.caseArms ctx (·.flatMap Tree.leaves) (·.Seen gaps .command true)
    fun _ => (·.Sees gaps .command ctx) := by
  intro s
  have hloop : Retraces gaps D (n + 1) (fun _ => True) (loop g.armsRound #[])
      (loop h.armsRound #[]) ctx s.cursor.offset [] s
      (fun as : Array Arm => as.toList.flatMap Tree.leaves) (s.cursor.Seen gaps .command true)
      fun _ => (·.Sees gaps .command ctx) :=
    retraces_loop (P := fun _ => (·.Seen gaps .command true)) ScanLoop.arms.progresses
      ScanLoop.arms.progresses (fun as bs s hab => retraces_armsRound hg hctx hab) rfl fun _ => rfl
  refine retraces_bind hloop fun as bs s1 hab => retraces_pure ?_ fun _ => rfl
  have hab : bs.map Tree.erase = as.map Tree.erase := hab
  have hlist := congrArg Array.toList hab
  simpa using hlist

theorem retraces_caseStatement (hctx : ctx.inBrackets = false)
    (hkeyword : (s.next .command ctx).text ∈ keywords)
    (hend : (s.next .command ctx).kind ≠ .endOfInput) :
    Retraces gaps D (n + 1) J g.caseStatement h.caseStatement ctx origin seen s
      (fun t => seen ++ t.leaves) (s.cursor.Sees gaps .command ctx) fun _ _ => True := by
  refine retraces_keyword hkeyword hend fun s1 span => ?_
  refine Retraces.free (retraces_bind (P := fun _ => (·.Sees gaps .command ctx))
    (Retraces.loose (mirrors_parenthesized hg).retraces) fun subject subject' s2 hsubject => ?_)
  refine Retraces.down (retraces_expectAs rfl (by simp) fun s3 span' _ => ?_)
  have hdeeper : { ctx with depth := ctx.depth + 1 }.inBrackets = false := hctx
  have harms : Ysh.Mirrors gaps D n (nested (liftM g.caseArms)) (nested (liftM h.caseArms)) ctx
      (·.flatMap Tree.leaves) (·.Seen gaps .command true) fun _ => (·.Sees gaps .command ctx) :=
    fun s => Retraces.down (retraces_nested ((mirrors_caseArms hg hdeeper).lift s))
  refine Retraces.free (retraces_bind harms.retraces fun arms arms' s4 harms => ?_)
  refine retraces_bind (Retraces.down mirrors_closingBraceStop.lift.retraces) fun stop stop' s5 _ => ?_
  refine retraces_done ?_ ?_
  · simp_all [Tree.erase]
  · simp [Tree.leaves]

end

end Grammar

end Ysh
