import Ysh.Proofs.Coverage.Command

/-!
# Definitions and Control Flow Lose Nothing

Everything that starts with a keyword and holds blocks. What is passed over, the rest
of an arm that cannot be read, is passed over behind an error only. The newlines in
front of a branch are consumed when its keyword has been seen, and they are fillers
like those in front of any other token.

## Theorems

* `Grammar.covers_parameterRound`: A tier has its rest parameter last.
* `Grammar.lossless_nextTier`: What stands behind a semicolon.
* `Grammar.lossless_branchKeyword`: A keyword and the newlines in front of it.
* `Grammar.covers_conditional`, `Grammar.covers_caseStatement`.
-/

namespace Ysh

variable {D : List Diagnostic}

namespace Grammar

/-! ## Parameters -/

theorem lossless_comma : Ysh.Lossless D comma fun _ => [] := by
  intro ctx s hq
  refine Scan.ensures_peekKind (ensures_ite (fun hcomma => ?_) fun _ => ensures_pure.2 fun _ => .nil _)
  refine ensures_seq (ensures_offers hq) ?_
  rintro token s1 ⟨rfl, hoffers⟩
  exact ensures_pure.2 fun _ => hoffers.fixed (by rw [hcomma]; rfl)

theorem lossless_endOfTier {fault : ParameterFault} :
    Ysh.Lossless D (endOfTier fault) fun _ => [] := by
  intro ctx s hq
  refine ensures_seq (ensures_lift (lossless_comma ctx s hq)) fun _ s1 hcomma => ensures_peek ?_
  exact ensures_ite (fun _ => ensures_throw) fun _ => ensures_pure.2 fun _ => hcomma

theorem covers_restParameter {allowed : Bool} {ctx : Context} {s : State}
    (hq : Quiet ctx.limits D) (hdots : (s.next .expression ctx).kind = .ellipsis) :
    Ensures D (restParameter allowed) ctx s fun p s' => Covers s.cursor p.leaves s'.cursor := by
  refine ensures_fixed hq (by rw [hdots]; rfl) fun s1 hs1 => ?_
  refine ensures_ite (fun _ => ensures_bind (ensures_throw (s := s1))) fun _ => ?_
  refine ensures_seq (covers_bindingName hq) fun name s2 hname => ?_
  refine ensures_seq (lossless_endOfTier ctx s2 hq) fun _ s3 hend => ensures_pure.2 fun _ => ?_
  exact hs1.after (hname.upTo hend)

variable {g : Grammar} [g.Stepwise] (hg : g.Lossless D)

section

include hg

theorem lossless_parameter : Ysh.Lossless D g.parameter Tree.leaves := by
  intro ctx s hq
  refine ensures_seq (covers_bindingName hq) fun name s1 hname => ?_
  refine ensures_peekKind (ensures_ite (fun hkind => ?_) fun _ => ensures_pure.2 fun _ => hname)
  refine ensures_fixed hq (by rw [hkind]; rfl) fun s2 hequals => ?_
  refine ensures_seq (hg.expression ctx s2 hq) fun value s3 hvalue => ensures_pure.2 fun _ => ?_
  exact hname.append (hequals.after hvalue)

/-- The leaves of a tier that has been read so far. -/
def tierLeaves (p : Array Parameter × Option Parameter) : List Leaf :=
  p.1.toList.flatMap Tree.leaves ++ p.2.toList.flatMap Tree.leaves

/-- Only the last round adds a rest parameter. -/
theorem covers_parameterRound {allowsRest : Bool} {c : Cursor} {parameters : Array Parameter}
    {ctx : Context} {s : State} (hq : Quiet ctx.limits D)
    (h : Covers c (tierLeaves (parameters, none)) s.cursor) :
    Ensures D (g.parameterRound allowsRest (parameters, none)) ctx s
      (Round.Keeps (fun p s' => p.2 = none ∧ Covers c (tierLeaves p) s'.cursor)
        fun p s' => Covers c (tierLeaves p) s'.cursor) := by
  have hparameters : Covers c (parameters.toList.flatMap Tree.leaves) s.cursor := by
    rwa [tierLeaves, Option.toList_none, List.flatMap_nil, List.append_nil] at h
  refine ensures_peekKind (ensures_ite (fun _ => ensures_pure.2 fun _ => h) fun _ =>
    ensures_ite (fun hdots => ?_) fun _ => ?_)
  · refine ensures_seq (covers_restParameter hq hdots) fun p s1 hp => ensures_pure.2 fun _ => ?_
    exact hparameters.append (hp.append (.nil _))
  · refine ensures_seq (lossless_parameter hg ctx s hq) fun p s1 hp => ?_
    refine ensures_seq (ensures_lift (lossless_comma ctx s1 hq)) fun found s2 hcomma => ?_
    have hpush : Covers c (tierLeaves (parameters.push p, none)) s2.cursor := by
      unfold tierLeaves
      rw [Array.toList_push, List.flatMap_append, List.flatMap_singleton]
      exact (hparameters.append (hp.upTo hcomma)).append (.nil _)
    exact ensures_ite (fun _ => ensures_pure.2 fun _ => ⟨rfl, hpush⟩)
      fun _ => ensures_pure.2 fun _ => hpush

theorem lossless_parameterGroup (allowsRest : Bool) :
    Ysh.Lossless D (g.parameterGroup allowsRest) Tree.leaves := by
  intro ctx s hq
  refine ensures_peek (ensures_seq (ensures_loopTo
    (I := fun p s' => p.2 = none ∧ Covers s.cursor (tierLeaves p) s'.cursor)
    (Q := fun p s' => Covers s.cursor (tierLeaves p) s'.cursor) ⟨rfl, .nil _⟩ (fun _ _ h => h.2) ?_)
    ?_)
  · rintro ⟨parameters, rest⟩ s1 ⟨hrest, h⟩
    cases hrest
    exact covers_parameterRound hg hq h
  · rintro ⟨parameters, rest⟩ s1 h
    refine ensures_position (ensures_pure.2 fun _ => ?_)
    change Covers s.cursor ((Tree.ofList parameters.toList).leaves ++ (Tree.ofOption rest).leaves)
      s1.cursor
    rw [Tree.leaves_ofList, Tree.leaves_ofOption]
    exact h

omit [g.Stepwise] hg in
/-- What stands behind a semicolon, or nothing where there is none. -/
theorem covers_nextTier {α : Type} {tier : Token → Parse α} [∀ token, Ysh.Stepwise (tier token)]
    (leaves : Option α → List Leaf) (hnone : leaves none = []) {ctx : Context} {s : State}
    (hq : Quiet ctx.limits D)
    (h : ∀ token, Ysh.Lossless D (tier token) fun a => leaves (some a)) :
    Ensures D (nextTier tier) ctx s fun o s' => Covers s.cursor (leaves o) s'.cursor := by
  refine ensures_peekKind (ensures_ite (fun hkind => ?_) fun _ => ensures_pure.2 fun _ => ?_)
  · refine ensures_fixed hq (by rw [hkind]; rfl) fun s1 hs1 => ?_
    refine ensures_seq (h _ ctx s1 hq) fun a s2 ha => ensures_pure.2 fun _ => hs1.after ha
  · rw [hnone]
    exact .nil _

omit [g.Stepwise] hg in
theorem lossless_noFurtherTier {fault : ParameterFault} :
    Ysh.Lossless D (noFurtherTier fault) fun _ => [] := by
  intro ctx s hq
  refine ensures_seq (covers_nextTier (fun _ => []) rfl hq fun _ ctx s _ => ensures_throw)
    fun _ s1 h => ensures_pure.2 fun _ => h

theorem lossless_blockParameter :
    Ysh.Lossless D g.blockParameter fun o => o.toList.flatMap Tree.leaves := by
  intro ctx s hq
  refine ensures_peek (ensures_ite (fun _ => ensures_pure.2 fun _ => .nil _) fun _ =>
    ensures_ite (fun _ => ensures_throw) fun _ => ?_)
  refine ensures_seq (lossless_parameter hg ctx s hq) fun p s1 hp => ?_
  refine ensures_seq (lossless_endOfTier ctx s1 hq) fun _ s2 hend => ensures_pure.2 fun _ => ?_
  exact (hp.upTo hend).append (.nil _)

omit [g.Stepwise] hg in
/-- A further tier of parameters, if there is one. -/
theorem covers_furtherGroup {tier : Token → Parse ParameterGroup}
    [∀ token, Ysh.Stepwise (tier token)] {ctx : Context} {s : State} (hq : Quiet ctx.limits D)
    (h : ∀ token, Ysh.Lossless D (tier token) Tree.leaves) :
    Ensures D (nextTier tier) ctx s fun o s' =>
      Covers s.cursor (o.toList.flatMap Tree.leaves) s'.cursor := by
  refine covers_nextTier (fun o => o.toList.flatMap Tree.leaves) rfl hq
    fun token ctx s hq => (h token ctx s hq).mono fun t s' ht => ?_
  exact ht.append (.nil _)

theorem lossless_funcTiers (opening : Span) :
    Ysh.Lossless D (g.funcTiers opening) Tree.leaves := by
  intro ctx s hq
  refine ensures_seq (lossless_parameterGroup hg true ctx s hq) fun positional s1 hpositional => ?_
  refine ensures_seq (covers_furtherGroup hq fun token ctx s2 hq => ?_) fun named s2 hnamed => ?_
  · exact ensures_ite (fun _ => ensures_bind (ensures_throw (s := s2)))
      fun _ => lossless_parameterGroup hg false ctx s2 hq
  · refine ensures_seq (lossless_noFurtherTier ctx s2 hq) fun _ s3 hlast => ?_
    refine ensures_seq (lossless_expectClosing rfl ctx s3 hq) fun _ s4 hclose =>
      ensures_position (ensures_pure.2 fun _ => ?_)
    change Covers s.cursor (positional.leaves ++ ([] ++ ((Tree.ofOption named).leaves ++ [])))
      s4.cursor
    rw [Tree.leaves_ofOption, List.nil_append]
    exact hpositional.append ((hnamed.upTo hlast).append hclose)

theorem lossless_procTiers (opening : Span) :
    Ysh.Lossless D (g.procTiers opening) Tree.leaves := by
  intro ctx s hq
  refine ensures_seq (lossless_parameterGroup hg true ctx s hq) fun positional s1 hpositional => ?_
  refine ensures_seq (covers_furtherGroup hq fun _ => lossless_parameterGroup hg true)
    fun typed s2 htyped => ?_
  refine ensures_seq (covers_furtherGroup hq fun _ => lossless_parameterGroup hg false)
    fun named s3 hnamed => ?_
  refine ensures_seq (covers_nextTier (fun o => o.join.toList.flatMap Tree.leaves) rfl
    hq fun _ => lossless_blockParameter hg) fun block s4 hblock => ?_
  refine ensures_seq (lossless_noFurtherTier ctx s4 hq) fun _ s5 hlast => ?_
  refine ensures_seq (lossless_expectClosing rfl ctx s5 hq) fun _ s6 hclose =>
    ensures_position (ensures_pure.2 fun _ => ?_)
  change Covers s.cursor (positional.leaves ++ ((Tree.ofOption typed).leaves ++
    ((Tree.ofOption named).leaves ++ (Tree.ofOption block.join).leaves))) s6.cursor
  simp only [Tree.leaves_ofOption]
  exact hpositional.append (htyped.append (hnamed.append ((hblock.upTo hlast).upTo hclose)))

theorem lossless_parameterList (kind : Definition) (opening : Span) :
    Ysh.Lossless D (g.parameterList kind opening) Tree.leaves := by
  intro ctx s hq
  refine ensures_bracketed fun _ => ?_
  cases kind with
  | func => exact lossless_funcTiers hg opening _ s hq
  | proc => exact lossless_procTiers hg opening _ s hq

/-! ## Definitions -/

theorem lossless_definitionBody (kind : Definition) :
    Ysh.Lossless D (g.definitionBody kind) Tree.leaves :=
  fun ctx s hq => lossless_block hg { ctx with definition := some kind } s hq

omit [g.Stepwise] hg in
theorem covers_procName {ctx : Context} {s : State} (hq : Quiet ctx.limits D) :
    Ensures D procName ctx s fun name s' => Covers s.cursor [name.leaf] s'.cursor := by
  refine ensures_peek (ensures_ite (fun _ => ensures_bind (ensures_throw (s := s))) fun _ => ?_)
  refine ensures_ite (fun _ => ensures_bind (ensures_throw (s := s))) fun _ => ?_
  exact ensures_next hq fun s1 hoffers => ensures_pure.2 fun _ => hoffers.leaf

theorem lossless_procParameters :
    Ysh.Lossless D g.procParameters fun o => o.toList.flatMap Tree.leaves := by
  intro ctx s hq
  refine ensures_peekKind (ensures_ite (fun hkind => ?_) fun _ => ensures_pure.2 fun _ => .nil _)
  refine ensures_fixed hq (by rw [hkind]; rfl) fun s1 hs1 => ?_
  refine ensures_seq (lossless_parameterList hg .proc _ ctx s1 hq) fun l s2 hl =>
    ensures_pure.2 fun _ => ?_
  exact hs1.after (hl.append (.nil _))

theorem lossless_returnValue :
    Ysh.Lossless D g.returnValue fun o => o.toList.flatMap Tree.leaves := by
  intro ctx s hq
  refine ensures_peekKind (ensures_read ?_)
  have hnone : Ensures D (pure none : Parse (Option ReturnValue)) ctx s fun o s' =>
      Covers s.cursor (o.toList.flatMap Tree.leaves) s'.cursor := ensures_pure.2 fun _ => .nil _
  split
  · refine ensures_ite (fun _ => ?_) fun _ => hnone
    exact ensures_seq (lossless_parenthesized hg ctx s hq) fun e s1 he =>
      ensures_pure.2 fun _ => he.append (.nil _)
  · refine ensures_ite (fun _ => ?_) fun _ => hnone
    exact ensures_seq (lossless_word hg ctx s hq) fun w s1 hw =>
      ensures_pure.2 fun _ => hw.append (.nil _)

/-! ## Loops -/

theorem lossless_condition : Ysh.Lossless D g.condition Tree.leaves := by
  intro ctx s hq
  refine ensures_peekKind (ensures_ite (fun _ => ?_) fun _ => ?_)
  · exact ensures_seq (lossless_parenthesized hg ctx s hq) fun e s1 he => ensures_pure.2 fun _ => he
  · exact ensures_seq (lossless_commandCall hg false ctx s hq) fun call s1 hcall =>
      ensures_pure.2 fun _ => hcall

omit [g.Stepwise] hg in
theorem lossless_furtherName :
    Ysh.Lossless D furtherName fun o => o.toList.flatMap fun name => [name.leaf] := by
  intro ctx s hq
  refine ensures_seq (ensures_lift (lossless_comma ctx s hq)) fun found s1 hcomma => ?_
  refine ensures_ite (fun _ => ?_) fun _ => ensures_pure.2 fun _ => hcomma
  refine ensures_seq (covers_bindingName hq) fun name s2 hname => ensures_pure.2 fun _ => ?_
  exact hcomma.after hname

omit [g.Stepwise] hg in
theorem lossless_loopNames : Ysh.Lossless D loopNames fun names => names.map (·.leaf) := by
  intro ctx s hq
  refine ensures_seq (covers_bindingName hq) fun first s1 hfirst => ?_
  refine ensures_seq (lossless_collect lossless_furtherName ctx s1 hq) fun others s2 hothers =>
    ensures_pure.2 fun _ => ?_
  change Covers s.cursor (first.leaf :: others.map (·.leaf)) s2.cursor
  rw [List.map_eq_flatMap]
  exact hfirst.append hothers

theorem lossless_rangeOrValue : Ysh.Lossless D g.rangeOrValue Tree.leaves := by
  intro ctx s hq
  refine ensures_seq (hg.expression ctx s hq) fun first s1 hfirst => ?_
  refine ensures_peekKind (ensures_ite (fun hkind => ?_) fun _ => ensures_pure.2 fun _ => hfirst)
  refine ensures_fixed hq (by rw [hkind]; rfl) fun s2 hs2 => ?_
  refine ensures_seq (hg.expression ctx s2 hq) fun last s3 hlast => ensures_pure.2 fun _ => ?_
  exact hfirst.append (hs2.after hlast)

theorem lossless_nextWord : Ysh.Lossless D g.nextWord fun o => o.toList.flatMap Tree.leaves := by
  intro ctx s hq
  refine ensures_peekKind (ensures_ite (fun _ => ?_) fun _ => ensures_pure.2 fun _ => .nil _)
  exact ensures_seq (lossless_word hg ctx s hq) fun w s1 hw =>
    ensures_pure.2 fun _ => hw.append (.nil _)

theorem lossless_iterable : Ysh.Lossless D g.iterable Tree.leaves := by
  intro ctx s hq
  refine ensures_peekKind (ensures_ite (fun hkind => ?_) fun _ => ?_)
  · refine ensures_fixed hq (by rw [hkind]; rfl) fun s1 hs1 => ensures_bracketed fun _ => ?_
    refine ensures_seq (lossless_rangeOrValue hg _ s1 hq) fun items s2 hitems => ?_
    refine ensures_seq (lossless_expectClosing rfl _ s2 hq) fun _ s3 hclose =>
      ensures_pure.2 fun _ => ?_
    exact hs1.after (hitems.upTo hclose)
  · refine ensures_seq (lossless_collect (lossless_nextWord hg) ctx s hq) fun words s1 hwords => ?_
    refine ensures_ite (fun _ => ensures_unexpected) fun _ => ensures_pure.2 fun _ => ?_
    change Covers s.cursor (Tree.ofList words).leaves s1.cursor
    rwa [Tree.leaves_ofList]

/-! ## Branches -/

theorem lossless_branch (keyword : Token) : Ysh.Lossless D (g.branch keyword) Tree.leaves := by
  intro ctx s hq
  refine ensures_seq (lossless_condition hg ctx s hq) fun condition s1 hcondition => ?_
  refine ensures_seq (lossless_block hg ctx s1 hq) fun body s2 hbody => ensures_pure.2 fun _ => ?_
  exact hcondition.append hbody

end

section

variable {ctx : Context} {s : State} (hq : Quiet ctx.limits D)

/-- What is looked for ahead is found when it is read. -/
theorem ensures_aheadOf {α β : Type} {x : Scan α} {y : α → Scan Bool} {f : Bool → Scan β}
    {Q : β → State → Prop}
    (h : Ensures D (f (y (x ctx s).1 ctx (x ctx s).2).1) ctx s Q) :
    Ensures D (ahead (x >>= y) >>= f) ctx s Q :=
  h

include hq

/-- The keyword of a branch is consumed with the newlines in front of it. -/
theorem covers_branchKeyword {word : String} (hword : word ∈ keywords) :
    Ensures D (branchKeyword word) ctx s fun _ s' => Covers s.cursor [] s'.cursor := by
  refine ensures_aheadOf (ensures_ite (fun hcomes => ?_) fun _ => ensures_pure.2 fun _ => .nil _)
  refine ensures_seq (P := fun _ s1 => Covers s.cursor [] s1.cursor ∧
    s1 = (skipNewlines ctx s).2) ?_ ?_
  · intro u s1 hyields hD
    refine ⟨lossless_skipWhile (fun kind hkind => ?_) ctx s hq u s1 hyields hD, ?_⟩
    · rw [beq_iff_eq.1 hkind]
      rfl
    · cases hyields
      rfl
  · rintro _ s1 ⟨hskip, rfl⟩
    refine ensures_seq (ensures_offers hq) ?_
    rintro token s2 ⟨rfl, hoffers⟩
    have hcomes : ((skipNewlines ctx s).2.next .command ctx).isWord word = true := hcomes
    refine ensures_pure.2 fun _ => hskip.upTo (hoffers.keyword ?_)
    rwa [Token.text_of_isWord hcomes]

end

section

include hg

theorem lossless_elifBranch :
    Ysh.Lossless D g.elifBranch fun o => o.toList.flatMap Tree.leaves := by
  intro ctx s hq
  refine Moving.ensures_seq (fun r => by cases r <;> infer_instance)
    (ensures_lift (covers_branchKeyword hq (by decide))) fun r s1 hr => ?_
  cases r with
  | none => exact ensures_pure.2 fun _ => hr
  | some keyword =>
      refine ensures_seq (lossless_branch hg keyword ctx s1 hq) fun b s2 hb =>
        ensures_pure.2 fun _ => ?_
      exact hr.after (hb.append (.nil _))

theorem lossless_elseBody :
    Ysh.Lossless D g.elseBody fun o => o.toList.flatMap Tree.leaves := by
  intro ctx s hq
  refine Moving.ensures_seq (fun r => by cases r <;> infer_instance)
    (ensures_lift (covers_branchKeyword hq (by decide))) fun r s1 hr => ?_
  cases r with
  | none => exact ensures_pure.2 fun _ => hr
  | some keyword =>
      refine ensures_seq (lossless_block hg ctx s1 hq) fun b s2 hb => ensures_pure.2 fun _ => ?_
      exact hr.after (hb.append (.nil _))

/-! ## Case -/

theorem lossless_furtherGlob :
    Ysh.Lossless D g.furtherGlob fun o => o.toList.flatMap Tree.leaves := by
  intro ctx s hq
  refine ensures_peekKind (ensures_ite (fun hkind => ?_) fun _ => ensures_pure.2 fun _ => .nil _)
  refine ensures_fixed hq (by rw [hkind]; rfl) fun s1 hs1 => ?_
  exact ensures_seq (lossless_word hg ctx s1 hq) fun w s2 hw =>
    ensures_pure.2 fun _ => hs1.after (hw.append (.nil _))

theorem lossless_globPattern : Ysh.Lossless D g.globPattern Tree.leaves := by
  intro ctx s hq
  refine ensures_seq (lossless_word hg ctx s hq) fun first s1 hfirst => ?_
  refine ensures_seq (lossless_collect (lossless_furtherGlob hg) ctx s1 hq) fun others s2 hothers =>
    ensures_pure.2 fun _ => ?_
  change Covers s.cursor (Tree.ofList (first :: others)).leaves s2.cursor
  rw [Tree.leaves_ofList]
  exact hfirst.append hothers

theorem covers_parenthesizedPattern {ctx : Context} {s : State} (hq : Quiet ctx.limits D)
    (hopening : (s.next .command ctx).kind = .leftParen) :
    Ensures D g.parenthesizedPattern ctx s fun p s' => Covers s.cursor p.leaves s'.cursor := by
  refine ensures_fixed hq (by rw [hopening]; rfl) fun s1 hs1 => ensures_peek ?_
  refine ensures_ite (fun helse => ?_) fun _ => ?_
  · refine ensures_keyword hq (by rw [helse.2]; decide) fun s2 hs2 => ?_
    refine ensures_seq (lossless_expectClosing rfl ctx s2 hq) fun _ s3 hs3 =>
      ensures_pure.2 fun _ => ?_
    exact hs1.after (hs2.after hs3)
  · exact ensures_seq (lossless_enclosed hg rfl ctx s1 hq) fun e s2 he =>
      ensures_pure.2 fun _ => hs1.after he

theorem lossless_casePattern : Ysh.Lossless D g.casePattern Tree.leaves := by
  intro ctx s hq
  refine ensures_peek (ensures_ite (fun hopening => covers_parenthesizedPattern hg hq hopening)
    fun _ => ensures_ite (fun hslash => ?_) fun _ => ensures_ite
      (fun _ => lossless_globPattern hg ctx s hq) fun _ => ensures_unexpected)
  refine ensures_next hq fun s1 hoffers => ?_
  rcases hoffers with ⟨front, text, hfront, hread, -⟩
  have htext : text = ['/'] :=
    String.ofList_injective (hread.shown.symm.trans (Token.text_of_isWord hslash))
  have hpasses := hread.passes
  rw [htext] at hpasses
  exact ensures_seq (ensures_lift (covers_eggexBody hq hfront hpasses hread.start)) fun e s2 he =>
    ensures_pure.2 fun _ => he

theorem lossless_caseArm : Ysh.Lossless D g.caseArm Tree.leaves := by
  intro ctx s hq
  refine ensures_peek (ensures_seq (lossless_casePattern hg ctx s hq) fun pattern s1 hpattern => ?_)
  refine ensures_seq (lossless_block hg ctx s1 hq) fun body s2 hbody => ensures_pure.2 fun _ => ?_
  exact hpattern.append hbody

/-- An arm that cannot be read is an error. -/
theorem lossless_armOrNone :
    Ysh.Lossless D g.armOrNone fun o => o.toList.flatMap Tree.leaves := by
  intro ctx s hq
  refine Moving.ensures_seq (fun r => by cases r <;> infer_instance)
    (ensures_attempt (lossless_caseArm hg ctx s hq)) fun r s1 hr => ?_
  cases r with
  | ok arm => exact ensures_pure.2 fun _ => (hr arm rfl).append (.nil _)
  | error e => exact ensures_blame hq rfl

omit [g.Stepwise] hg in
theorem lossless_skipSeparators : Ysh.Lossless D skipSeparators fun _ => [] := by
  refine lossless_skipWhile fun kind hkind => ?_
  rcases Bool.or_eq_true_iff.1 hkind with hkind | hkind
  all_goals rw [beq_iff_eq.1 hkind]; rfl

theorem lossless_caseArms : Ysh.Lossless D g.caseArms (·.flatMap Tree.leaves) := by
  intro ctx s hq
  refine ensures_seq (ensures_loop_state (I := fun (arms : Array Arm) s' =>
    Covers s.cursor (arms.toList.flatMap Tree.leaves) s'.cursor) (.nil _) ?_) fun arms s1 h =>
      ensures_pure.2 fun _ => h
  intro arms s1 h
  refine ensures_seq (lossless_skipSeparators ctx s1 hq) fun _ s2 hskip => ?_
  refine Scan.ensures_peekKind (ensures_ite (fun _ => ensures_pure.2 fun _ => h.upTo hskip)
    fun _ => ?_)
  refine ensures_seq (lossless_armOrNone hg ctx s2 hq) fun o s3 ho => ensures_pure.2 fun _ => ?_
  change Covers s.cursor ((arms ++ o.toList).toList.flatMap Tree.leaves) s3.cursor
  rw [Array.toList_appendList, List.flatMap_append]
  exact (h.upTo hskip).append ho

end

/-! ## Statements with a keyword -/

section

variable {ctx : Context} {s : State} (hq : Quiet ctx.limits D)
  (hkeyword : (s.next .command ctx).text ∈ keywords)
include hg hq hkeyword

theorem covers_funcDefinition :
    Ensures D g.funcDefinition ctx s fun t s' => Covers s.cursor t.leaves s'.cursor := by
  refine ensures_keyword hq hkeyword fun s1 hs1 => ?_
  refine ensures_seq (covers_bindingName hq) fun name s2 hname => ?_
  refine ensures_expectAs hq rfl fun s3 hopening => ?_
  refine ensures_seq (lossless_parameterList hg .func _ ctx s3 hq) fun l s4 hl => ?_
  refine ensures_seq (lossless_definitionBody hg .func ctx s4 hq) fun body s5 hbody =>
    ensures_pure.2 fun _ => ?_
  exact hs1.after (hname.append (hopening.after (hl.append hbody)))

theorem covers_procDefinition :
    Ensures D g.procDefinition ctx s fun t s' => Covers s.cursor t.leaves s'.cursor := by
  refine ensures_keyword hq hkeyword fun s1 hs1 => ?_
  refine ensures_seq (covers_procName hq) fun name s2 hname => ?_
  refine ensures_seq (lossless_procParameters hg ctx s2 hq) fun l s3 hl => ?_
  refine ensures_seq (lossless_definitionBody hg .proc ctx s3 hq) fun body s4 hbody =>
    ensures_pure.2 fun _ => ?_
  change Covers s.cursor (name.leaf :: ((Tree.ofOption l).leaves ++ body.leaves)) s4.cursor
  rw [Tree.leaves_ofOption]
  exact hs1.after (hname.append (hl.append hbody))

theorem covers_returnStatement :
    Ensures D g.returnStatement ctx s fun t s' => Covers s.cursor t.leaves s'.cursor := by
  refine ensures_keyword hq hkeyword fun s1 hs1 => ?_
  refine ensures_seq (lossless_returnValue hg ctx s1 hq) fun value s2 hvalue =>
    ensures_position (ensures_pure.2 fun _ => ?_)
  change Covers s.cursor (Tree.ofOption value).leaves s2.cursor
  rw [Tree.leaves_ofOption]
  exact hs1.after hvalue

theorem covers_whileLoop :
    Ensures D g.whileLoop ctx s fun t s' => Covers s.cursor t.leaves s'.cursor := by
  refine ensures_keyword hq hkeyword fun s1 hs1 => ?_
  refine ensures_seq (lossless_condition hg ctx s1 hq) fun condition s2 hcondition => ?_
  refine ensures_seq (lossless_block hg ctx s2 hq) fun body s3 hbody => ensures_pure.2 fun _ => ?_
  exact hs1.after (hcondition.append hbody)

theorem covers_forLoop :
    Ensures D g.forLoop ctx s fun t s' => Covers s.cursor t.leaves s'.cursor := by
  refine ensures_keyword hq hkeyword fun s1 hs1 => ?_
  refine ensures_seq (lossless_loopNames ctx s1 hq) fun names s2 hnames => ?_
  refine ensures_peekWord (ensures_ite (fun _ => ensures_bind ensures_unexpected) fun hin => ?_)
  have hin : (s2.next .command ctx).text = "in" := Token.text_of_isWord (by simpa using hin)
  refine ensures_keyword hq (by rw [hin]; decide) fun s3 hs3 => ?_
  refine ensures_seq (lossless_iterable hg ctx s3 hq) fun items s4 hitems => ?_
  refine ensures_seq (lossless_block hg ctx s4 hq) fun body s5 hbody => ensures_pure.2 fun _ => ?_
  exact hs1.after (hnames.append (hs3.after (hitems.append hbody)))

theorem covers_conditional :
    Ensures D g.conditional ctx s fun t s' => Covers s.cursor t.leaves s'.cursor := by
  refine ensures_keyword hq hkeyword fun s1 hs1 => ?_
  refine ensures_seq (lossless_branch hg _ ctx s1 hq) fun first s2 hfirst => ?_
  refine ensures_seq (lossless_collect (lossless_elifBranch hg) ctx s2 hq) fun others s3 hothers => ?_
  refine ensures_seq (lossless_elseBody hg ctx s3 hq) fun otherwise s4 hotherwise =>
    ensures_position (ensures_pure.2 fun _ => ?_)
  change Covers s.cursor ((Tree.ofList (first :: others)).leaves ++ (Tree.ofOption otherwise).leaves)
    s4.cursor
  rw [Tree.leaves_ofList, Tree.leaves_ofOption]
  exact hs1.after ((hfirst.append hothers).append hotherwise)

theorem covers_caseStatement :
    Ensures D g.caseStatement ctx s fun t s' => Covers s.cursor t.leaves s'.cursor := by
  refine ensures_keyword hq hkeyword fun s1 hs1 => ?_
  refine ensures_seq (lossless_parenthesized hg ctx s1 hq) fun subject s2 hsubject => ?_
  refine ensures_expectAs hq rfl fun s3 hopening => ?_
  refine ensures_seq (ensures_nested fun _ => ensures_lift (lossless_caseArms hg _ s3 hq))
    fun arms s4 harms => ?_
  refine ensures_seq (ensures_lift (lossless_closingBraceStop ctx s4 hq)) fun stop s5 hclose =>
    ensures_pure.2 fun _ => ?_
  change Covers s.cursor (subject.leaves ++ (Tree.ofList arms).leaves) s5.cursor
  rw [Tree.leaves_ofList]
  exact hs1.after (hsubject.append (hopening.after (harms.upTo hclose)))

end

end Grammar

end Ysh
