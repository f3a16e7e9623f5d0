import Ysh.Proofs.Progress.Loops
import Ysh.Proofs.Tiers.Grammar

/-!
# Reading Parameter Lists

Which parameter lists are read: those of the grammar, and no others.

The readers are loops and branches that stop early and leave it to the caller to find
fault with what comes next. So each of them is looked at from both sides. What it has
read is spelled as the grammar has it, whatever comes next; and what the grammar has is
read, if what comes next ends it. In a list every tier stands in front of a semicolon or
the closing parenthesis, and so the two sides meet.

A round of the loop goes on behind a comma alone, and has then read a parameter with its
comma. So what many rounds have read is a tier by induction on the rounds, and a tier is
read by induction on the tier.

## Theorems

* `Tiers.yields_parameter_iff`, `Tiers.yields_restParameter_iff`: One parameter.
* `Tiers.yields_parameterRound_iff`: One round of a tier.
* `Tiers.spells_of_parameterRound`, `Tiers.spells_of_parameterRounds`: What is read is a tier.
* `Tiers.IsTier.yields`: A tier is read.
* `Tiers.spells_of_yields_nextTier`, `Tiers.IsNext.yields`: A tier behind a semicolon.
* `parameterList_iff`: A list is read if and only if the grammar accepts it.
-/

namespace Ysh

open Grammar

namespace Tiers

section

variable {g : Grammar} {ctx : Context} {s s' : State}

/-! ## The next tier, if there is one -/

theorem yields_advance_then {α : Type} {f : Token → Parse α} {a : α} :
    Yields (liftM (advance .expression) >>= f) ctx s a s' ↔
      Yields (f (s.next .expression ctx)) ctx (behind ctx s) a s' :=
  Iff.rfl

theorem Scan.yields_advance_then {α : Type} {f : Token → Scan α} {a : α} :
    Yields (advance .expression >>= f) ctx s a s' ↔
      Yields (f (s.next .expression ctx)) ctx (behind ctx s) a s' :=
  Iff.rfl

section

variable {α : Type} {read : Token → Parse α}

/-- Behind a semicolon there is a tier, and none where there is no semicolon. -/
theorem yields_nextTier_iff {o : Option α} : Yields (nextTier read) ctx s o s' ↔
    (s.next .expression ctx).kind = .semicolon ∧
        (∃ a, Yields (read (s.next .expression ctx)) ctx (behind ctx s) a s' ∧ o = some a) ∨
      (s.next .expression ctx).kind ≠ .semicolon ∧ s' = s ∧ o = none := by
  unfold nextTier
  rw [yields_peekKind]
  by_cases hkind : (s.next .expression ctx).kind = .semicolon
  · rw [if_pos hkind, yields_advance_then, yields_bind]
    simp [hkind, yields_pure, eq_comm]
  · rw [if_neg hkind, yields_pure]
    simp [hkind, eq_comm, and_comm]

/-- No tier is read behind one that is not there. -/
theorem isSome_of_yields_nextTier {β : Type} {read' : Token → Parse β} {o : Option α}
    {o' : Option β} {s1 : State} (h : Yields (nextTier read) ctx s o s1)
    (h' : Yields (nextTier read') ctx s1 o' s') : o'.isSome = true → o.isSome = true := by
  rcases yields_nextTier_iff.1 h with ⟨-, a, -, rfl⟩ | ⟨hne, rfl, rfl⟩
  · exact fun _ => rfl
  · rcases yields_nextTier_iff.1 h' with ⟨hkind, -⟩ | ⟨-, -, rfl⟩
    · exact absurd hkind hne
    · exact id

end

theorem yields_noFurtherTier_iff {fault : ParameterFault} {u : Unit} :
    Yields (noFurtherTier fault) ctx s u s' ↔
      (s.next .expression ctx).kind ≠ .semicolon ∧ s' = s := by
  unfold noFurtherTier
  simp only [yields_bind, yields_nextTier_iff, not_yields_throw, yields_pure]
  constructor
  · rintro ⟨o, s1, ⟨-, a, hthrow, -⟩ | ⟨hnext, rfl, -⟩, -, rfl⟩
    · exact hthrow.elim
    · exact ⟨hnext, rfl⟩
  · rintro ⟨hnext, rfl⟩
    exact ⟨none, s', .inr ⟨hnext, rfl, rfl⟩, trivial, rfl⟩

/-! ## The parts of a tier -/

variable (hctx : ctx.inBrackets = true)
include hctx

/-- A name that something is bound to is the symbol of its token. -/
theorem yields_bindingName_iff {name : Identifier} :
    Yields bindingName ctx s name s' ↔ Spells g ctx s [.name name] s' := by
  rw [spells_sign hctx (by simp)]
  unfold bindingName
  rw [yields_peek]
  by_cases hkind : (s.next .expression ctx).kind = .identifier
  · rw [if_pos hkind, yields_unless, yields_advance_then, yields_pure]
    unfold Symbol.ofToken?
    rw [hkind]
    by_cases hreserved : isReserved (s.next .expression ctx).text = true
    · simp [hreserved]
    · simp [hreserved, eq_comm]
  · rw [if_neg hkind]
    exact iff_of_false not_yields_throw fun h => hkind (Symbol.kind_of_ofToken? h.1)

/-- Either the comma is there and is consumed, or there is none. -/
theorem yields_comma_iff {found : Bool} :
    Yields comma ctx s found s' ↔ found = true ∧ Spells g ctx s [.comma] s' ∨
      found = false ∧ s' = s ∧ (s.next .expression ctx).kind ≠ .comma := by
  rw [spells_mark hctx rfl]
  unfold comma
  rw [Scan.yields_peekKind]
  by_cases hkind : (s.next .expression ctx).kind = .comma
  · rw [if_pos hkind, Scan.yields_advance_then, yields_pure]
    simp [hkind, Symbol.kind, eq_comm]
  · rw [if_neg hkind, yields_pure]
    simp [hkind, Symbol.kind, eq_comm]

/-- A parameter is a name, and a default if one comes next. -/
theorem yields_parameter_iff {p : Parameter} :
    Yields g.parameter ctx s p s' ↔ ∃ name s1, Spells g ctx s [.name name] s1 ∧
      ((∃ value, Spells g ctx s1 [.default value] s' ∧
          p = .parameter name (.some value) (name.span.upTo value.span.stop)) ∨
        (s1.next .expression ctx).kind ≠ .assignment .assign ∧ s' = s1 ∧
          p = .parameter name .none name.span) := by
  unfold parameter
  rw [yields_bind]
  refine exists_congr fun name => exists_congr fun s1 =>
    and_congr (yields_bindingName_iff hctx) ?_
  rw [yields_peekKind]
  simp only [spells_default hctx]
  by_cases hkind : (s1.next .expression ctx).kind = .assignment .assign
  · rw [if_pos hkind, yields_advance_then, yields_bind]
    simp [hkind, yields_pure, eq_comm]
  · rw [if_neg hkind, yields_pure]
    simp [hkind, eq_comm, and_comm]

/-- What a parameter is read from is a parameter. -/
theorem spells_of_yields_parameter {p : Parameter}
    (h : Yields g.parameter ctx s p s') : ∃ w, IsParameter w p ∧ Spells g ctx s w s' := by
  rcases (yields_parameter_iff hctx).1 h with
    ⟨name, s1, hname, ⟨value, hvalue, rfl⟩ | ⟨-, rfl, rfl⟩⟩
  · exact ⟨_, .optional name value, (spells_first hctx).2 ⟨s1, hname, hvalue⟩⟩
  · exact ⟨_, .plain name, hname⟩

/-- What comes next in front of a parameter is its name. -/
theorem IsParameter.next {w v : List Symbol} {p : Parameter} (h : IsParameter w p)
    (hw : Spells g ctx s (w ++ v) s') :
    (s.next .expression ctx).kind = .identifier := by
  cases h with
  | plain name => exact Spells.next hctx (x := .name name) hw
  | optional name value => exact Spells.next hctx (x := .name name) hw

/-- A parameter is read, if no default comes next that would be read with it. -/
theorem IsParameter.yields {w : List Symbol} {p : Parameter}
    (h : IsParameter w p) (hw : Spells g ctx s w s')
    (hnext : (s'.next .expression ctx).kind ≠ .assignment .assign) :
    Yields g.parameter ctx s p s' := by
  rw [yields_parameter_iff hctx]
  cases h with
  | plain name => exact ⟨name, s', hw, .inr ⟨hnext, rfl, rfl⟩⟩
  | optional name value =>
      rcases (spells_first hctx).1 hw with ⟨s1, hname, hvalue⟩
      exact ⟨name, s1, hname, .inl ⟨value, hvalue, rfl⟩⟩

/-- The end of a tier is there, but for one comma. -/
theorem yields_endOfTier_iff {fault : ParameterFault} {u : Unit} :
    Yields (endOfTier fault) ctx s u s' ↔ (∃ w, IsTail w ∧ Spells g ctx s w s') ∧
      (s'.next .expression ctx).kind.endsTier = true := by
  have hrest : ∀ {s1 : State}, Yields (do
      let next ← peek .expression
      if !next.kind.endsTier then throw (.malformedParameters fault next.span) : Parse Unit)
        ctx s1 u s' ↔ s' = s1 ∧ (s1.next .expression ctx).kind.endsTier = true := by
    intro s1
    rw [yields_peek]
    by_cases hends : (s1.next .expression ctx).kind.endsTier = true
    · rw [if_neg (by simp [hends]), yields_pure]
      simp [hends, eq_comm]
    · rw [if_pos (by simp [hends])]
      exact iff_of_false not_yields_throw fun h => hends h.2
  unfold endOfTier
  rw [yields_bind]
  simp only [hrest]
  constructor
  · rintro ⟨found, s1, hcomma, rfl, hends⟩
    rcases (yields_comma_iff (g := g) hctx).1 hcomma with ⟨-, h⟩ | ⟨-, rfl, -⟩
    · exact ⟨⟨_, .inr rfl, h⟩, hends⟩
    · exact ⟨⟨_, .inl rfl, .nil⟩, hends⟩
  · rintro ⟨⟨w, rfl | rfl, hw⟩, hends⟩
    · -- The end itself comes next, and it is no comma.
      rcases spells_nil.1 hw with rfl
      refine ⟨false, s', (yields_comma_iff (g := g) hctx).2 (.inr ⟨rfl, rfl, ?_⟩), rfl, hends⟩
      intro hkind
      rw [hkind] at hends
      cases hends
    · exact ⟨true, s', (yields_comma_iff (g := g) hctx).2 (.inl ⟨rfl, hw⟩), rfl, hends⟩

/-- Behind its dots, a rest parameter is a tier that takes nothing else, up to where the
    tier ends. -/
theorem yields_restParameter_iff {allowed : Bool} {p : Parameter}
    (hdots : (s.next .expression ctx).kind = .ellipsis) :
    Yields (restParameter allowed) ctx s p s' ↔
      (∃ w, IsTier allowed w ⟨[], some p⟩ ∧ Spells g ctx s w s') ∧
        (s'.next .expression ctx).kind.endsTier = true := by
  have hsign : ∀ {dots : Span}, Spells g ctx s [.dots dots] (behind ctx s) ↔
      dots = (s.next .expression ctx).span := by
    intro dots
    rw [spells_sign hctx (by simp)]
    unfold Symbol.ofToken?
    rw [hdots]
    simp [eq_comm]
  unfold restParameter
  rw [yields_advance_then]
  dsimp only
  rw [yields_unless]
  simp only [yields_bind, yields_bindingName_iff (g := g) hctx, yields_endOfTier_iff (g := g) hctx,
    yields_pure]
  constructor
  · rintro ⟨hallowed, name, s1, hname, u, s2, ⟨⟨w, htail, hw⟩, hends⟩, rfl, rfl⟩
    refine ⟨⟨_, .rest (by simpa using hallowed) htail, ?_⟩, hends⟩
    refine (spells_first hctx).2 ⟨_, hsign.2 rfl, ?_⟩
    exact (spells_first hctx).2 ⟨s1, hname, hw⟩
  · rintro ⟨⟨w, htier, hw⟩, hends⟩
    cases htier with
    | @rest dots name w hallowed htail =>
        rcases (spells_first hctx).1 hw with ⟨s1, hspells, hbehind⟩
        rcases (spells_first hctx).1 hbehind with ⟨s2, hname, hrest⟩
        rcases ((spells_sign hctx (by simp)).1 hspells).2 with rfl
        rcases hsign.1 hspells with rfl
        exact ⟨by simp [hallowed], name, s2, hname, (), s', ⟨⟨w, htail, hrest⟩, hends⟩, rfl, rfl⟩

/-! ## One tier -/

/-- What a round of a tier does: it finds the end, reads a rest parameter up to the end,
    or reads one parameter, behind which a comma says that the tier goes on. -/
theorem yields_parameterRound_iff {allowsRest : Bool} {ps : Array Parameter}
    {rest : Option Parameter}
    {round : Round (Array Parameter × Option Parameter)} :
    Yields (g.parameterRound allowsRest (ps, rest)) ctx s round s' ↔
      if (s.next .expression ctx).kind.endsTier then round = .stop (ps, rest) ∧ s' = s
      else if (s.next .expression ctx).kind = .ellipsis then
        ∃ p, Yields (restParameter allowsRest) ctx s p s' ∧ round = .stop (ps, some p)
      else ∃ p s1, Yields g.parameter ctx s p s1 ∧
        (Spells g ctx s1 [.comma] s' ∧ round = .again (ps.push p, rest) ∨
          s' = s1 ∧ (s1.next .expression ctx).kind ≠ .comma ∧ round = .stop (ps.push p, rest)) := by
  unfold parameterRound
  dsimp only
  rw [yields_peekKind]
  split
  · rw [yields_pure]
    simp [eq_comm]
  · split
    · rw [yields_bind]
      simp [yields_pure, eq_comm]
    · rw [yields_bind]
      refine exists_congr fun p => exists_congr fun s1 => and_congr_right fun _ => ?_
      rw [yields_bind]
      constructor
      · rintro ⟨found, s2, hcomma, hround⟩
        rcases (yields_comma_iff (g := g) hctx).1 hcomma with ⟨rfl, h⟩ | ⟨rfl, rfl, h⟩
        · rcases yields_pure.1 hround with ⟨rfl, rfl⟩
          exact .inl ⟨h, rfl⟩
        · rcases yields_pure.1 hround with ⟨rfl, rfl⟩
          exact .inr ⟨rfl, h, rfl⟩
      · rintro (⟨h, rfl⟩ | ⟨rfl, h, rfl⟩)
        · exact ⟨true, s', (yields_comma_iff hctx).2 (.inl ⟨rfl, h⟩), yields_pure.2 ⟨rfl, rfl⟩⟩
        · exact ⟨false, s', (yields_comma_iff (g := g) hctx).2 (.inr ⟨rfl, rfl, h⟩),
            yields_pure.2 ⟨rfl, rfl⟩⟩

/-- What a round has read: all of a tier if it stops, and if it goes on a parameter with its
    comma. -/
theorem spells_of_parameterRound {allowsRest : Bool} {ps : Array Parameter}
    {round : Round (Array Parameter × Option Parameter)}
    (h : Yields (g.parameterRound allowsRest (ps, none)) ctx s round s') :
    (∃ w more rest ps', IsTier allowsRest w ⟨more, rest⟩ ∧ Spells g ctx s w s' ∧
        ps'.toList = ps.toList ++ more ∧ round = .stop (ps', rest)) ∨
      ∃ w p s1, IsParameter w p ∧ Spells g ctx s w s1 ∧ Spells g ctx s1 [.comma] s' ∧
        round = .again (ps.push p, none) := by
  have hround := (yields_parameterRound_iff hctx).1 h
  split at hround
  · rcases hround with ⟨rfl, rfl⟩
    exact .inl ⟨[], [], none, ps, .empty, .nil, (List.append_nil _).symm, rfl⟩
  · split at hround
    · next hdots =>
        rcases hround with ⟨p, hp, rfl⟩
        rcases (yields_restParameter_iff hctx hdots).1 hp with ⟨⟨w, htier, hw⟩, -⟩
        exact .inl ⟨w, [], some p, ps, htier, hw, (List.append_nil _).symm, rfl⟩
    · rcases hround with ⟨p, s1, hp, hround⟩
      rcases spells_of_yields_parameter hctx hp with ⟨w, hparameter, hw⟩
      rcases hround with ⟨hcomma, rfl⟩ | ⟨rfl, -, rfl⟩
      · exact .inr ⟨w, p, s1, hparameter, hw, hcomma, rfl⟩
      · exact .inl ⟨w, [p], none, ps.push p, .last hparameter, hw, Array.toList_push, rfl⟩

/-- What the rounds of a tier have read is a tier, whatever comes next. -/
theorem spells_of_parameterRounds {allowsRest : Bool} {n : Nat} {ps ps' : Array Parameter}
    {rest : Option Parameter}
    (h : LoopRuns (g.parameterRound allowsRest) ctx n (ps, none) s (.ok (ps', rest), s')) :
    ∃ w more, IsTier allowsRest w ⟨more, rest⟩ ∧ Spells g ctx s w s' ∧
      ps'.toList = ps.toList ++ more := by
  generalize hstart : (ps, (none : Option Parameter)) = start at h
  generalize hend : (Except.ok (ps', rest), s') = r at h
  induction h generalizing ps with
  | fail => cases hend
  | stop hround =>
      cases hstart
      cases hend
      rcases spells_of_parameterRound hctx hround with
        ⟨w, more, rest, ps', htier, hw, hmore, hstop⟩ | ⟨w, p, s1, -, -, -, hagain⟩
      · cases hstop
        exact ⟨w, more, htier, hw, hmore⟩
      · cases hagain
  | again hround _ ih =>
      cases hstart
      cases hend
      rcases spells_of_parameterRound hctx hround with
        ⟨w, more, rest, ps', -, -, -, hstop⟩ | ⟨w, p, s1, hparameter, hw, hcomma, hagain⟩
      · cases hstop
      · -- The parameter with its comma stands in front of what the other rounds have read.
        cases hagain
        rcases ih rfl rfl with ⟨w', more, htier, hw', hmore⟩
        refine ⟨_, p :: more, .more hparameter htier, ?_, ?_⟩
        · refine (spells_append hctx).2 ⟨s1, hw, ?_⟩
          exact (spells_first hctx).2 ⟨_, hcomma, hw'⟩
        · rw [hmore, Array.toList_push, List.append_assoc, List.singleton_append]

/-- The round that reads a parameter, whatever stands behind it. -/
theorem IsParameter.yields_round {allowsRest : Bool} {ps : Array Parameter}
    {rest : Option Parameter} {round : Round (Array Parameter × Option Parameter)}
    {w : List Symbol} {p : Parameter} {s1 : State} (h : IsParameter w p)
    (hw : Spells g ctx s w s1)
    (hnext : (s1.next .expression ctx).kind ≠ .assignment .assign)
    (hround : Spells g ctx s1 [.comma] s' ∧ round = .again (ps.push p, rest) ∨
      s' = s1 ∧ (s1.next .expression ctx).kind ≠ .comma ∧ round = .stop (ps.push p, rest)) :
    Yields (g.parameterRound allowsRest (ps, rest)) ctx s round s' := by
  have hname : (s.next .expression ctx).kind = .identifier :=
    h.next hctx (v := []) (by rwa [List.append_nil])
  rw [yields_parameterRound_iff hctx, hname, if_neg (by decide), if_neg (by decide)]
  exact ⟨p, s1, h.yields hctx hw hnext, hround⟩

/-- The rounds of a tier read all of it, if what comes next ends it. -/
theorem IsTier.yields [g.Stepwise] {allowsRest : Bool} {w : List Symbol} {tier : Tier}
    (htier : IsTier allowsRest w tier) (ps : Array Parameter)
    (hw : Spells g ctx s w s') (hends : (s'.next .expression ctx).kind.endsTier = true) :
    Yields (loop (g.parameterRound allowsRest) (ps, none)) ctx s
      (ps ++ tier.parameters.toArray, tier.rest) s' := by
  have hprogresses : Progresses (g.parameterRound allowsRest) ctx :=
    (ParseLoop.parameters allowsRest).progresses
  -- Nothing that ends a tier would be read with its last parameter.
  have hne : (s'.next .expression ctx).kind ≠ .assignment .assign ∧
      (s'.next .expression ctx).kind ≠ .comma := by
    constructor
    all_goals
      intro hkind
      rw [hkind] at hends
      cases hends
  induction htier generalizing s ps with
  | empty =>
      rcases spells_nil.1 hw with rfl
      refine hprogresses.yields_stop ((yields_parameterRound_iff hctx).2 ?_)
      rw [if_pos hends]
      exact ⟨by simp, rfl⟩
  | last hparameter =>
      refine hprogresses.yields_stop (hparameter.yields_round hctx hw hne.1 (.inr ⟨rfl, hne.2, ?_⟩))
      simp
  | @more w w' p more rest hparameter _ ih =>
      rcases (spells_append hctx).1 hw with ⟨s1, hw1, hrest⟩
      rcases (spells_first hctx).1 hrest with ⟨s2, hcomma, hw2⟩
      have hkind : (s1.next .expression ctx).kind = .comma := Spells.next hctx hcomma
      have hagain : Yields (g.parameterRound allowsRest (ps, none)) ctx s
          (.again (ps.push p, none)) s2 :=
        hparameter.yields_round hctx hw1 (by simp [hkind]) (.inl ⟨hcomma, rfl⟩)
      -- Behind the comma the same loop goes on, with a parameter more.
      unfold Yields
      rw [hprogresses.outcome_again hagain]
      have hloop := ih (ps.push p) hw2
      rwa [show ps.push p ++ more.toArray = ps ++ (p :: more).toArray by simp] at hloop
  | @rest dots name w hallowed htail =>
      have hdots : (s.next .expression ctx).kind = .ellipsis := Spells.next hctx hw
      refine hprogresses.yields_stop ((yields_parameterRound_iff hctx).2 ?_)
      rw [hdots, if_neg (by decide), if_pos rfl]
      refine ⟨_, (yields_restParameter_iff hctx hdots).2 ⟨⟨_, .rest hallowed htail, hw⟩, hends⟩, ?_⟩
      simp

theorem spells_of_yields_parameterGroup [g.Stepwise] {allowsRest : Bool} {group : ParameterGroup}
    (h : Yields (g.parameterGroup allowsRest) ctx s group s') :
    ∃ w, IsTier allowsRest w group.tier ∧ Spells g ctx s w s' := by
  have hprogresses : Progresses (g.parameterRound allowsRest) ctx :=
    (ParseLoop.parameters allowsRest).progresses
  rcases yields_bind.1 (yields_peek.1 h) with ⟨⟨ps, rest⟩, s1, hloop, h⟩
  rcases yields_bind.1 h with ⟨n, s2, hposition, h⟩
  rcases yields_pure.1 h with ⟨rfl, rfl⟩
  cases hposition
  rcases hprogresses.ends (#[], none) s with ⟨n, -, hruns⟩
  rw [show outcome _ ctx s = _ from hloop] at hruns
  rcases spells_of_parameterRounds hctx hruns with ⟨w, more, htier, hw, hmore⟩
  refine ⟨w, ?_, hw⟩
  simp only [Tree.tier, Tree.toList_ofList, Tree.toOption_ofOption]
  rwa [hmore]

theorem IsTier.yields_parameterGroup [g.Stepwise] {allowsRest : Bool} {w : List Symbol}
    {tier : Tier} (htier : IsTier allowsRest w tier)
    (hw : Spells g ctx s w s') (hends : (s'.next .expression ctx).kind.endsTier = true) :
    ∃ group, Yields (g.parameterGroup allowsRest) ctx s group s' ∧ group.tier = tier := by
  refine ⟨_, yields_peek.2 (yields_bind.2 ⟨_, s', htier.yields hctx #[] hw hends,
    yields_bind.2 ⟨_, s', rfl, yields_pure.2 ⟨rfl, rfl⟩⟩⟩), ?_⟩
  simp [Tree.tier]

/-- What the reader of the block has read is one parameter or none. -/
theorem spells_of_yields_blockParameter {block : Option Parameter}
    (h : Yields g.blockParameter ctx s block s') : ∃ w, IsBlock w block ∧ Spells g ctx s w s' := by
  have h := yields_peek.1 h
  split at h
  · rcases yields_pure.1 h with ⟨rfl, rfl⟩
    exact ⟨[], .empty, .nil⟩
  · split at h
    · exact (not_yields_throw h).elim
    · rcases yields_bind.1 h with ⟨p, s1, hp, h⟩
      rcases yields_bind.1 h with ⟨u, s2, hend, h⟩
      rcases yields_pure.1 h with ⟨rfl, rfl⟩
      rcases spells_of_yields_parameter hctx hp with ⟨w, hparameter, hw⟩
      rcases (yields_endOfTier_iff hctx).1 hend with ⟨⟨w', htail, hw'⟩, -⟩
      exact ⟨_, .one hparameter htail, (spells_append hctx).2 ⟨s1, hw, hw'⟩⟩

theorem IsBlock.yields {w : List Symbol} {block : Option Parameter}
    (h : IsBlock w block) (hw : Spells g ctx s w s')
    (hclose : (s'.next .expression ctx).kind = .rightParen) :
    Yields g.blockParameter ctx s block s' := by
  refine yields_peek.2 ?_
  cases h with
  | empty =>
      rcases spells_nil.1 hw with rfl
      rw [if_pos hclose]
      exact yields_pure.2 ⟨rfl, rfl⟩
  | @one w w' p hparameter htail =>
      have hkind := hparameter.next hctx hw
      rw [if_neg (by simp [hkind]), if_neg (by simp [hkind])]
      rcases (spells_append hctx).1 hw with ⟨s1, hw1, hw2⟩
      refine yields_bind.2 ⟨p, s1, hparameter.yields hctx hw1 ?_, yields_bind.2 ⟨(), s', ?_,
        yields_pure.2 ⟨rfl, rfl⟩⟩⟩
      · -- A default is followed neither by a comma nor by the end.
        rcases htail with rfl | rfl
        · rcases spells_nil.1 hw2 with rfl
          simp [hclose]
        · simp [Spells.next hctx hw2, Symbol.kind]
      · exact (yields_endOfTier_iff hctx).2 ⟨⟨w', htail, hw2⟩, by rw [hclose]; rfl⟩

/-! ## One tier behind another -/

section

variable {α β : Type} {read : Token → Parse α} {f : α → β} {isTier : List Symbol → β → Prop}

theorem spells_of_yields_nextTier {o : Option α}
    (hread : ∀ token t a, Yields (read token) ctx t a s' →
      ∃ w, isTier w (f a) ∧ Spells g ctx t w s')
    (h : Yields (nextTier read) ctx s o s') :
    ∃ w, IsNext isTier w (o.map f) ∧ Spells g ctx s w s' := by
  rcases yields_nextTier_iff.1 h with ⟨hkind, a, ha, rfl⟩ | ⟨-, rfl, rfl⟩
  · rcases hread _ _ _ ha with ⟨w, htier, hw⟩
    have hsemicolon : Spells g ctx s [.semicolon] (behind ctx s) :=
      (spells_mark hctx rfl).2 ⟨hkind, rfl⟩
    exact ⟨_, .present htier, (spells_first hctx).2 ⟨_, hsemicolon, hw⟩⟩
  · exact ⟨[], .absent, .nil⟩

/-- A tier behind a semicolon is read if its reader reads it up to that place; and that
    there is none is seen if no semicolon comes next. -/
theorem IsNext.yields {w : List Symbol} {o : Option β}
    (h : IsNext isTier w o) (hw : Spells g ctx s w s')
    (hnone : o = none → (s'.next .expression ctx).kind ≠ .semicolon)
    (hread : ∀ token t v b, isTier v b → o = some b → Spells g ctx t v s' →
      ∃ a, Yields (read token) ctx t a s' ∧ f a = b) :
    ∃ o', Yields (nextTier read) ctx s o' s' ∧ o'.map f = o := by
  cases h with
  | absent =>
      rcases spells_nil.1 hw with rfl
      exact ⟨none, yields_nextTier_iff.2 (.inr ⟨hnone rfl, rfl, rfl⟩), rfl⟩
  | @present w b htier =>
      rcases (spells_first hctx).1 hw with ⟨s1, hsemicolon, hw⟩
      rcases (spells_mark hctx rfl).1 hsemicolon with ⟨hkind, rfl⟩
      rcases hread (s.next .expression ctx) (behind ctx s) w b htier rfl hw with ⟨a, ha, rfl⟩
      exact ⟨some a, yields_nextTier_iff.2 (.inl ⟨hkind, a, ha, rfl⟩), rfl⟩

/-- The tier in front ends where a tier begins, whether it is there or not. -/
theorem IsNext.endsTier {w : List Symbol} {o : Option β}
    (h : IsNext isTier w o) (hw : Spells g ctx s w s')
    (hends : (s'.next .expression ctx).kind.endsTier = true) :
    (s.next .expression ctx).kind.endsTier = true := by
  cases h with
  | absent =>
      rcases spells_nil.1 hw with rfl
      exact hends
  | present =>
      rw [Spells.next hctx hw]
      rfl

end

/-! ## Lists -/

theorem yields_closing_iff {opening : Span} :
    (∃ token, Yields (expectClosing .expression .rightParen opening) ctx s token s') ↔
      Spells g ctx s [.close] s' := by
  rw [spells_mark hctx rfl]
  simp only [yields_expectClosing, Symbol.kind, exists_and_left]
  refine and_congr_right fun _ => ?_
  constructor
  · rintro ⟨token, hadvance⟩
    exact (yields_advance_iff.1 hadvance).2
  · rintro rfl
    exact ⟨_, yields_advance_iff.2 ⟨rfl, rfl⟩⟩

/-- A list ends where no tier follows and the parenthesis is closed. -/
theorem yields_endOfList_iff {fault : ParameterFault}
    {opening : Span} {f : Nat → ParameterList} {list : ParameterList} :
    Yields (do
      noFurtherTier fault
      let _ ← expectClosing .expression .rightParen opening
      return f (← position) : Parse ParameterList) ctx s list s' ↔
    Spells g ctx s [.close] s' ∧ list = f s'.cursor.offset := by
  simp only [yields_bind, yields_noFurtherTier_iff]
  constructor
  · rintro ⟨u, s1, ⟨-, rfl⟩, token, s2, hclosing, n, s3, hposition, h⟩
    rcases yields_pure.1 h with ⟨rfl, rfl⟩
    cases hposition
    exact ⟨(yields_closing_iff hctx).1 ⟨token, hclosing⟩, rfl⟩
  · rintro ⟨hclose, rfl⟩
    rcases (yields_closing_iff hctx).2 hclose with ⟨token, hclosing⟩
    have hkind : (s.next .expression ctx).kind = .rightParen := Spells.next hctx hclose
    exact ⟨(), s, ⟨by simp [hkind], rfl⟩, token, s', hclosing, _, s', rfl, yields_pure.2 ⟨rfl, rfl⟩⟩

/-- What the tiers of a func are read from is the list of a func. -/
theorem accepts_of_yields_funcTiers [g.Stepwise] {opening : Span}
    {list : ParameterList} (h : Yields (g.funcTiers opening) ctx s list s') :
    ∃ w, Spells g ctx s w s' ∧ Accepts .func w list.tiers := by
  rcases yields_bind.1 h with ⟨positional, s1, hpositional, h⟩
  rcases yields_bind.1 h with ⟨named, s2, hnamed, h⟩
  rcases (yields_endOfList_iff (g := g) hctx).1 h with ⟨hclose, rfl⟩
  rcases spells_of_yields_parameterGroup hctx hpositional with ⟨w, htier, hw⟩
  -- The check for a positional parameter is made behind the semicolon, so it is carried along
  -- with the named tier.
  have hnext : ∃ w', IsNext (fun w' tier => positional.tier ≠ ⟨[], none⟩ ∧ IsTier false w' tier) w'
      (named.map Tree.tier) ∧ Spells g ctx s1 w' s2 := by
    refine spells_of_yields_nextTier hctx (fun separator t group hgroup => ?_) hnamed
    rcases yields_unless.1 hgroup with ⟨htakes, hgroup⟩
    rcases spells_of_yields_parameterGroup hctx hgroup with ⟨w', htier', hw'⟩
    exact ⟨w', ⟨fun hempty => htakes (Tree.takesNothing_iff.2 hempty), htier'⟩, hw'⟩
  rcases hnext with ⟨w', hnext, hw'⟩
  refine ⟨_, (spells_append hctx).2 ⟨s1, hw, (spells_append hctx).2 ⟨s2, hw', hclose⟩⟩, ?_⟩
  change Accepts .func _ (Tree.tiers
    (.parameterList positional (.ofOption none) (.ofOption named) (.ofOption none) _))
  rw [Tree.tiers_parameterList]
  exact .func htier hnext.and.1 hnext.and.2

/-- What the tiers of a proc are read from is the list of a proc. -/
theorem accepts_of_yields_procTiers [g.Stepwise] {opening : Span}
    {list : ParameterList} (h : Yields (g.procTiers opening) ctx s list s') :
    ∃ w, Spells g ctx s w s' ∧ Accepts .proc w list.tiers := by
  rcases yields_bind.1 h with ⟨positional, s1, hpositional, h⟩
  rcases yields_bind.1 h with ⟨typed, s2, htyped, h⟩
  rcases yields_bind.1 h with ⟨named, s3, hnamed, h⟩
  rcases yields_bind.1 h with ⟨block, s4, hblock, h⟩
  rcases (yields_endOfList_iff (g := g) hctx).1 h with ⟨hclose, rfl⟩
  rcases spells_of_yields_parameterGroup hctx hpositional with ⟨w, htier, hw⟩
  rcases spells_of_yields_nextTier hctx (fun _ _ _ => spells_of_yields_parameterGroup hctx) htyped
    with ⟨w1, htyped1, hw1⟩
  rcases spells_of_yields_nextTier hctx (fun _ _ _ => spells_of_yields_parameterGroup hctx) hnamed
    with ⟨w2, hnamed2, hw2⟩
  rcases spells_of_yields_nextTier hctx (fun _ _ _ => spells_of_yields_blockParameter hctx) hblock
    with ⟨w3, hblock3, hw3⟩
  refine ⟨_, (spells_append hctx).2 ⟨s1, hw, (spells_append hctx).2 ⟨s2, hw1,
    (spells_append hctx).2 ⟨s3, hw2, (spells_append hctx).2 ⟨s4, hw3, hclose⟩⟩⟩⟩, ?_⟩
  rw [Option.map_id'] at hblock3
  rw [Tree.tiers_parameterList]
  refine .proc htier htyped1 hnamed2 hblock3 ?_ ?_
  · simpa using isSome_of_yields_nextTier htyped hnamed
  · simpa using isSome_of_yields_nextTier hnamed hblock

/-- The list of a func is read, with its tiers. -/
theorem yields_funcTiers_of_accepts [g.Stepwise] (opening : Span)
    {w : List Symbol} {tiers : Tiers} (h : Accepts .func w tiers) (hw : Spells g ctx s w s') :
    ∃ list, Yields (g.funcTiers opening) ctx s list s' ∧ list.tiers = tiers := by
  cases h with
  | @func w w' positional named htier hnamed htakes =>
      rcases (spells_append hctx).1 hw with ⟨s1, hw, hbehind⟩
      rcases (spells_append hctx).1 hbehind with ⟨s2, hw', hclose⟩
      have hkind : (s2.next .expression ctx).kind = .rightParen := Spells.next hctx hclose
      have hends : (s2.next .expression ctx).kind.endsTier = true := by
        rw [hkind]
        rfl
      rcases htier.yields_parameterGroup hctx hw (hnamed.endsTier hctx hw' hends) with
        ⟨group, hgroup, rfl⟩
      have hread : ∃ o, Yields (nextTier fun separator => do
          if group.takesNothing then
            throw (.malformedParameters .namedWithoutPositional separator.span)
          g.parameterGroup false) ctx s1 o s2 ∧ o.map Tree.tier = named := by
        refine hnamed.yields hctx hw' (fun _ => by simp [hkind]) fun token t v b htier' hb hv => ?_
        rcases htier'.yields_parameterGroup hctx hv hends with ⟨group', hgroup', hb'⟩
        have htakes' : ¬ group.takesNothing = true := fun hnothing =>
          htakes (by rw [hb]; rfl) (Tree.takesNothing_iff.1 hnothing)
        exact ⟨group', yields_unless.2 ⟨htakes', hgroup'⟩, hb'⟩
      rcases hread with ⟨o, ho, rfl⟩
      refine ⟨_, yields_bind.2 ⟨group, s1, hgroup, yields_bind.2 ⟨o, s2, ho,
        (yields_endOfList_iff hctx).2 ⟨hclose, rfl⟩⟩⟩, ?_⟩
      change Tree.tiers
        (.parameterList group (.ofOption none) (.ofOption o) (.ofOption none) _) = _
      rw [Tree.tiers_parameterList]
      rfl

/-- The list of a proc is read, with its tiers. -/
theorem yields_procTiers_of_accepts [g.Stepwise] (opening : Span)
    {w : List Symbol} {tiers : Tiers} (h : Accepts .proc w tiers) (hw : Spells g ctx s w s') :
    ∃ list, Yields (g.procTiers opening) ctx s list s' ∧ list.tiers = tiers := by
  cases h with
  | @proc w w1 w2 w3 positional typed named block htier htyped hnamed hblock hbehind hlast =>
      rcases (spells_append hctx).1 hw with ⟨s1, hw, hw'⟩
      rcases (spells_append hctx).1 hw' with ⟨s2, hw1, hw'⟩
      rcases (spells_append hctx).1 hw' with ⟨s3, hw2, hw'⟩
      rcases (spells_append hctx).1 hw' with ⟨s4, hw3, hclose⟩
      have hkind : (s4.next .expression ctx).kind = .rightParen := Spells.next hctx hclose
      have hends4 : (s4.next .expression ctx).kind.endsTier = true := by
        rw [hkind]
        rfl
      have hends3 := hblock.endsTier hctx hw3 hends4
      have hends2 := hnamed.endsTier hctx hw2 hends3
      -- Behind a tier that is not there the others are not there, and the list is closed.
      have hlast3 : named = none → (s3.next .expression ctx).kind ≠ .semicolon := by
        rintro rfl
        cases hblock with
        | absent =>
            rcases spells_nil.1 hw3 with rfl
            simp [hkind]
        | present => cases hlast rfl
      have hlast2 : typed = none → (s2.next .expression ctx).kind ≠ .semicolon := by
        rintro rfl
        cases hnamed with
        | absent =>
            rcases spells_nil.1 hw2 with rfl
            exact hlast3 rfl
        | present => cases hbehind rfl
      rcases htier.yields_parameterGroup hctx hw (htyped.endsTier hctx hw1 hends2) with
        ⟨group, hgroup, rfl⟩
      rcases htyped.yields hctx hw1 hlast2 fun _ t v tier htier' _ hv =>
        htier'.yields_parameterGroup hctx hv hends2 with ⟨o1, ho1, rfl⟩
      rcases hnamed.yields hctx hw2 hlast3 fun _ t v tier htier' _ hv =>
        htier'.yields_parameterGroup hctx hv hends3 with ⟨o2, ho2, rfl⟩
      rcases hblock.yields (f := id) hctx hw3 (fun _ => by simp [hkind]) fun _ t v p hp _ hv =>
        ⟨p, hp.yields hctx hv hkind, rfl⟩ with ⟨o3, ho3, rfl⟩
      refine ⟨_, yields_bind.2 ⟨group, s1, hgroup, yields_bind.2 ⟨o1, s2, ho1, yields_bind.2
        ⟨o2, s3, ho2, yields_bind.2 ⟨o3, s4, ho3,
          (yields_endOfList_iff hctx).2 ⟨hclose, rfl⟩⟩⟩⟩⟩, ?_⟩
      rw [Tree.tiers_parameterList, Option.map_id]
      rfl

omit hctx in
/-- A reader in brackets that reads what a kind of list is, and nothing else. -/
theorem exists_yields_bracketed_iff {kind : Definition} {x : Parse ParameterList} {tiers : Tiers}
    (hsound : ∀ {ctx s s' list}, ctx.inBrackets = true → Yields x ctx s list s' →
      ∃ w, Spells g ctx s w s' ∧ Accepts kind w list.tiers)
    (hcomplete : ∀ {ctx s s' w}, ctx.inBrackets = true → Accepts kind w tiers →
      Spells g ctx s w s' → ∃ list, Yields x ctx s list s' ∧ list.tiers = tiers) :
    (∃ list, Yields (bracketed x) ctx s list s' ∧ list.tiers = tiers) ↔
    ctx.depth < ctx.limits.depth ∧ tiers.Fits kind ∧ ∃ w,
      Spells g { ctx with depth := ctx.depth + 1, inBrackets := true } s w s' ∧
      Accepts kind w tiers := by
  simp only [yields_bracketed_iff]
  constructor
  · rintro ⟨list, ⟨hdepth, h⟩, rfl⟩
    rcases hsound rfl h with ⟨w, hw, haccepts⟩
    exact ⟨hdepth, haccepts.fits, w, hw, haccepts⟩
  · rintro ⟨hdepth, -, w, hw, haccepts⟩
    rcases hcomplete rfl haccepts hw with ⟨list, h, htiers⟩
    exact ⟨list, ⟨hdepth, h⟩, htiers⟩

end

end Tiers

/-- A parameter list is read if and only if the symbols behind its parenthesis are those of
    a list of its kind, newlines apart, and there is a level of nesting left. The tiers that
    are read are those of the grammar, in order, and fit the kind of definition. -/
theorem parameterList_iff (n : Nat) (kind : Definition) (opening : Span) (ctx : Context)
    (s s' : State) (tiers : Tiers) :
    (∃ list, Yields ((Grammar.turns n).parameterList kind opening) ctx s list s' ∧
      list.tiers = tiers) ↔
    ctx.depth < ctx.limits.depth ∧ tiers.Fits kind ∧ ∃ symbols,
      Tiers.Spells (Grammar.turns n) { ctx with depth := ctx.depth + 1, inBrackets := true } s
        symbols s' ∧ Tiers.Accepts kind symbols tiers := by
  cases kind with
  | func =>
      exact Tiers.exists_yields_bracketed_iff (fun hctx => Tiers.accepts_of_yields_funcTiers hctx)
        fun hctx => Tiers.yields_funcTiers_of_accepts hctx opening
  | proc =>
      exact Tiers.exists_yields_bracketed_iff (fun hctx => Tiers.accepts_of_yields_procTiers hctx)
        fun hctx => Tiers.yields_procTiers_of_accepts hctx opening

-- Named parameters may stand behind a rest parameter, and on a line of their own; but not
-- where nothing is taken in front of them.
example :
    (outcome ((Grammar.turns 3).parameterList .func (.emptyAt 0)) { limits := {} }
      (.ofSource "a, ...b;\n c = 1,)")).1.isOk = true ∧
    (outcome ((Grammar.turns 3).parameterList .func (.emptyAt 0)) { limits := {} }
      (.ofSource "; c)")).1.isOk = false := by decide +kernel

end Ysh
