import Ysh.Proofs.Reread.Source
import Ysh.Proofs.Spacing.Compound

/-!
# Reading Printed Parameters

Tiers of parameters are told apart by place. A tier that is there has its semicolon even
if it has no parameter, and behind a tier that is not there no other one is. So a printed
list has a semicolon for every tier behind the first one, and the tiers are read again
from their places. The one thing that is lost is a semicolon in front of a block parameter
that is left out, and that one means nothing.

A func is printed with its positional and its named parameters. It has no others.

## Main definitions

* `EndsTier`: What stands behind a tier.
* `RereadsGroup`, `RereadsParameters`: A tier and a list of them are read again.

## Theorems

* `rereads_parameterGroup`: A tier, with its rest parameter.
* `rereads_funcTiers`, `rereads_procTiers`: The tiers of a definition.
* `Grammar.keeps_parameterList`: The parameters of a source are read again.
-/

namespace Ysh

open Grammar

variable {d : Option Definition} {n : Nat} {ctx : Context} {s : State}

/-! ## Parameters -/

theorem attains_comma {rest : List Char} (hs : s.Shows [] (',' :: rest)) :
    Attains comma ctx s fun b t => b = true ∧ t.cursor.rest = rest := by
  have hcomma : Stands .expression ctx s [','] .comma rest :=
    State.Shows.stands (x := [',']) hs (lexed_comma rest) (.inl (by decide))
  refine attains_look hcomma.peekKind ?_
  exact attains_seq hcomma.advance fun token t ht => attains_pure ⟨rfl, ht.2.1⟩

theorem attains_noComma {x rest : List Char} {kind : Token.Kind}
    (h : Stands .expression ctx s x kind rest) (hkind : kind ≠ .comma) :
    Attains comma ctx s fun b t => b = false ∧ t = s := by
  refine attains_look h.peekKind ?_
  rw [if_neg hkind]
  exact attains_pure ⟨rfl, rfl⟩

theorem EndsExpression.endsAtom {rest : List Char} (h : EndsExpression ctx rest) :
    EndsAtom rest := by
  have hobject : EndsObject ctx rest := .inl (.inl h)
  exact hobject.atom

/-- A parameter is read again. -/
theorem rereads_parameter {name : Identifier} (default : Option Expression) {span : Span}
    (hname : IsReference name.name.toList) (hdefault : ∀ e ∈ default, RereadsExpression d e) :
    RereadsItem d (·.parameter) (· == .identifier) (.parameter name (.ofOption default) span) := by
  intro n ctx s indent rest hroom hrest hs
  cases default with
  | none =>
      have hchars : (Tree.parameter name (.ofOption none) span).chars indent ""
          = name.name.toList := by
        change (name.name ++ "").toList = _
        simp
      rw [hchars] at hs
      refine ⟨by rw [(hs.reference hname hrest.endsAtom).next.1]; rfl, ?_⟩
      refine attains_seq (attains_bindingName hs hname hrest.endsAtom) fun a t ha => ?_
      rcases hrest.stands ha.2 with ⟨x, kind, r, hstands, hcloses⟩
      refine attains_look hstands.peekKind ?_
      rw [if_neg (by rintro rfl; cases hcloses)]
      refine attains_pure ⟨?_, ha.2⟩
      rw [Tree.erase, Tree.erase, Identifier.erase_eq (ha.1.trans Identifier.toList_name)]
      rfl
  | some value =>
      have hchars : (Tree.parameter name (.ofOption (some value)) span).chars indent ""
          = name.name.toList ++ (' ' :: '=' :: ' ' :: value.chars indent "") := by
        change (name.name ++ (" = " ++ value.write indent "")).toList = _
        simp [Tree.chars]
      rw [hchars] at hs
      have hs := hs.assoc
      refine ⟨by rw [(hs.reference hname (endsAtom_blank _)).next.1]; rfl, ?_⟩
      refine attains_onward (attains_bindingName hs hname (endsAtom_blank _)) fun a t ha hle => ?_
      have hequals : Stands .expression ctx t ['='] (.assignment .assign)
          (' ' :: (value.chars indent "" ++ rest)) :=
        State.Shows.stands ⟨1, ha.2⟩ ⟨rfl, rfl⟩ (.inl (by decide))
      refine attains_look hequals.peekKind ?_
      rw [if_pos rfl]
      refine attains_onward (attains_lift hequals.advance) fun token u hu hle' => ?_
      refine attains_seq ((hdefault value rfl).expression ((hroom.shorter hle).shorter hle') hrest
        (.of_blank hu.2.1)).2 fun b v hb => attains_pure ⟨?_, hb.2⟩
      rw [Tree.erase, Tree.erase, Identifier.erase_eq (ha.1.trans Identifier.toList_name),
        Tree.ofOption,
        Tree.erase, Tree.erase, hb.1]

/-! ## Tiers -/

/-- What stands behind a tier. -/
def EndsTier (rest : List Char) : Prop :=
  ∃ c ∈ [')', ';'], ∃ r, rest = c :: r

theorem EndsTier.endsExpression {rest : List Char} (h : EndsTier rest) :
    EndsExpression ctx rest := by
  rcases h with ⟨c, hc, r, rfl⟩
  refine .inr (.inl ⟨c, ?_, r, rfl⟩)
  simp only [List.mem_cons, List.not_mem_nil, or_false] at hc
  rcases hc with rfl | rfl <;> decide

/-- A tier ends where one ends. -/
theorem EndsTier.stands {rest : List Char} (h : EndsTier rest) (ctx : Context) {t : State}
    (ht : t.Shows [] rest) :
    ∃ x kind r, Stands .expression ctx t x kind r ∧ kind.endsTier = true ∧ kind ≠ .comma := by
  rcases h with ⟨c, hc, r, rfl⟩
  simp only [List.mem_cons, List.not_mem_nil, or_false] at hc
  rcases hc with rfl | rfl
  · exact ⟨[')'], .rightParen, r, State.Shows.stands ht ⟨rfl, rfl⟩ (.inl (by decide)),
      rfl, by decide⟩
  · exact ⟨[';'], .semicolon, r, State.Shows.stands ht ⟨rfl, rfl⟩ (.inl (by decide)),
      rfl, by decide⟩

theorem attains_endOfTier {fault : ParameterFault} {rest : List Char} (hrest : EndsTier rest)
    (hs : s.Shows [] rest) : Attains (endOfTier fault) ctx s fun _ t => t = s := by
  rcases hrest.stands ctx hs with ⟨x, kind, r, hstands, hends, hcomma⟩
  refine attains_seq (attains_lift (attains_noComma hstands hcomma)) ?_
  rintro _ t ⟨-, rfl⟩
  refine attains_look (a := t.next .expression ctx) rfl ?_
  rw [hstands.next.1, hends]
  exact attains_pure rfl

/-- A rest parameter has a name and no default. -/
def IsRestParameter (p : Parameter) : Prop :=
  ∃ name span, p = .parameter name .none span ∧ IsReference name.name.toList

theorem attains_restParameter (ctx : Context) {p : Parameter} (hp : IsRestParameter p)
    {indent : Nat}
    {rest : List Char} (hrest : EndsTier rest)
    (hs : s.Shows ('.' :: '.' :: '.' :: p.chars indent "") rest) :
    (s.next .expression ctx).kind = .ellipsis ∧ Attains (restParameter true) ctx s fun a t =>
      a.erase = p.erase ∧ t.cursor.rest = rest := by
  rcases hp with ⟨name, span, rfl, hname⟩
  have hchars : (Tree.parameter name .none span).chars indent "" = name.name.toList := by
    change (name.name ++ "").toList = _
    simp
  rw [hchars] at hs
  have hdots : Stands .expression ctx s ['.', '.', '.'] .ellipsis (name.name.toList ++ rest) := by
    refine State.Shows.stands (State.Shows.assoc (x := ['.', '.', '.']) hs) ⟨rfl, ?_⟩
      (.inl (by decide))
    rfl
  refine ⟨hdots.next.1, attains_seq hdots.advance fun dots t ht => ?_⟩
  have hends : EndsExpression ctx rest := hrest.endsExpression
  refine attains_seq (attains_bindingName (.of_eq ht.2.1) hname hends.endsAtom) fun a u ha => ?_
  refine attains_seq (attains_endOfTier hrest (.of_eq ha.2)) ?_
  rintro _ v rfl
  refine attains_pure ⟨?_, ha.2⟩
  change Tree.parameter a.erase .none default = Tree.parameter name.erase .none default
  rw [Identifier.erase_eq (ha.1.trans Identifier.toList_name)]

/-- A tier of parameters is read again. -/
def RereadsGroup (d : Option Definition) (allowsRest : Bool) (group : ParameterGroup) : Prop :=
  ∀ n ctx s indent rest, RoomBelow d n ctx s → EndsTier rest →
    s.Shows (group.chars indent "") rest →
    Attains ((turns n).parameterGroup allowsRest) ctx s fun a t =>
      a.erase = group.erase ∧ t.Shows [] rest

/-- The printed parameters of a tier, the rest parameter behind its dots. -/
def parameterTexts (parameters : List Parameter) (rest : Option Parameter) (indent : Nat) :
    List (List Char) :=
  parameters.map (·.chars indent "")
    ++ rest.toList.map fun p => '.' :: '.' :: '.' :: p.chars indent ""

theorem Tree.chars_parameterGroup (parameters : List Parameter) (rest : Option Parameter)
    (span : Span) (indent : Nat) :
    (parameterGroup (ofList parameters) (ofOption rest) span).chars indent ""
      = List.intercalate [',', ' '] (parameterTexts parameters rest indent) := by
  have hlist : ((ofList parameters).write indent ", ").toList
      = List.intercalate [',', ' '] (parameters.map (·.chars indent "")) :=
    chars_ofList (by simp) (by simp) parameters indent ", "
  cases rest with
  | none =>
      change ((ofList parameters).write indent ", " ++ "").toList = _
      simp [hlist, parameterTexts]
  | some p =>
      have hp : (ofOption (Option.some p)).write indent "" = p.write indent "" := rfl
      cases parameters with
      | nil =>
          change ("" ++ ("" ++ "..." ++ p.write indent "")).toList = _
          simp [parameterTexts, Tree.chars]
      | cons q qs =>
          change ((ofList (q :: qs)).write indent ", "
            ++ (", " ++ "..." ++ p.write indent "")).toList = _
          rw [String.toList_append, hlist]
          simp [parameterTexts, intercalate_cons, Tree.chars]

/-- The first of several texts stands in front of a comma or of what ends them all. -/
theorem State.Shows.first {x close : List Char} {xs : List (List Char)}
    (hs : s.Shows (List.intercalate [',', ' '] (x :: xs)) close) :
    (xs = [] ∧ s.Shows x close) ∨
      ∃ y ys, xs = y :: ys ∧
        s.Shows x (',' :: ' ' :: (List.intercalate [',', ' '] (y :: ys) ++ close)) := by
  cases xs with
  | nil =>
      rw [List.intercalate_singleton] at hs
      exact .inl ⟨rfl, hs⟩
  | cons y ys =>
      rw [List.intercalate_cons_cons, List.append_assoc] at hs
      exact .inr ⟨y, ys, rfl, hs.assoc⟩

/-- A round of a tier reads a parameter, and goes on if there is a comma behind it. -/
theorem attains_parameterRound {allowsRest : Bool} {ps : Array Parameter} {p : Parameter}
    {indent : Nat}
    {rest : List Char} {Q : Round (Array Parameter × Option Parameter) → State → Prop}
    (hp : RereadsItem d (·.parameter) (· == .identifier) p) (hroom : RoomBelow d n ctx s)
    (hrest : EndsExpression ctx rest) (hs : s.Shows (p.chars indent "") rest)
    (h : ∀ a t, a.erase = p.erase → t.cursor.rest = rest → Attains (do
      if ← comma then return .again (ps.push a, none)
      else return .stop (ps.push a, none) :
        Parse (Round (Array Parameter × Option Parameter))) ctx t Q) :
    Attains ((turns n).parameterRound allowsRest (ps, none)) ctx s Q := by
  have hitem := hp n ctx s indent rest hroom hrest hs
  refine attains_look (a := (s.next .expression ctx).kind) rfl ?_
  rw [eq_of_beq hitem.1, if_neg (by decide), if_neg (by decide)]
  exact attains_seq hitem.2 fun a t ha => h a t ha.1 ha.2

/-- Parameters and perhaps a rest parameter behind them are read again. -/
theorem rereads_parameterGroup {allowsRest : Bool} {parameters : List Parameter}
    {last : Option Parameter} {span : Span}
    (hparameters : ∀ p ∈ parameters, RereadsItem d (·.parameter) (· == .identifier) p)
    (hlast : ∀ p ∈ last, allowsRest = true ∧ IsRestParameter p) :
    RereadsGroup d allowsRest (.parameterGroup (.ofList parameters) (.ofOption last) span) := by
  intro n ctx s indent rest hroom hrest hs
  rw [Tree.chars_parameterGroup] at hs
  refine attains_look (a := s.next .expression ctx) rfl ?_
  -- A round takes a parameter with its comma, and the last round what has none behind it.
  refine attains_seq (attains_loop_items Tree.erase
    (fun p : Array Parameter × Option Parameter => p.1.toList)
    (fun p todo t => p.2 = none ∧
      t.Shows (List.intercalate [',', ' '] (parameterTexts todo last indent)) rest)
    (R := fun p t => p.2.map Tree.erase = last.map Tree.erase ∧ t.Shows [] rest)
    rfl ⟨rfl, hs⟩ ?_) ?_
  · rintro ⟨ps, _⟩ todo t hsuffix ⟨rfl, ht⟩ hle
    cases todo with
    | nil =>
        rw [List.append_nil]
        cases last with
        | none =>
            rcases hrest.stands ctx ht with ⟨x, kind, r, hstands, hends, -⟩
            refine attains_look hstands.peekKind ?_
            rw [if_pos hends]
            exact attains_pure ⟨rfl, rfl, ht⟩
        | some p =>
            rw [parameterTexts, List.map_nil, List.nil_append, Option.toList_some,
              List.map_singleton, List.intercalate_singleton] at ht
            rcases hlast p rfl with ⟨rfl, hp⟩
            rcases attains_restParameter ctx hp hrest ht with ⟨hkind, hread⟩
            refine attains_look (a := (t.next .expression ctx).kind) rfl ?_
            rw [hkind, if_neg (by decide), if_pos rfl]
            exact attains_seq hread fun a u ha =>
              attains_pure ⟨rfl, congrArg some ha.1, .of_eq ha.2⟩
    | cons p todo =>
        have hp := hparameters p (hsuffix.subset List.mem_cons_self)
        rcases ht.first with ⟨hnil, ht⟩ | ⟨y, ys, hmore, ht⟩
        · rcases List.append_eq_nil_iff.1 hnil with ⟨htodo, hnone⟩
          refine attains_parameterRound hp (hroom.shorter hle) hrest.endsExpression ht
            fun a u ha hu => ?_
          rcases hrest.stands ctx (.of_eq hu) with ⟨x, kind, r, hstands, -, hcomma⟩
          refine attains_seq (attains_lift (attains_noComma hstands hcomma)) ?_
          rintro _ v ⟨rfl, rfl⟩
          refine attains_pure ⟨?_, ?_, .of_eq hu⟩
          · rw [List.map_eq_nil_iff.1 htodo, Array.toList_push, List.map_append, List.map_append,
              List.map_singleton, List.map_singleton, ha]
          · cases last with
            | none => rfl
            | some q => cases hnone
        · refine attains_parameterRound hp (hroom.shorter hle)
            (.inr (.inl ⟨',', by decide, _, rfl⟩)) ht fun a u ha hu => ?_
          refine attains_seq (attains_lift (attains_comma (.of_eq hu))) ?_
          rintro _ v ⟨rfl, hv⟩
          have hlength := ht.length_le
          refine attains_pure ⟨⟨p, a, todo, rfl, Array.toList_push, ha, rfl, .of_blank ?_⟩, ?_⟩
          · rw [hv, ← hmore]
            rfl
          · rw [hv]
            simp only [List.length_cons, List.length_append] at hlength ⊢
            omega
  · rintro ⟨ps, r⟩ t ⟨hps, hr, ht⟩
    refine attains_look (a := t.cursor.offset) rfl (attains_pure ⟨?_, ht⟩)
    simp only [Tree.erase, Tree.erase_ofList, Tree.erase_ofOption, hps, hr]

/-! ## Lists of tiers -/

/-- The printed form of a tier behind the first one, if it is there. -/
def tierChars (text : Option (List Char)) : List Char :=
  text.elim [] (';' :: ' ' :: ·)

theorem endsTier_tierChars {close : List Char} (hclose : EndsTier close)
    (text : Option (List Char)) :
    EndsTier (tierChars text ++ close) := by
  cases text with
  | none => exact hclose
  | some x => exact ⟨';', by decide, _, rfl⟩

theorem endsTier_rightParen (rest : List Char) : EndsTier (')' :: rest) :=
  ⟨')', by decide, rest, rfl⟩

theorem State.Shows.rightParen {rest : List Char} (hs : s.Shows [] (')' :: rest)) :
    Stands .expression ctx s [')'] .rightParen rest :=
  State.Shows.stands (x := [')']) hs ⟨rfl, rfl⟩ (.inl (by decide))

/-- A tier is read again behind its semicolon. One that is not there is the last one. -/
theorem attains_nextTier {α : Type} {tier : Token → Parse α} {text : Option (List Char)}
    {close : List Char} {Q : Option α → State → Prop} (hs : s.Shows [] (tierChars text ++ close))
    (hnone : text = none → (∃ r, close = ')' :: r) ∧ Q none s)
    (hsome : ∀ x, text = some x → ∀ token t, t.Shows x close →
      t.cursor.rest.length ≤ s.cursor.rest.length →
        Attains (tier token) ctx t fun a u => Q (some a) u) :
    Attains (nextTier tier) ctx s Q := by
  cases text with
  | none =>
      rcases hnone rfl with ⟨⟨r, rfl⟩, hQ⟩
      refine attains_look (State.Shows.rightParen hs).peekKind ?_
      rw [if_neg (by decide)]
      exact attains_pure hQ
  | some x =>
      have hsemicolon : Stands .expression ctx s [';'] .semicolon (' ' :: (x ++ close)) :=
        State.Shows.stands (x := [';']) hs ⟨rfl, rfl⟩ (.inl (by decide))
      refine attains_look hsemicolon.peekKind ?_
      rw [if_pos rfl]
      refine attains_onward (attains_lift hsemicolon.advance) fun token t ht hle => ?_
      exact attains_seq (hsome x rfl token t (.of_blank ht.2.1) hle) fun a u ha => attains_pure ha

theorem attains_noFurtherTier {fault : ParameterFault} {rest : List Char}
    (hs : s.Shows [] (')' :: rest)) : Attains (noFurtherTier fault) ctx s fun _ t => t = s := by
  have hs : s.Shows [] (tierChars none ++ ')' :: rest) := hs
  exact attains_seq (P := fun _ t => t = s)
    (attains_nextTier hs (fun _ => ⟨⟨rest, rfl⟩, rfl⟩) nofun)
    fun _ _ ht => attains_pure ht

/-- A tier of parameters is read again behind its semicolon. -/
theorem attains_groupTier {allowsRest : Bool} {tier : Token → Parse ParameterGroup}
    {group : Option ParameterGroup} {indent : Nat} {close : List Char}
    (hgroup : ∀ a ∈ group, RereadsGroup d allowsRest a)
    (htier : ∀ a ∈ group, ∀ token t Q, Attains ((turns n).parameterGroup allowsRest) ctx t Q →
      Attains (tier token) ctx t Q)
    (hlast : group = none → ∃ r, close = ')' :: r) (hroom : RoomBelow d n ctx s)
    (hclose : EndsTier close)
    (hs : s.Shows [] (tierChars (group.map (·.chars indent "")) ++ close)) :
    Attains (nextTier tier) ctx s fun r t => r.map Tree.erase = group.map Tree.erase ∧
      t.Shows [] close := by
  refine attains_nextTier hs (fun hnone => ?_) fun x hx token t ht hle => ?_
  · rw [Option.map_eq_none_iff] at hnone
    subst hnone
    exact ⟨hlast rfl, rfl, hs⟩
  · rcases Option.map_eq_some_iff.1 hx with ⟨a, rfl, rfl⟩
    refine htier a rfl token t _ ((hgroup a rfl n ctx t indent close (hroom.shorter hle) hclose
      ht).mono fun b u hb => ⟨congrArg some hb.1, hb.2⟩)

/-- The printed parameters of a definition. -/
def Definition.parameterChars : Definition → ParameterList → Nat → List Char
  | .func, l, indent => (l.writeFuncTiers indent).toList
  | .proc, l, indent => l.chars indent ""

/-- Parameters are read again behind their opening parenthesis, in a definition of the
    kind. -/
def RereadsParameters (d : Option Definition) (kind : Definition) (l : ParameterList) : Prop :=
  ∃ text : Nat → List Char,
    (∀ indent, kind.parameterChars l indent = '(' :: (text indent ++ [')'])) ∧
    ∀ n ctx s indent rest opening, (∀ b, ctx.depth < ctx.limits.depth ∧
      RoomBelow d n { ctx with depth := ctx.depth + 1, inBrackets := b } s) →
        s.cursor.rest = text indent ++ ')' :: rest →
          Attains ((turns n).parameterList kind opening) ctx s fun a t =>
            a.erase = l.erase ∧ t.cursor.rest = rest

/-- The tiers of a func are read again. -/
theorem rereads_funcTiers {positional : ParameterGroup} {named : Option ParameterGroup}
    {span : Span}
    (hpositional : RereadsGroup d true positional)
    (hnamed : ∀ a ∈ named, positional.takesNothing = false ∧ RereadsGroup d false a) :
    RereadsParameters d .func (.parameterList positional .none (.ofOption named) .none span) := by
  refine ⟨fun indent => positional.chars indent "" ++ tierChars (named.map (·.chars indent "")),
    fun indent => ?_, fun n ctx s indent rest opening hroom hs => ?_⟩
  · change ("(" ++ positional.write indent "" ++ Tree.preceded "; " (Tree.ofOption named).isEmpty
      ((Tree.ofOption named).write indent "") ++ ")").toList = _
    cases named <;>
      simp [Tree.ofOption, Tree.isEmpty, Tree.preceded, Tree.write, tierChars, Tree.chars]
  · have hparen := endsTier_rightParen rest
    refine attains_bracketed (hroom true).1 ?_
    have hroom := (hroom true).2
    generalize { ctx with depth := ctx.depth + 1, inBrackets := true } = inner at hroom
    rw [List.append_assoc] at hs
    refine attains_onward
      (hpositional n inner s indent _ hroom (endsTier_tierChars hparen _) (.of_eq hs))
      fun a t ha hle => ?_
    refine attains_onward
      (attains_groupTier (fun b hb => (hnamed b hb).2) (fun b hb token t Q h => ?_)
      (fun _ => ⟨rest, rfl⟩) (hroom.shorter hle) hparen ha.2) fun b u hb hle' => ?_
    · rw [takesNothing_erase ha.1, (hnamed b hb).1]
      exact h
    refine attains_seq (attains_noFurtherTier hb.2) ?_
    rintro _ _ rfl
    refine attains_seq (hb.2.rightParen.expectClosing _) fun token v hv => ?_
    refine attains_look (a := v.cursor.offset) rfl (attains_pure ⟨?_, hv.2⟩)
    simp only [Tree.erase, Tree.erase_ofOption, ha.1, hb.1]

/-- The tiers of a proc are read again. -/
theorem rereads_procTiers {positional : ParameterGroup} {typed named : Option ParameterGroup}
    {block : Option Parameter} {span : Span} (hpositional : RereadsGroup d true positional)
    (htyped : ∀ a ∈ typed, RereadsGroup d true a) (hnamed : ∀ a ∈ named, RereadsGroup d false a)
    (hblock : ∀ p ∈ block, RereadsItem d (·.parameter) (· == .identifier) p)
    (hfirst : named.isSome = true → typed.isSome = true)
    (hsecond : block.isSome = true → named.isSome = true) :
    RereadsParameters d .proc (.parameterList positional (.ofOption typed) (.ofOption named)
      (.ofOption block) span) := by
  refine ⟨fun indent => positional.chars indent "" ++ (tierChars (typed.map (·.chars indent ""))
      ++ (tierChars (named.map (·.chars indent "")) ++ tierChars (block.map (·.chars indent "")))),
    fun indent => ?_, fun n ctx s indent rest opening hroom hs => ?_⟩
  · change (Tree.write indent "" (.parameterList positional (.ofOption typed) (.ofOption named)
      (.ofOption block) span)).toList = _
    rcases typed with _ | a <;> rcases named with _ | b <;> rcases block with _ | p
    all_goals first
      | cases hfirst rfl; done
      | cases hsecond rfl; done
      | simp [Tree.ofOption, Tree.isEmpty, Tree.preceded, Tree.write, tierChars, Tree.chars]
  · have hparen := endsTier_rightParen rest
    refine attains_bracketed (hroom true).1 ?_
    have hroom := (hroom true).2
    generalize { ctx with depth := ctx.depth + 1, inBrackets := true } = inner at hroom
    rw [List.append_assoc, List.append_assoc, List.append_assoc] at hs
    refine attains_onward (hpositional n inner s indent _ hroom (endsTier_tierChars
      (endsTier_tierChars (endsTier_tierChars hparen _) _) _) (.of_eq hs)) fun a t ha hle => ?_
    have hroom := hroom.shorter hle
    have hnone : named = none → block = none := fun hnone =>
      Option.not_isSome_iff_eq_none.1 fun hsome => by cases hnone ▸ hsecond hsome
    refine attains_onward (attains_groupTier htyped (fun _ _ _ _ _ h => h) (fun htyped => ?_) hroom
      (endsTier_tierChars (endsTier_tierChars hparen _) _) ha.2) fun b u hb hle => ?_
    · have hnamed : named = none :=
        Option.not_isSome_iff_eq_none.1 fun hsome => by cases htyped ▸ hfirst hsome
      rw [hnone hnamed, hnamed]
      exact ⟨rest, rfl⟩
    have hroom := hroom.shorter hle
    refine attains_onward (attains_groupTier hnamed (fun _ _ _ _ _ h => h) (fun hnamed => ?_) hroom
      (endsTier_tierChars hparen _) hb.2) fun c v hc hle => ?_
    · rw [hnone hnamed]
      exact ⟨rest, rfl⟩
    have hroom := hroom.shorter hle
    have hlast : Attains (nextTier fun _ => (turns n).blockParameter) inner v fun r w =>
        r.join.map Tree.erase = block.map Tree.erase ∧ w.Shows [] (')' :: rest) := by
      refine attains_nextTier hc.2 (fun hnone => ?_) fun x hx token w hw hle => ?_
      · rw [Option.map_eq_none_iff] at hnone
        subst hnone
        exact ⟨⟨rest, rfl⟩, rfl, hc.2⟩
      · rcases Option.map_eq_some_iff.1 hx with ⟨p, rfl, rfl⟩
        have hitem := hblock p rfl n inner w indent _ (hroom.shorter hle) hparen.endsExpression hw
        refine attains_look (a := w.next .expression inner) rfl ?_
        rw [eq_of_beq hitem.1, if_neg (by decide), if_neg (by decide)]
        refine attains_seq hitem.2 fun q w' hq => ?_
        refine attains_seq (attains_endOfTier hparen (.of_eq hq.2)) ?_
        rintro _ _ rfl
        exact attains_pure ⟨congrArg some hq.1, .of_eq hq.2⟩
    refine attains_seq hlast fun r w hr => ?_
    refine attains_seq (attains_noFurtherTier hr.2) ?_
    rintro _ _ rfl
    refine attains_seq (hr.2.rightParen.expectClosing _) fun token v hv => ?_
    refine attains_look (a := v.cursor.offset) rfl (attains_pure ⟨?_, hv.2⟩)
    simp only [Tree.erase, Tree.erase_ofOption, ha.1, hb.1, hc.1, hr.1]

/-! ## Parameters of a source -/

namespace Grammar

variable {D : List Diagnostic} {g : Grammar} [g.Stepwise] (hg : g.KeepsExpressions D)
include hg

theorem keeps_parameter : Keeps D g.parameter fun d p =>
    RereadsItem d (·.parameter) (· == .identifier) p := by
  intro ctx s hq
  refine ensures_seq (keeps_bindingName _ _ hq) fun name s1 hname => ?_
  refine ensures_peekKind (ensures_ite (fun _ => ?_) fun _ => ensures_pure.2 fun _ =>
    rereads_parameter none hname nofun)
  refine ensures_skip fun _ s2 => ensures_seq (hg hq) fun value s3 hvalue =>
    ensures_pure.2 fun _ => ?_
  refine rereads_parameter (some value) hname ?_
  rintro _ ⟨⟩
  exact hvalue.1.rereads

omit [g.Stepwise] hg in
theorem keeps_restParameter (allowed : Bool) : Keeps D (restParameter allowed) fun _ p =>
    allowed = true ∧ IsRestParameter p := by
  intro ctx s hq
  refine ensures_skip fun dots s1 => ensures_ite (fun _ => ensures_bind (ensures_throw (s := s1)))
    fun hallowed => ?_
  refine ensures_seq (keeps_bindingName _ _ hq) fun name s2 hname => ensures_skip fun _ s3 =>
    ensures_pure.2 fun _ => ⟨?_, name, _, rfl, hname⟩
  simpa using hallowed

theorem keeps_parameterGroup (allowsRest : Bool) :
    Keeps D (g.parameterGroup allowsRest) fun d group =>
    RereadsGroup d allowsRest group := by
  intro ctx s hq
  refine ensures_peek (ensures_seq (ensures_loop (I := fun p : Array Parameter × Option Parameter =>
    (∀ q ∈ p.1.toList, RereadsItem ctx.definition (·.parameter) (· == .identifier) q) ∧
      ∀ q ∈ p.2, allowsRest = true ∧ IsRestParameter q) ⟨by simp, nofun⟩ ?_) fun p s1 hp =>
        ensures_position (ensures_pure.2 fun _ => rereads_parameterGroup hp.1 hp.2))
  rintro ⟨ps, last⟩ s1 ⟨hps, hlast⟩
  refine ensures_peekKind (ensures_ite (fun _ => ensures_pure.2 fun _ => ⟨hps, hlast⟩) fun _ => ?_)
  refine ensures_ite (fun _ => ?_) fun _ => ?_
  · refine ensures_seq (keeps_restParameter allowsRest _ _ hq) fun p s2 hp =>
      ensures_pure.2 fun _ => ⟨hps, ?_⟩
    rintro _ ⟨⟩
    exact hp
  · refine ensures_seq (keeps_parameter hg _ _ hq) fun p s2 hp => ?_
    have hpush : ∀ q ∈ (ps.push p).toList,
        RereadsItem ctx.definition (·.parameter) (· == .identifier) q := by
      intro q hq'
      rw [Array.toList_push, List.mem_append, List.mem_singleton] at hq'
      rcases hq' with hq' | rfl
      · exact hps q hq'
      · exact hp
    exact ensures_skip fun _ s3 => ensures_ite (fun _ => ensures_pure.2 fun _ => ⟨hpush, hlast⟩)
      fun _ => ensures_pure.2 fun _ => ⟨hpush, hlast⟩

omit [g.Stepwise] hg in
/-- A tier of a source is there if there is a semicolon. -/
theorem ensures_nextTier {α : Type} {tier : Token → Parse α} [∀ token, Ysh.Stepwise (tier token)]
    {P : α → Prop} {ctx : Context} {s : State}
    (h : ∀ token s, Ensures D (tier token) ctx s fun a _ => P a) :
    Ensures D (nextTier tier) ctx s fun r s' => (∀ a ∈ r, P a) ∧
      (r.isSome = true → (s.next .expression ctx).kind = .semicolon) ∧
        (r.isSome = false → s' = s ∧ (s.next .expression ctx).kind ≠ .semicolon) := by
  refine ensures_peekKind (ensures_ite (fun hkind => ?_) fun hkind => ensures_pure.2 fun _ =>
    ⟨nofun, nofun, fun _ => ⟨rfl, hkind⟩⟩)
  refine ensures_skip fun token s1 => ensures_seq (h token s1) fun a s2 ha =>
    ensures_pure.2 fun _ => ⟨?_, fun _ => hkind, nofun⟩
  rintro _ ⟨⟩
  exact ha

omit [g.Stepwise] hg in
/-- No tier is there behind one that is not. -/
theorem isSome_of_nextTier {α β : Type} {r : Option α} {r' : Option β} {ctx : Context}
    {s s' : State}
    (h : r.isSome = false → s' = s ∧ (s.next .expression ctx).kind ≠ .semicolon)
    (h' : r'.isSome = true → (s'.next .expression ctx).kind = .semicolon) (hr' : r'.isSome = true) :
    r.isSome = true := by
  cases hr : r.isSome with
  | true => rfl
  | false =>
      rcases h hr with ⟨rfl, hkind⟩
      exact absurd (h' hr') hkind

theorem keeps_funcTiers {opening : Span} : Keeps D (g.funcTiers opening) fun d l =>
    RereadsParameters d .func l := by
  intro ctx s hq
  refine ensures_seq (keeps_parameterGroup hg true _ _ hq) fun positional s1 hpositional => ?_
  refine ensures_seq (ensures_nextTier (P := fun a => positional.takesNothing = false ∧
    RereadsGroup ctx.definition false a) fun token s => ?_) fun named s2 hnamed => ?_
  · refine ensures_ite (fun _ => ensures_bind (ensures_throw (s := s))) fun htakes => ?_
    exact (keeps_parameterGroup hg false _ _ hq).mono fun a s' ha =>
      ⟨Bool.eq_false_iff.2 htakes, ha⟩
  · refine ensures_skip fun _ s3 => ensures_skip fun _ s4 =>
      ensures_position (ensures_pure.2 fun _ => ?_)
    exact rereads_funcTiers hpositional hnamed.1

theorem keeps_blockParameter : Keeps D g.blockParameter fun d r =>
    ∀ p ∈ r, RereadsItem d (·.parameter) (· == .identifier) p := by
  intro ctx s hq
  refine ensures_peek (ensures_ite (fun _ => ensures_none) fun _ =>
    ensures_ite (fun _ => ensures_throw)
    fun _ => ensures_seq (keeps_parameter hg _ _ hq) fun p s1 hp => ensures_skip fun _ s2 =>
      ensures_pure.2 fun _ => ?_)
  rintro _ ⟨⟩
  exact hp

theorem keeps_procTiers {opening : Span} : Keeps D (g.procTiers opening) fun d l =>
    RereadsParameters d .proc l := by
  intro ctx s hq
  refine ensures_seq (keeps_parameterGroup hg true _ _ hq) fun positional s1 hpositional => ?_
  refine ensures_seq (ensures_nextTier fun _ s => keeps_parameterGroup hg true _ _ hq)
    fun typed s2 htyped => ?_
  refine ensures_seq (ensures_nextTier fun _ s => keeps_parameterGroup hg false _ _ hq)
    fun named s3 hnamed => ?_
  refine ensures_seq (ensures_nextTier fun _ s => keeps_blockParameter hg _ _ hq)
    fun block s4 hblock => ?_
  refine ensures_skip fun _ s5 => ensures_skip fun _ s6 =>
    ensures_position (ensures_pure.2 fun _ => ?_)
  refine rereads_procTiers hpositional htyped.1 hnamed.1 (fun p hp => ?_)
    (isSome_of_nextTier htyped.2.2 hnamed.2.1)
    fun hsome => isSome_of_nextTier hnamed.2.2 hblock.2.1 ?_
  · exact hblock.1 (some p) (Option.join_eq_some_iff.1 hp) p rfl
  · cases block with
    | none => cases hsome
    | some p => rfl

/-- The parameters of a source are read again. -/
theorem keeps_parameterList (kind : Definition) {opening : Span} :
    Keeps D (g.parameterList kind opening) fun d l => RereadsParameters d kind l := by
  intro ctx s hq
  refine ensures_bracketed fun _ => ?_
  cases kind with
  | func => exact keeps_funcTiers hg _ _ hq
  | proc => exact keeps_procTiers hg _ _ hq

end Grammar

end Ysh
