import Ysh.Proofs.Progress.Loops
import Ysh.Proofs.Reread.Operation
import Ysh.Proofs.Reread.Primary

/-!
# Expressions of a Source

Whatever a source has been read as is read again from its printed form. A name of the
source is a name, a number is spelled as it was, and an expression in parentheses is
the expression in them, which is a name in front of arguments only if it is one. So
nothing is asked of a source but that it was read without an error.

An expression goes on as long as an operator follows that it could take. So none
follows an expression, and in particular no pipe, which is an operator where an
expression stands.

## Main definitions

* `Keeps`: In a quiet parse the results of a reader have a property.
* `KeptExpression`: An expression that is read again, in a place of any kind.
* `Grammar.KeepsExpressions`: What a grammar reads as an expression is kept.

## Theorems

* `Grammar.keeps_primary`, `Grammar.keeps_levels`: What a source has for expressions.
* `Grammar.keepsExpressions_body`: One turn keeps expressions if the last one did.
-/

namespace Ysh

variable {D : List Diagnostic}

/-! ## Properties of results -/

/-- In a parse that stays quiet the results of the reader have a property, which may
    depend on the definition around them. -/
def Keeps {m : Type → Type} [Monad m] [MonadStateOf State m] [Reads m] {α : Type}
    (D : List Diagnostic) (x : m α) (P : Option Definition → α → Prop) : Prop :=
  ∀ ctx s, Quiet ctx.limits D → Ensures D x ctx s fun a _ => P ctx.definition a

theorem keeps_commaSeparated {α : Type} {ends : Token.Kind → Bool} {item : Parse α}
    [Stepwise item] {P : Option Definition → α → Prop} (h : Keeps D item P) :
    Keeps D (commaSeparated ends item) fun d as => ∀ a ∈ as, P d a := by
  intro ctx s hq
  refine ensures_seq (ensures_loop (I := fun as : Array α => ∀ a ∈ as.toList, P ctx.definition a)
    (by simp) ?_) fun as s1 has => ensures_pure.2 fun _ => has
  intro as s1 has
  refine ensures_peekKind (ensures_ite (fun _ => ensures_pure.2 fun _ => has) fun _ => ?_)
  refine ensures_seq (h ctx s1 hq) fun a s2 ha => ?_
  have hpush : ∀ b ∈ (as.push a).toList, P ctx.definition b := by
    intro b hb
    rw [Array.toList_push, List.mem_append, List.mem_singleton] at hb
    rcases hb with hb | rfl
    · exact has b hb
    · exact ha
  refine ensures_peekKind (ensures_ite (fun _ => ?_) fun _ => ensures_pure.2 fun _ => hpush)
  exact ensures_skip fun _ s3 => ensures_pure.2 fun _ => hpush

/-- An expression that is read again. If it is a name, the name stands for a value. -/
structure KeptExpression (d : Option Definition) (e : Expression) : Prop where
  rereads : RereadsExpression d e
  names : ∀ name, e.referenceName? = some name → IsReference name.name.toList

/-- An expression that is read again, and that is no name. -/
theorem RereadsExpression.kept {d : Option Definition} {e : Expression} (h : RereadsExpression d e)
    (hname : e.referenceName? = none) : KeptExpression d e := by
  refine ⟨h, fun name hsome => ?_⟩
  rw [hname] at hsome
  cases hsome

/-- What the grammar reads as an expression is read again, and no operator follows. -/
def Grammar.KeepsExpressions (D : List Diagnostic) (g : Grammar) : Prop :=
  ∀ {ctx : Context} {s : State}, Quiet ctx.limits D → Ensures D g.expression ctx s fun e s' =>
    KeptExpression ctx.definition e ∧ (s'.next .expression ctx).kind.binary? = none

theorem Grammar.KeepsExpressions.keeps {g : Grammar} (hg : g.KeepsExpressions D) :
    Keeps D g.expression KeptExpression :=
  fun _ _ hq => (hg hq).mono fun _ _ he => he.1

namespace Grammar

/-! ## Names -/

/-- An identifier of a source that is not reserved stands for a value. -/
theorem isReference_of_offers {c after : Cursor} {token : Token}
    (h : c.Offers .expression token after) (hkind : token.kind = .identifier)
    (hfree : isReserved token.text = false) : IsReference token.text.toList := by
  rcases h with ⟨front, text, -, hread, -⟩
  have hlexed := hread.lexed
  rw [hread.shown, String.toList_ofList] at *
  rcases isName_of_lexed hlexed (by rw [hkind]; rfl) with ⟨hname, hkeyword⟩
  refine ⟨hname, hfree, ?_⟩
  rw [hkind] at hkeyword
  rcases hk : keyword? text with _ | kind
  · rfl
  · rw [hk] at hkeyword
    exact absurd hkeyword.symm (keyword?_kind hk).2

theorem keeps_bindingName : Keeps D bindingName fun _ name => IsReference name.name.toList := by
  intro ctx s hq
  refine ensures_peek (ensures_ite (fun hkind => ?_) fun _ => ensures_throw)
  refine ensures_ite (fun _ => ensures_bind (ensures_throw (s := s))) fun hfree => ?_
  exact ensures_next hq fun s1 hoffers => ensures_pure.2 fun _ =>
    isReference_of_offers hoffers hkind (Bool.eq_false_iff.2 hfree)

theorem keeps_memberName : Keeps D memberName fun _ name => IsName name.name.toList := by
  intro ctx s hq
  refine ensures_peek (ensures_ite (fun hkind => ?_) fun _ => ensures_throw)
  refine ensures_next hq fun s1 hoffers => ensures_pure.2 fun _ => ?_
  rcases hoffers with ⟨front, text, -, hread, -⟩
  have htext : (nameOf (s.next .expression ctx)).name.toList = text := by
    change (s.next .expression ctx).text.toList = text
    rw [hread.shown, String.toList_ofList]
  rw [htext]
  exact (isName_of_lexed hread.lexed hkind).1

variable {g : Grammar} [g.Stepwise]

/-! ## Arguments -/

section

variable (hg : g.KeepsExpressions D)
include hg

theorem keeps_namedArgument : Keeps D g.namedArgument fun d a =>
    RereadsItem d (·.namedArgument) (· == .identifier) a := by
  intro ctx s hq
  refine ensures_seq (keeps_bindingName _ _ hq) fun name s1 hname => ensures_skip fun _ s2 => ?_
  exact ensures_seq (hg hq) fun value s3 hvalue => ensures_pure.2 fun _ =>
    rereads_namedArgument hname hvalue.1.rereads

theorem keeps_namedArguments : Keeps D g.namedArguments fun d as =>
    ∀ a ∈ as, RereadsItem d (·.namedArgument) (· == .identifier) a := by
  intro ctx s hq
  refine ensures_peekKind (ensures_ite (fun _ => ensures_skip fun _ s1 => ?_)
    fun _ => ensures_pure.2 fun _ => by simp)
  exact keeps_commaSeparated (keeps_namedArgument hg) _ _ hq

theorem keeps_argumentList : Keeps D g.argumentList RereadsArguments := by
  intro ctx s hq
  refine ensures_skip fun opening s1 => ensures_bracketed fun _ => ?_
  refine ensures_seq (keeps_commaSeparated hg.keeps _ _ hq) fun positional s2 hpositional => ?_
  refine ensures_seq (keeps_namedArguments hg _ _ hq) fun named s3 hnamed => ?_
  refine ensures_skip fun _ s4 => ensures_position (ensures_pure.2 fun _ => ?_)
  refine rereads_argumentList ?_ ?_
  · rw [Tree.toList_ofList]
    exact fun e he => (hpositional e he).rereads
  · rwa [Tree.toList_ofList]

/-! ## Literals -/

theorem keeps_listBody (opening : Span) : Keeps D (g.listBody opening) fun d l =>
    RereadsExpression d (.literalExpression l) := by
  intro ctx s hq
  refine ensures_bracketed fun _ => ?_
  refine ensures_seq (keeps_commaSeparated hg.keeps _ _ hq) fun elements s1 helements => ?_
  refine ensures_skip fun _ s2 => ensures_position (ensures_pure.2 fun _ => rereads_list ?_)
  rw [Tree.toList_ofList]
  exact fun e he => (helements e he).rereads

omit [g.Stepwise] in
theorem keeps_enclosed {closer : Token.Kind} {opening : Span} :
    Keeps D (g.enclosed closer opening) KeptExpression := by
  intro ctx s hq
  refine ensures_bracketed fun _ => ensures_seq (hg hq) fun e s1 he => ?_
  exact ensures_skip fun _ s2 => ensures_pure.2 fun _ => he.1

end

variable (hg : g.KeepsExpressions D) (hx : g.KeepsExpansions D)
include hg hx

theorem keeps_dictKey : Keeps D g.dictKey RereadsKey := by
  intro ctx s hq
  refine ensures_peek ?_
  split
  · next hkind =>
      refine ensures_next hq fun s1 hoffers => ?_
      rcases hoffers with ⟨front, text, -, hread, -⟩
      have hlexed := hread.lexed
      rw [hkind] at hlexed
      exact ensures_seq (ensures_lift (keeps_stringBody hx hq (Lexed.quote_iff.1 hlexed).2))
        fun str s2 hstr => ensures_pure.2 fun _ => rereads_stringKey hstr
  · refine ensures_skip fun _ s1 => ensures_seq (hg hq) fun key s2 hkey => ?_
    exact ensures_skip fun _ s3 => ensures_pure.2 fun _ => rereads_expressionKey hkey.1.rereads
  · exact ensures_seq (keeps_memberName _ _ hq) fun name s1 hname =>
      ensures_pure.2 fun _ => rereads_nameKey hname

theorem keeps_dictEntry : Keeps D g.dictEntry fun d entry =>
    RereadsItem d (·.dictEntry) Token.Kind.startsEntry entry := by
  intro ctx s hq
  refine ensures_peek (ensures_seq (keeps_dictKey hg hx _ _ hq) fun key s1 hkey => ?_)
  refine ensures_skip fun _ s2 => ensures_seq (hg hq) fun value s3 hvalue => ?_
  exact ensures_pure.2 fun _ => rereads_dictEntry hkey hvalue.1.rereads

theorem keeps_dictBody (opening : Span) : Keeps D (g.dictBody opening) fun d l =>
    RereadsExpression d (.literalExpression l) := by
  intro ctx s hq
  refine ensures_bracketed fun _ => ?_
  refine ensures_seq (keeps_commaSeparated (keeps_dictEntry hg hx) _ _ hq)
    fun entries s1 hentries => ?_
  refine ensures_skip fun _ s2 => ensures_position (ensures_pure.2 fun _ => rereads_dict ?_)
  rwa [Tree.toList_ofList]

/-! ## Primaries -/

/-- A primary of a source is read again. -/
theorem keeps_primary : Keeps D g.primary KeptExpression := by
  have hliteral : ∀ {d : Option Definition} {l : Literal},
      RereadsExpression d (.literalExpression l) → KeptExpression d (.literalExpression l) :=
    fun h => h.kept rfl
  intro ctx s hq
  refine ensures_peek ?_
  dsimp only
  split
  · next hkind =>
      refine ensures_next hq fun s1 hoffers => ensures_pure.2 fun _ => hliteral (rereads_number ?_)
      rcases hoffers with ⟨front, text, -, hread, -⟩
      have hlexed := hread.lexed
      rw [hkind] at hlexed
      rw [hread.shown]
      exact Numeral.spelled_of_lexed hlexed _
  · exact ensures_skip fun _ s1 => ensures_pure.2 fun _ => hliteral rereads_boolean
  · exact ensures_skip fun _ s1 => ensures_pure.2 fun _ => hliteral rereads_boolean
  · exact ensures_skip fun _ s1 => ensures_pure.2 fun _ => hliteral rereads_null
  · next hkind =>
      refine ensures_next hq fun s1 hoffers => ?_
      rcases hoffers with ⟨front, text, -, hread, -⟩
      have hlexed := hread.lexed
      rw [hkind] at hlexed
      exact ensures_seq (ensures_lift (keeps_stringBody hx hq (Lexed.quote_iff.1 hlexed).2))
        fun str s2 hstr => ensures_pure.2 fun _ => hliteral (rereads_stringLiteral hstr)
  · next hkind =>
      refine ensures_next hq fun s1 hoffers => ensures_pure.2 fun _ => ?_
      rcases hoffers with ⟨front, text, -, hread, -⟩
      have hlexed := hread.lexed
      rw [hkind] at hlexed
      rw [hread.shown]
      exact hliteral (rereads_character hlexed)
  · next hkind =>
      refine ensures_ite (fun _ => ensures_bind (ensures_throw (s := s))) fun hfree => ?_
      refine ensures_next hq fun s1 hoffers => ensures_pure.2 fun _ => ?_
      have hname := isReference_of_offers hoffers hkind (Bool.eq_false_iff.2 hfree)
      refine ⟨rereads_reference hname, ?_⟩
      rintro _ ⟨⟩
      exact hname
  · exact ensures_skip fun _ s1 => keeps_enclosed hg _ _ hq
  · refine ensures_skip fun _ s1 => ensures_seq (keeps_listBody hg _ _ _ hq) fun l s2 hl => ?_
    exact ensures_pure.2 fun _ => hliteral hl
  · refine ensures_skip fun _ s1 => ensures_seq (keeps_dictBody hg hx _ _ _ hq) fun l s2 hl => ?_
    exact ensures_pure.2 fun _ => hliteral hl
  · refine ensures_skip fun _ s1 => ensures_seq (ensures_lift (keeps_eggexBody hq))
      fun e s2 he => ?_
    exact ensures_pure.2 fun _ => hliteral (rereads_eggex he)
  · refine ensures_skip fun _ s1 => ensures_seq (keeps_wordListBody hx hq) fun l s2 hl => ?_
    exact ensures_pure.2 fun _ => hliteral hl
  · next opener hkind =>
      refine ensures_next hq fun s1 hoffers => ?_
      rcases hoffers.opener hkind with ⟨front, text, hfront, hopener⟩
      exact ensures_seq (hx hq hopener) fun e s2 he => ensures_pure.2 fun _ =>
        (rereads_expansionExpression he).kept rfl
  · exact ensures_throw

omit hx in
/-- Members, indices and calls behind an expression that is read again. -/
theorem keeps_postfixStep {e : Expression} {ctx : Context} {s : State} (hq : Quiet ctx.limits D)
    (he : KeptExpression ctx.definition e) :
    Ensures D (g.postfixStep e) ctx s fun r _ => KeptExpression ctx.definition r.value := by
  refine ensures_peekKind ?_
  split
  · refine ensures_skip fun _ s1 => ensures_seq (keeps_memberName _ _ hq) fun name s2 hname => ?_
    refine ensures_peekKind (ensures_ite (fun _ => ?_) fun _ => ensures_pure.2 fun _ =>
      (he.rereads.member hname).kept rfl)
    exact ensures_seq (keeps_argumentList hg _ _ hq) fun arguments s3 harguments =>
      ensures_pure.2 fun _ => (he.rereads.methodCall hname harguments).kept rfl
  · refine ensures_skip fun _ s1 => ensures_seq (keeps_memberName _ _ hq) fun name s2 hname => ?_
    refine ensures_peekKind (ensures_ite (fun _ => ensures_unexpected) fun _ => ?_)
    exact ensures_seq (keeps_argumentList hg _ _ hq) fun arguments s3 harguments =>
      ensures_pure.2 fun _ => (he.rereads.methodCall hname harguments).kept rfl
  · refine ensures_skip fun _ s1 => ensures_seq (keeps_enclosed hg _ _ hq) fun i s2 hi => ?_
    exact ensures_position (ensures_pure.2 fun _ => (he.rereads.index hi.rereads).kept rfl)
  · split
    · next name hname =>
        exact ensures_seq (keeps_argumentList hg _ _ hq) fun arguments s1 harguments =>
          ensures_pure.2 fun _ => (rereads_functionCall (he.names name hname) harguments).kept rfl
    · exact ensures_pure.2 fun _ => he
  · exact ensures_pure.2 fun _ => he

theorem keeps_postfixed : Keeps D g.postfixed KeptExpression := by
  intro ctx s hq
  refine ensures_seq (keeps_primary hg hx _ _ hq) fun e s1 he => ?_
  exact ensures_loop (I := fun e => KeptExpression ctx.definition e) he
    fun e s2 he => keeps_postfixStep hg hq he

theorem keeps_unary : Keeps D g.unary KeptExpression := by
  intro ctx s hq
  refine ensures_peekKind ?_
  split
  · refine ensures_skip fun _ s1 => ensures_seq (keeps_postfixed hg hx _ _ hq)
      fun operand s2 hoperand => ?_
    exact ensures_pure.2 fun _ => hoperand.rereads.unary.kept rfl
  · exact keeps_postfixed hg hx _ _ hq

/-- The operators of a list of levels, behind which none of them follows. -/
theorem keeps_levels (ls : List (List BinaryOperator)) {ctx : Context} {s : State}
    (hq : Quiet ctx.limits D) : Ensures D (g.levels ls) ctx s fun e s' =>
      KeptExpression ctx.definition e ∧
        ∀ op, (s'.next .expression ctx).kind.binary? = some op → op ∉ ls.flatten := by
  induction ls generalizing s with
  | nil => exact (keeps_unary hg hx _ _ hq).mono fun e s' he => ⟨he, fun _ _ => List.not_mem_nil⟩
  | cons level tighter ih =>
      have hloop : Progresses (levelRound level (g.levels tighter)) ctx :=
        (ParseLoop.operators (g := g) level (g.levels tighter)).progresses
      refine ensures_seq ih fun e s1 he => ?_
      refine hloop.ensures_loop (I := fun (e : Expression) s' => KeptExpression ctx.definition e ∧
        ∀ op, (s'.next .expression ctx).kind.binary? = some op → op ∉ tighter.flatten) he ?_
      rintro left s2 ⟨hleft, hnext⟩
      refine ensures_peekKind ?_
      split
      · next op hop =>
          refine ensures_ite (fun _ => ?_) fun hnot => ensures_pure.2 fun _ => ⟨hleft, ?_⟩
          · refine ensures_skip fun _ s3 => ensures_seq ih fun right s4 hright =>
              ensures_pure.2 fun _ => ⟨(hleft.rereads.binary hright.1.rereads).kept rfl, hright.2⟩
          · intro op' hop'
            rw [hop] at hop'
            cases hop'
            rw [List.flatten_cons, List.mem_append, not_or]
            exact ⟨fun hmem => hnot (List.contains_iff_mem.2 hmem), hnext op hop⟩
      · next hnone =>
          refine ensures_pure.2 fun _ => ⟨hleft, fun op hop => ?_⟩
          rw [hnone] at hop
          cases hop

/-- One turn keeps expressions if the last one did. -/
theorem keepsExpressions_body {ctx : Context} {s : State} (hq : Quiet ctx.limits D) :
    Ensures D g.expressionBody ctx s fun e s' =>
      KeptExpression ctx.definition e ∧ (s'.next .expression ctx).kind.binary? = none := by
  have hlevels : Ensures D (g.levels precedenceTable) { ctx with depth := ctx.depth + 1 } s _ :=
    keeps_levels hg hx precedenceTable hq
  refine ensures_nested fun _ => hlevels.mono ?_
  rintro e s1 ⟨he, hnext⟩
  refine ⟨he, ?_⟩
  rcases hbinary : (s1.next .expression ctx).kind.binary? with _ | op
  · rfl
  · exact absurd op.mem_precedenceTable (hnext op hbinary)

end Grammar

end Ysh
