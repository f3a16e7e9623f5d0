import Ysh.Proofs.Coverage.Expression
import Ysh.Proofs.Layout.Command

/-!
# Declarations and Commands Lose Nothing

The words that start statements are consumed as plain command words, so a production
that starts with one is told that the next token is a keyword. A binding is cut in the
middle of a token, at its equals sign, and the digits of a descriptor are filler only
because the operator that they belong to touches them.

## Theorems

* `Tree.leaves_toArgument`: A word has the same leaves as an argument.
* `Numeral.isDigit_of_digitsValue?`: A descriptor is made of digits.
* `ensures_advanced`: A token is consumed, and the state behind it is known.
* `Grammar.lossless_block`, `Grammar.lossless_commandCall`.
-/

namespace Ysh

variable {D : List Diagnostic}

/-! ## Arguments from words -/

theorem Tree.leaves_partToArgument (part : WordPart) : part.partToArgument.leaves = part.leaves := by
  have hword : ∀ span, (wordArgument (word (cons part nil) span)).leaves = part.leaves :=
    fun _ => List.append_nil part.leaves
  cases part with
  | bare run span =>
      unfold partToArgument
      dsimp only
      split
      · rfl
      · split
        · next htrue => rw [htrue]; rfl
        · split
          · next hfalse => rw [hfalse]; rfl
          · exact hword span
  | escaped value span => exact hword span
  | stringPart | expansionPart => rfl

/-- A word has the same leaves as an argument. -/
theorem Tree.leaves_toArgument (w : Word) : w.toArgument.leaves = w.leaves := by
  cases w with
  | word parts span =>
      cases parts with
      | nil => rfl
      | cons part parts =>
          cases parts with
          | nil => exact (leaves_partToArgument part).trans (List.append_nil part.leaves).symm
          | cons => rfl

theorem Tree.leaves_ofParts (parts : List WordPart) :
    (ofParts parts).leaves = parts.flatMap leaves :=
  leaves_ofList parts

/-! ## Descriptors -/

theorem Numeral.isDigit_of_digitValue? {c : Char} {n : Nat} (h : digitValue? 10 c = some n) :
    c.isDigit = true := by
  refine Decidable.byContradiction fun hdigit => ?_
  unfold digitValue? at h
  rw [if_neg hdigit] at h
  rcases Option.filter_eq_some_iff.1 h with ⟨hvalue, hlt⟩
  have hlt : n < 10 := of_decide_eq_true hlt
  split at hvalue
  · cases hvalue
    omega
  · split at hvalue
    · cases hvalue
      omega
    · cases hvalue

theorem Numeral.isDigit_of_digitsValueFrom? {cs : List Char} {value n : Nat}
    (h : digitsValueFrom? 10 value cs = some n) : ∀ c ∈ cs, c.isDigit = true := by
  induction cs generalizing value with
  | nil => simp
  | cons c cs ih =>
      rcases Option.bind_eq_some_iff.1 h with ⟨digit, hdigit, hrest⟩
      intro x hx
      rcases List.mem_cons.1 hx with rfl | hx
      · exact isDigit_of_digitValue? hdigit
      · exact ih hrest x hx

/-- A descriptor is made of digits. -/
theorem Numeral.isDigit_of_digitsValue? {cs : List Char} {n : Nat}
    (h : digitsValue? 10 cs = some n) : ∀ c ∈ cs, c.isDigit = true := by
  unfold digitsValue? at h
  split at h
  · cases h
  · exact isDigit_of_digitsValueFrom? h

theorem Token.Kind.eq_of_redirection? {kind : Token.Kind} {op : RedirectionOperator}
    (h : kind.redirection? = some op) : kind = .redirection op := by
  cases kind with
  | redirection => cases h; rfl
  | _ => cases h

/-! ## Keywords -/

theorem Token.text_of_isWord {token : Token} {text : String} (h : token.isWord text = true) :
    token.text = text :=
  beq_iff_eq.1 (Bool.and_eq_true_iff.1 h).2

section

variable {α : Type} {mode : Mode} {ctx : Context} {s : State} {Q : α → State → Prop}

/-- A token is consumed, and the state behind it is known. -/
theorem ensures_advanced (hq : Quiet ctx.limits D) {f : Token → Parse α} [∀ token, Moving (f token)]
    (h : s.cursor.Offers mode (s.next mode ctx) (advance mode ctx s).2.cursor →
      Ensures D (f (s.next mode ctx)) ctx (advance mode ctx s).2 Q) :
    Ensures D (liftM (advance mode) >>= f) ctx s Q := by
  refine ensures_seq (P := fun token s1 => (token = s.next mode ctx ∧
    s.cursor.Offers mode (s.next mode ctx) s1.cursor) ∧ s1 = (advance mode ctx s).2) ?_ ?_
  · intro token s1 hyields hD
    refine ⟨ensures_offers hq token s1 hyields hD, ?_⟩
    cases hyields
    rfl
  · rintro token s1 ⟨⟨rfl, hoffers⟩, rfl⟩
    exact h hoffers

/-- A keyword is consumed, which the production knows to come next. -/
theorem ensures_keyword (hq : Quiet ctx.limits D) {f : Token → Parse α} [∀ token, Moving (f token)]
    (hkeyword : (s.next mode ctx).text ∈ keywords)
    (h : ∀ s1, Covers s.cursor [] s1.cursor → Ensures D (f (s.next mode ctx)) ctx s1 Q) :
    Ensures D (liftM (advance mode) >>= f) ctx s Q :=
  ensures_next hq fun s1 hoffers => h s1 (hoffers.keyword hkeyword)

theorem ensures_secondToken {f : Token → Parse α}
    (h : Ensures D (f ((advance .command ctx s).2.next .command ctx)) ctx s Q) :
    Ensures D (liftM Grammar.secondToken >>= f) ctx s Q :=
  h

theorem ensures_peekWord {word : String} {f : Bool → Parse α}
    (h : Ensures D (f ((s.next .command ctx).isWord word)) ctx s Q) :
    Ensures D (liftM (peekWord word) >>= f) ctx s Q :=
  h

end

namespace Grammar

variable {g : Grammar} [g.Stepwise] (hg : g.Lossless D)

/-! ## Declarations -/

section

variable {ctx : Context} {s : State} (hq : Quiet ctx.limits D)
include hg hq

theorem covers_nameAndValue : Ensures D g.nameAndValue ctx s fun r s' =>
    Covers s.cursor (r.1.leaf :: r.2.leaves) s'.cursor := by
  refine ensures_seq (covers_bindingName hq) fun name s1 hname => ?_
  refine ensures_expectAs hq rfl fun s2 hequals => ?_
  refine ensures_seq (hg.expression ctx s2 hq) fun value s3 hvalue => ensures_pure.2 fun _ => ?_
  exact hname.append (hequals.after hvalue)

theorem covers_variableDeclaration (hkeyword : (s.next .command ctx).text ∈ keywords) :
    Ensures D g.variableDeclaration ctx s fun t s' => Covers s.cursor t.leaves s'.cursor := by
  refine ensures_keyword hq hkeyword fun s1 hs1 => ?_
  refine ensures_seq (covers_nameAndValue hg hq) fun r s2 hr => ensures_pure.2 fun _ => ?_
  exact hs1.after hr

theorem covers_constantDeclaration (hkeyword : (s.next .command ctx).text ∈ keywords) :
    Ensures D g.constantDeclaration ctx s fun t s' => Covers s.cursor t.leaves s'.cursor := by
  refine ensures_keyword hq hkeyword fun s1 hs1 => ?_
  refine ensures_seq (covers_nameAndValue hg hq) fun r s2 hr => ensures_pure.2 fun _ => ?_
  exact hs1.after hr

/-- A constant in short is known from the token behind its name. -/
theorem covers_shorthandConstant
    (hequals : ((advance .command ctx s).2.next .command ctx).text ∈ keywords) :
    Ensures D g.shorthandConstant ctx s fun t s' => Covers s.cursor t.leaves s'.cursor := by
  refine ensures_advanced hq fun hname => ?_
  refine ensures_keyword hq hequals fun s2 hs2 => ?_
  refine ensures_seq (hg.expression ctx s2 hq) fun value s3 hvalue => ensures_pure.2 fun _ => ?_
  exact hname.leaf.append (hs2.after hvalue)

end

section

include hg

theorem lossless_accessor :
    Ysh.Lossless D g.accessor fun o => o.toList.flatMap Tree.leaves := by
  intro ctx s hq
  refine ensures_peekKind ?_
  split
  · next hkind =>
      refine ensures_fixed hq (by rw [hkind]; rfl) fun s1 hs1 => ?_
      refine ensures_seq (covers_memberName hq) fun name s2 hname => ensures_pure.2 fun _ => ?_
      exact hs1.after hname
  · next hkind =>
      refine ensures_fixed hq (by rw [hkind]; rfl) fun s1 hs1 => ?_
      refine ensures_seq (lossless_enclosed hg rfl ctx s1 hq) fun i s2 hi => ?_
      refine ensures_position (ensures_pure.2 fun _ => ?_)
      change Covers s.cursor (i.leaves ++ []) s2.cursor
      exact hs1.after (hi.append (.nil _))
  · exact ensures_pure.2 fun _ => .nil _

omit [g.Stepwise] hg in
theorem lossless_assignmentOperator : Ysh.Lossless D assignmentOperator fun _ => [] := by
  intro ctx s hq
  refine ensures_peekKind ?_
  split
  · next hkind =>
      refine ensures_fixed hq (by rw [hkind]; rfl) fun s1 hs1 => ensures_pure.2 fun _ => hs1
  · exact ensures_unexpected

theorem covers_assignment (scope : AssignmentScope) {ctx : Context} {s : State}
    (hq : Quiet ctx.limits D) (hkeyword : (s.next .command ctx).text ∈ keywords) :
    Ensures D (g.assignment scope) ctx s fun t s' => Covers s.cursor t.leaves s'.cursor := by
  refine ensures_keyword hq hkeyword fun s1 hs1 => ?_
  refine ensures_seq (covers_bindingName hq) fun name s2 hname => ?_
  refine ensures_seq (lossless_collect (lossless_accessor hg) ctx s2 hq) fun steps s3 hsteps => ?_
  refine ensures_seq (lossless_assignmentOperator ctx s3 hq) fun op s4 hop => ?_
  refine ensures_seq (hg.expression ctx s4 hq) fun value s5 hvalue => ensures_pure.2 fun _ => ?_
  change Covers s.cursor (name.leaf :: ((Tree.ofList steps).leaves ++ value.leaves)) s5.cursor
  rw [Tree.leaves_ofList]
  exact hs1.after (hname.append (hsteps.append (hop.after hvalue)))

end

/-! ## Blocks -/

theorem lossless_closingBraceStop {opening : Span} :
    Ysh.Lossless D (closingBraceStop opening) fun _ => [] := by
  intro ctx s hq
  refine Moving.ensures_seq (fun r => by cases r <;> infer_instance)
    (ensures_attempt (lossless_expectClosing rfl ctx s hq)) fun r s1 hr => ?_
  cases r with
  | ok token => exact ensures_pure.2 fun _ => hr token rfl
  | error e => exact ensures_blame hq rfl

include hg

/-- A block that is not closed or is empty is an error. -/
theorem lossless_block : Ysh.Lossless D g.block Tree.leaves := by
  intro ctx s hq
  refine ensures_expectAs hq rfl fun s1 hopen => ?_
  refine ensures_seq (lossless_body hg .rightBrace ctx s1 hq) fun statements s2 hstatements => ?_
  refine ensures_seq (ensures_lift (lossless_closingBraceStop ctx s2 hq)) fun stop s3 hclose => ?_
  refine ensures_ite (fun _ => ?_) fun _ => ensures_pure.2 fun _ => ?_
  · exact ensures_seq (ensures_lift (ensures_report rfl)) fun _ s4 hnot => absurd hq hnot
  · change Covers s.cursor (Tree.ofList statements).leaves s3.cursor
    rw [Tree.leaves_ofList]
    exact hopen.after (hstatements.upTo hclose)

/-! ## The parts of a call -/

/-- A binding is a name, an equals sign and the start of a value. -/
theorem lossless_envBinding :
    Ysh.Lossless D g.envBinding fun o => o.toList.flatMap Tree.leaves := by
  intro ctx s hq
  refine ensures_peek (ensures_ite (fun _ => ensures_pure.2 fun _ => .nil _) fun _ => ?_)
  split
  · next name value hsplit =>
      refine ensures_next hq fun s1 hoffers => ?_
      rcases hoffers with ⟨front, text, hfront, hread, -⟩
      have htext := splitBinding?_eq_some hsplit
      rw [hread.shown, String.toList_ofList] at htext
      have hpasses := hread.passes
      rw [htext] at hpasses
      rcases hpasses.split with ⟨d, hname, hrest⟩
      rcases hrest.split (x := ['=']) with ⟨e, hequals, hvalue⟩
      have hbound : Covers s.cursor [Identifier.leaf ⟨String.ofList name, .between
          (s.next .command ctx).span.start ((s.next .command ctx).span.start + byteLength name)⟩]
          e := by
        rw [hread.start]
        refine hfront.after (.leaf hname ?_ ?_ ?_ (.ofFixed hequals (.keyword (by decide : "=" ∈ keywords))))
        · exact Nat.min_eq_left (Nat.le_add_right _ _)
        · exact (Nat.max_eq_right (Nat.le_add_right _ _)).trans hname.offset.symm
        · exact String.toList_ofList.symm
      have hoffset : e.offset = (s.next .command ctx).span.start + byteLength name
          + '='.utf8Size := by
        rw [hequals.offset, hname.offset, hread.start]
        simp
      have hempty : Covers e (([] : List WordPart).flatMap Tree.leaves) e := .nil e
      have hparts := hempty.pushText hvalue
      rw [hoffset] at hparts
      refine ensures_seq (covers_wordParts hg hq hparts) fun parts s2 hparts =>
        ensures_pure.2 fun _ => ?_
      have hword : ∀ span, (if parts.isEmpty then .word .nil span else .ofParts parts :
          Word).leaves = parts.flatMap Tree.leaves := by
        intro span
        cases parts with
        | nil => rfl
        | cons => exact Tree.leaves_ofParts _
      change Covers s.cursor (_ :: (Tree.leaves _ ++ [])) s2.cursor
      rw [List.append_nil, hword]
      exact hbound.append hparts
  · exact ensures_pure.2 fun _ => .nil _

/-- A redirection whose operator has been seen. -/
theorem covers_redirection {descriptor : Option Nat} {start : Nat} {op : RedirectionOperator}
    {c : Cursor} {ctx : Context} {s : State} (hq : Quiet ctx.limits D)
    (h : ∀ s1 : State, s.cursor.Offers .command (s.next .command ctx) s1.cursor →
      Covers c [] s1.cursor) :
    Ensures D (g.redirection descriptor start op) ctx s fun r s' => Covers c r.leaves s'.cursor := by
  refine ensures_next hq fun s1 hoffers => ensures_peek (ensures_ite (fun _ =>
    ensures_bind ensures_throw) fun _ => ?_)
  refine ensures_seq (lossless_word hg ctx s1 hq) fun w s2 hw => ensures_pure.2 fun _ => ?_
  exact (h s1 hoffers).after hw

/-- The digits of a descriptor are filler, as the operator touches them. -/
theorem lossless_descriptorRedirection :
    Ysh.Lossless D g.descriptorRedirection fun o => o.toList.flatMap Tree.leaves := by
  intro ctx s hq
  have hnone : Ensures D (pure none : Parse (Option Redirection)) ctx s fun o s' =>
      Covers s.cursor (o.toList.flatMap Tree.leaves) s'.cursor := ensures_pure.2 fun _ => .nil _
  refine ensures_peek (ensures_ite (fun _ => hnone) fun _ => ?_)
  split
  · next descriptor hdescriptor =>
      refine ensures_secondToken ?_
      split
      · next op hop =>
          refine ensures_ite (fun _ => hnone) fun himmediate => ?_
          refine ensures_advanced hq fun hoffers => ?_
          refine ensures_ite (fun _ => ensures_bind ensures_throw) fun _ => ?_
          refine ensures_seq (covers_redirection hg (c := s.cursor) hq fun s2 hoperator => ?_)
            fun r s2 hr => ensures_pure.2 fun _ => ?_
          · rcases hoffers with ⟨front, digits, hfront, hread, -⟩
            rcases hoperator with ⟨front', text, -, hread', htouches⟩
            have hfront' := htouches rfl (by simpa using himmediate)
            subst hfront'
            have hkind := Token.Kind.eq_of_redirection? hop
            have hlexed := hread'.lexed
            rw [hkind] at hlexed
            have htext := spelling_of_lexed hlexed rfl
            have hpasses := hread'.passes
            rw [htext] at hpasses
            rw [hread.shown, String.toList_ofList] at hdescriptor
            refine hfront.after (.filler hread.passes (.descriptor op s2.cursor.rest
              (Numeral.isDigit_of_digitsValue? hdescriptor) hpasses.rest) ?_)
            exact .ofFixed hread'.passes (fixed_of_lexed hlexed rfl (by simp))
          · change Covers s.cursor (r.leaves ++ []) s2.cursor
            exact hr.append (.nil _)
      · exact hnone
  · exact hnone

theorem lossless_anyRedirection :
    Ysh.Lossless D g.anyRedirection fun o => o.toList.flatMap Tree.leaves := by
  intro ctx s hq
  refine ensures_peek ?_
  split
  · next op hop =>
      refine ensures_seq (covers_redirection hg (c := s.cursor) hq fun s1 hoffers =>
        hoffers.fixed ?_) fun r s1 hr => ensures_pure.2 fun _ => hr.append (.nil _)
      rw [Token.Kind.eq_of_redirection? hop]
      rfl
  · exact lossless_descriptorRedirection hg ctx s hq

theorem lossless_argument : Ysh.Lossless D g.argument fun o => o.toList.flatMap Tree.leaves := by
  intro ctx s hq
  refine ensures_peekKind (ensures_ite (fun _ => ensures_pure.2 fun _ => .nil _) fun _ =>
    ensures_ite (fun _ => ensures_unexpected) fun _ => ?_)
  refine Moving.ensures_seq (fun r => by cases r <;> infer_instance)
    (lossless_anyRedirection hg ctx s hq) fun r s1 hr => ?_
  cases r with
  | some r => exact ensures_pure.2 fun _ => hr
  | none =>
      refine ensures_seq (lossless_word hg ctx s1 hq) fun w s2 hw => ensures_pure.2 fun _ => ?_
      change Covers s.cursor (w.toArgument.leaves ++ []) s2.cursor
      rw [Tree.leaves_toArgument]
      exact hr.after (hw.append (.nil _))

theorem lossless_callArguments :
    Ysh.Lossless D g.callArguments fun o => o.toList.flatMap Tree.leaves := by
  intro ctx s hq
  refine ensures_peek (ensures_ite (fun _ => ensures_pure.2 fun _ => .nil _) fun _ => ?_)
  have hlist : ∀ s1 : State, s1.cursor = s.cursor → Ensures D (do
      return some (← g.argumentList) : Parse (Option ArgumentList)) ctx s1 fun o s' =>
        Covers s.cursor (o.toList.flatMap Tree.leaves) s'.cursor := by
    intro s1 hs1
    refine ensures_seq (lossless_argumentList hg ctx s1 hq) fun l s2 hl => ensures_pure.2 fun _ => ?_
    rw [← hs1]
    exact hl.append (.nil _)
  refine ensures_ite (fun _ => ?_) fun _ => hlist s rfl
  exact ensures_seq (ensures_lift ensures_stays) fun _ s1 hs1 => hlist s1 hs1

/-! ## Calls -/

omit [g.Stepwise] hg in
theorem lossless_negation : Ysh.Lossless D negation fun _ => [] := by
  intro ctx s hq
  change Ensures D (if (s.next .command ctx).isWord "!" then do
    let _ ← advance .command
    return true
    else return false : Scan Bool) ctx s _
  refine ensures_ite (fun hbang => ?_) fun _ => ensures_pure.2 fun _ => .nil _
  refine ensures_seq (ensures_offers hq) ?_
  rintro token s1 ⟨rfl, hoffers⟩
  refine ensures_pure.2 fun _ => hoffers.keyword ?_
  rw [Token.text_of_isWord hbang]
  decide

theorem lossless_commandName : Ysh.Lossless D g.commandName Tree.leaves := by
  intro ctx s hq
  refine Moving.ensures_seq (fun w => by split <;> infer_instance) (lossless_word hg ctx s hq)
    fun w s1 hw => ?_
  split
  · exact ensures_ite (fun _ => ensures_throw) fun _ => ensures_pure.2 fun _ => hw
  · exact ensures_pure.2 fun _ => hw

theorem lossless_envBindings (start : Nat) :
    Ysh.Lossless D (g.envBindings start) (·.flatMap Tree.leaves) := by
  intro ctx s hq
  refine ensures_seq (lossless_collect (lossless_envBinding hg) ctx s hq) fun bindings s1 h => ?_
  refine ensures_peekKind (ensures_ite (fun _ => ?_) fun _ => ensures_pure.2 fun _ => h)
  exact ensures_position ensures_throw

theorem lossless_callBlock (allowsBlock : Bool) : Ysh.Lossless D (g.callBlock allowsBlock)
    fun r => r.1.toList.flatMap Tree.leaves ++ r.2.flatMap Tree.leaves := by
  intro ctx s hq
  refine ensures_peekKind (ensures_ite (fun _ => ?_) fun _ => ensures_pure.2 fun _ => .nil _)
  refine ensures_seq (lossless_block hg ctx s hq) fun body s1 hbody => ?_
  refine ensures_seq (lossless_collect (lossless_anyRedirection hg) ctx s1 hq)
    fun redirections s2 h => ensures_pure.2 fun _ => ?_
  exact (hbody.append (.nil _)).append h

theorem lossless_commandCall (allowsBlock : Bool) :
    Ysh.Lossless D (g.commandCall allowsBlock) Tree.leaves := by
  intro ctx s hq
  refine ensures_peek ?_
  refine ensures_seq (ensures_lift (lossless_negation ctx s hq)) fun negated s1 hnegated => ?_
  refine ensures_seq (lossless_envBindings hg _ ctx s1 hq) fun bindings s2 hbindings => ?_
  refine ensures_seq (lossless_commandName hg ctx s2 hq) fun name s3 hname => ?_
  refine ensures_seq (lossless_collect (lossless_argument hg) ctx s3 hq)
    fun arguments s4 harguments => ?_
  refine ensures_seq (lossless_callArguments hg ctx s4 hq) fun callArguments s5 hcall => ?_
  refine ensures_seq (lossless_callBlock hg allowsBlock ctx s5 hq) fun r s6 hr => ?_
  refine ensures_position (ensures_pure.2 fun _ => ?_)
  change Covers s.cursor ((Tree.ofList bindings).leaves ++ (name.leaves ++
    ((Tree.ofList arguments).leaves ++ ((Tree.ofOption callArguments).leaves ++
      ((Tree.ofOption r.1).leaves ++ (Tree.ofList r.2).leaves))))) s6.cursor
  simp only [Tree.leaves_ofList, Tree.leaves_ofOption]
  exact hnegated.after (hbindings.append (hname.append (harguments.append (hcall.append hr))))

end Grammar

end Ysh
