import Ysh.Proofs.Joined.Expression

/-!
# Commands in Surroundings

A command looks furthest ahead, but never further than its second token. A number is a
descriptor if a redirection touches it. If the number is the last thing in the text, then
the second token is not known to be the end before something has consumed the number. An
argument does. Behind a block nothing does, and the number is an error there.

## Main definitions

* `State.Follows`: What is known behind a command.

## Theorems

* `Grammar.carries_block`: Blocks.
* `Grammar.carries_commandCall`: Calls of commands.
-/

namespace Ysh

variable {w : Surroundings} {D : List Diagnostic} {ctx : Context}

/-- What is known behind a command: that a word which comes next is not the last thing in
    front of an error. -/
structure State.Follows (ctx : Context) (s : State) : Prop where
  rests : s.Rests .command ctx
  leads : (s.next .command ctx).kind = .word → s.Leads ctx

theorem State.Leads.follows {s : State} (h : s.Leads ctx) : s.Follows ctx :=
  ⟨h.faces.rests, fun _ => h⟩

/-- A token that is not a word leads on. -/
theorem State.Faces.leads {s : State} (h : s.Faces .command ctx)
    (hkind : (s.next .command ctx).kind ≠ .word) : s.Leads ctx :=
  ⟨h, fun hword => absurd hword hkind⟩

theorem State.Faces.follows {s : State} (h : s.Faces .command ctx)
    (hkind : (s.next .command ctx).kind ≠ .word) : s.Follows ctx :=
  (h.leads hkind).follows

/-- A word that comes next is the same word in the surroundings. -/
theorem Token.Twin.isWord {k : Nat} {token token' : Token} (h : token.Twin k token')
    (text : String) : token'.isWord text = token.isWord text := by
  rcases h with rfl | ⟨hend, hline⟩
  · rfl
  · rw [Token.isWord, Token.isWord, hend, hline]
    rfl

section

variable {α : Type} [Shift α] {s : State} {Pre : Prop} {Post : α → State → Prop}

theorem carries_peekWord {text : String} {f f' : Bool → Parse α}
    (hpre : Pre → s.Rests .command ctx)
    (h : Carries w D (f ((s.next .command ctx).isWord text))
      (f' ((s.next .command ctx).isWord text)) ctx s Pre Post) :
    Carries w D (liftM (peekWord text) >>= f) (liftM (peekWord text) >>= f') ctx s Pre Post :=
  carries_look (R := fun found => found = (s.next .command ctx).isWord text) rfl
    ⟨_, rfl, fun hp => (hpre hp).twin.isWord text⟩ ⟨_, rfl⟩ (by rintro _ rfl; exact h)

theorem Scan.carries_peekWord {text : String} {f f' : Bool → Scan α}
    (hpre : Pre → s.Rests .command ctx)
    (h : Carries w D (f ((s.next .command ctx).isWord text))
      (f' ((s.next .command ctx).isWord text)) ctx s Pre Post) :
    Carries w D (peekWord text >>= f) (peekWord text >>= f') ctx s Pre Post :=
  carries_look (R := fun found => found = (s.next .command ctx).isWord text) rfl
    ⟨_, rfl, fun hp => (hpre hp).twin.isWord text⟩ ⟨_, rfl⟩ (by rintro _ rfl; exact h)

/-- The state behind the next token. -/
def State.behind (ctx : Context) (s : State) : State :=
  ⟨(s.ahead .command ctx).after, s.diagnostics⟩

/-- Where the token behind the next one may be the end. -/
theorem carries_secondToken {f f' : Token → Parse α}
    (hkind : (s.next .command ctx).kind ≠ .endOfInput)
    (hpre : Pre → (s.behind ctx).Rests .command ctx)
    (h : ∀ token, ((s.behind ctx).next .command ctx).Twin w.size token →
      Carries w D (f ((s.behind ctx).next .command ctx)) (f' token) ctx s Pre Post) :
    Carries w D (liftM Grammar.secondToken >>= f) (liftM Grammar.secondToken >>= f') ctx s Pre
      Post := by
  refine carries_look (b := (s.behind ctx).next .command ctx) rfl
    ⟨((s.behind ctx).within w).next .command ctx, ?_, fun hp => (hpre hp).twin⟩ ⟨_, .refl _ _⟩ h
  have hahead : (s.within w).ahead .command ctx = (s.ahead .command ctx).within w :=
    State.ahead_within fun hend => absurd hend hkind
  change ((.ok (Cursor.lookahead .command false ((s.within w).ahead .command ctx).after).token,
    s.within w) : Except SyntaxError Token × State) = _
  rw [hahead]
  rfl

end

namespace Grammar

variable {g h : Grammar} [g.Stepwise] [h.Stepwise] (hg : Carries w D g h)

/-! ## Blocks -/

theorem carries_closingBraceStop (opening : Span) (s : State) :
    Ysh.Carries w D (closingBraceStop opening) (closingBraceStop (opening.shift w.size)) ctx s
      (s.Sees .command .rightBrace ctx) fun _ _ => True :=
  Moving.carries_attempt (fun r => by cases r <;> infer_instance) (carries_expectClosing (by simp))
    (fun hq e s1 => ensures_blame hq rfl) fun closing s1 => carries_pure rfl id

include hg

omit [h.Stepwise] in
theorem carries_block (s : State) : Ysh.Carries w D g.block h.block ctx s
    (s.Sees .command .leftBrace ctx) fun _ _ => True := by
  refine carries_seq (carries_expectAs (by simp)) fun opening s1 => ?_
  refine carries_seq (carries_body hg (.inl rfl) s1) fun statements s2 => ?_
  refine carries_seq (carries_lift (carries_closingBraceStop _ s2)) fun stop s3 => ?_
  refine carries_ite ?_ (fun _ => ?_) fun _ => ?_
  · cases statements <;> exact Iff.rfl
  · exact carries_of_ensures fun hq => ensures_seq (ensures_lift (ensures_report rfl))
      fun _ _ hnot => absurd hq hnot
  · exact carries_pure (by simp [Tree.shift]) id

/-! ## The parts of a call -/

theorem carries_envBinding (s : State) : Ysh.Carries w D g.envBinding h.envBinding ctx s
    (s.Leads ctx) fun _ s' => s'.Leads ctx := by
  refine carries_see (fun hleads => hleads.faces.stays) (carries_ite Iff.rfl
    (fun _ => carries_pure rfl id) fun hkind => ?_)
  have hword : (s.next .command ctx).kind = .word := Decidable.not_not.1 hkind
  dsimp only [Token.text_shift, Token.span_shift, Span.start_shift, Span.stop_shift]
  generalize (s.next .command ctx).text = text
  rcases splitBinding? text.toList with _ | ⟨name, value⟩
  · exact carries_pure rfl id
  · dsimp only
    generalize (s.next .command ctx).span = span
    have hparts : Tree.pushText [] value (span.start + w.size + byteLength name + '='.utf8Size) =
        shift w.size (Tree.pushText [] value (span.start + byteLength name + '='.utf8Size)) := by
      have hoffset : span.start + w.size + byteLength name + '='.utf8Size
          = span.start + byteLength name + '='.utf8Size + w.size := by omega
      rw [hoffset]
      exact Tree.pushText_shift w.size value [] _
    rw [hparts]
    refine carries_seq (carries_lift (carries_advanced (fun s1 => s1.Rests .command ctx)
      (by simp [hword]) fun s1 hs1 hfaces hrests => ⟨hfaces, fun _ s2 hs2 =>
        hrests.of_cursor (hs2.trans hs1.symm)⟩)) fun _ s1 => ?_
    refine (carries_seq (M := fun _ s2 => s2.Leads ctx) ((carries_wordParts hg _ true s1).from
      fun _ _ hleads => hleads.faces.rests) fun parts s2 => ?_).mono And.left fun _ _ h => h
    have hvalue : (if (shift w.size parts).isEmpty then .word .nil (.emptyAt (span.stop + w.size))
        else .ofParts (shift w.size parts) : Word) =
          (if parts.isEmpty then .word .nil (.emptyAt span.stop) else .ofParts parts : Word).shift
            w.size := by
      rcases parts with _ | ⟨part, parts⟩
      · rfl
      · exact Tree.ofParts_shift w.size (List.cons_ne_nil part parts)
    refine carries_pure (congrArg some ?_) id
    rw [hvalue]
    generalize (if parts.isEmpty then _ else _ : Word) = valueWord
    have hname : span.start + w.size + byteLength name = span.start + byteLength name + w.size :=
      Nat.add_right_comm _ _ _
    rw [hname, Tree.span_shift w.size valueWord rfl, Span.stop_shift, Nat.add_max_add_right]
    simp [Tree.shift, Identifier.shift]

theorem carries_redirection (descriptor : Option Nat) (start : Nat) (op : RedirectionOperator)
    {s : State} (hkind : (s.next .command ctx).kind ≠ .endOfInput) :
    Ysh.Carries w D (g.redirection descriptor start op)
      (h.redirection descriptor (start + w.size) op) ctx s (s.Faces .command ctx)
      fun _ s' => s'.Rests .command ctx := by
  refine carries_seq (carries_lift (carries_advance hkind)) fun _ s1 => ?_
  refine .forget (s1.Leads ctx) (carries_see (fun hleads => hleads.faces.stays)
    (carries_ite Iff.rfl (fun _ => ?_) fun _ => ?_))
  · exact carries_of_ensures fun _ => ensures_bind ensures_throw
  · refine carries_seq (carries_word hg s1) fun target s2 => ?_
    exact carries_pure (by simp (disch := decide) [Tree.shift]) id

theorem carries_descriptorRedirection (s : State) :
    Ysh.Carries w D g.descriptorRedirection h.descriptorRedirection ctx s (s.Follows ctx)
      fun o s' => o.elim (s'.Follows ctx) fun _ => s'.Rests .command ctx := by
  refine carries_peek State.Follows.rests fun token' htwin => carries_ite
    (not_congr (htwin.kind.eq_iff (by simp) (by simp))) (fun _ => carries_pure rfl id) fun hkind => ?_
  have hword : (s.next .command ctx).kind = .word := Decidable.not_not.1 hkind
  have hend : (s.next .command ctx).kind ≠ .endOfInput := by simp [hword]
  rw [htwin.eq hend]
  dsimp only [Token.text_shift]
  rcases hdigits : Numeral.digitsValue? 10 (s.next .command ctx).text.toList with _ | descriptor
  · exact carries_pure rfl id
  · refine carries_secondToken hend (fun hfollows => (hfollows.leads hword).behind hword _ rfl)
      fun next' hnext => ?_
    rw [hnext.kind.apply Token.Kind.redirection? rfl]
    rcases hop : ((s.behind ctx).next .command ctx).kind.redirection? with _ | op
    · exact carries_pure rfl id
    · have hoperator : ((s.behind ctx).next .command ctx).kind ≠ .endOfInput := by
        intro hend
        rw [hend] at hop
        cases hop
      rw [hnext.eq hoperator]
      refine carries_ite Iff.rfl (fun _ => carries_pure rfl id) fun _ => ?_
      refine carries_bind (carries_lift (carries_advanced (fun s1 => s1.Faces .command ctx) hend
        fun s1 hs1 hfaces hoperator => State.Leads.follows ⟨hfaces, fun _ s2 hs2 =>
          hoperator.rests.of_cursor (hs2.trans hs1.symm)⟩)) fun _ s1 htoken => ?_
      have hs1 : (s1.next .command ctx).kind ≠ .endOfInput := by
        have hcursor := (next_of_advance htoken).2
        unfold State.next
        rw [hcursor]
        exact hoperator
      refine carries_ite Iff.rfl (fun _ => ?_) fun _ => ?_
      · exact carries_of_ensures fun _ => ensures_bind ensures_throw
      · refine carries_seq (carries_redirection hg _ _ op hs1) fun r s2 => ?_
        exact carries_pure rfl id

theorem carries_anyRedirection (s : State) :
    Ysh.Carries w D g.anyRedirection h.anyRedirection ctx s (s.Follows ctx)
      fun o s' => o.elim (s'.Follows ctx) fun _ => s'.Rests .command ctx := by
  refine carries_peek State.Follows.rests fun token' htwin => ?_
  rw [htwin.kind.apply Token.Kind.redirection? rfl]
  rcases hop : (s.next .command ctx).kind.redirection? with _ | op
  · exact carries_descriptorRedirection hg s
  · have hkind := Token.Kind.eq_of_redirection? hop
    have hend : (s.next .command ctx).kind ≠ .endOfInput := by simp [hkind]
    rw [htwin.eq hend]
    refine (carries_seq (carries_redirection hg none _ op hend) fun r s1 => ?_).mono
      (fun hfaces => hfaces.follows (by simp [hkind])) fun _ _ h => h
    exact carries_pure rfl id

theorem carries_argument (s : State) : Ysh.Carries w D g.argument h.argument ctx s
    (s.Rests .command ctx) fun _ s' => s'.Rests .command ctx := by
  refine carries_peekKind id fun kind' htwin => ?_
  rw [htwin.apply Token.Kind.endsArguments rfl, htwin.apply Token.Kind.isRedirection rfl,
    htwin.apply Token.Kind.isWordPiece rfl]
  refine carries_ite Iff.rfl (fun _ => carries_pure rfl id) fun _ => carries_ite Iff.rfl
    (fun _ => carries_unexpected) fun _ => ?_
  refine (Moving.carries_bind (fun r => by cases r <;> infer_instance)
    (carries_anyRedirection hg s) fun o s1 _ => ?_).mono State.Follows.rests fun _ _ h => h
  rcases o with _ | r
  · refine (carries_seq (carries_word hg s1) fun word s2 => ?_).mono State.Leads.follows fun _ _ h => h
    exact carries_pure (congrArg some (Tree.toArgument_shift w.size word)) id
  · exact carries_pure rfl id

theorem carries_callArguments (s : State) : Ysh.Carries w D g.callArguments h.callArguments ctx s
    (s.Rests .command ctx) fun _ s' => s'.Rests .command ctx := by
  refine carries_peek id fun token' htwin => carries_ite
    (not_congr (htwin.kind.eq_iff (by simp) (by simp))) (fun _ => carries_pure rfl id) fun hkind => ?_
  have hparen : (s.next .command ctx).kind = .leftParen := Decidable.not_not.1 hkind
  rw [htwin.eq (by simp [hparen])]
  have hrests : s.Rests .command ctx := fun hend => by
    rw [hparen] at hend
    cases hend
  have hlist : ∀ s, Ysh.Carries w D (do return some (← g.argumentList))
      (do return some (← h.argumentList)) ctx s True fun _ s' => s'.Rests .command ctx := fun s =>
    .free (carries_seq (carries_argumentList hg s) fun arguments s1 =>
      carries_pure rfl fun _ => trivial)
  exact .given hrests (carries_ite Iff.rfl
    (fun _ => carries_seq (carries_lift carries_report) fun _ s1 => hlist s1) fun _ => hlist s)

/-! ## Calls -/

omit hg in
theorem carries_negation (s : State) : Ysh.Carries w D negation negation ctx s (s.Leads ctx)
    fun _ s' => s'.Leads ctx := by
  refine Scan.carries_peekWord (fun hleads => hleads.faces.rests) (carries_ite Iff.rfl
    (fun hbang => ?_) fun _ => carries_pure rfl id)
  have hword : (s.next .command ctx).kind = .word :=
    beq_iff_eq.1 (Bool.and_eq_true_iff.1 hbang).1
  refine carries_seq (carries_advanced (fun s1 => s1.Rests .command ctx) (by simp [hword])
    fun s1 hs1 hfaces hrests => ⟨hfaces, fun _ s2 hs2 => hrests.of_cursor (hs2.trans hs1.symm)⟩)
      fun _ s1 => ?_
  exact carries_pure rfl fun hleads => hleads.faces.rests

theorem carries_commandName (s : State) : Ysh.Carries w D g.commandName h.commandName ctx s
    (s.Leads ctx) fun _ s' => s'.Rests .command ctx := by
  refine Moving.carries_bind (fun name => by split <;> infer_instance) (carries_word hg s)
    fun name s1 _ => ?_
  have hbare : (shift w.size name).bareText? = name.bareText? := Tree.bareText?_shift w.size name
  rw [hbare]
  rcases name.bareText? with _ | text
  · exact carries_pure rfl id
  · exact carries_ite Iff.rfl (fun _ => carries_throw) fun _ => carries_pure rfl id

theorem carries_envBindings (start : Nat) (s : State) :
    Ysh.Carries w D (g.envBindings start) (h.envBindings (start + w.size)) ctx s (s.Leads ctx)
      fun _ s' => s'.Leads ctx := by
  refine carries_seq (carries_collect ParseLoop.bindings.progresses ParseLoop.bindings.progresses
    (carries_envBinding hg)) fun bindings s1 => carries_seeKind (fun hleads => hleads.faces.stays)
      (carries_ite ?_ (fun _ => ?_) fun _ => carries_pure rfl id)
  · cases bindings <;> exact Iff.rfl
  · exact carries_of_ensures fun _ => ensures_position ensures_throw

theorem carries_callBlock (allowsBlock : Bool) (s : State) :
    Ysh.Carries w D (g.callBlock allowsBlock) (h.callBlock allowsBlock) ctx s
      (s.Rests .command ctx) fun _ s' => s'.Follows ctx := by
  refine carries_peekKind id fun kind' htwin => carries_ite ?_ (fun hbrace => ?_) fun _ =>
    carries_pure rfl State.Follows.rests
  · rw [Bool.and_eq_true, Bool.and_eq_true, beq_iff_eq, beq_iff_eq,
      htwin.eq_iff (by simp) (by simp)]
  · refine (carries_seq (carries_block hg s) fun body s1 => ?_).mono
      (fun hsees => (hsees.faces (by simp)).rests) fun _ _ h => h
    refine .free (carries_seq (carries_collect (I := fun s => s.Follows ctx)
      ParseLoop.redirections.progresses ParseLoop.redirections.progresses fun s =>
        (carries_anyRedirection hg s).from fun o s' ho => ?_) fun redirections s2 => ?_)
    · cases o with
      | none => exact ho
      | some => exact State.Follows.rests ho
    · exact carries_pure rfl id

theorem carries_commandCall (allowsBlock : Bool) (s : State) :
    Ysh.Carries w D (g.commandCall allowsBlock) (h.commandCall allowsBlock) ctx s (s.Leads ctx)
      fun _ s' => s'.Follows ctx := by
  refine carries_see (fun hleads => hleads.faces.stays) ?_
  refine carries_seq (carries_lift (carries_negation s)) fun negated s1 => ?_
  refine carries_seq (carries_envBindings hg _ s1) fun bindings s2 => ?_
  refine carries_seq (carries_commandName hg s2) fun name s3 => ?_
  refine carries_seq (carries_collect ParseLoop.arguments.progresses
    ParseLoop.arguments.progresses (carries_argument hg)) fun arguments s4 => ?_
  refine carries_seq (carries_callArguments hg s4) fun callArguments s5 => ?_
  refine carries_seq (carries_callBlock hg allowsBlock s5) fun r s6 => ?_
  refine carries_position (carries_pure ?_ id)
  simp [Tree.shift]

end Grammar

end Ysh
