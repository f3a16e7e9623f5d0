import Ysh.Proofs.Layout.Expression

/-!
# Layout of Declarations and Commands

The parts of a command stand one behind the other, but not all of them start where
the command does: a negation in front is no node. So the call is laid from its first
token, and what is collected in front of its name may start with that token too.

## Theorems

* `Grammar.lands_block`: A block ends behind its brace, or where one is missing.
* `Laid.toArgument`: What a word is as an argument stands where the word does.
* `Grammar.places_commandCall`: A call is laid from its first token on.
-/

namespace Ysh

/-! ## Arguments from words -/

section

variable {source : String} {a b : Nat}

/-- The only part of a word is laid where the word is. -/
theorem Laid.part {part : WordPart} {span : Span}
    (h : Laid source a (Tree.word (.cons part .nil) span) b) : Laid source a part b := by
  have hinside : Tiles source span.start [part.span] span.stop := h.neat _ List.mem_cons_self
  have hends := h.ends
  have hneat : part.Neat source := by
    intro n hn
    refine h.neat n (List.mem_cons_of_mem _ ?_)
    change n ∈ part.nodes ++ []
    rwa [List.append_nil]
  exact ((Laid.of hinside hneat).after hends.1 h.tiles.boundary).upTo hends.2
    h.tiles.boundary_stop

theorem Laid.partToArgument {part : WordPart} (h : Laid source a part b) :
    Laid source a part.partToArgument b := by
  have hleaf : ∀ l : Literal, l.span = part.span → l.children = [] → l.nodes = [⟨_, l⟩] →
      Laid source a (Tree.literalArgument l) b := by
    intro l hspan hchildren hnodes
    have hl : Laid source a l b := .leaf (hspan ▸ h.tiles) hchildren hnodes
    exact .wrap hl rfl rfl rfl
  have hword : Laid source a (Tree.wordArgument (.word (.cons part .nil) part.span)) b := by
    have hinside : Laid source part.span.start (Tree.word (.cons part .nil) part.span)
        part.span.stop := by
      refine .enclose (N := part.nodes ++ []) h.tight.tiles ?_ rfl ?_
      · have hle := part.span.start_le_stop
        change part.span = .between part.span.start part.span.stop
        simp only [Span.between, Nat.min_eq_left hle, Nat.max_eq_right hle]
      · rw [List.append_nil]
        exact h.neat
    have hends := h.ends
    exact .wrap ((hinside.after hends.1 h.tiles.boundary).upTo hends.2 h.tiles.boundary_stop)
      rfl rfl rfl
  cases part with
  | bare =>
      unfold Tree.partToArgument
      dsimp only
      repeat' split
      · exact hleaf _ rfl rfl rfl
      · exact hleaf _ rfl rfl rfl
      · exact hleaf _ rfl rfl rfl
      · exact hword
  | escaped => exact hword
  | stringPart t =>
      have ht : Laid source a t b := .of h.tiles fun n hn => h.neat n (List.mem_cons_of_mem _ hn)
      have hl : Laid source a (Tree.stringLiteral t) b := .wrap ht rfl rfl rfl
      exact .wrap hl rfl rfl rfl
  | expansionPart e =>
      have he : Laid source a e b := .of h.tiles fun n hn => h.neat n (List.mem_cons_of_mem _ hn)
      exact .wrap he rfl rfl rfl

/-- What a word is as an argument stands where the word does. -/
theorem Laid.toArgument {w : Word} (h : Laid source a w b) : Laid source a w.toArgument b := by
  cases w with
  | word parts span =>
      cases parts with
      | nil => exact .wrap h rfl rfl rfl
      | cons part parts =>
          cases parts with
          | nil => exact h.part.partToArgument
          | cons next parts => exact .wrap h rfl rfl rfl

end

namespace Grammar

variable {source : String} {g : Grammar} (hg : g.Placing source)
include hg

/-! ## Declarations -/

/-- A node that starts with its keyword and goes on behind it. -/
theorem lands_nameAndValue (ctx : Context) (s : State) :
    Lands source g.nameAndValue ctx s fun r s' =>
      Tiles source s.cursor.offset [r.1.span, r.2.span] s'.cursor.offset ∧ r.2.Neat source := by
  refine lands_of_sound fun hs => ?_
  refine lands_bind (lands_bindingName ctx s) fun name s1 _ _ hname => ?_
  refine lands_expectAs fun s2 hs2 hgives => ?_
  refine lands_bind (hg.expression.behind ctx s2) fun value s3 _ _ hvalue => lands_pure fun _ => ?_
  have hname := hname.after (hs.offset_le_front .expression ctx) hs.boundary
  exact ⟨(hname.upTo hgives.offset_le hs2.boundary).append hvalue.tiles, hvalue.neat⟩

theorem places_variableDeclaration : Places source .command g.variableDeclaration := by
  intro ctx s
  refine lands_next fun s1 _ hgives => ?_
  refine lands_bind (lands_nameAndValue hg ctx s1) fun ⟨name, value⟩ s2 _ _ h => lands_pure fun _ => ?_
  exact .untilLast (hgives.starts h.1) rfl rfl rfl h.2

theorem places_constantDeclaration : Places source .command g.constantDeclaration := by
  intro ctx s
  refine lands_next fun s1 _ hgives => ?_
  refine lands_bind (lands_nameAndValue hg ctx s1) fun ⟨name, value⟩ s2 _ _ h => lands_pure fun _ => ?_
  exact .untilLast (hgives.starts h.1) rfl rfl rfl h.2

theorem places_shorthandConstant : Places source .command g.shorthandConstant := by
  intro ctx s
  refine lands_next fun s1 _ hname => ?_
  refine lands_next fun s2 hs2 hequals => ?_
  refine lands_bind (hg.expression.behind ctx s2) fun value s3 _ _ hvalue => lands_pure fun _ => ?_
  have hinside := (hname.tiles.upTo hequals.offset_le hs2.boundary).append hvalue.tiles
  exact .ofEnds hinside rfl rfl rfl rfl hvalue.neat

theorem lands_accessor (ctx : Context) (s : State) :
    Lands source g.accessor ctx s (LaidAny source s.cursor.offset s) := by
  refine lands_of_sound fun hs => lands_peekKind ?_
  split
  · refine lands_next fun s1 hs1 hgives => ?_
    refine lands_bind (lands_memberName ctx s1) fun name s2 _ _ hname => lands_pure fun _ => ?_
    have hname := hname.after (hs1.offset_le_front .expression ctx) hs1.boundary
    exact Laid.after (.untilLast (hgives.starts hname) rfl rfl rfl (by simp)) hgives.start hs.boundary
  · refine lands_next fun s1 hs1 hgives => ?_
    refine lands_bind (lands_enclosed hg hgives.lies.fits ctx s1) fun e s2 _ _ he => ?_
    refine lands_position (lands_pure fun _ => ?_)
    exact Laid.after (.enclose (hgives.starts he.tiles) rfl rfl he.neat) hgives.start hs.boundary
  · exact lands_pure fun _ => rfl

omit hg in
theorem lands_assignmentOperator (ctx : Context) (s : State) :
    Lands source assignmentOperator ctx s fun _ _ => True := by
  refine lands_peekKind ?_
  split
  · exact lands_next fun s1 _ _ => lands_pure fun _ => trivial
  · exact lands_unexpected

theorem places_assignment (scope : AssignmentScope) :
    Places source .command (g.assignment scope) := by
  intro ctx s
  refine lands_next fun s1 hs1 hgives => ?_
  refine lands_bind (lands_bindingName ctx s1) fun name s2 _ _ hname => ?_
  refine lands_bind (lands_collectBehind ctx s2 (lands_accessor hg ctx)) fun steps s3 _ _ hsteps => ?_
  refine lands_bind (lands_assignmentOperator ctx s3) fun op s4 hs4 hle4 _ => ?_
  refine lands_bind (hg.expression.behind ctx s4) fun value s5 _ _ hvalue => lands_pure fun _ => ?_
  have hname := hname.after (hs1.offset_le_front .expression ctx) hs1.boundary
  have hinside := hname.append ((hsteps.upTo hle4 hs4.boundary).tiles_children.append hvalue.tiles)
  exact .untilLast (hgives.starts hinside)
    (List.getLast?_concat (l := name.span :: (Tree.ofList steps).children)) rfl rfl
    (List.forall_mem_append.2 ⟨hsteps.ofList_neat, hvalue.neat⟩)

/-! ## Blocks -/

omit hg in
/-- The brace that closes a block, or where one is missing. -/
theorem lands_closingBraceStop {opening : Span} (hopening : opening.Fits source) (ctx : Context)
    (s : State) : Lands source (closingBraceStop opening) ctx s fun stop s' =>
      stop = s'.cursor.offset := by
  have hclose : Lands source (expectClosing .command .rightBrace opening) ctx s fun token s' =>
      token.span.stop = s'.cursor.offset := by
    rw [← bind_pure (expectClosing .command .rightBrace opening)]
    exact lands_expectClosing hopening fun s1 _ hgives => lands_pure fun _ => hgives.stop
  refine lands_bind (lands_attempt hclose) fun r s1 _ _ hr => ?_
  cases r with
  | ok token => exact lands_pure fun _ => hr
  | error e =>
      refine lands_bind (lands_report fun _ => hr) fun _ s2 _ _ _ => ?_
      exact Scan.lands_position (lands_pure fun _ => rfl)

theorem places_block : Places source .command g.block := by
  intro ctx s
  refine lands_expectAs fun s1 _ hgives => ?_
  refine lands_bind (lands_body hg _ ctx s1) fun statements s2 _ _ h => ?_
  refine lands_bind (lands_lift (lands_closingBraceStop hgives.lies.fits ctx s2))
    fun stop s3 hs3 hle hstop => ?_
  subst hstop
  have hinside : LaidEach source (s.front .command ctx) statements s3.cursor.offset :=
    (h.after (Nat.le_trans (s.next .command ctx).span.start_le_stop (Nat.le_of_eq hgives.stop))
      hgives.lies.fits.1).upTo hle hs3.boundary
  have hblock : ∀ s' : State, s'.cursor = s3.cursor → Laid source (s.front .command ctx)
      (Tree.block (.ofList statements) ((s.next .command ctx).span.upTo s3.cursor.offset))
        s'.cursor.offset := by
    intro s' hs'
    rw [hs']
    exact .enclose hinside.tiles_children rfl rfl hinside.ofList_neat
  refine lands_ite (fun _ => ?_) fun _ => lands_pure fun _ => hblock s3 rfl
  refine lands_bind (lands_lift (lands_report fun _ =>
    Span.Fits.between hgives.lies.fits.1 hs3.boundary)) fun _ s4 _ _ hs4 => ?_
  exact lands_pure fun _ => hblock s4 hs4

/-! ## The parts of a call -/

omit hg in
/-- A binding is a name, an equals sign and the start of a value. -/
theorem splitBinding?_eq_some {text name value : List Char}
    (h : splitBinding? text = some (name, value)) : text = name ++ '=' :: value := by
  unfold splitBinding? at h
  dsimp only at h
  have hsplit := List.takeWhile_append_dropWhile (p := (· ≠ '=')) (l := text)
  split at h
  · case h_1 x rest hdrop =>
      split at h
      · cases h
        have hx : decide (x ≠ '=') = false := by
          have hhead := List.head?_dropWhile_not (· ≠ '=') text
          rw [hdrop] at hhead
          simpa using hhead
        rw [hdrop] at hsplit
        have hx : x = '=' := by simpa using hx
        subst hx
        exact hsplit.symm
      · cases h
  · cases h

omit hg in
/-- The value of a binding, which may be nothing at all. -/
theorem laid_value (stop : Nat) {parts : List WordPart} {a b : Nat} (h : LaidEach source a parts b)
    (hle : a ≤ stop) (hstop : Boundary source stop) (hb : stop ≤ b) :
    Laid source a (if parts.isEmpty then .word .nil (.emptyAt stop) else .ofParts parts : Word)
      b := by
  rcases parts with _ | ⟨part, parts⟩
  · have hnil : LaidEach source stop ([] : List WordPart) stop :=
      .nil (Nat.le_refl _) hstop hstop
    have hword : Laid source stop (Tree.word .nil (.emptyAt stop)) stop := by
      refine .enclose hnil.tiles_children ?_ rfl hnil.ofList_neat
      change Span.emptyAt _ = _
      simp [Span.emptyAt, Span.between]
    exact (hword.after hle h.tiles.boundary).upTo hb h.tiles.boundary_stop
  · exact h.ofParts (by simp)

theorem lands_envBinding (ctx : Context) (s : State) :
    Lands source g.envBinding ctx s (LaidAny source (s.front .command ctx) s) := by
  refine lands_peek (lands_ite (fun _ => lands_pure fun _ => rfl) fun _ => ?_)
  split
  · case h_1 name value hsplit =>
      have htext := splitBinding?_eq_some hsplit
      refine lands_next fun s1 hs1 hgives => ?_
      have hlies := hgives.lies.text
      have hend := hgives.lies.stop
      rw [htext] at hlies hend
      have hname := hlies.left
      have hequals : LiesAt source _ (['='] ++ value) := hlies.right
      have hvalue := hequals.right
      have hlength : byteLength ['='] = '='.utf8Size := by simp
      rw [hlength] at hvalue
      rw [byteLength_append, byteLength_cons] at hend
      have hspan : Tiles source (s.next .command ctx).span.start
          [.between (s.next .command ctx).span.start
            ((s.next .command ctx).span.start + byteLength name)]
          ((s.next .command ctx).span.start + byteLength name + '='.utf8Size) :=
        (Tiles.enclose (.nil (Nat.le_add_right _ _) hname.boundary hname.boundary_stop)).upTo
          (Nat.le_add_right _ _) hvalue.boundary
      have hparts := LaidEach.pushText value _ hvalue
        (.nil (Nat.le_refl _) hvalue.boundary hvalue.boundary)
      have hbehind : (s.next .command ctx).span.start + byteLength name + '='.utf8Size +
          byteLength value = s1.cursor.offset := by
        rw [← hgives.stop]
        omega
      rw [hbehind] at hparts
      refine lands_bind (lands_wordParts hg ctx s1 (fun _ => hparts) (by simp))
        fun parts s2 hs2 hle h => lands_pure fun _ => ?_
      have hstop := hgives.stop
      have hword := laid_value (s.next .command ctx).span.stop (h (.inl rfl)) (by omega)
        hgives.lies.fits.2 (by omega)
      generalize (if parts.isEmpty then .word .nil (.emptyAt (s.next .command ctx).span.stop)
        else .ofParts parts : Word) = w at hword ⊢
      have hends := hword.ends
      have hinside := (hspan.append (hword.tight.after hends.1 hvalue.boundary).tiles).upTo
        (Nat.le_max_left w.span.stop (s.next .command ctx).span.stop) ?_
      · refine Laid.upTo (.enclose hinside rfl rfl hword.neat) ?_ hs2.boundary
        exact Nat.max_le.2 ⟨hends.2, by omega⟩
      · rcases Nat.le_total w.span.stop (s.next .command ctx).span.stop with hmax | hmax
        · rw [Nat.max_eq_right hmax]
          exact hgives.lies.fits.2
        · rw [Nat.max_eq_left hmax]
          exact hword.tight.tiles.boundary_stop
  · exact lands_pure fun _ => rfl

/-- A redirection starts where its descriptor does, if it has one. -/
theorem lands_redirection {descriptor : Option Nat} {start : Nat} {op : RedirectionOperator}
    (ctx : Context) (s : State) (hstart : Boundary source start)
    (hle : s.Sound source → start ≤ s.front .command ctx) :
    Lands source (g.redirection descriptor start op) ctx s fun r s' =>
      Laid source start r s'.cursor.offset := by
  refine lands_of_sound fun hs => lands_next fun s1 hs1 hgives => lands_peek ?_
  have htarget : Lands source (do
      let w ← g.word
      return .redirection descriptor op w (.between start w.span.stop) : Parse Redirection) ctx s1
      fun r s' => Laid source start r s'.cursor.offset := by
    refine lands_bind ((places_word hg).behind ctx s1) fun w s2 _ _ hw => lands_pure fun _ => ?_
    have hbefore : start ≤ s1.cursor.offset := by
      rw [← hgives.stop]
      exact Nat.le_trans (hle hs) (s.next .command ctx).span.start_le_stop
    exact .untilLast (hw.after hbefore hstart).tiles rfl rfl rfl hw.neat
  exact lands_ite (fun _ => lands_throw fun hs => (hs.next .command ctx).fits) fun _ => htarget

omit hg in
theorem lands_secondToken {α : Type} {f : Token → Parse α} {Q : α → State → Prop} (ctx : Context)
    (s : State) (h : ∀ token, Lands source (f token) ctx s Q) :
    Lands source (liftM secondToken >>= f) ctx s Q :=
  h _

theorem lands_descriptorRedirection (ctx : Context) (s : State) :
    Lands source g.descriptorRedirection ctx s (LaidAny source (s.front .command ctx) s) := by
  have hnone : Lands source (pure none : Parse (Option Redirection)) ctx s
      (LaidAny source (s.front .command ctx) s) := lands_pure fun _ => rfl
  refine lands_peek (lands_ite (fun _ => hnone) fun _ => ?_)
  split
  · refine lands_secondToken ctx s fun next => ?_
    split
    · refine lands_ite (fun _ => hnone) fun _ => lands_next fun s1 hs1 hgives => ?_
      refine lands_ite (fun _ => lands_throw fun _ => hgives.lies.fits) fun _ => ?_
      refine lands_bind (lands_redirection hg ctx s1 hgives.lies.fits.1 fun _ => ?_)
        fun r s2 _ _ hr => lands_pure fun _ => hr
      exact Nat.le_trans (Nat.le_trans (s.next .command ctx).span.start_le_stop
        (Nat.le_of_eq hgives.stop)) (hs1.offset_le_front .command ctx)
    · exact hnone
  · exact hnone

theorem lands_anyRedirection (ctx : Context) (s : State) :
    Lands source g.anyRedirection ctx s (LaidAny source (s.front .command ctx) s) := by
  refine lands_of_sound fun hs => lands_peek ?_
  split
  · refine lands_bind (lands_redirection hg ctx s (hs.boundary_front .command ctx)
      fun _ => Nat.le_refl _) fun r s1 _ _ hr => lands_pure fun _ => hr
  · exact lands_descriptorRedirection hg ctx s

theorem lands_argument (ctx : Context) (s : State) :
    Lands source g.argument ctx s (LaidAny source s.cursor.offset s) := by
  refine lands_of_sound fun hs => lands_peekKind (lands_ite (fun _ => lands_pure fun _ => rfl)
    fun _ => lands_ite (fun _ => lands_unexpected) fun _ => ?_)
  refine lands_bind (lands_anyRedirection hg ctx s) fun r s1 _ hle hr => ?_
  cases r with
  | some r =>
      refine lands_pure fun _ => ?_
      have hargument : Laid source (s.front .command ctx) (Tree.redirectionArgument r)
        s1.cursor.offset := .wrap hr rfl rfl rfl
      exact hargument.after (hs.offset_le_front .command ctx) hs.boundary
  | none =>
      refine lands_bind ((places_word hg).behind ctx s1) fun w s2 _ _ hw => lands_pure fun _ => ?_
      exact (hw.after hle hs.boundary).toArgument

theorem lands_callArguments (ctx : Context) (s : State) :
    Lands source g.callArguments ctx s fun o s' =>
      LaidEach source s.cursor.offset o.toList s'.cursor.offset := by
  refine lands_of_sound fun hs => lands_peek (lands_ite (fun _ => lands_pure fun _ =>
    .nil (Nat.le_refl _) hs.boundary hs.boundary) fun _ => ?_)
  have hlist : ∀ s1 : State, s1.cursor = s.cursor → Lands source (do
      return some (← g.argumentList) : Parse (Option ArgumentList)) ctx s1 fun o s' =>
        LaidEach source s.cursor.offset o.toList s'.cursor.offset := by
    intro s1 hs1
    rw [← hs1]
    exact lands_bind ((places_argumentList hg).behind ctx s1) fun l s2 _ _ hl =>
      lands_pure fun _ => hl
  refine lands_ite (fun _ => ?_) fun _ => hlist s rfl
  refine lands_bind (lands_lift (lands_report fun _ => (hs.next .command ctx).fits))
    fun _ s1 _ _ hs1 => hlist s1 hs1

/-! ## Calls -/

omit hg in
/-- A negation moves the place where the rest of a call may start, if anything. -/
theorem lands_negation (ctx : Context) (s : State) :
    Lands source negation ctx s fun _ s' => s.front .command ctx ≤ s'.front .command ctx := by
  refine lands_bind (P := fun _ s1 => s1 = s) (fun hs => ⟨hs, Nat.le_refl _, rfl⟩) ?_
  intro found s1 _ _ hs1
  subst hs1
  refine lands_ite (fun _ => ?_) fun _ => lands_pure fun _ => Nat.le_refl _
  refine Scan.lands_next fun s2 hs2 hgives => lands_pure fun _ => ?_
  exact Nat.le_trans (Nat.le_trans (s1.next .command ctx).span.start_le_stop
    (Nat.le_of_eq hgives.stop)) (hs2.offset_le_front .command ctx)

theorem places_commandName : Places source .command g.commandName := by
  intro ctx s
  refine lands_bind (places_word hg ctx s) fun w s1 _ _ hw => ?_
  have hends := hw.tight.tiles
  split
  · exact lands_ite (fun _ => lands_throw fun _ => ⟨hends.boundary, hends.boundary_stop⟩)
      fun _ => lands_pure fun _ => hw
  · exact lands_pure fun _ => hw

theorem lands_envBindings {start : Nat} (ctx : Context) (s : State)
    (hstart : start ≤ s.front .command ctx) (hbefore : Boundary source start) :
    Lands source (g.envBindings start) ctx s fun bindings s' =>
      LaidEach source start bindings (s'.front .command ctx) := by
  have hlow : ∀ s : State, s.Sound source →
      s.cursor.offset ≤ s.front .command ctx ∧ Boundary source (s.front .command ctx) :=
    fun s hs => ⟨hs.offset_le_front .command ctx, hs.boundary_front .command ctx⟩
  have hsame : ∀ s s' : State, s'.cursor = s.cursor →
      s'.front .command ctx = s.front .command ctx := by
    intro s s' h
    unfold State.front State.next
    rw [h]
  refine lands_bind (lands_collectFrom hlow hsame (lands_envBinding hg ctx) hstart hbefore)
    fun bindings s1 _ _ h => ?_
  refine lands_bind (P := fun _ s2 => s2 = s1) (x := (liftM (peekKind .command) : Parse _))
    (fun hs => ⟨hs, Nat.le_refl _, rfl⟩) fun kind s2 _ _ hs2 => ?_
  subst hs2
  refine lands_ite (fun _ => lands_position (lands_throw fun hs => ?_)) fun _ =>
    lands_pure fun _ => h
  exact Span.Fits.between hbefore hs.boundary

theorem lands_callBlock (allowsBlock : Bool) (ctx : Context) (s : State) :
    Lands source (g.callBlock allowsBlock) ctx s fun r s' =>
      ∃ b, LaidEach source s.cursor.offset r.1.toList b ∧ LaidEach source b r.2 s'.cursor.offset := by
  refine lands_of_sound fun hs => lands_peekKind (lands_ite (fun _ => ?_) fun _ => ?_)
  · refine lands_bind ((places_block hg).behind ctx s) fun body s1 _ _ hbody => ?_
    refine lands_bind (lands_collectBehind ctx s1 fun s => (lands_anyRedirection hg ctx s).behind)
      fun redirections s2 _ _ hredirections => lands_pure fun _ => ?_
    exact ⟨_, hbody, hredirections⟩
  · exact lands_pure fun _ => ⟨_, .nil (Nat.le_refl _) hs.boundary hs.boundary,
      .nil (Nat.le_refl _) hs.boundary hs.boundary⟩

/-- A call is laid from its first token on. -/
theorem places_commandCall (allowsBlock : Bool) :
    Places source .command (g.commandCall allowsBlock) := by
  intro ctx s
  refine lands_of_sound fun hs => lands_peek ?_
  refine lands_bind (lands_lift (lands_negation ctx s)) fun negated s1 _ _ hnegated => ?_
  refine lands_bind (lands_envBindings hg ctx s1 hnegated (hs.boundary_front .command ctx))
    fun bindings s2 _ _ hbindings => ?_
  refine lands_bind (places_commandName hg ctx s2) fun name s3 _ _ hname => ?_
  refine lands_bind (lands_collectBehind ctx s3 (lands_argument hg ctx))
    fun arguments s4 _ _ harguments => ?_
  refine lands_bind (lands_callArguments hg ctx s4) fun callArguments s5 _ _ hcall => ?_
  refine lands_bind (lands_callBlock hg allowsBlock ctx s5) ?_
  rintro ⟨body, redirections⟩ s6 _ _ ⟨b, hbody, hredirections⟩
  refine lands_position (lands_pure fun _ => ?_)
  have hinside := hbindings.tiles_children.append (hname.tiles.append
    (harguments.tiles_children.append (hcall.tiles_option.append
      (hbody.tiles_option.append hredirections.tiles_children))))
  refine .enclose (N := _ ++ _ ++ _ ++ _ ++ _ ++ _) hinside rfl rfl ?_
  simp only [List.forall_mem_append]
  exact ⟨⟨⟨⟨⟨hbindings.ofList_neat, hname.neat⟩, harguments.ofList_neat⟩, hcall.ofOption_neat⟩,
    hbody.ofOption_neat⟩, hredirections.ofList_neat⟩

end Grammar

end Ysh
