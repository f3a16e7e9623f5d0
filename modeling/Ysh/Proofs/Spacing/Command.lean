import Ysh.Proofs.Coverage.Command
import Ysh.Proofs.Spacing.Expression

/-!
# Commands in the Squeezed Source

What stands behind a command is looked at in several ways before a statement ends: as the
next argument, as an operator of an expression, as a redirection, as the block of a call.
`Cursor.Ending` gathers what all of them may see, and it is what a statement asks of the
text behind. A block asks less, since behind its brace nothing is read as a part of it.

An environment binding is a word that is cut at its equals sign, which is then in no leaf,
and a descriptor in front of a redirection is a number that touches the operator.

## Main definitions

* `Cursor.Stops`: A command may be looked for behind the place.
* `Cursor.Ending`: A statement may end at the place.

## Theorems

* `mirrors_block`, `mirrors_envBinding`, `mirrors_redirections`, `mirrors_argument`: The
  parts of calls.
* `retraces_variableDeclaration`, `retraces_assignment`, `mirrors_commandCall`: The simple
  statements.
-/

namespace Ysh

open Lexeme Spanned

variable {gaps : Gaps} {D : List Diagnostic} {n : Nat} {ctx : Context} {s : State}
  {origin : Nat} {seen : List Leaf}

/-! ## Words that the grammar looks for -/

theorem Token.leaves_keyword {token : Token} (h : token.text ∈ keywords) : token.Leaves [] :=
  .solid (Fixed.keyword h).solid

/-- A keyword is consumed. -/
theorem retraces_keyword {m : Type → Type} [Monad m] [MonadStateOf State m] [Reads m] {mode : Mode}
    {α : Type} [Spanned α] {x y : m Token} [IsScan x (advance mode)] [IsScan y (advance mode)]
    {f f' : Token → m α} [hf : ∀ token, Moving (f token)] {J : State → Prop}
    {total : α → List Leaf} {post : α → Cursor → Prop}
    (hkeyword : (s.next mode ctx).text ∈ keywords) (hend : (s.next mode ctx).kind ≠ .endOfInput)
    (h : ∀ s1 span, Retraces gaps D n (fun _ => True) (f (s.next mode ctx))
      (f' { s.next mode ctx with span }) ctx origin seen s1 total True post) :
    Retraces gaps D (n + 1) J (x >>= f) (y >>= f') ctx origin seen s total
      (s.cursor.Sees gaps mode ctx) post := by
  refine retraces_advance (Token.leaves_keyword hkeyword) hend fun s1 span _ => ?_
  rw [List.append_nil]
  exact (h s1 span).knowing fun _ _ => trivial

/-- The token behind the next word is the same, if it is seen. -/
theorem retraces_secondToken {α : Type} [Spanned α] {f f' : Token → Parse α} {J : State → Prop}
    {total : α → List Leaf} {pre : Prop} {post : α → Cursor → Prop}
    (hword : (s.next .command ctx).kind = .word) (hopening : pre → s.cursor.Opening gaps)
    (h : ∀ span, Retraces gaps D n J (f ((advance .command ctx s).2.next .command ctx))
      (f' { (advance .command ctx s).2.next .command ctx with span }) ctx origin seen s total pre
      post) :
    Retraces gaps D n J (liftM Grammar.secondToken >>= f) (liftM Grammar.secondToken >>= f') ctx
      origin seen s total pre post := by
  refine retraces_look (R := fun token => ∃ span, token =
    { (advance .command ctx s).2.next .command ctx with span }) (K := fun _ _ => True)
    (fun token s' hlook => ?_) ⟨((advance .command ctx s).2.next .command ctx).span, rfl⟩
    (fun hpre t ht => ?_) ?_
  · cases hlook
    exact ⟨rfl, rfl⟩
  · rcases hopening hpre with ⟨hseen, hsecond⟩
    have hafter := (hseen.shows ht.text).after
    exact ⟨(advance .command ctx t).2.next .command ctx,
      Token.eq_of_erase ((hsecond hword).shows hafter).token, trivial, rfl⟩
  · rintro token ⟨span, rfl⟩
    exact (h span).knowing fun _ => And.left

/-! ## Words as arguments -/

namespace Tree

/-- Parts that differ in spans alone are alike as arguments. -/
theorem erase_partToArgument {part part' : WordPart} (h : part'.erase = part.erase) :
    part'.partToArgument.erase = part.partToArgument.erase := by
  cases part with
  | bare run span =>
      cases part' with
      | bare run' span' =>
          cases h
          unfold partToArgument
          dsimp only
          split
          · rfl
          · split
            · rfl
            · split <;> rfl
      | _ => cases h
  | stringPart t =>
      cases part' with
      | stringPart t' =>
          exact congrArg (fun t => literalArgument (stringLiteral t)) (stringPart.inj h)
      | _ => cases h
  | expansionPart e =>
      cases part' with
      | expansionPart e' => exact congrArg expansionArgument (expansionPart.inj h)
      | _ => cases h
  | escaped value span =>
      cases part' with
      | escaped value' span' =>
          cases h
          rfl
      | _ => cases h

/-- Words that differ in spans alone are alike as arguments. -/
theorem erase_toArgument {w w' : Word} (h : w'.erase = w.erase) :
    w'.toArgument.erase = w.toArgument.erase := by
  cases w with
  | word parts span =>
      cases w' with
      | word parts' span' =>
          have hparts : parts'.erase = parts.erase := (word.inj h).1
          -- Only a word of a single part is more than a word.
          cases parts with
          | nil =>
              cases parts' with
              | nil => rfl
              | cons => cases hparts
          | cons part rest =>
              cases parts' with
              | nil => cases hparts
              | cons part' rest' =>
                  have hpart := cons.inj hparts
                  cases rest with
                  | nil =>
                      cases rest' with
                      | nil => exact erase_partToArgument hpart.1
                      | cons => cases hpart.2
                  | cons =>
                      cases rest' with
                      | nil => cases hpart.2
                      | cons => exact congrArg wordArgument h

/-- Words that differ in spans alone have the same bare text. -/
theorem bareText?_erase {c : Category} (t : Tree c) : t.erase.bareText? = t.bareText? := by
  induction t with
  | cons t ts iht ihts => simp [erase, bareText?, iht, ihts]
  | word parts span ih => simp [erase, bareText?, ih]
  | _ => rfl

end Tree

/-! ## Ends of statements -/

/-- The arguments of a command end here, in front of something that is seen. -/
structure Cursor.Stops (gaps : Gaps) (c : Cursor) : Prop where
  seen : c.Seen gaps .command false
  ends : (c.lookahead .command false).token.kind.endsArguments = true

/-- A statement ends here, in front of something that is seen, over newlines as well. -/
structure Cursor.Ending (gaps : Gaps) (c : Cursor) : Prop where
  lines : c.Seen gaps .command true
  ends : (c.lookahead .command false).token.kind.endsArguments = true

namespace Cursor

variable {c : Cursor}

theorem Ending.stops (h : c.Ending gaps) : c.Stops gaps :=
  ⟨h.lines.inLine, h.ends⟩

/-- What is not behind a word is not asked for. -/
theorem opening_of_seen (h : c.Seen gaps .command false)
    (hkind : (c.lookahead .command false).token.kind ≠ .word) : c.Opening gaps :=
  ⟨h, fun hword => absurd hword hkind⟩

theorem Stops.opening (h : c.Stops gaps) : c.Opening gaps := by
  refine opening_of_seen h.seen fun hword => ?_
  have hends := h.ends
  rw [hword] at hends
  cases hends

theorem Ending.expression (h : c.Ending gaps) (hctx : ctx.inBrackets = false) :
    c.Sees gaps .expression ctx := by
  have hseen := h.lines.inLine.inExpression h.ends
  rwa [Sees, hctx]

end Cursor

namespace Grammar

variable {g h : Grammar} [g.Stepwise] [h.Stepwise] (hg : g.Mirrors gaps D n n h)
include hg

/-! ## Declarations -/

omit [g.Stepwise] [h.Stepwise] hg in
@[simp] theorem leaf_nameOf (token : Token) : (nameOf token).leaf = token.leaf := rfl

omit [g.Stepwise] [h.Stepwise] hg in
@[simp] theorem erase_nameOf (token : Token) : (nameOf token).erase = ⟨token.text, default⟩ := rfl

omit [h.Stepwise] in
theorem mirrors_nameAndValue : Ysh.Mirrors gaps D n g.nameAndValue h.nameAndValue ctx
    (fun r => r.1.leaf :: r.2.leaves) (fun _ => True) fun _ => (·.Sees gaps .expression ctx) := by
  intro s
  refine Retraces.free (retraces_bind (P := fun _ => (·.Sees gaps .expression ctx))
    (Retraces.loose (Retraces.down mirrors_bindingName.retraces))
    fun name name' s1 hname => Retraces.down (retraces_expectAs rfl (by simp) fun s2 span _ => ?_))
  refine Retraces.free (retraces_bind (hg.expression ctx).retraces fun value value' s3 hvalue => ?_)
  exact retraces_pure (by simp_all) (by simp)

omit [h.Stepwise] in
theorem retraces_variableDeclaration (hctx : ctx.inBrackets = false)
    (hkeyword : (s.next .command ctx).text ∈ keywords)
    (hend : (s.next .command ctx).kind ≠ .endOfInput) {J : State → Prop} :
    Retraces gaps D (n + 1) J g.variableDeclaration h.variableDeclaration ctx origin seen s
      (fun t => seen ++ t.leaves) (s.cursor.Sees gaps .command ctx) fun _ => (·.Ending gaps) := by
  refine retraces_keyword hkeyword hend fun s1 span => ?_
  refine Retraces.demand (retraces_bind (mirrors_nameAndValue hg).retraces fun r r' s2 hr => ?_)
    fun _ _ hends => hends.expression hctx
  exact retraces_pure (by simp_all [Tree.erase]) (by simp [Tree.leaves])

omit [h.Stepwise] in
theorem retraces_constantDeclaration (hctx : ctx.inBrackets = false)
    (hkeyword : (s.next .command ctx).text ∈ keywords)
    (hend : (s.next .command ctx).kind ≠ .endOfInput) {J : State → Prop} :
    Retraces gaps D (n + 1) J g.constantDeclaration h.constantDeclaration ctx origin seen s
      (fun t => seen ++ t.leaves) (s.cursor.Sees gaps .command ctx) fun _ => (·.Ending gaps) := by
  refine retraces_keyword hkeyword hend fun s1 span => ?_
  refine Retraces.demand (retraces_bind (mirrors_nameAndValue hg).retraces fun r r' s2 hr => ?_)
    fun _ _ hends => hends.expression hctx
  exact retraces_pure (by simp_all [Tree.erase]) (by simp [Tree.leaves])

omit [h.Stepwise] in
/-- A constant in short is read alike. Its equals sign is seen with its name. -/
theorem retraces_shorthandConstant (hctx : ctx.inBrackets = false)
    (hname : (s.next .command ctx).kind = .word)
    (hequals : ((advance .command ctx s).2.next .command ctx).isWord "=" = true)
    {J : State → Prop} :
    Retraces gaps D (n + 1) J g.shorthandConstant h.shorthandConstant ctx origin seen s
      (fun t => seen ++ t.leaves) (s.cursor.Opening gaps) fun _ => (·.Ending gaps) := by
  refine Retraces.weaken (retraces_advanceThen (Q := (·.Sees gaps .command ctx))
    (Token.leaves_self _) (by simp [hname])
    fun s1 span hs1 _ => ?_) fun hsees => ⟨hsees.1, fun _ => hsees.2⟩
  have hnext : (s1.next .command ctx).isWord "=" = true := by
    rw [State.next_command, hs1]
    exact hequals
  refine Retraces.down (retraces_keyword ?_ ?_ fun s2 span' => ?_)
  · rw [Token.text_of_isWord hnext]
    decide
  · intro hend
    rw [Token.isWord, hend] at hnext
    cases hnext
  · refine Retraces.free (Retraces.demand (retraces_bind (hg.expression ctx).retraces
      fun value value' s3 hvalue => ?_) fun _ _ hends => hends.expression hctx)
    exact retraces_pure (by simp_all [Tree.erase]) (by simp [Tree.leaves])

omit [h.Stepwise] in
theorem mirrors_accessor : Ysh.Mirrors gaps D (n + 1) g.accessor h.accessor ctx
    (fun o => o.toList.flatMap Tree.leaves) (·.Sees gaps .expression ctx)
    fun _ => (·.Sees gaps .expression ctx) := by
  intro s
  refine retraces_peekKind id ?_
  split
  · next hkind =>
      refine retraces_fixed (by rw [hkind]; rfl) (by simp [hkind]) fun s1 span => ?_
      refine Retraces.free (Retraces.loose (retraces_bind (Retraces.down mirrors_memberName.retraces)
        fun name name' s2 hname => ?_))
      exact retraces_done (by simp_all [Tree.erase]) (by simp [Tree.leaves])
  · next hkind =>
      refine retraces_fixed (by rw [hkind]; rfl) (by simp [hkind]) fun s1 span => ?_
      refine Retraces.free (Retraces.loose (retraces_bind (mirrors_enclosed hg rfl (by simp)).retraces
        fun i i' s2 hi => retraces_position fun stop => ?_))
      exact retraces_done (by simp_all [Tree.erase]) (by simp [Tree.leaves])
  · exact retraces_pure rfl fun _ => rfl

omit [g.Stepwise] [h.Stepwise] hg in
theorem mirrors_assignmentOperator : Ysh.Mirrors gaps D (n + 1) assignmentOperator
    assignmentOperator ctx (fun _ => []) (·.Sees gaps .expression ctx) fun _ _ => True := by
  intro s
  refine retraces_peekKind id ?_
  split
  · next hkind =>
      refine retraces_fixed (by rw [hkind]; rfl) (by simp [hkind]) fun s1 span => ?_
      exact retraces_done rfl fun _ => rfl
  · exact retraces_unexpected

theorem retraces_assignment (scope : AssignmentScope) (hctx : ctx.inBrackets = false)
    (hkeyword : (s.next .command ctx).text ∈ keywords)
    (hend : (s.next .command ctx).kind ≠ .endOfInput) {J : State → Prop} :
    Retraces gaps D (n + 1) J (g.assignment scope) (h.assignment scope) ctx origin seen s
      (fun t => seen ++ t.leaves) (s.cursor.Sees gaps .command ctx) fun _ => (·.Ending gaps) := by
  refine retraces_keyword hkeyword hend fun s1 span => ?_
  refine Retraces.free (retraces_bind (P := fun _ => (·.Sees gaps .expression ctx))
    (Retraces.loose (Retraces.down mirrors_bindingName.retraces))
    fun name name' s2 hname => ?_)
  refine retraces_bind (Retraces.down (mirrors_collect (Q := (·.Sees gaps .expression ctx))
    (ParseLoop.accessors (g := g)).progresses (ParseLoop.accessors (g := h)).progresses
    fun s => Retraces.demand (mirrors_accessor hg s) ?_).retraces) fun steps steps' s3 hsteps => ?_
  · rintro (_ | _) _ hsees <;> exact hsees
  refine retraces_bind (P := fun _ => (·.Sees gaps .expression ctx))
    (Retraces.loose (Retraces.down mirrors_assignmentOperator.retraces))
    fun op op' s4 hop => ?_
  refine Retraces.demand (retraces_bind (hg.expression ctx).retraces fun value value' s5 hvalue => ?_)
    fun _ _ hends => hends.expression hctx
  exact retraces_pure (by simp_all [Tree.erase]) (by simp [Tree.leaves])

/-! ## Blocks -/

omit [g.Stepwise] [h.Stepwise] hg in
theorem mirrors_closingBraceStop {opening opening' : Span} : Ysh.Mirrors gaps D (n + 1)
    (closingBraceStop opening) (closingBraceStop opening') ctx (fun _ => [])
    (·.Sees gaps .command ctx) fun _ _ => True := by
  intro s
  have hclosing : Retraces gaps D (n + 1) (fun _ => True)
      (expectClosing .command .rightBrace opening >>= pure : Parse Token)
      (expectClosing .command .rightBrace opening' >>= pure) ctx s.cursor.offset [] s (fun _ => [])
      (s.cursor.Sees gaps .command ctx) fun _ _ => True :=
    retraces_expectClosing rfl (by simp) fun s1 span _ => retraces_done rfl fun _ => rfl
  rw [bind_pure, bind_pure] at hclosing
  exact retraces_attempt (fun r => by cases r <;> infer_instance) hclosing
    (fun _ _ s1 _ => retraces_done (by simp) fun _ => rfl) fun e s1 hq => ensures_blame hq rfl

omit [h.Stepwise] in
/-- A block is read alike. In front of it arguments end. -/
theorem mirrors_block : Ysh.Mirrors gaps D (n + 1) g.block h.block ctx Tree.leaves
    (·.Stops gaps) fun _ _ => True := by
  intro s
  refine Retraces.weaken (Retraces.only (c := (s.next .command ctx).kind = .leftBrace)
    (retraces_expectAs rfl (by simp) fun s1 span _ => ?_) fun hkind => ensures_bind
      (ensures_peekKind (ensures_ite (fun h => absurd h hkind) fun _ => ensures_unexpected)))
    fun hsees => ⟨hsees.1, by rw [← State.next_command, hsees.2]; rfl⟩
  refine Retraces.free (retraces_bind (mirrors_body hg .rightBrace).retraces fun ts us s2 hts => ?_)
  have hts : us.map Tree.erase = ts.map Tree.erase := hts
  refine retraces_bind (Retraces.down mirrors_closingBraceStop.lift.retraces) fun stop stop' s3 _ => ?_
  refine retraces_ite ?_ (fun _ => retraces_of_ensures fun hq => ?_) fun _ => ?_
  · rw [List.isEmpty_iff, List.isEmpty_iff, ← List.map_eq_nil_iff, hts, List.map_eq_nil_iff]
  · exact ensures_seq (ensures_lift (ensures_report rfl)) fun _ s4 hnot => absurd hq hnot
  · exact retraces_done (by simp [Tree.erase, hts]) (by simp [Tree.leaves])

/-! ## The parts of a call -/

omit [g.Stepwise] [h.Stepwise] hg in
theorem erase_boundWord (parts : List WordPart) (span : Span) :
    (if parts.isEmpty then .word .nil span else .ofParts parts : Word).erase
      = .word (.ofList (parts.map Tree.erase)) default := by
  cases parts with
  | nil => rfl
  | cons => exact erase_ofParts _

omit [g.Stepwise] [h.Stepwise] hg in
theorem leaves_boundWord (parts : List WordPart) (span : Span) :
    (if parts.isEmpty then .word .nil span else .ofParts parts : Word).leaves
      = parts.flatMap Tree.leaves := by
  cases parts with
  | nil => rfl
  | cons => exact Tree.leaves_ofParts _

/-- A binding is read alike. Its token is cut at the equals sign. -/
theorem mirrors_envBinding : Ysh.Mirrors gaps D (n + 1) g.envBinding h.envBinding ctx
    (fun o => o.toList.flatMap Tree.leaves) (·.Opening gaps) fun _ => (·.Opening gaps) := by
  intro s
  refine retraces_peek Cursor.Opening.seen fun span => retraces_ite Iff.rfl
    (fun _ => retraces_pure rfl fun _ => rfl) fun hword => ?_
  dsimp only
  split
  · next name value hsplit =>
      have htext := splitBinding?_eq_some hsplit
      have hleaves : (s.next .command ctx).Leaves (Identifier.leaf ⟨String.ofList name,
          .between (s.next .command ctx).span.start
            ((s.next .command ctx).span.start + byteLength name)⟩ ::
          (Tree.pushText [] value ((s.next .command ctx).span.start + byteLength name
            + '='.utf8Size)).flatMap Tree.leaves) := by
        refine .bound htext fun p => ?_
        rw [covered_cons, Tree.covered_pushText _ _ _ (Tree.touches_nil _)]
        exact congrArg (· || _) (Span.mem_between (Nat.le_add_right _ _))
      refine Retraces.weaken (retraces_advanceThen (Q := (·.Sees gaps .command ctx)) hleaves
        (by simp [Decidable.not_not.1 hword]) fun s1 span' _ hoffers => ?_)
        fun hsees => ⟨hsees.1, fun _ => hsees.2⟩
      · have hsame : ∀ offset offset', (Tree.pushText [] value offset').map Tree.erase
            = (Tree.pushText [] value offset).map Tree.erase :=
          fun _ _ => Tree.erase_pushText value (Tree.touches_nil _) (Tree.touches_nil _) rfl
        have hjoins : ∀ (token : Token) {c : Cursor} {t : State},
            token.text = (s.next .command ctx).text → c.Offers .command token t.cursor →
            Joins (Tree.pushText [] value (token.span.start + byteLength name + '='.utf8Size), true)
              t := by
          intro token c t hsame hoffers
          refine ⟨?_, fun hfirst => by cases hfirst⟩
          have hstop := hoffers.bounds.2
          rw [hsame, htext, byteLength_append, byteLength_cons, ← Nat.add_assoc, ← Nat.add_assoc]
            at hstop
          rw [hstop]
          exact Tree.touches_pushText value (Tree.touches_nil _)
        rw [List.append_cons]
        refine retraces_bind (P := fun _ => (·.Opening gaps)) (Retraces.demand (Retraces.weaken
          (Retraces.knowing (Retraces.down (retraces_wordParts hg (hsame _ _) (hjoins _ rfl hoffers)))
            ?_) And.left) fun _ _ => Cursor.Opening.seen) fun parts parts' s2 hparts => ?_
        · rintro t1 ⟨t, ⟨-, hnext⟩, -, hoffers'⟩
          rw [hnext] at hoffers'
          exact hjoins { s.next .command ctx with span } rfl hoffers'
        · have hparts : parts'.map Tree.erase = parts.map Tree.erase := hparts
          refine retraces_pure ?_ fun p => ?_
          · simp [Tree.erase, erase_boundWord, hparts, Identifier.erase, -List.isEmpty_iff]
          · simp [Tree.leaves, leaves_boundWord, -List.isEmpty_iff]
  · exact retraces_pure rfl fun _ => rfl

/-- A redirection whose operator comes next is read alike. -/
theorem retraces_redirection {descriptor : Option Nat} {start start' : Nat}
    {op : RedirectionOperator} (hop : (s.next .command ctx).kind = .redirection op)
    {J : State → Prop} :
    Retraces gaps D (n + 1) J (g.redirection descriptor start op)
      (h.redirection descriptor start' op) ctx origin seen s (fun r => seen ++ r.leaves)
      (s.cursor.Sees gaps .command ctx) fun _ => (·.Sees gaps .command ctx) := by
  refine retraces_fixed (by rw [hop]; rfl) (by simp [hop]) fun s1 span => ?_
  refine Retraces.free (retraces_peek Cursor.Opening.seen fun span' => retraces_ite Iff.rfl
    (fun _ => retraces_of_ensures fun _ => ensures_bind (ensures_throw (s := s1))) fun _ => ?_)
  refine Retraces.knowing (retraces_bind (Retraces.down (mirrors_word hg).retraces)
    fun w w' s2 hw => ?_) fun _ _ => trivial
  exact retraces_pure (by simp_all [Tree.erase]) (by simp [Tree.leaves])

/-- A descriptor is known from the operator behind it, so that is seen with it. -/
theorem mirrors_descriptorRedirection : Ysh.Mirrors gaps D (n + 1) g.descriptorRedirection
    h.descriptorRedirection ctx (fun o => o.toList.flatMap Tree.leaves) (·.Opening gaps)
    fun _ => (·.Opening gaps) := by
  intro s
  refine retraces_peek Cursor.Opening.seen fun span => retraces_ite Iff.rfl
    (fun _ => retraces_pure rfl fun _ => rfl) fun hword => ?_
  have hword := Decidable.not_not.1 hword
  dsimp only
  split
  · next descriptor hdescriptor =>
      refine retraces_secondToken hword id fun span' => ?_
      dsimp only
      split
      · next op hop =>
          refine retraces_ite Iff.rfl (fun _ => retraces_pure rfl fun _ => rfl) fun _ => ?_
          refine Retraces.weaken (retraces_advanceThen (Q := (·.Sees gaps .command ctx))
            (.solid fun x hx => ?_) (by simp [hword]) fun s1 span'' hs1 _ => ?_)
            fun hsees => ⟨hsees.1, fun _ => hsees.2⟩
          · have hdigit := Numeral.isDigit_of_digitsValue? hdescriptor x hx
            exact isSolid_of_isNamePart (isNamePart_of_isDigit hdigit)
          · refine retraces_ite Iff.rfl (fun _ => retraces_of_ensures fun _ =>
              ensures_bind (ensures_throw (s := s1))) fun _ => ?_
            have hnext : (s1.next .command ctx).kind = .redirection op := by
              rw [State.next_command, hs1]
              exact Token.Kind.eq_of_redirection? hop
            refine Retraces.demand (retraces_bind (Retraces.down (retraces_redirection hg hnext))
              fun r r' s2 hr => ?_) fun _ _ => Cursor.Opening.seen
            exact retraces_pure (by simp_all) (by simp)
      · exact retraces_pure rfl fun _ => rfl
  · exact retraces_pure rfl fun _ => rfl

theorem mirrors_anyRedirection : Ysh.Mirrors gaps D (n + 1) g.anyRedirection
    h.anyRedirection ctx (fun o => o.toList.flatMap Tree.leaves) (·.Opening gaps)
    fun _ => (·.Opening gaps) := by
  intro s
  refine retraces_peek Cursor.Opening.seen fun span => ?_
  dsimp only
  split
  · next op hop =>
      have hkind := Token.Kind.eq_of_redirection? hop
      refine Retraces.weaken (Retraces.demand (retraces_bind (retraces_redirection hg hkind)
        fun r r' s1 hr => ?_) fun _ _ => Cursor.Opening.seen) fun hsees => ?_
      · exact retraces_pure (by simp_all) (by simp)
      · refine Cursor.opening_of_seen hsees fun hword => ?_
        rw [State.next_command, hword] at hkind
        cases hkind
  · exact Retraces.knowing (mirrors_descriptorRedirection hg).retraces fun _ _ => trivial

/-- An argument is read alike, and so is the end of the arguments. -/
theorem mirrors_argument : Ysh.Mirrors gaps D (n + 1) g.argument h.argument ctx
    (fun o => o.toList.flatMap Tree.leaves) (·.Opening gaps)
    fun o => o.elim (·.Sees gaps .command ctx) fun _ => (·.Opening gaps) := by
  intro s
  refine retraces_peekKind Cursor.Opening.seen (retraces_ite Iff.rfl (fun hends => ?_) fun _ =>
    retraces_ite Iff.rfl (fun _ => retraces_unexpected) fun _ => ?_)
  · refine Retraces.weaken (retraces_pure rfl fun _ => rfl) fun hsees => ?_
    exact Cursor.Stops.opening ⟨hsees, hends⟩
  · refine Moving.retraces_bind (fun r => by cases r <;> infer_instance)
      (mirrors_anyRedirection hg).retraces fun r r' s1 hr => ?_
    cases r with
    | none =>
        cases r' with
        | some _ => cases hr
        | none =>
            refine retraces_bind (P := fun _ => (·.Opening gaps)) (Retraces.demand
              (mirrors_word hg).retraces fun _ _ => Cursor.Opening.seen) fun w w' s2 hw => ?_
            exact retraces_pure (congrArg some (Tree.erase_toArgument hw))
              fun _ => by simp [Tree.leaves_toArgument]
    | some r =>
        cases r' with
        | none => cases hr
        | some r' =>
            exact retraces_pure
              (congrArg some (congrArg Tree.redirectionArgument (Option.some.inj hr)))
              fun _ => by simp [Tree.leaves]

/-- Arguments in parentheses are read alike, and touch what is in front of them or not. -/
theorem mirrors_callArguments (hctx : ctx.inBrackets = false) : Ysh.Mirrors gaps D (n + 1)
    g.callArguments h.callArguments ctx (fun o => o.toList.flatMap Tree.leaves)
    (·.Sees gaps .command ctx) fun _ => (·.Sees gaps .command ctx) := by
  intro s
  have hlist : ∀ {J : State → Prop} {s1 : State}, s1.cursor = s.cursor →
      Retraces gaps D (n + 1) J (do return some (← g.argumentList) : Parse (Option ArgumentList))
        (do return some (← h.argumentList)) ctx s.cursor.offset [] s1
        (fun o => o.toList.flatMap Tree.leaves) (s.cursor.Sees gaps .command ctx)
        fun _ => (·.Sees gaps .command ctx) := by
    intro J s1 hs1
    rw [← hs1]
    refine Retraces.weaken (Retraces.only (c := (s1.next .expression ctx).kind = .leftParen)
      (retraces_bind (P := fun _ _ => True) (mirrors_argumentList hg).retraces
        fun l l' s2 hl => Retraces.loose (retraces_done (congrArg some hl) (by simp)))
          fun hkind => ?_) fun ⟨hsees, hkind⟩ => ?_
    · exact ensures_bind (ensures_bind (ensures_peekKind
        (ensures_ite (fun h => absurd h hkind) fun _ => ensures_unexpected)))
    · -- It is the same parenthesis in either mode.
      rw [Cursor.Sees, hctx] at hsees
      rw [State.next, hctx] at hkind
      exact hsees.inCommand hkind
  refine retraces_peek id fun span => retraces_ite Iff.rfl (fun _ => retraces_pure rfl fun _ => rfl)
    fun hkind => retraces_ite Iff.rfl (fun _ => ?_) fun _ => hlist rfl
  exact retraces_report (by rfl) fun s1 hs1 => hlist hs1

/-! ## Calls -/

omit [g.Stepwise] [h.Stepwise] hg in
theorem mirrors_negation : Ysh.Mirrors gaps D (n + 1) negation negation ctx (fun _ => [])
    (·.Opening gaps) fun _ => (·.Opening gaps) := by
  intro s
  refine retraces_peekWord Cursor.Opening.seen (retraces_ite Iff.rfl (fun hbang => ?_) fun _ =>
    retraces_pure rfl fun _ => rfl)
  refine Retraces.weaken (retraces_advanceThen (Q := (·.Sees gaps .command ctx))
    (Token.leaves_keyword ?_) (fun hend => ?_) fun s1 span _ _ => ?_)
    fun hsees => ⟨hsees.1, fun _ => hsees.2⟩
  · rw [Token.text_of_isWord hbang]
    decide
  · rw [Token.isWord, hend] at hbang
    cases hbang
  · exact Retraces.weaken (retraces_pure rfl fun _ => rfl) Cursor.Opening.seen

theorem mirrors_commandName : Ysh.Mirrors gaps D (n + 1) g.commandName h.commandName ctx
    Tree.leaves (·.Opening gaps) fun _ => (·.Sees gaps .command ctx) := by
  intro s
  refine Moving.retraces_bind (fun w => by split <;> infer_instance) (mirrors_word hg).retraces
    fun w w' s1 hw => ?_
  have hbare : w'.bareText? = w.bareText? := by
    rw [← w'.bareText?_erase, show w'.erase = w.erase from hw, w.bareText?_erase]
  rw [hbare]
  split
  · exact retraces_ite Iff.rfl (fun _ => retraces_throw) fun _ => retraces_pure hw fun _ => rfl
  · exact retraces_pure hw fun _ => rfl

theorem mirrors_envBindings {start start' : Nat} : Ysh.Mirrors gaps D (n + 1)
    (g.envBindings start) (h.envBindings start') ctx (·.flatMap Tree.leaves) (·.Opening gaps)
    fun _ => (·.Opening gaps) := by
  intro s
  refine retraces_bind (mirrors_collect (Q := (·.Opening gaps))
    (ParseLoop.bindings (g := g)).progresses (ParseLoop.bindings (g := h)).progresses
    fun s => Retraces.demand (mirrors_envBinding hg s) ?_).retraces fun bindings bindings' s1 hb => ?_
  · rintro (_ | _) _ hopening <;> exact hopening
  · have hb : bindings'.map Tree.erase = bindings.map Tree.erase := hb
    refine retraces_peekKind Cursor.Opening.seen (retraces_ite ?_ (fun _ => ?_) fun _ => ?_)
    · rw [← List.isEmpty_map (f := Tree.erase), hb, List.isEmpty_map]
    · exact retraces_of_ensures fun _ => ensures_position ensures_throw
    · exact retraces_pure hb fun _ => rfl

theorem mirrors_redirections : Ysh.Mirrors gaps D (n + 1) (collect g.anyRedirection)
    (collect h.anyRedirection) ctx (·.flatMap Tree.leaves) (·.Opening gaps)
    fun _ => (·.Opening gaps) := by
  refine mirrors_collect (ParseLoop.redirections (g := g)).progresses
    (ParseLoop.redirections (g := h)).progresses
    fun s => Retraces.demand (mirrors_anyRedirection hg s) ?_
  rintro (_ | _) _ hopening <;> exact hopening

theorem mirrors_callBlock (allowsBlock : Bool) : Ysh.Mirrors gaps D (n + 1)
    (g.callBlock allowsBlock) (h.callBlock allowsBlock) ctx
    (fun r => r.1.toList.flatMap Tree.leaves ++ r.2.flatMap Tree.leaves)
    (·.Sees gaps .command ctx) fun _ => (·.Stops gaps) := by
  intro s
  refine retraces_peekKind id (retraces_ite Iff.rfl (fun _ => ?_) fun _ => ?_)
  · refine Retraces.weaken (retraces_bind (P := fun _ _ => True) (mirrors_block hg).retraces
      fun body body' s1 hbody => ?_) Cursor.Stops.seen
    refine Retraces.free (Retraces.demand (retraces_bind (mirrors_redirections hg).retraces
      fun rs rs' s2 hrs => ?_) fun _ _ => Cursor.Stops.opening)
    exact retraces_pure (by simp_all) (by simp)
  · exact Retraces.weaken (retraces_pure rfl fun _ => rfl) Cursor.Stops.seen

/-- A call is read alike. -/
theorem mirrors_commandCall (allowsBlock : Bool) (hctx : ctx.inBrackets = false) :
    Ysh.Mirrors gaps D (n + 1) (g.commandCall allowsBlock) (h.commandCall allowsBlock) ctx
      Tree.leaves (·.Opening gaps) fun _ => (·.Stops gaps) := by
  intro s
  refine retraces_peek Cursor.Opening.seen fun span => Retraces.knowing ?_ fun _ _ => trivial
  refine retraces_bind mirrors_negation.lift.retraces fun negated negated' s1 hnegated => ?_
  refine retraces_bind (mirrors_envBindings hg).retraces fun bindings bindings' s2 hbindings => ?_
  refine retraces_bind (P := fun _ => (·.Opening gaps)) (Retraces.demand
    (mirrors_commandName hg).retraces fun _ _ => Cursor.Opening.seen) fun name name' s3 hname => ?_
  refine retraces_bind (mirrors_collect (ParseLoop.arguments (g := g)).progresses
    (ParseLoop.arguments (g := h)).progresses (mirrors_argument hg)).retraces
    fun arguments arguments' s4 harguments => ?_
  refine retraces_bind (mirrors_callArguments hg hctx).retraces fun as as' s5 has => ?_
  refine retraces_bind (mirrors_callBlock hg allowsBlock).retraces fun r r' s6 hr => ?_
  refine retraces_position fun stop => retraces_pure ?_ ?_
  · simp_all [Tree.erase]
  · simp [Tree.leaves]

end Grammar

end Ysh
