import Ysh.Proofs.Coverage.Expression
import Ysh.Proofs.Spacing.Word

/-!
# Expressions in the Squeezed Source

In expressions spacing means nothing, and every production asks the same of the text behind
it as of the text in front: that the next token is seen, past newlines if it is inside of
brackets. Only word lists are read in the mode of commands, and only an eggex is read as it
stands.

## Theorems

* `mirrors_primary`, `mirrors_postfixed`, `mirrors_unary`, `mirrors_levels`: From the
  inside out.
* `mirrors_expressionBody`: Expressions.
-/

namespace Ysh

open Lexeme Spanned

namespace Grammar

variable {gaps : Gaps} {D : List Diagnostic} {n : Nat} {g h : Grammar} [g.Stepwise]
  [h.Stepwise] {ctx : Context} {s : State} {origin : Nat} {seen : List Leaf}

/-! ## Names -/

theorem mirrors_bindingName : Ysh.Mirrors gaps D (n + 1) bindingName bindingName ctx
    (fun name => [name.leaf]) (·.Sees gaps .expression ctx) fun _ _ => True := by
  intro s
  refine retraces_peek id fun span => retraces_ite Iff.rfl (fun hkind => ?_) fun _ => retraces_throw
  refine retraces_ite Iff.rfl (fun _ => retraces_of_ensures fun _ =>
    ensures_bind (ensures_throw (s := s))) fun _ => ?_
  refine retraces_advance (Token.leaves_self _)
    (by simp [hkind]) fun s1 span' _ => ?_
  exact retraces_done rfl fun _ => rfl

theorem mirrors_memberName : Ysh.Mirrors gaps D (n + 1) memberName memberName ctx
    (fun name => [name.leaf]) (·.Sees gaps .expression ctx) fun _ _ => True := by
  intro s
  refine retraces_peek id fun span => retraces_ite Iff.rfl (fun hkind => ?_) fun _ => retraces_throw
  refine retraces_advance (Token.leaves_self _)
    (fun hend => by rw [hend] at hkind; cases hkind) fun s1 span' _ => ?_
  exact retraces_done rfl fun _ => rfl

variable (hg : g.Mirrors gaps D n n h)
include hg

/-! ## Arguments -/

omit [h.Stepwise] in
theorem mirrors_namedArgument : Ysh.Mirrors gaps D n g.namedArgument h.namedArgument ctx
    Tree.leaves (·.Sees gaps .expression ctx) fun _ => (·.Sees gaps .expression ctx) := by
  intro s
  refine retraces_bind (Retraces.down mirrors_bindingName.retraces) fun name name' s1 hname => ?_
  refine Retraces.free (Retraces.down (retraces_expectAs rfl (by simp) fun s2 span _ => ?_))
  refine Retraces.free (retraces_bind (hg.expression ctx).retraces fun value value' s3 hvalue => ?_)
  exact retraces_pure (by simp_all [Tree.erase]) (by simp [Tree.leaves])

theorem mirrors_namedArguments : Ysh.Mirrors gaps D n g.namedArguments h.namedArguments ctx
    (·.flatMap Tree.leaves) (·.Sees gaps .expression ctx)
    fun _ => (·.Sees gaps .expression ctx) := by
  intro s
  refine retraces_peekKind id (retraces_ite Iff.rfl (fun hkind => ?_) fun _ =>
    retraces_pure rfl fun _ => rfl)
  refine Retraces.down (retraces_fixed (by rw [hkind]; rfl) (by simp [hkind]) fun s1 span => ?_)
  exact Retraces.free (mirrors_commaSeparated (mirrors_namedArgument hg)).retraces

theorem mirrors_argumentListBody {opening opening' : Span} : Ysh.Mirrors gaps D n
    (g.argumentListBody opening) (h.argumentListBody opening') ctx Tree.leaves (fun _ => True)
    fun _ _ => True := by
  intro s
  refine Retraces.free (retraces_bracketed (retraces_bind
    (mirrors_commaSeparated (hg.expression _)).retraces fun es es' s1 hes => ?_))
  refine retraces_bind (mirrors_namedArguments hg).retraces fun as as' s2 has => ?_
  refine Retraces.down (retraces_expectClosing rfl (by simp) fun s3 span _ => ?_)
  refine retraces_position fun stop => ?_
  exact retraces_done (by simp_all [Tree.erase]) (by simp [Tree.leaves])

theorem mirrors_argumentList : Ysh.Mirrors gaps D (n + 1) g.argumentList h.argumentList ctx
    Tree.leaves (·.Sees gaps .expression ctx) fun _ _ => True := by
  intro s
  refine retraces_expectAs rfl (by simp) fun s1 span _ => ?_
  exact Retraces.free (mirrors_argumentListBody hg).retraces

/-! ## Literals -/

theorem mirrors_listBody {opening opening' : Span} : Ysh.Mirrors gaps D n (g.listBody opening)
    (h.listBody opening') ctx Tree.leaves (fun _ => True) fun _ _ => True := by
  intro s
  refine Retraces.free (retraces_bracketed (retraces_bind
    (mirrors_commaSeparated (hg.expression _)).retraces fun es es' s1 hes => ?_))
  refine Retraces.down (retraces_expectClosing rfl (by simp) fun s2 span _ => ?_)
  refine retraces_position fun stop => ?_
  exact retraces_done (by simp_all [Tree.erase]) (by simp [Tree.leaves])

theorem mirrors_dictKey : Ysh.Mirrors gaps D n g.dictKey h.dictKey ctx Tree.leaves
    (·.Sees gaps .expression ctx) fun _ _ => True := by
  intro s
  refine retraces_peek id fun span => ?_
  dsimp only
  split
  · next hkind =>
      refine Retraces.down (retraces_fixed (by rw [hkind]; rfl) (by simp [hkind]) fun s1 span' => ?_)
      refine retraces_bind (mirrors_stringBody hg).lift.retraces fun t t' s2 ht => ?_
      exact retraces_done (by simp_all [Tree.erase]) (by simp [Tree.leaves])
  · next hkind =>
      refine Retraces.down (retraces_fixed (by rw [hkind]; rfl) (by simp [hkind]) fun s1 span' => ?_)
      refine Retraces.free (retraces_bind (hg.expression ctx).retraces fun e e' s2 he => ?_)
      refine Retraces.down (retraces_expectClosing rfl (by simp) fun s3 span'' _ => ?_)
      exact retraces_done (by simp_all [Tree.erase]) (by simp [Tree.leaves])
  · refine retraces_bind (Retraces.down mirrors_memberName.retraces) fun name name' s1 hname => ?_
    exact retraces_done (by simp_all [Tree.erase]) (by simp [Tree.leaves])

theorem mirrors_dictEntry : Ysh.Mirrors gaps D n g.dictEntry h.dictEntry ctx Tree.leaves
    (·.Sees gaps .expression ctx) fun _ => (·.Sees gaps .expression ctx) := by
  intro s
  refine retraces_peek id fun span => ?_
  refine retraces_bind (mirrors_dictKey hg).retraces fun key key' s1 hkey => ?_
  refine Retraces.free (Retraces.down (retraces_expectAs rfl (by simp) fun s2 span' _ => ?_))
  refine Retraces.free (retraces_bind (hg.expression ctx).retraces fun value value' s3 hvalue => ?_)
  exact retraces_pure (by simp_all [Tree.erase]) (by simp [Tree.leaves])

theorem mirrors_dictBody {opening opening' : Span} : Ysh.Mirrors gaps D n (g.dictBody opening)
    (h.dictBody opening') ctx Tree.leaves (fun _ => True) fun _ _ => True := by
  intro s
  refine Retraces.free (retraces_bracketed (retraces_bind
    (mirrors_commaSeparated (mirrors_dictEntry hg)).retraces fun es es' s1 hes => ?_))
  refine Retraces.down (retraces_expectClosing rfl (by simp) fun s2 span _ => ?_)
  refine retraces_position fun stop => ?_
  exact retraces_done (by simp_all [Tree.erase]) (by simp [Tree.leaves])

/-- The next word of a list is read alike. -/
theorem retraces_wordListRound {opening opening' : Span} {as bs : Array Word}
    (hab : erase bs = erase as) : Retraces gaps D (n + 1) (fun _ => True)
      (g.wordListRound opening as) (h.wordListRound opening' bs) ctx origin
      (as.toList.flatMap Tree.leaves) s (fun r => r.value.toList.flatMap Tree.leaves)
      (s.cursor.Sees gaps .command ctx)
      (Round.Asks (fun _ => (·.Sees gaps .command ctx)) fun _ _ => True) := by
  have hab : bs.map Tree.erase = as.map Tree.erase := hab
  refine retraces_peek id fun span => retraces_ite Iff.rfl (fun hkind => ?_) fun _ =>
    retraces_ite Iff.rfl (fun hkind => ?_) fun _ => retraces_ite Iff.rfl (fun _ => ?_) fun _ =>
      retraces_ite Iff.rfl (fun _ => ?_) fun _ => retraces_unexpected
  · refine retraces_fixed (by rw [hkind]; rfl) (by simp [hkind]) fun s1 span' => ?_
    exact retraces_done (by simp [hab]) fun _ => rfl
  · refine retraces_fixed (by rw [hkind]; rfl) (by simp [hkind]) fun s1 span' => ?_
    exact Retraces.free (retraces_pure (by simp [hab]) fun _ => rfl)
  · refine retraces_of_ensures fun hq => ensures_seq (ensures_lift (ensures_report rfl))
      fun _ s1 hnot => absurd hq hnot
  · refine Retraces.weaken (retraces_bind (mirrors_word hg).retraces fun w w' s1 hw => ?_)
      Cursor.Opening.seen
    exact retraces_pure (by simp_all) (by simp [Round.value])

theorem mirrors_wordListBody {opening opening' : Span} : Ysh.Mirrors gaps D n
    (g.wordListBody opening) (h.wordListBody opening') ctx Tree.leaves (fun _ => True)
    fun _ _ => True := by
  intro s
  have hloop : Retraces gaps D (n + 1) (fun _ => True) (loop (g.wordListRound opening) #[])
      (loop (h.wordListRound opening') #[]) ctx s.cursor.offset [] s
      (fun as : Array Word => as.toList.flatMap Tree.leaves) (s.cursor.Sees gaps .command ctx)
      fun _ _ => True :=
    retraces_loop (P := fun _ => (·.Sees gaps .command ctx))
      (ParseLoop.wordList opening).progresses (ParseLoop.wordList opening').progresses
      (fun as bs s hab => retraces_wordListRound hg hab) rfl fun _ => rfl
  refine Retraces.free (retraces_bind hloop.down fun as bs s1 hab => retraces_position fun stop => ?_)
  have hab : bs.map Tree.erase = as.map Tree.erase := hab
  have hlist := congrArg Array.toList hab
  rw [Array.toList_map, Array.toList_map] at hlist
  exact retraces_done (by simp [Tree.erase, hlist]) (by simp [Tree.leaves])

/-! ## Primaries -/

omit [g.Stepwise] [h.Stepwise] hg in
/-- A pattern is read alike behind its opening slash. Both together are its leaf. -/
theorem retraces_eggexBody {opening opening' : Span} {leaf : Leaf} {J : State → Prop}
    (hleaf : leaf.span = opening) (hstop : opening.stop = s.cursor.offset) :
    Retraces gaps D n J (eggexBody opening) (eggexBody opening') ctx origin (seen ++ [leaf]) s
      (fun e => seen ++ [e.leaf]) True fun _ _ => True := by
  rcases hbody : s.cursor.eggexBody with ⟨⟨pattern, closed⟩, after⟩
  have hwithin : s.cursor.offset ≤ after.offset := by
    rcases s.cursor.eggexBody_after with ⟨k, hk⟩
    rw [hbody] at hk
    rw [show after = _ from hk]
    exact Nat.le_add_right _ _
  have hcovered : ∀ p, covered [⟨.plain, pattern, .between s.cursor.offset after.offset⟩] p
      = (s.cursor.offset ≤ p && p < after.offset) := by
    intro p
    rw [covered_leaf]
    exact Span.mem_between hwithin
  refine retraces_raw [⟨.plain, pattern, .between s.cursor.offset after.offset⟩]
    (· = (pattern, closed)) (fun _ => closed = true) (fun _ => inferInstance)
    Cursor.eggexBody_after ?_ (by rw [hbody]) ?_ ?_
  · rw [hbody]
    refine ⟨hwithin, fun p hp => ?_⟩
    rwa [hcovered, Bool.and_eq_true, decide_eq_true_eq, decide_eq_true_eq] at hp
  · rw [hbody]
    rintro s1 _ hs1 rfl
    refine retraces_ite Iff.rfl (fun _ => retraces_of_ensures fun hq => ensures_blame hq rfl)
      fun hclosed => ?_
    refine Retraces.weaken (retraces_position fun stop => retraces_done rfl fun p => ?_)
      fun _ => by simpa using hclosed
    have hbounds := opening.start_le_stop
    have hafter : s1.cursor.offset = after.offset := by rw [hs1]
    have hspan : covered [Eggex.leaf ⟨pattern, opening.upTo s1.cursor.offset⟩] p
        = (opening.start ≤ p && p < after.offset) := by
      rw [covered_leaf, ← hafter]
      exact Span.mem_between (by omega)
    rw [covered_append, covered_append, covered_append, hspan, hcovered, covered_leaf, hleaf,
      Bool.or_assoc, hstop, Span.mem_and_mem (by omega) hwithin]
  · rw [hbody]
    rintro hown rfl
    have hclosed : (Eggex.bodyLength s.cursor.rest).2 = true := congrArg (·.1.2) hbody
    have hafter : s.cursor.advance ((Eggex.bodyLength s.cursor.rest).1 + 1) = after := by
      have hafter := congrArg (·.2) hbody
      dsimp only [Cursor.eggexBody] at hafter
      rwa [hclosed, if_pos rfl] at hafter
    have hlength : (Eggex.bodyLength s.cursor.rest).1 + 1 ≤ s.cursor.rest.length := by
      rcases Eggex.isBody_of_closed s.cursor.rest hclosed with ⟨b, r, hrest, -, hb⟩
      rw [hb, hrest, List.length_append, List.length_cons]
      omega
    have hverbatim := @Cursor.verbatim_of_inside gaps _ _ hlength fun p hp hlt => by
      rw [hafter] at hlt
      rw [hown p hp hlt, hcovered, decide_eq_true hp, decide_eq_true hlt]
      rfl
    refine ⟨trivial, fun c hc => ?_⟩
    rcases Cursor.eggexBody_squeezed hc hbody hverbatim with ⟨after', hbody', hrest⟩
    rw [hbody']
    exact ⟨rfl, hrest⟩

omit [g.Stepwise] [h.Stepwise] hg in
/-- An expression that is a token is read alike. -/
theorem retraces_atom {e e' : Expression} {J : State → Prop}
    (hend : (s.next .expression ctx).kind ≠ .endOfInput)
    (hleaves : (s.next .expression ctx).Leaves e.leaves) (he : e'.erase = e.erase) :
    Retraces gaps D (n + 1) J (do let _ ← advance .expression; return e : Parse Expression)
      (do let _ ← advance .expression; return e') ctx origin seen s (fun e => seen ++ e.leaves)
      (s.cursor.Sees gaps .expression ctx) fun _ _ => True :=
  retraces_advance hleaves hend fun _ _ _ => retraces_done he fun _ => rfl

omit hg in
/-- What is read behind a sign that opens it is read alike. -/
theorem retraces_opened {α : Type} [Spanned α] {x y : Parse α} [Ysh.Stepwise x] {leaves : α → List Leaf}
    {c : α → Expression} {J : State → Prop} (hfixed : (s.next .expression ctx).kind.isFixed = true)
    (hend : (s.next .expression ctx).kind ≠ .endOfInput)
    (hx : Ysh.Mirrors gaps D n x y ctx leaves (fun _ => True) fun _ _ => True)
    (hc : ∀ a b, erase b = erase a → (c b).erase = (c a).erase)
    (hleaves : ∀ a, (c a).leaves = leaves a) :
    Retraces gaps D (n + 1) J
      (do let _ ← advance .expression; let a ← x; return c a : Parse Expression)
      (do let _ ← advance .expression; let a ← y; return c a) ctx origin seen s
      (fun e => seen ++ e.leaves) (s.cursor.Sees gaps .expression ctx) fun _ _ => True := by
  refine retraces_fixed hfixed hend fun s1 span => ?_
  refine retraces_bind hx.retraces fun a b s2 hab => retraces_done (hc a b hab) fun p => ?_
  rw [hleaves]

theorem mirrors_primary : Ysh.Mirrors gaps D (n + 1) g.primary h.primary ctx Tree.leaves
    (·.Sees gaps .expression ctx) fun _ _ => True := by
  intro s
  refine retraces_peek id fun span => ?_
  dsimp only
  split
  · next hkind => exact retraces_atom (by simp [hkind]) (Token.leaves_leaf rfl) rfl
  · next hkind => exact retraces_atom (by simp [hkind]) (Token.leaves_leaf rfl) rfl
  · next hkind => exact retraces_atom (by simp [hkind]) (Token.leaves_leaf rfl) rfl
  · next hkind => exact retraces_atom (by simp [hkind]) (Token.leaves_leaf rfl) rfl
  · next hkind =>
      exact retraces_opened (by rw [hkind]; rfl) (by simp [hkind]) (mirrors_stringBody hg).lift
        (fun _ _ hab => congrArg (fun t => Tree.literalExpression (.stringLiteral t)) hab) fun _ => rfl
  · next hkind => exact retraces_atom (by simp [hkind]) (Token.leaves_leaf rfl) rfl
  · next hkind =>
      refine retraces_ite Iff.rfl (fun _ => retraces_of_ensures fun _ =>
        ensures_bind (ensures_throw (s := s))) fun _ => ?_
      exact retraces_atom (by simp [hkind]) (Token.leaves_leaf rfl) rfl
  · next hkind =>
      refine retraces_fixed (by rw [hkind]; rfl) (by simp [hkind]) fun s1 span' => ?_
      exact Retraces.free (mirrors_enclosed hg rfl (by simp)).retraces
  · next hkind =>
      exact retraces_opened (by rw [hkind]; rfl) (by simp [hkind]) (mirrors_listBody hg)
        (fun _ _ hab => congrArg Tree.literalExpression hab) fun _ => rfl
  · next hkind =>
      exact retraces_opened (by rw [hkind]; rfl) (by simp [hkind]) (mirrors_dictBody hg)
        (fun _ _ hab => congrArg Tree.literalExpression hab) fun _ => rfl
  · next hkind =>
      refine retraces_advance (Token.leaves_self _)
        (by simp [hkind]) fun s1 span' hoffers => ?_
      refine retraces_bind (Retraces.lift (retraces_eggexBody rfl hoffers.bounds.1))
        fun e e' s2 he => ?_
      exact retraces_done (congrArg (fun e => Tree.literalExpression (.eggexLiteral e)) he)
        fun _ => rfl
  · next hkind =>
      exact retraces_opened (by rw [hkind]; rfl) (by simp [hkind]) (mirrors_wordListBody hg)
        (fun _ _ hab => congrArg Tree.literalExpression hab) fun _ => rfl
  · next opener hkind =>
      refine retraces_advance (Token.leaves_opener hkind) (by simp [hkind])
        fun s1 span' hoffers => ?_
      rcases hoffers.opener hkind with ⟨front, text, -, hread⟩
      refine retraces_bind (hg.expansion hread) fun e e' s2 he => ?_
      exact retraces_done (congrArg Tree.expansionExpression he) fun _ => rfl
  · exact retraces_throw

/-! ## Behind a primary -/

omit [g.Stepwise] [h.Stepwise] hg in
theorem erase_referenceName? {a b : Expression} (hab : b.erase = a.erase) :
    b.referenceName?.map Identifier.erase = a.referenceName?.map Identifier.erase := by
  have hshape : ∀ e : Expression,
      e.erase.referenceName?.map Identifier.erase = e.referenceName?.map Identifier.erase := by
    intro e
    cases e <;> rfl
  rw [← hshape b, ← hshape a, hab]

/-- The next step behind an expression is read alike. -/
theorem retraces_postfixStep {a b : Expression} (hab : erase b = erase a) :
    Retraces gaps D (n + 1) (fun _ => True) (g.postfixStep a) (h.postfixStep b) ctx origin
      (seen ++ a.leaves) s (fun r => seen ++ r.value.leaves) (s.cursor.Sees gaps .expression ctx)
      (Round.Asks (fun _ => (·.Sees gaps .expression ctx))
        fun _ => (·.Sees gaps .expression ctx)) := by
  have hab : b.erase = a.erase := hab
  refine retraces_peekKind id ?_
  split
  · next hkind =>
      refine retraces_fixed (by rw [hkind]; rfl) (by simp [hkind]) fun s1 span => ?_
      refine Retraces.free (retraces_bind (P := fun _ => (·.Sees gaps .expression ctx))
        (Retraces.loose (Retraces.down mirrors_memberName.retraces))
        fun name name' s2 hname => retraces_peekKind id
          (retraces_ite Iff.rfl (fun _ => ?_) fun _ => ?_))
      · refine retraces_bind (Retraces.down (mirrors_argumentList hg).retraces) fun as as' s3 has => ?_
        exact retraces_done (by simp_all [Tree.erase]) (by simp [Tree.leaves, Round.value])
      · exact retraces_pure (by simp_all [Tree.erase]) (by simp [Tree.leaves, Round.value])
  · next hkind =>
      refine retraces_fixed (by rw [hkind]; rfl) (by simp [hkind]) fun s1 span => ?_
      refine Retraces.free (retraces_bind (P := fun _ => (·.Sees gaps .expression ctx))
        (Retraces.loose (Retraces.down mirrors_memberName.retraces))
        fun name name' s2 hname => retraces_peekKind id
          (retraces_ite Iff.rfl (fun _ => retraces_unexpected) fun _ => ?_))
      refine retraces_bind (Retraces.down (mirrors_argumentList hg).retraces) fun as as' s3 has => ?_
      exact retraces_done (by simp_all [Tree.erase]) (by simp [Tree.leaves, Round.value])
  · next hkind =>
      refine retraces_fixed (by rw [hkind]; rfl) (by simp [hkind]) fun s1 span => ?_
      refine Retraces.free (retraces_bind (mirrors_enclosed hg rfl (by simp)).retraces
        fun i i' s2 hi => retraces_position fun stop => ?_)
      exact retraces_done (by simp_all [Tree.erase]) (by simp [Tree.leaves, Round.value])
  · have hname := erase_referenceName? hab
    split
    · next name heq =>
        rw [heq] at hname
        split
        · next name' heq' =>
            rw [heq'] at hname
            have hname : name'.erase = name.erase := Option.some.inj hname
            rw [Tree.leaves_of_referenceName? heq]
            refine retraces_bind (mirrors_argumentList hg).retraces fun as as' s1 has => ?_
            exact retraces_done (by simp_all [Tree.erase]) (by simp [Tree.leaves, Round.value])
        · next heq' =>
            rw [heq'] at hname
            cases hname
    · next heq =>
        rw [heq] at hname
        split
        · next heq' =>
            rw [heq'] at hname
            cases hname
        · exact retraces_pure (congrArg Round.stop hab) fun _ => rfl
  · exact retraces_pure (congrArg Round.stop hab) fun _ => rfl

theorem mirrors_postfixed : Ysh.Mirrors gaps D (n + 1) g.postfixed h.postfixed ctx Tree.leaves
    (·.Sees gaps .expression ctx) fun _ => (·.Sees gaps .expression ctx) := by
  intro s
  refine retraces_bind (P := fun _ => (·.Sees gaps .expression ctx))
    (Retraces.loose (mirrors_primary hg).retraces) fun a b s1 hab => ?_
  exact retraces_loop (P := fun _ => (·.Sees gaps .expression ctx)) ParseLoop.postfixes.progresses
    ParseLoop.postfixes.progresses (fun a b s hab => retraces_postfixStep hg hab) hab fun _ => rfl

/-! ## Operators -/

theorem mirrors_unary : Ysh.Mirrors gaps D (n + 1) g.unary h.unary ctx Tree.leaves
    (·.Sees gaps .expression ctx) fun _ => (·.Sees gaps .expression ctx) := by
  intro s
  refine retraces_peekKind id ?_
  split
  · next hop =>
      refine retraces_fixed (Token.Kind.isFixed_of_unary? hop)
        (fun hend => by rw [hend] at hop; cases hop) fun s1 span => ?_
      refine Retraces.free (retraces_bind (Retraces.down (mirrors_postfixed hg).retraces)
        fun a b s2 hab => ?_)
      exact retraces_pure (by simp_all [Tree.erase]) (by simp [Tree.leaves])
  · exact (mirrors_postfixed hg).retraces

omit [g.Stepwise] [h.Stepwise] hg in
/-- The next operator of a level is read alike with its operand. -/
theorem retraces_levelRound {level : List BinaryOperator} {x y : Parse Expression} [Ysh.Stepwise x]
    (hx : Ysh.Mirrors gaps D n x y ctx Tree.leaves (·.Sees gaps .expression ctx)
      fun _ => (·.Sees gaps .expression ctx)) {a b : Expression} (hab : erase b = erase a) :
    Retraces gaps D (n + 1) (fun _ => True) (levelRound level x a) (levelRound level y b) ctx
      origin (seen ++ a.leaves) s (fun r => seen ++ r.value.leaves)
      (s.cursor.Sees gaps .expression ctx)
      (Round.Asks (fun _ => (·.Sees gaps .expression ctx))
        fun _ => (·.Sees gaps .expression ctx)) := by
  have hab : b.erase = a.erase := hab
  refine retraces_peekKind id ?_
  split
  · next hop =>
      refine retraces_ite Iff.rfl (fun _ => ?_) fun _ =>
        retraces_pure (congrArg Round.stop hab) fun _ => rfl
      refine retraces_fixed (Token.Kind.isFixed_of_binary? hop)
        (fun hend => by rw [hend] at hop; cases hop) fun s1 span => ?_
      refine Retraces.free (retraces_bind hx.retraces fun c d s2 hcd => ?_)
      exact retraces_pure (by simp_all [Tree.infixed, Tree.erase])
        (by simp [Tree.infixed, Tree.leaves, Round.value])
  · exact retraces_pure (congrArg Round.stop hab) fun _ => rfl

theorem mirrors_levels (levels : List (List BinaryOperator)) : Ysh.Mirrors gaps D (n + 1)
    (g.levels levels) (h.levels levels) ctx Tree.leaves (·.Sees gaps .expression ctx)
    fun _ => (·.Sees gaps .expression ctx) := by
  induction levels with
  | nil => exact mirrors_unary hg
  | cons level tighter ih =>
      intro s
      refine retraces_bind ih.retraces fun a b s1 hab => ?_
      exact retraces_loop (P := fun _ => (·.Sees gaps .expression ctx))
        (ParseLoop.operators (g := g) level (g.levels tighter)).progresses
        (ParseLoop.operators (g := h) level (h.levels tighter)).progresses
        (fun a b s hab => retraces_levelRound (fun s => (ih s).down) hab) hab fun _ => rfl

/-- A whole expression is read alike. -/
theorem mirrors_expressionBody : Ysh.Mirrors gaps D (n + 1) g.expressionBody h.expressionBody ctx
    Tree.leaves (·.Sees gaps .expression ctx) fun _ => (·.Sees gaps .expression ctx) :=
  fun s => retraces_nested (mirrors_levels hg precedenceTable s)

end Grammar

end Ysh
