import Ysh.Proofs.Coverage.Word
import Ysh.Proofs.Lexing.Raw

/-!
# Expressions Lose Nothing

Operators, brackets and separators are fixed, and what an atom stores is a leaf. An
eggex is read raw: its leaf runs from slash to slash, with the blanks that were
trimmed away inside.

## Theorems

* `Eggex.exists_blanks`: A body is its trimmed text between blanks.
* `Grammar.lossless_primary`, `Grammar.lossless_expressionBody`.
-/

namespace Ysh

variable {D : List Diagnostic}

/-! ## Eggexes -/

/-- A body is its trimmed text between blanks. -/
theorem Eggex.exists_blanks (body : List Char) : ∃ left right,
    (∀ c ∈ left ++ right, Character.isBlank c = true) ∧ body = left ++ (Eggex.trim body ++ right) := by
  have hfront := List.takeWhile_append_dropWhile (p := Character.isBlank) (l := body)
  have hback := List.takeWhile_append_dropWhile (p := Character.isBlank)
    (l := (body.dropWhile Character.isBlank).reverse)
  refine ⟨body.takeWhile Character.isBlank,
    ((body.dropWhile Character.isBlank).reverse.takeWhile Character.isBlank).reverse, ?_, ?_⟩
  · intro c hc
    rcases List.mem_append.1 hc with hc | hc
    · exact List.all_eq_true.1 List.all_takeWhile c hc
    · exact List.all_eq_true.1 List.all_takeWhile c (List.mem_reverse.1 hc)
  · have hrest : body.dropWhile Character.isBlank = Eggex.trim body
        ++ ((body.dropWhile Character.isBlank).reverse.takeWhile Character.isBlank).reverse := by
      unfold Eggex.trim
      rw [← List.reverse_append, hback, List.reverse_reverse]
    rw [← hrest, hfront]

/-- Behind its opening slash an eggex is its body and the closing slash. -/
theorem Cursor.passes_eggexBody {c : Cursor} (h : c.eggexBody.1.2 = true) :
    ∃ body, c.eggexBody.1.1 = .ofList (Eggex.trim body) ∧ c.Passes (body ++ ['/']) c.eggexBody.2 := by
  rcases exists_isBody h with ⟨b, r, hbody, hc⟩
  have hread := eggexBody_of_isBody hbody r c.offset
  rw [← hc] at hread
  rw [hread]
  exact ⟨b, rfl, by rw [hc]; exact (List.append_assoc b ['/'] r).symm, rfl⟩

/-! ## Kinds of tokens and expressions -/

theorem Token.Kind.isFixed_of_unary? {kind : Token.Kind} {op : UnaryOperator}
    (h : kind.unary? = some op) : kind.isFixed = true := by
  cases kind with
  | operator _ | notKeyword | ampersand => rfl
  | _ => cases h

theorem Token.Kind.isFixed_of_binary? {kind : Token.Kind} {op : BinaryOperator}
    (h : kind.binary? = some op) : kind.isFixed = true := by
  cases kind with
  | operator _ | pipe | ampersand => rfl
  | _ => cases h

/-- An expression that is a name has no other leaf. -/
theorem Tree.leaves_of_referenceName? {e : Expression} {name : Identifier}
    (h : e.referenceName? = Option.some name) : e.leaves = [name.leaf] := by
  cases e with
  | reference => cases h; rfl
  | _ => cases h

namespace Grammar

/-- An eggex is a leaf, from its opening slash on. -/
theorem covers_eggexBody {opening : Span} {c d : Cursor} {ctx : Context} {s : State}
    (hq : Quiet ctx.limits D) (hfront : Covers c [] d) (hslash : d.Passes ['/'] s.cursor)
    (hstart : opening.start = d.offset) :
    Ensures D (eggexBody opening) ctx s fun e s' => Covers c [e.leaf] s'.cursor := by
  refine ensures_seq ensures_raw ?_
  rintro _ s1 ⟨rfl, hcursor⟩
  refine ensures_ite (fun _ => ensures_blame hq rfl) fun hclosed => ?_
  rcases s.cursor.passes_eggexBody (by simpa using hclosed) with ⟨body, hpattern, hbody⟩
  rcases Eggex.exists_blanks body with ⟨left, right, hblanks, htrim⟩
  rw [← hcursor] at hbody
  have hpasses := hslash.trans hbody
  have hends : opening.start ≤ s1.cursor.offset := by
    have hoffset := hpasses.offset
    omega
  refine Scan.ensures_position (ensures_pure.2 fun _ => hfront.after (.ofLeaf hpasses ?_ ?_ ?_))
  · exact (Nat.min_eq_left hends).trans hstart
  · exact Nat.max_eq_right hends
  · refine ⟨left, right, hblanks, ?_⟩
    change ['/'] ++ (body ++ ['/']) = '/' :: (left ++ (s.cursor.eggexBody.1.1.toList ++ _))
    rw [hpattern, String.toList_ofList]
    generalize Eggex.trim body = pattern at htrim
    subst htrim
    simp

variable {g : Grammar} [g.Stepwise] (hg : g.Lossless D)

/-! ## Names and arguments -/

theorem covers_bindingName {ctx : Context} {s : State} (hq : Quiet ctx.limits D) :
    Ensures D bindingName ctx s fun name s' => Covers s.cursor [name.leaf] s'.cursor := by
  refine ensures_peek (ensures_ite (fun _ => ?_) fun _ => ensures_throw)
  refine ensures_ite (fun _ => ensures_bind (ensures_throw (s := s))) fun _ => ?_
  exact ensures_next hq fun s1 hoffers => ensures_pure.2 fun _ => hoffers.leaf

theorem covers_memberName {ctx : Context} {s : State} (hq : Quiet ctx.limits D) :
    Ensures D memberName ctx s fun name s' => Covers s.cursor [name.leaf] s'.cursor := by
  refine ensures_peek (ensures_ite (fun _ => ?_) fun _ => ensures_throw)
  exact ensures_next hq fun s1 hoffers => ensures_pure.2 fun _ => hoffers.leaf

include hg

theorem lossless_namedArgument : Ysh.Lossless D g.namedArgument Tree.leaves := by
  intro ctx s hq
  refine ensures_seq (covers_bindingName hq) fun name s1 hname => ?_
  refine ensures_expectAs hq rfl fun s2 hequals => ?_
  refine ensures_seq (hg.expression ctx s2 hq) fun value s3 hvalue => ensures_pure.2 fun _ => ?_
  exact hname.append (hequals.after hvalue)

theorem lossless_namedArguments :
    Ysh.Lossless D g.namedArguments (·.flatMap Tree.leaves) := by
  intro ctx s hq
  refine ensures_peekKind (ensures_ite (fun hkind => ?_) fun _ => ensures_pure.2 fun _ => .nil _)
  refine ensures_fixed hq (by rw [hkind]; rfl) fun s1 hs1 => ?_
  exact (lossless_commaSeparated (lossless_namedArgument hg) ctx s1 hq).mono fun _ _ h => hs1.after h

theorem lossless_argumentListBody (opening : Span) :
    Ysh.Lossless D (g.argumentListBody opening) Tree.leaves := by
  intro ctx s hq
  refine ensures_bracketed fun _ => ?_
  refine ensures_seq (lossless_commaSeparated hg.expression _ s hq) fun positional s1 hpositional => ?_
  refine ensures_seq (lossless_namedArguments hg _ s1 hq) fun named s2 hnamed => ?_
  refine ensures_seq (lossless_expectClosing rfl _ s2 hq) fun _ s3 hs3 => ?_
  refine ensures_position (ensures_pure.2 fun _ => ?_)
  change Covers s.cursor ((Tree.ofList positional).leaves ++ (Tree.ofList named).leaves) s3.cursor
  rw [Tree.leaves_ofList, Tree.leaves_ofList]
  exact hpositional.append (hnamed.upTo hs3)

theorem lossless_argumentList : Ysh.Lossless D g.argumentList Tree.leaves := by
  intro ctx s hq
  refine ensures_expectAs hq rfl fun s1 hs1 => ?_
  exact (lossless_argumentListBody hg _ ctx s1 hq).mono fun _ _ h => hs1.after h

/-! ## Literals -/

theorem lossless_listBody (opening : Span) : Ysh.Lossless D (g.listBody opening) Tree.leaves := by
  intro ctx s hq
  refine ensures_bracketed fun _ => ?_
  refine ensures_seq (lossless_commaSeparated hg.expression _ s hq) fun elements s1 helements => ?_
  refine ensures_seq (lossless_expectClosing rfl _ s1 hq) fun _ s2 hs2 => ?_
  refine ensures_position (ensures_pure.2 fun _ => ?_)
  change Covers s.cursor (Tree.ofList elements).leaves s2.cursor
  rw [Tree.leaves_ofList]
  exact helements.upTo hs2

theorem lossless_dictKey : Ysh.Lossless D g.dictKey Tree.leaves := by
  intro ctx s hq
  refine ensures_peek ?_
  split
  · next hkind =>
      refine ensures_fixed hq (by rw [hkind]; rfl) fun s1 hs1 => ?_
      refine ensures_seq (ensures_lift (lossless_stringBody hg _ _ _ ctx s1 hq)) fun t s2 ht => ?_
      exact ensures_pure.2 fun _ => hs1.after ht
  · next hkind =>
      refine ensures_fixed hq (by rw [hkind]; rfl) fun s1 hs1 => ?_
      refine ensures_seq (hg.expression ctx s1 hq) fun key s2 hkey => ?_
      refine ensures_seq (lossless_expectClosing rfl ctx s2 hq) fun _ s3 hs3 => ?_
      exact ensures_pure.2 fun _ => hs1.after (hkey.upTo hs3)
  · exact ensures_seq (covers_memberName hq) fun name s1 hname => ensures_pure.2 fun _ => hname

theorem lossless_dictEntry : Ysh.Lossless D g.dictEntry Tree.leaves := by
  intro ctx s hq
  refine ensures_peek (ensures_seq (lossless_dictKey hg ctx s hq) fun key s1 hkey => ?_)
  refine ensures_expectAs hq rfl fun s2 hcolon => ?_
  refine ensures_seq (hg.expression ctx s2 hq) fun value s3 hvalue => ensures_pure.2 fun _ => ?_
  exact hkey.append (hcolon.after hvalue)

theorem lossless_dictBody (opening : Span) : Ysh.Lossless D (g.dictBody opening) Tree.leaves := by
  intro ctx s hq
  refine ensures_bracketed fun _ => ?_
  refine ensures_seq (lossless_commaSeparated (lossless_dictEntry hg) _ s hq) fun entries s1 h => ?_
  refine ensures_seq (lossless_expectClosing rfl _ s1 hq) fun _ s2 hs2 => ?_
  refine ensures_position (ensures_pure.2 fun _ => ?_)
  change Covers s.cursor (Tree.ofList entries).leaves s2.cursor
  rw [Tree.leaves_ofList]
  exact h.upTo hs2

theorem lossless_wordListBody (opening : Span) :
    Ysh.Lossless D (g.wordListBody opening) Tree.leaves := by
  intro ctx s hq
  refine ensures_seq (ensures_loop_state (I := fun (words : Array Word) s' =>
    Covers s.cursor (words.toList.flatMap Tree.leaves) s'.cursor) (.nil _) ?_) fun words s1 h => ?_
  · intro words s1 h
    refine ensures_peek (ensures_ite (fun hkind => ?_) fun _ => ensures_ite (fun hkind => ?_)
      fun _ => ensures_ite (fun _ => ?_) fun _ => ensures_ite (fun _ => ?_)
        fun _ => ensures_unexpected)
    · refine ensures_fixed hq (by rw [hkind]; rfl) fun s2 hs2 => ?_
      exact ensures_pure.2 fun _ => h.upTo hs2
    · refine ensures_fixed hq (by rw [hkind]; rfl) fun s2 hs2 => ?_
      exact ensures_pure.2 fun _ => h.upTo hs2
    · refine ensures_seq (ensures_lift (ensures_report rfl)) fun _ s2 hnot => absurd hq hnot
    · refine ensures_seq (lossless_word hg ctx s1 hq) fun w s2 hw => ensures_pure.2 fun _ => ?_
      change Covers s.cursor ((words.push w).toList.flatMap Tree.leaves) s2.cursor
      rw [Array.toList_push, List.flatMap_append, List.flatMap_singleton]
      exact h.append hw
  · refine ensures_position (ensures_pure.2 fun _ => ?_)
    change Covers s.cursor (Tree.ofList words.toList).leaves s1.cursor
    rwa [Tree.leaves_ofList]

/-! ## Primaries -/

omit hg in
/-- A literal that is a keyword is a leaf with its spelling. -/
theorem covers_keywordLiteral {kind : Token.Kind} {e : Expression} {ctx : Context} {s : State}
    (hq : Quiet ctx.limits D) (hkind : (s.next .expression ctx).kind = kind)
    (hspelled : kind.isSpelled = true)
    (he : e.leaves = [⟨.plain, kind.spelling, (s.next .expression ctx).span⟩]) :
    Ensures D (do let _ ← advance .expression; return e : Parse Expression) ctx s fun e s' =>
      Covers s.cursor e.leaves s'.cursor := by
  refine ensures_next hq fun s1 hoffers => ensures_pure.2 fun _ => ?_
  have htext := hoffers.spelling (by rwa [hkind])
  rw [he, ← hkind, ← htext]
  exact hoffers.leaf

theorem lossless_primary : Ysh.Lossless D g.primary Tree.leaves := by
  intro ctx s hq
  refine ensures_peek ?_
  dsimp only
  split
  · exact ensures_next hq fun s1 hoffers => ensures_pure.2 fun _ => hoffers.leaf
  · next hkind => exact covers_keywordLiteral hq hkind rfl rfl
  · next hkind => exact covers_keywordLiteral hq hkind rfl rfl
  · next hkind => exact covers_keywordLiteral hq hkind rfl rfl
  · next hkind =>
      refine ensures_fixed hq (by rw [hkind]; rfl) fun s1 hs1 => ?_
      refine ensures_seq (ensures_lift (lossless_stringBody hg _ _ _ ctx s1 hq)) fun t s2 ht => ?_
      exact ensures_pure.2 fun _ => hs1.after ht
  · exact ensures_next hq fun s1 hoffers => ensures_pure.2 fun _ => hoffers.leaf
  · refine ensures_ite (fun _ => ensures_bind (ensures_throw (s := s))) fun _ => ?_
    exact ensures_next hq fun s1 hoffers => ensures_pure.2 fun _ => hoffers.leaf
  · next hkind =>
      refine ensures_fixed hq (by rw [hkind]; rfl) fun s1 hs1 => ?_
      exact (lossless_enclosed hg rfl ctx s1 hq).mono fun e s2 he => hs1.after he
  · next hkind =>
      refine ensures_fixed hq (by rw [hkind]; rfl) fun s1 hs1 => ?_
      refine ensures_seq (lossless_listBody hg _ ctx s1 hq) fun l s2 hl => ensures_pure.2 fun _ => ?_
      exact hs1.after hl
  · next hkind =>
      refine ensures_fixed hq (by rw [hkind]; rfl) fun s1 hs1 => ?_
      refine ensures_seq (lossless_dictBody hg _ ctx s1 hq) fun l s2 hl => ensures_pure.2 fun _ => ?_
      exact hs1.after hl
  · next hkind =>
      refine ensures_next hq fun s1 hoffers => ?_
      have hslash := hoffers.spelling (by rw [hkind]; rfl)
      rcases hoffers with ⟨front, text, hfront, hread, -⟩
      have htext : text = ['/'] := by
        rw [hread.shown, hkind] at hslash
        exact String.ofList_injective hslash
      rw [htext] at hread
      refine ensures_seq (ensures_lift (covers_eggexBody hq hfront hread.passes hread.start))
        fun e s2 he => ensures_pure.2 fun _ => he
  · next hkind =>
      refine ensures_fixed hq (by rw [hkind]; rfl) fun s1 hs1 => ?_
      refine ensures_seq (lossless_wordListBody hg _ ctx s1 hq) fun l s2 hl => ?_
      exact ensures_pure.2 fun _ => hs1.after hl
  · next opener hkind =>
      refine ensures_next hq fun s1 hoffers => ?_
      rcases hoffers.opener hkind with ⟨front, text, hfront, hopener⟩
      refine ensures_seq (hg.expansion hq hopener) fun e s2 he => ensures_pure.2 fun _ => ?_
      exact hfront.after he
  · exact ensures_throw

/-! ## Behind a primary -/

/-- A step behind an expression goes on where the expression ended. -/
theorem covers_postfixStep {e : Expression} {c : Cursor} {ctx : Context} {s : State}
    (hq : Quiet ctx.limits D) (h : Covers c e.leaves s.cursor) :
    Ensures D (g.postfixStep e) ctx s fun r s' => Covers c r.value.leaves s'.cursor := by
  refine ensures_peekKind ?_
  split
  · next hkind =>
      refine ensures_fixed hq (by rw [hkind]; rfl) fun s1 hs1 => ?_
      refine ensures_seq (covers_memberName hq) fun name s2 hname => ?_
      have hname := h.append (hs1.after hname)
      refine ensures_peekKind (ensures_ite (fun _ => ?_) fun _ => ensures_pure.2 fun _ => hname)
      refine ensures_seq (lossless_argumentList hg ctx s2 hq) fun arguments s3 harguments =>
        ensures_pure.2 fun _ => ?_
      have hcall := hname.append harguments
      rwa [List.append_assoc] at hcall
  · next hkind =>
      refine ensures_fixed hq (by rw [hkind]; rfl) fun s1 hs1 => ?_
      refine ensures_seq (covers_memberName hq) fun name s2 hname => ?_
      have hname := h.append (hs1.after hname)
      refine ensures_peekKind (ensures_ite (fun _ => ensures_unexpected) fun _ => ?_)
      refine ensures_seq (lossless_argumentList hg ctx s2 hq) fun arguments s3 harguments =>
        ensures_pure.2 fun _ => ?_
      have hcall := hname.append harguments
      rwa [List.append_assoc] at hcall
  · next hkind =>
      refine ensures_fixed hq (by rw [hkind]; rfl) fun s1 hs1 => ?_
      refine ensures_seq (lossless_enclosed hg rfl ctx s1 hq) fun i s2 hi => ?_
      exact ensures_position (ensures_pure.2 fun _ => h.append (hs1.after hi))
  · split
    · next name hname =>
        refine ensures_seq (lossless_argumentList hg ctx s hq) fun arguments s1 harguments =>
          ensures_pure.2 fun _ => ?_
        rw [Tree.leaves_of_referenceName? hname] at h
        exact h.append harguments
    · exact ensures_pure.2 fun _ => h
  · exact ensures_pure.2 fun _ => h

theorem lossless_postfixed : Ysh.Lossless D g.postfixed Tree.leaves := by
  intro ctx s hq
  refine ensures_seq (lossless_primary hg ctx s hq) fun e s1 he => ?_
  exact ensures_loop_state (I := fun (e : Expression) s' => Covers s.cursor e.leaves s'.cursor) he
    fun e s2 he => covers_postfixStep hg hq he

/-! ## Operators -/

theorem lossless_unary : Ysh.Lossless D g.unary Tree.leaves := by
  intro ctx s hq
  refine ensures_peekKind ?_
  split
  · next hop =>
      refine ensures_fixed hq (Token.Kind.isFixed_of_unary? hop) fun s1 hs1 => ?_
      refine ensures_seq (lossless_postfixed hg ctx s1 hq) fun operand s2 hoperand =>
        ensures_pure.2 fun _ => ?_
      exact hs1.after hoperand
  · exact lossless_postfixed hg ctx s hq

theorem lossless_levels (levels : List (List BinaryOperator)) :
    Ysh.Lossless D (g.levels levels) Tree.leaves := by
  induction levels with
  | nil => exact lossless_unary hg
  | cons level tighter ih =>
      intro ctx s hq
      refine ensures_seq (ih ctx s hq) fun e s1 he => ?_
      refine ensures_loop_state
        (I := fun (e : Expression) s' => Covers s.cursor e.leaves s'.cursor) he fun left s2 hleft => ?_
      refine ensures_peekKind ?_
      split
      · next hop =>
          refine ensures_ite (fun _ => ?_) fun _ => ensures_pure.2 fun _ => hleft
          refine ensures_fixed hq (Token.Kind.isFixed_of_binary? hop) fun s3 hs3 => ?_
          refine ensures_seq (ih ctx s3 hq) fun right s4 hright => ensures_pure.2 fun _ => ?_
          exact hleft.append (hs3.after hright)
      · exact ensures_pure.2 fun _ => hleft

/-- A whole expression loses nothing. -/
theorem lossless_expressionBody : Ysh.Lossless D g.expressionBody Tree.leaves := by
  intro ctx s hq
  exact ensures_nested fun _ => lossless_levels hg precedenceTable { ctx with depth := ctx.depth + 1 } s hq

end Grammar

end Ysh
