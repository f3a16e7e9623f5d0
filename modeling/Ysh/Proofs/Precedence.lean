import Ysh.Program
import Ysh.Proofs.Reread.Literal

/-!
# Precedence

The one tree of a chain. A chain is operands with operators between them and no
parentheses, so it is for the precedence table alone to say which operation is an
operand of which. A tree is grouped by the table if no operation has a looser one for
an operand, and none has one of its own level on its right. Reading a chain gives a
grouped tree with the operands and operators of the chain in their order, and there
is no other such tree.

That a grouped tree is there is shown along the levels: the levels from the `k`-th on
take of a chain all that comes in front of the first operator of a looser level. That
there is only one is a matter of its root, which is the last of the loosest operators
of the chain: to its left no operator is looser, and to its right all are tighter.

## Main definitions

* `Operand`, `Chain`: Operands with operators between them.
* `Tree.inorder`: The operands and operators of a tree of operations, in their order.
* `Tree.Grouped`: Every operation has its operands by the precedence table.
* `Chain.Taken`: What a level makes of a part of a chain.

## Theorems

* `Tree.Grouped.erase_eq`: A grouped tree is determined by its operands and operators.
* `attains_level_chain`: One round of a level.
* `attains_levels_chain`: What the levels from one on take of a chain.
* `readExpression_chain`: A chain is read as the one grouped tree.
-/

namespace Ysh

open Grammar

/-! ## Chains -/

/-- A variable or a number. -/
inductive Operand where
  | reference (name : String)
  | number (raw : String)
deriving DecidableEq, Repr

namespace Operand

/-- How the operand is written. -/
def text : Operand → String
  | reference name => name
  | number raw => raw

/-- The operand as an expression. -/
def tree (span : Span) : Operand → Expression
  | reference name => .reference name span
  | number raw => .literalExpression (.number (.ofText raw span))

/-- A variable has a name that is free to be one, and a number is one whole token. -/
def IsValid : Operand → Prop
  | reference name => IsReference name.toList
  | number raw => Lexed .expression raw.toList .number []

end Operand

/-- Operands with operators between them. -/
structure Chain where
  first : Operand
  /-- Every further operand, with the operator in front of it. -/
  links : List (BinaryOperator × Operand)
deriving DecidableEq, Repr

namespace Chain

/-- How the further operands are written. -/
def linksText : List (BinaryOperator × Operand) → String
  | [] => ""
  | (op, x) :: links => " " ++ op.spelling ++ " " ++ x.text ++ linksText links

/-- How the chain is written, with one blank around every operator. -/
def text (chain : Chain) : String :=
  chain.first.text ++ linksText chain.links

/-- The operands and operators of the chain, in their order. -/
def symbols (chain : Chain) : List (Expression ⊕ BinaryOperator) :=
  .inl (chain.first.tree default) ::
    chain.links.flatMap fun link => [.inr link.1, .inl (link.2.tree default)]

/-- Every operand is a valid one. -/
def IsValid (chain : Chain) : Prop :=
  chain.first.IsValid ∧ ∀ link ∈ chain.links, link.2.IsValid

end Chain

/-! ## Trees of operations -/

namespace Tree

/-- The operator of a binary operation. -/
def operator? : {c : Category} → Tree c → Option BinaryOperator
  | _, binary op _ _ _ => .some op
  | _, _ => .none

/-- The operands and operators of a tree of operations, in their order. An operand is
    what is no binary operation, up to spans. -/
def inorder : {c : Category} → Tree c → List (Tree c ⊕ BinaryOperator)
  | _, binary op left right _ => left.inorder ++ .inr op :: right.inorder
  | _, e => [.inl e.erase]

/-- No operation has a looser one for an operand, and none has one of its own level on
    its right. -/
inductive Grouped : Expression → Prop
  | operand {e : Expression} : e.operator? = .none → Grouped e
  | binary {op : BinaryOperator} {left right : Expression} {span : Span} :
      Grouped left → Grouped right → (∀ op' ∈ left.operator?, op.level ≤ op'.level) →
      (∀ op' ∈ right.operator?, op.level < op'.level) → Grouped (binary op left right span)

theorem inorder_of_operator? {e : Expression} (h : e.operator? = .none) :
    e.inorder = [.inl e.erase] := by
  cases e with
  | binary op left right span => cases h
  | _ => rfl

namespace Grouped

variable {e left right left' right' : Expression} {op op' : BinaryOperator} {span span' : Span}

/-- No operator of a grouped tree is looser than the one at its root. -/
theorem level_le (h : e.Grouped) {k : Nat} (hroot : ∀ top ∈ e.operator?, k ≤ top.level) :
    ∀ op, .inr op ∈ e.inorder → k ≤ op.level := by
  induction h generalizing k with
  | operand hnone =>
      intro op hop
      rw [inorder_of_operator? hnone] at hop
      simp at hop
  | @binary root left right span _ _ hl hr ihl ihr =>
      have hk : k ≤ root.level := hroot root rfl
      intro op hop
      rcases List.mem_append.1 hop with hop | hop
      · exact ihl (fun top htop => Nat.le_trans hk (hl top htop)) op hop
      · rcases List.mem_cons.1 hop with heq | hop
        · cases heq
          exact hk
        · exact ihr (fun top htop => Nat.le_trans hk (Nat.le_of_lt (hr top htop))) op hop

theorem left_le (h : (Tree.binary op left right span).Grouped) :
    ∀ op', .inr op' ∈ left.inorder → op.level ≤ op'.level := by
  cases h with
  | operand hnone => cases hnone
  | binary hleft _ hl _ => exact hleft.level_le hl

theorem right_lt (h : (Tree.binary op left right span).Grouped) :
    ∀ op', .inr op' ∈ right.inorder → op.level < op'.level := by
  cases h with
  | operand hnone => cases hnone
  | binary _ hright _ hr => exact hright.level_le hr

/-- The root of a grouped tree is the last of its loosest operators, so no other root
    stands further on in the same chain. -/
theorem root_last (h : (Tree.binary op left right span).Grouped)
    (h' : (Tree.binary op' left' right' span').Grouped) {more : List (Expression ⊕ BinaryOperator)}
    (hleft : left'.inorder = left.inorder ++ more)
    (hright : .inr op :: right.inorder = more ++ .inr op' :: right'.inorder) : more = [] := by
  rcases more with _ | ⟨symbol, more⟩
  · rfl
  · rcases List.cons.inj hright with ⟨rfl, hrest⟩
    have hlt : op.level < op'.level := h.right_lt op' (by rw [hrest]; simp)
    have hle : op'.level ≤ op.level := h'.left_le op (by rw [hleft]; simp)
    exact absurd hlt (Nat.not_lt_of_le hle)

/-- A grouped tree is determined by its operands and operators. -/
theorem erase_eq {a b : Expression} (ha : a.Grouped) (hb : b.Grouped)
    (h : a.inorder = b.inorder) : a.erase = b.erase := by
  induction ha generalizing b with
  | operand hnone =>
      rw [inorder_of_operator? hnone] at h
      cases hb with
      | operand hnone' =>
          rw [inorder_of_operator? hnone'] at h
          exact Sum.inl.inj (List.cons.inj h).1
      | @binary op left right span =>
          have hmem : .inr op ∈ (Tree.binary op left right span).inorder := by
            simp [inorder]
          rw [← h] at hmem
          simp at hmem
  | @binary op left right span hleft hright hl hr ihl ihr =>
      cases hb with
      | operand hnone =>
          have hmem : .inr op ∈ (Tree.binary op left right span).inorder := by
            simp [inorder]
          rw [h, inorder_of_operator? hnone] at hmem
          simp at hmem
      | @binary op' left' right' span' hleft' hright' hl' hr' =>
          have ha : (Tree.binary op left right span).Grouped := .binary hleft hright hl hr
          have hb : (Tree.binary op' left' right' span').Grouped := .binary hleft' hright' hl' hr'
          have hsame : left.inorder = left'.inorder ∧
              (.inr op :: right.inorder : List (Expression ⊕ BinaryOperator))
                = .inr op' :: right'.inorder := by
            rcases List.append_eq_append_iff.1 h with ⟨more, hleft, hright⟩ | ⟨more, hleft, hright⟩
            · cases ha.root_last hb hleft hright
              exact ⟨by rw [hleft, List.append_nil], hright⟩
            · cases hb.root_last ha hleft hright
              exact ⟨by rw [hleft, List.append_nil], hright.symm⟩
          rcases List.cons.inj hsame.2 with ⟨hop, hinorder⟩
          cases hop
          change Tree.binary op left.erase right.erase default
            = Tree.binary op left'.erase right'.erase default
          rw [ihl hleft' hsame.1, ihr hright' hinorder]

end Grouped

end Tree

/-! ## Reading operands -/

section

variable {g : Grammar} {ctx : Context} {s : State} {x : Operand} {rest : List Char}

theorem Operand.inorder_tree (x : Operand) (span : Span) :
    (x.tree span).inorder = [.inl (x.tree default)] := by
  cases x <;> rfl

theorem Operand.grouped_tree (x : Operand) (span : Span) : (x.tree span).Grouped := by
  cases x <;> exact .operand rfl

/-- The token of an operand is a primary. -/
theorem attains_primary_operand (hx : x.IsValid) (hrest : EndsOperand ctx rest)
    (hs : s.Shows x.text.toList rest) :
    (s.next .expression ctx).kind.unary? = none ∧
      Attains g.primary ctx s fun e t => ∃ span, e = x.tree span ∧ t.cursor.rest = rest := by
  cases x with
  | reference name =>
      have hatom : EndsAtom rest := EndsObject.atom (.inl hrest)
      have hstands : Stands .expression ctx s name.toList .identifier rest := hs.reference hx hatom
      rw [hstands.next.1]
      refine ⟨rfl, (attains_primary_reference hx hatom hs).mono fun e t he => ?_⟩
      rcases he with ⟨span, he, ht⟩
      exact ⟨span, he.trans (by rw [String.ofList_toList]; rfl), ht⟩
  | number raw =>
      have hstands : Stands .expression ctx s raw.toList .number rest :=
        hs.stands (hx.number_of_ends hrest.number) (.inl (by decide))
      rw [hstands.next.1]
      refine ⟨rfl, attains_look (a := s.next .expression ctx) rfl ?_⟩
      dsimp only
      rw [hstands.next.1, hstands.next.2.1, String.ofList_toList]
      exact attains_seq hstands.advance fun token t ht => attains_pure ⟨_, rfl, ht.2.1⟩

/-- An operand of a chain is read without a unary operator and without steps behind
    it. -/
theorem attains_unary_operand (hx : x.IsValid) (hrest : EndsOperand ctx rest)
    (hs : s.Shows x.text.toList rest) :
    Attains g.unary ctx s fun e t => ∃ span, e = x.tree span ∧ t.cursor.rest = rest := by
  rcases attains_primary_operand (g := g) hx hrest hs with ⟨hunary, hprimary⟩
  refine attains_look (a := (s.next .expression ctx).kind) rfl ?_
  rw [hunary]
  refine attains_postfixed (hprimary.mono fun e t he => ⟨e, t, .refl e t, he⟩) fun e t he => ?_
  rcases he with ⟨span, -, ht⟩
  exact hrest.next ht

end

/-! ## Levels of the table -/

/-- The operators of one level of the table. -/
theorem BinaryOperator.mem_level_iff (op : BinaryOperator) {k : Nat} {level : List BinaryOperator}
    (h : precedenceTable[k]? = some level) : op ∈ level ↔ op.level = k := by
  have hlevel : ∀ i, (hi : i < precedenceTable.length) →
      (op ∈ precedenceTable[i] ↔ op.level = i) := by
    cases op <;> decide
  rcases List.getElem?_eq_some_iff.1 h with ⟨hk, rfl⟩
  exact hlevel k hk

namespace Chain

theorem linksText_append (links links' : List (BinaryOperator × Operand)) :
    linksText (links ++ links') = linksText links ++ linksText links' := by
  induction links with
  | nil => simp [linksText]
  | cons link links ih => simp [linksText, ih, String.append_assoc]

/-- What stands behind an operand of a chain ends it. -/
theorem endsOperand_links (ctx : Context) (links : List (BinaryOperator × Operand)) :
    EndsOperand ctx (linksText links).toList := by
  rcases links with _ | ⟨⟨op, x⟩, links⟩
  · exact .inl (.inl rfl)
  · refine .inr ⟨op, x.text.toList ++ (linksText links).toList, ?_⟩
    simp [linksText]

theorem symbols_append (x y : Operand) (here more : List (BinaryOperator × Operand))
    (op : BinaryOperator) :
    (⟨x, here ++ (op, y) :: more⟩ : Chain).symbols
      = (⟨x, here⟩ : Chain).symbols ++ .inr op :: (⟨y, more⟩ : Chain).symbols := by
  simp [symbols]

theorem mem_symbols {chain : Chain} {op : BinaryOperator} (h : .inr op ∈ chain.symbols) :
    ∃ link ∈ chain.links, link.1 = op := by
  simpa [symbols] using h

/-- What a reader with the levels from the `k`-th on makes of a chain that starts with
    the operand: a grouped tree of all that comes in front of an operator that is looser
    than the level `stop`. -/
structure Taken (x : Operand) (links : List (BinaryOperator × Operand)) (k stop : Nat)
    (e : Expression) (t : State) (here there : List (BinaryOperator × Operand)) : Prop where
  split : links = here ++ there
  tight : ∀ link ∈ here, k ≤ link.1.level
  ends : ∀ link ∈ there.head?, link.1.level < stop
  inorder : e.inorder = (⟨x, here⟩ : Chain).symbols
  grouped : e.Grouped
  rest : t.cursor.rest = (linksText there).toList

variable {x y : Operand} {links here there more last : List (BinaryOperator × Operand)}
  {op : BinaryOperator} {k : Nat} {e e' : Expression} {t t' : State}

/-- The operator at the root of what was taken is one of those taken. -/
theorem Taken.level_le {stop : Nat} (h : Taken x links k stop e t here there) :
    ∀ top ∈ e.operator?, k ≤ top.level := by
  intro top htop
  have hmem : .inr top ∈ e.inorder := by
    cases e with
    | binary op left right span =>
        cases htop
        simp [Tree.inorder]
    | _ => cases htop
  rw [h.inorder] at hmem
  rcases mem_symbols hmem with ⟨link, hlink, rfl⟩
  exact h.tight link hlink

/-- A further operator of the level, with all that the tighter levels take behind it. -/
theorem Taken.infixed (h : Taken x links k (k + 1) e t here ((op, y) :: more))
    (hop : op.level = k) (h' : Taken y more (k + 1) (k + 1) e' t' there last) :
    Taken x links k (k + 1) (.infixed op e e') t' (here ++ (op, y) :: there) last where
  split := by rw [h.split, h'.split, List.append_assoc]; rfl
  tight link hlink := by
    rcases List.mem_append.1 hlink with hlink | hlink
    · exact h.tight link hlink
    · rcases List.mem_cons.1 hlink with rfl | hlink
      · exact Nat.le_of_eq hop.symm
      · exact Nat.le_of_succ_le (h'.tight link hlink)
  ends := h'.ends
  inorder := by
    rw [symbols_append, ← h.inorder, ← h'.inorder]
    rfl
  grouped := by
    refine .binary h.grouped h'.grouped (fun top htop => ?_) fun top htop => ?_
    · rw [hop]
      exact h.level_le top htop
    · rw [hop]
      exact h'.level_le top htop
  rest := h'.rest

/-- What the tighter levels take may be taken by a looser one. -/
theorem Taken.loosen {stop : Nat} (h : Taken x links (k + 1) stop e t here there) :
    Taken x links k stop e t here there :=
  ⟨h.split, fun link hlink => Nat.le_of_succ_le (h.tight link hlink), h.ends, h.inorder, h.grouped,
    h.rest⟩

/-- A level is done in front of an operator that is not one of its own. -/
theorem Taken.done (h : Taken x links k (k + 1) e t here there)
    (hne : ∀ link ∈ there.head?, link.1.level ≠ k) : Taken x links k k e t here there := by
  refine ⟨h.split, h.tight, fun link hlink => ?_, h.inorder, h.grouped, h.rest⟩
  have hlt := h.ends link hlink
  have hne := hne link hlink
  omega

/-- A part of the chain is taken, up to an operator that is looser than the level. -/
def Takes (x : Operand) (links : List (BinaryOperator × Operand)) (k stop : Nat) (e : Expression)
    (t : State) : Prop :=
  ∃ here there, Taken x links k stop e t here there

/-- A reader takes of every chain what the levels from the `k`-th on take. -/
def TakesAll (operand : Parse Expression) (ctx : Context) (k : Nat) : Prop :=
  ∀ (x : Operand) (links : List (BinaryOperator × Operand)) (s : State), x.IsValid →
    (∀ link ∈ links, link.2.IsValid) → s.Shows x.text.toList (linksText links).toList →
      Attains operand ctx s (Takes x links k k)

end Chain

section

variable {ctx : Context} {k : Nat}

/-- One round of a level. It takes an operator of its own, with what the tighter levels
    take behind it, and is done in front of any other. -/
theorem attains_level_chain {operand : Parse Expression} {level : List BinaryOperator} {x : Operand}
    {links here there : List (BinaryOperator × Operand)} {e : Expression} {t : State}
    (hlevel : precedenceTable[k]? = some level) (hoperand : Chain.TakesAll operand ctx (k + 1))
    (hlinks : ∀ link ∈ links, link.2.IsValid)
    (he : Chain.Taken x links k (k + 1) e t here there) :
    Attains (levelRound level operand e) ctx t fun r t' =>
      r.Meets (Chain.Takes x links k (k + 1)) (Chain.Takes x links k k) t t' := by
  have hdone : (∀ op, (t.next .expression ctx).kind.binary? = some op → op ∉ level) →
      (∀ link ∈ there.head?, link.1.level ≠ k) →
      Attains (levelRound level operand e) ctx t fun r t' =>
        r.Meets (Chain.Takes x links k (k + 1)) (Chain.Takes x links k k) t t' := by
    intro hnext hne
    refine (attains_level_stop (P := Chain.Takes x links k k) hnext
      ⟨here, there, he.done hne⟩).mono fun r t' hr => ?_
    rcases hr with ⟨e, rfl, he⟩
    exact he
  rcases there with _ | ⟨⟨op, y⟩, more⟩
  · refine hdone (fun op hop => ?_) (by simp)
    rw [EndsExpression.binary? (.inl rfl) he.rest] at hop
    cases hop
  · have ht : t.cursor.rest = ' ' :: (op.spelling.toList
        ++ ' ' :: (y.text.toList ++ (Chain.linksText more).toList)) := by
      rw [he.rest]
      simp [Chain.linksText]
    have hstands : Stands .expression ctx t op.spelling.toList op.kind
        (' ' :: (y.text.toList ++ (Chain.linksText more).toList)) :=
      State.Shows.stands ⟨1, ht⟩ (lexed_binary op _) (.inl (by cases op <;> decide))
    by_cases hop : op.level = k
    · have hmore : ∀ link ∈ (op, y) :: more, link.2.IsValid := fun link hlink =>
        hlinks link (by rw [he.split]; exact List.mem_append_right _ hlink)
      refine attains_look hstands.peekKind ?_
      rw [op.binary?_kind]
      dsimp only
      rw [if_pos (by rw [List.contains_iff_mem]; exact (op.mem_level_iff hlevel).2 hop)]
      refine attains_seq hstands.advance fun token u hu => ?_
      refine attains_seq (hoperand y more u (hmore _ List.mem_cons_self)
        (fun link hlink => hmore link (List.mem_cons_of_mem _ hlink)) (.of_blank hu.2.1))
        fun e' v hv => ?_
      rcases hv with ⟨there, last, hv⟩
      refine attains_pure ⟨⟨_, last, he.infixed hop hv⟩, ?_⟩
      rw [ht, hv.rest, hv.split, Chain.linksText_append, String.toList_append]
      simp only [List.length_cons, List.length_append]
      omega
    · refine hdone (fun op' hop' => ?_) (by simpa using hop)
      rw [hstands.next.1, op.binary?_kind] at hop'
      cases hop'
      exact fun hmem => hop ((op.mem_level_iff hlevel).1 hmem)

/-- What the levels from the `k`-th on take of a chain: all that comes in front of the
    first operator of a looser level. -/
theorem attains_levels_chain {g : Grammar} (k : Nat) :
    Chain.TakesAll (g.levels (precedenceTable.drop k)) ctx k := by
  induction hlevels : precedenceTable.drop k generalizing k with
  | nil =>
      intro x links s hx hlinks hs
      refine (attains_unary_operand hx (Chain.endsOperand_links ctx links) hs).mono fun e t he => ?_
      rcases he with ⟨span, rfl, ht⟩
      refine ⟨[], links, rfl, fun _ hlink => absurd hlink List.not_mem_nil,
        fun link _ => ?_, ?_, x.grouped_tree span, ht⟩
      · exact Nat.lt_of_lt_of_le link.1.level_pos.2 (List.drop_eq_nil_iff.1 hlevels)
      · exact x.inorder_tree span
  | cons level tighter ih =>
      have hlevel : precedenceTable[k]? = some level := by
        rw [← List.head?_drop, hlevels]
        rfl
      have htighter : precedenceTable.drop (k + 1) = tighter := by
        rw [← List.tail_drop, hlevels]
        rfl
      have hoperand := ih (k + 1) htighter
      intro x links s hx hlinks hs
      -- Between two rounds the level waits in front of an operator that is not tighter.
      refine attains_seq (hoperand x links s hx hlinks hs) fun e t he => attains_loop
        (I := Chain.Takes x links k (k + 1)) ?_ fun e t he => ?_
      · rcases he with ⟨here, there, he⟩
        exact ⟨here, there, he.loosen⟩
      · rcases he with ⟨here, there, he⟩
        exact attains_level_chain hlevel hoperand hlinks he

end

/-! ## Chains as sources -/

/-- A chain is read as the one grouped tree with its operands and operators. Nothing is
    reported, and nothing is left. -/
theorem readExpression_chain {chain : Chain} (hchain : chain.IsValid) {limits : Limits}
    (hdepth : 0 < limits.depth) :
    ∃ e s, readExpression limits (.ofSource chain.text) = (.ok e, s) ∧ s.diagnostics = [] ∧
      s.cursor.rest = [] ∧ e.inorder = chain.symbols ∧ e.Grouped ∧
      ∀ e' : Expression, e'.inorder = chain.symbols → e'.Grouped → e'.erase = e.erase := by
  have hshows : (State.ofSource chain.text).Shows chain.first.text.toList
      (Chain.linksText chain.links).toList :=
    .of_eq (String.toList_append ..)
  have hread : Attains (Grammar.forState (.ofSource chain.text)).expressionBody { limits }
      (.ofSource chain.text) fun e s =>
        ∃ here there, Chain.Taken chain.first chain.links 0 0 e s here there :=
    attains_nested hdepth (attains_levels_chain 0 _ _ _ hchain.1 hchain.2 hshows)
  rcases hread with ⟨e, s, hyields, hquiet, here, there, htaken⟩
  -- No level is looser than the loosest one, so nothing ends the chain before its end.
  have hthere : there = [] := by
    cases there with
    | nil => rfl
    | cons link there => exact absurd (htaken.ends link rfl) (Nat.not_lt_zero _)
  have hsplit := htaken.split
  rw [hthere, List.append_nil] at hsplit
  have hinorder : e.inorder = chain.symbols := by
    rw [htaken.inorder, ← hsplit]
  refine ⟨e, s, hyields, hquiet, ?_, hinorder, htaken.grouped, fun e' hinorder' hgrouped => ?_⟩
  · rw [htaken.rest, hthere]
    rfl
  · exact hgrouped.erase_eq htaken.grouped (hinorder'.trans hinorder.symm)

/-- The chain `a or b + 2 * c - 0x1f`. -/
def Chain.sum : Chain where
  first := .reference "a"
  links := [(.or, .reference "b"), (.add, .number "2"), (.multiply, .reference "c"),
    (.subtract, .number "0x1f")]

theorem Chain.sum_isValid : Chain.sum.IsValid := by
  refine ⟨⟨rfl, rfl, rfl⟩, fun link hlink => ?_⟩
  simp only [sum, List.mem_cons, List.not_mem_nil, or_false] at hlink
  rcases hlink with rfl | rfl | rfl | rfl
  · exact ⟨rfl, rfl, rfl⟩
  · exact ⟨rfl, rfl⟩
  · exact ⟨rfl, rfl, rfl⟩
  · exact ⟨rfl, rfl⟩

/-- A chain over four levels of the table is read under the smallest depth there is. -/
theorem readExpression_chain_of_sum :
    Chain.sum.IsValid ∧ 0 < ({ depth := 1 } : Limits).depth ∧
      Chain.sum.text = "a or b + 2 * c - 0x1f" ∧
      ∃ e s, readExpression { depth := 1 } (.ofSource Chain.sum.text) = (.ok e, s) ∧
        s.diagnostics = [] ∧ s.cursor.rest = [] ∧ e.inorder = Chain.sum.symbols ∧ e.Grouped ∧
        ∀ e' : Expression, e'.inorder = Chain.sum.symbols → e'.Grouped → e'.erase = e.erase :=
  ⟨Chain.sum_isValid, by decide, by decide +kernel,
    readExpression_chain Chain.sum_isValid (by decide)⟩

end Ysh
