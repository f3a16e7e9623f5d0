import Ysh.Proofs.Joined.Surroundings

/-!
# States in Surroundings

What is known of a state of a reader about the token that comes next. In front of a token
a text and its surroundings look the same. At the end of the text they do not, but if
nothing is wrong in front of the end then a newline comes next in the surroundings, and
to most productions a newline is as good as the end.

Where an expression ends, the next token is looked at in the mode of expressions, and
what comes behind a statement is known in the mode of commands. The few tokens that may
come there are tokens in both.

## Main definitions

* `State.within`: A state of the text in its surroundings.
* `State.Clear`: Nothing is wrong in front of the next token.
* `State.Faces`: A token comes next.
* `State.Rests`: A token comes next, or the end where a newline is as good.
* `State.Stays`: A token comes next, or what is the end in the surroundings as well.
* `Token.Twin`: What a token of the text looks like in the surroundings.

## Theorems

* `State.Stays.next_within`, `State.Rests.twin`: The next token in the surroundings.
* `State.Clear.rests_expression`: What ends a statement ends an expression.
-/

namespace Ysh

/-! ## Twins -/

/-- What the text has as a kind of token, its surroundings have as well, up to a newline
    in place of the end. -/
def Token.Kind.Twin (kind kind' : Token.Kind) : Prop :=
  kind' = kind ∨ (kind = .endOfInput ∧ kind' = .newline)

/-- A token of the text and what is there in the surroundings. -/
def Token.Twin (k : Nat) (token token' : Token) : Prop :=
  token' = token.shift k ∨ (token.kind = .endOfInput ∧ token'.kind = .newline)

theorem Token.Twin.refl (k : Nat) (token : Token) : token.Twin k (token.shift k) :=
  .inl rfl

theorem Token.Twin.kind {k : Nat} {token token' : Token} (h : token.Twin k token') :
    token.kind.Twin token'.kind := by
  rcases h with rfl | h
  · exact .inl rfl
  · exact .inr h

/-- A token that is not the end is there in the surroundings. -/
theorem Token.Twin.eq {k : Nat} {token token' : Token} (h : token.Twin k token')
    (hkind : token.kind ≠ .endOfInput) : token' = token.shift k :=
  h.resolve_right fun h => hkind h.1

namespace Token.Kind.Twin

variable {kind kind' : Token.Kind} (h : kind.Twin kind')
include h

/-- What does not tell a newline from the end does not tell twins apart. -/
theorem apply {β : Type} (f : Token.Kind → β) (hf : f .endOfInput = f .newline) :
    f kind' = f kind := by
  rcases h with rfl | ⟨rfl, rfl⟩
  · rfl
  · exact hf.symm

/-- Twins are the same kind, if that is another than the two. -/
theorem eq_iff {expected : Token.Kind} (hend : expected ≠ .endOfInput)
    (hline : expected ≠ .newline) : kind = expected ↔ kind' = expected := by
  rcases h with rfl | ⟨rfl, rfl⟩
  · exact Iff.rfl
  · exact iff_of_false hend.symm hline.symm

end Token.Kind.Twin

/-! ## States -/

namespace State

/-- The state of a reader of the text in its surroundings. -/
def within (w : Surroundings) (s : State) : State :=
  ⟨s.cursor.within w, w.reports ++ s.diagnostics.map (Diagnostic.shift w.size)⟩

/-- What comes next in a mode, with what is in front of it. -/
def ahead (mode : Mode) (ctx : Context) (s : State) : Cursor.Lookahead :=
  s.cursor.lookahead mode (mode == .expression && ctx.inBrackets)

/-- Nothing is wrong in front of the next token. -/
def Clear (mode : Mode) (ctx : Context) (s : State) : Prop :=
  (s.ahead mode ctx).errors = []

/-- A token comes next, with nothing wrong in front of it. -/
structure Faces (mode : Mode) (ctx : Context) (s : State) : Prop where
  token : (s.next mode ctx).kind ≠ .endOfInput
  clear : s.Clear mode ctx

/-- A token comes next, or else the end, with nothing wrong in front of it and where
    newlines mean something. -/
def Rests (mode : Mode) (ctx : Context) (s : State) : Prop :=
  (s.next mode ctx).kind = .endOfInput →
    s.Clear mode ctx ∧ (mode == .expression && ctx.inBrackets) = false

/-- Nothing is wrong in front of what comes next, and if that is the end then it is the
    end in the surroundings as well. -/
structure Stays (w : Surroundings) (mode : Mode) (ctx : Context) (s : State) : Prop where
  last : (s.next mode ctx).kind = .endOfInput → w.behind = []
  clear : s.Clear mode ctx

variable {w : Surroundings} {mode : Mode} {ctx : Context} {s : State}

theorem Faces.stays (h : s.Faces mode ctx) : s.Stays w mode ctx :=
  ⟨fun hend => absurd hend h.token, h.clear⟩

theorem Faces.rests (h : s.Faces mode ctx) : s.Rests mode ctx :=
  fun hend => absurd hend h.token

theorem Clear.rests (h : s.Clear .command ctx) : s.Rests .command ctx :=
  fun _ => ⟨h, rfl⟩

theorem Stays.rests (h : s.Stays w .command ctx) : s.Rests .command ctx :=
  h.clear.rests

/-- What comes next is the same in the surroundings. -/
theorem ahead_within (h : (s.next mode ctx).kind = .endOfInput → w.behind = []) :
    (s.within w).ahead mode ctx = (s.ahead mode ctx).within w :=
  Cursor.lookahead_within s.cursor h

theorem next_within (h : (s.next mode ctx).kind = .endOfInput → w.behind = []) :
    (s.within w).next mode ctx = (s.next mode ctx).shift w.size :=
  congrArg Cursor.Lookahead.token (ahead_within h)

theorem Stays.next_within (h : s.Stays w mode ctx) :
    (s.within w).next mode ctx = (s.next mode ctx).shift w.size :=
  State.next_within h.last

theorem Stays.kind_within (h : s.Stays w mode ctx) :
    ((s.within w).next mode ctx).kind = (s.next mode ctx).kind := by
  rw [h.next_within]
  rfl

theorem Stays.clear_within (h : s.Stays w mode ctx) : (s.within w).Clear mode ctx := by
  unfold Clear
  rw [ahead_within h.last]
  change (s.ahead mode ctx).errors.map _ = []
  rw [show (s.ahead mode ctx).errors = [] from h.clear]
  rfl

/-- At the end of the text there is a newline in the surroundings, or their end. -/
theorem Rests.twin (h : s.Rests mode ctx) :
    (s.next mode ctx).Twin w.size ((s.within w).next mode ctx) := by
  by_cases hend : (s.next mode ctx).kind = .endOfInput
  · rcases w.startsLine.cases with hbehind | ⟨more, hbehind⟩
    · exact .inl (State.next_within fun _ => hbehind)
    · rcases h hend with ⟨hclear, hover⟩
      unfold Clear State.ahead at hclear
      unfold next at hend ⊢
      rw [hover] at hend hclear ⊢
      rcases Cursor.lookahead_line hend hclear hbehind with ⟨token, hnext, hkind⟩
      refine .inr ⟨hend, ?_⟩
      change ((s.cursor.within w).lookahead mode false).token.kind = _
      rw [hnext]
      exact hkind
  · exact .inl (State.next_within fun h => absurd h hend)

end State

/-! ## What ends a statement -/

/-- A kind of token that comes behind a complete statement, or between the parts of one. -/
def Token.Kind.endsStatement (kind : Token.Kind) : Bool :=
  kind.isTerminator || [pipe, rightBrace, rightParen, endOfInput].contains kind

open Lexeme

/-- What comes behind a statement is a token of an expression too. -/
theorem Lexeme.ofMode_of_endsStatement {cs : List Char} {kind : Token.Kind} {n : Nat}
    (h : ofMode .command cs = .token kind n) (hkind : kind.endsStatement = true) :
    ∃ kind' n', ofMode .expression cs = .token kind' n' := by
  have harises := arises_ofMode .command cs
  rw [h] at harises
  generalize hl : Lexeme.token kind n = l at harises
  cases harises with
  | endOfInput hnil =>
      subst hnil
      exact ⟨_, _, rfl⟩
  | newline hhead =>
      rcases cs with _ | ⟨c, cs⟩
      · cases hhead
      · cases hhead
        exact ⟨.newline, 1, rfl⟩
  | quote hq =>
      rcases quote?_kind hq with ⟨_, _, _, rfl⟩
      cases hl
      cases hkind
  | commandOperator hm =>
      subst hl
      rcases Option.map_eq_some_iff.1 hm with ⟨entry, hentry, heq⟩
      have hentryKind : entry.2 = kind := Except.ok.inj (congrArg Lexeme.verdict heq)
      have htable : ∀ e ∈ commandOperators, e.2.endsStatement = true →
          e.1.head? ∈ [';', '&', '|', '}', ')'].map some := by decide
      have hhead := htable entry (List.mem_of_find?_eq_some hentry) (hentryKind ▸ hkind)
      have hstarts := List.find?_some hentry
      rcases List.isPrefixOf_iff_prefix.1 hstarts with ⟨rest, rfl⟩
      rcases entry with ⟨_ | ⟨c, op⟩, kind'⟩
      · simp at hhead
      · simp only [List.head?_cons, List.map_cons, List.map_nil, List.mem_cons, Option.some.injEq,
          List.not_mem_nil, or_false] at hhead
        rcases hhead with rfl | rfl | rfl | rfl | rfl
        · exact ⟨.semicolon, 1, rfl⟩
        · exact ⟨.ampersand, 1, rfl⟩
        · exact ⟨.pipe, 1, rfl⟩
        · exact ⟨.rightBrace, 1, rfl⟩
        · exact ⟨.rightParen, 1, rfl⟩
  | fault => cases hl
  | @dollar _ p _ | @sigil _ p _ =>
      rcases p with ⟨o, m⟩
      cases hl
      cases hkind
  | lone | word =>
      cases hl
      cases hkind

/-- Nothing is wrong in front of the next token of an expression either, if that is the
    same text. -/
theorem State.Clear.rests_expression_of {ctx : Context} {s : State} (h : s.Clear .command ctx)
    (hctx : ctx.inBrackets = false)
    (htoken : ∀ cs n, ofMode .command cs = .token (s.next .command ctx).kind n →
      String.ofList (cs.take n) = (s.next .command ctx).text →
        ∃ kind' n', ofMode .expression cs = .token kind' n') :
    s.Rests .expression ctx := by
  intro hend
  refine ⟨?_, by rw [hctx]; rfl⟩
  unfold State.Clear State.ahead at h ⊢
  unfold State.next at htoken hend
  rw [hctx] at hend ⊢
  change (s.cursor.lookahead .command false).errors = [] at h
  change ∀ cs n, ofMode .command cs = .token (s.cursor.lookahead .command false).token.kind n →
    String.ofList (cs.take n) = (s.cursor.lookahead .command false).token.text → _ at htoken
  change (s.cursor.lookahead .expression false).token.kind = .endOfInput at hend
  change (s.cursor.lookahead .expression false).errors = []
  rw [Cursor.lookahead_eq] at h htoken hend ⊢
  unfold Cursor.nextToken at h htoken hend ⊢
  dsimp only at h htoken hend ⊢
  generalize s.cursor.advance (extrasLength s.cursor.rest) = front at h htoken hend ⊢
  rcases hl : Lexeme.ofMode .command front.rest with ⟨fault | kind, n⟩
  · rw [hl] at h
    cases h
  · rw [hl] at htoken
    rcases htoken front.rest n hl rfl with ⟨kind', n', hl'⟩
    rw [hl']
    rfl

/-- What ends a statement ends an expression. -/
theorem State.Clear.rests_expression {ctx : Context} {s : State} (h : s.Clear .command ctx)
    (hkind : (s.next .command ctx).kind.endsStatement = true) (hctx : ctx.inBrackets = false) :
    s.Rests .expression ctx :=
  h.rests_expression_of hctx fun _ _ hl _ => ofMode_of_endsStatement hl hkind

end Ysh
