import Ysh.Proofs.Faults
import Ysh.Proofs.Growth
import Ysh.Tree.Scopes

/-!
# Returns and Definitions

`return` is a word of the language in the body of a definition and nowhere else. So a
node for it stands in such a body, what it returns is what the innermost definition
around it returns, and no command in such a body starts with that word. Which definition
that is follows from the tree alone. A reader keeps it in its context, where blocks,
substitutions, parameters and failures come in between, and the trees that a grammar
grows say that the two agree.

A tree does not tell the tokens that it was read from. `return[1]` by itself is one run
of bare text in a word, whose first token is `return`. So what a command starts with is
looked up in the source, by reading a token where the command starts. That it is the
token that was met in the parse is a fact about tokens: what stands in front of one has
no say in what the token is.

A condition may be a command too, but that is not a statement, and there `return` is a
name like any other.

## Main definitions

* `Tree.suits`: What is returned is what a kind of definition returns.
* `Tree.ObeysScope`: A node may stand in a definition, or outside of all.

## Theorems

* `Cursor.On.lookahead_seek`: A token can be read again from where it starts.
* `Grown.obeysScope`: All nodes of a grown tree may stand where they do.
* `parse_returns_obey_scope`: So may all nodes of a program.
-/

namespace Ysh

/-! ## Reading a token again -/

namespace Cursor

variable {source : String} {c : Cursor}

theorem seek_go (front rest : List Char) :
    ∀ start, seek.go (start + byteLength front) ⟨front ++ rest, start⟩
      = ⟨rest, start + byteLength front⟩ := by
  induction front with
  | nil =>
      intro start
      cases rest with
      | nil => rw [List.nil_append, seek.go, byteLength_nil, Nat.add_zero]
      | cons x rest =>
          rw [List.nil_append, byteLength_nil, Nat.add_zero, seek.go, if_pos (Nat.le_refl start)]
  | cons x front ih =>
      intro start
      have hpos := x.utf8Size_pos
      have hgo := ih (start + x.utf8Size)
      rw [Nat.add_assoc] at hgo
      rw [byteLength_cons, List.cons_append, seek.go, if_neg (by omega)]
      exact hgo

/-- A place of a source is found by its offset. -/
theorem On.seek (h : c.On source) : Cursor.seek source c.offset = c := by
  rcases h with ⟨front, hsource, hoffset⟩
  have hgo := seek_go front c.rest 0
  rw [Nat.zero_add] at hgo
  rw [Cursor.seek, ofSource, hsource, hoffset, hgo, ← hoffset]

/-- A token can be read again from where it starts. Then nothing is in front of it. -/
theorem nextToken_again {mode : Mode} {token : Token} {after : Cursor}
    (h : c.nextToken mode = (.ok token, after)) : ∃ n,
      token.span.start = (c.advance n).offset ∧
        (c.advance n).nextToken mode = (.ok { token with immediate := true }, after) := by
  have hextras : extrasLength (c.advance (extrasLength c.rest)).rest = 0 :=
    extrasLength_drop c.rest
  refine ⟨extrasLength c.rest, ?_⟩
  unfold nextToken at h ⊢
  dsimp only at h ⊢
  generalize c.advance (extrasLength c.rest) = front at h hextras ⊢
  rw [hextras, advance_zero]
  rcases hverdict : (Lexeme.ofMode mode front.rest).verdict with fault | kind
  · rw [hverdict] at h
    cases h
  · rw [hverdict] at h
    cases h
    exact ⟨rfl, rfl⟩

/-- An error takes a character. -/
theorem length_lt_of_error {mode : Mode} {e : LexicalError} {after : Cursor}
    (h : c.nextToken mode = (.error e, after)) : after.rest.length < c.rest.length := by
  rcases tile_nextToken mode c with ⟨gap, text, htile, hends⟩
  rw [h] at htile hends
  rcases hends with ⟨htext, -⟩ | ⟨-, ⟨token, htoken, -⟩, -⟩
  · have hlength := congrArg List.length htile.passes.rest
    have hpos := List.length_pos_iff.2 htext
    simp only [List.length_append] at hlength
    omega
  · cases htoken

/-- The next token, behind whatever errors, can be read again from where it starts. -/
theorem lookaheadFrom_again (mode : Mode) (clock : List Char) :
    ∀ c : Cursor, c.rest.length ≤ clock.length → ∃ n after,
      (lookaheadFrom mode false clock c).token.span.start = (c.advance n).offset ∧
      (c.advance n).nextToken mode =
        (.ok { (lookaheadFrom mode false clock c).token with immediate := true }, after) := by
  induction clock with
  | nil =>
      intro c hclock
      rw [lookaheadFrom]
      rcases h : c.nextToken mode with ⟨e | token, after⟩
      · have hlt := length_lt_of_error h
        rw [List.length_nil] at hclock
        omega
      · rcases nextToken_again h with ⟨n, hstart, hagain⟩
        exact ⟨n, after, hstart, hagain⟩
  | cons x clock ih =>
      intro c hclock
      rw [lookaheadFrom]
      rcases h : c.nextToken mode with ⟨e | token, after⟩
      · -- The token is the one behind the error.
        have hlt := length_lt_of_error h
        rw [List.length_cons] at hclock
        rcases nextToken_after mode c with ⟨k, hk⟩
        rw [h] at hk
        rcases ih after (by omega) with ⟨n, last, hstart, hagain⟩
        rw [show after = c.advance k from hk, advance_advance] at hstart hagain
        refine ⟨k + n, last, ?_, ?_⟩
        · rw [← hstart, ← hk]
        · rw [hagain, ← hk]
      · rcases nextToken_again h with ⟨n, hstart, hagain⟩
        exact ⟨n, after, hstart, hagain⟩

/-- The next token of a place is found again by its offset in the source. -/
theorem On.lookahead_seek (h : c.On source) (mode : Mode) :
    ((Cursor.seek source (c.lookahead mode false).token.span.start).lookahead mode false).token
      = { (c.lookahead mode false).token with immediate := true } := by
  rcases lookaheadFrom_again mode c.rest c (Nat.le_refl _) with ⟨n, after, hstart, hagain⟩
  change (c.lookahead mode false).token.span.start = (c.advance n).offset at hstart
  rw [hstart, (h.advance n).seek]
  change (lookaheadFrom mode false (c.advance n).rest (c.advance n)).token = _
  rw [lookaheadFrom, hagain]
  cases (c.advance n).rest <;> rfl

end Cursor

/-! ## Scopes -/

namespace Tree

/-- What is returned is what that kind of definition returns, a value or a status. Nothing
    at all may be returned by both. -/
def suits (kind : Definition) : {c : Category} → Tree c → Bool
  | _, some value => value.suits kind
  | _, returnedExpression _ => kind == .func
  | _, returnedWord _ => kind == .proc
  | _, _ => true

/-- The node is a `return`. -/
def isReturn : {c : Category} → Tree c → Bool
  | _, returned _ _ => true
  | _, _ => false

/-- The node may stand in the body of the definition, or outside of all. A `return` stands
    in a body and suits it, and no command in a body starts with the token `return`. -/
def ObeysScope (source : String) (d : Option Definition) : {c : Category} → Tree c → Prop
  | _, returned value _ => ∃ kind, d = Option.some kind ∧ value.suits kind = true
  | _, command call => d.isSome = true →
      ((Cursor.seek source call.span.start).lookahead .command false).token.isWord "return" = false
  | _, _ => True

end Tree

theorem Tree.StartsCommand.obeysScope {source : String} {d : Option Definition}
    {call : CommandCall} (h : call.StartsCommand source d) :
    (Tree.command call).ObeysScope source d := by
  rcases h with ⟨c, hon, hstart, hword⟩
  intro hsome
  rw [← hstart, hon.lookahead_seek]
  exact hword hsome

namespace Grown

variable {soil : Soil} {n : Nat} {d : Option Definition} {c : Category}

theorem suits {t : Tree c} (h : Grown soil n d t) :
    ∀ kind, d = Option.some kind → t.suits kind = true := by
  induction h with
  | some _ ih => exact ih
  | returnedExpression | returnedWord =>
      intro kind hd
      cases hd
      rfl
  | _ => exact fun _ _ => rfl

/-- All nodes of a grown tree may stand where they do. -/
theorem obeysScope {t : Tree c} (h : Grown soil n d t) :
    ∀ p ∈ t.nodesIn d, p.2.tree.ObeysScope soil.source p.1 := by
  induction h with
  | command hstarts _ ih => exact List.forall_mem_cons.2 ⟨hstarts.obeysScope, ih⟩
  | returned hsome hvalue ih =>
      refine List.forall_mem_cons.2 ⟨?_, ih⟩
      rcases Option.isSome_iff_exists.1 hsome with ⟨kind, hkind⟩
      exact ⟨kind, hkind, hvalue.suits kind hkind⟩
  | _ =>
      repeat' first
        | assumption
        | exact List.forall_mem_nil _
        | refine List.forall_mem_cons.2 ⟨trivial, ?_⟩
        | refine List.forall_mem_append.2 ⟨?_, ?_⟩

end Grown

/-- In every program, with errors or without: a node for `return` stands in the body of a
    definition, and what it returns is an expression in a func and a word in a proc, by the
    innermost of them. In such a body the token at the start of a command is not `return`. -/
theorem parse_returns_obey_scope (limits : Limits) (source : String) :
    ∀ p ∈ (parse limits source).program.nodesInScope, p.2.tree.ObeysScope source p.1 := by
  rcases grown_parse limits source with ⟨faulty, hgrown⟩
  exact hgrown.obeysScope

/-- In a proc that defines a func, the `return` of either suits the one it stands in. -/
theorem returns_obey_scope_of_nested :
    ∃ p q, p ∈ (parse {} "proc p { func f() { return (1) }; return x }\n").program.nodesInScope ∧
      q ∈ (parse {} "proc p { func f() { return (1) }; return x }\n").program.nodesInScope ∧
      p.1 = some .func ∧ p.2.tree.isReturn = true ∧ q.1 = some .proc ∧ q.2.tree.isReturn = true ∧
      p.2.tree.ObeysScope "proc p { func f() { return (1) }; return x }\n" p.1 ∧
      q.2.tree.ObeysScope "proc p { func f() { return (1) }; return x }\n" q.1 := by
  have hfound : ∀ kind : Definition,
      ((parse {} "proc p { func f() { return (1) }; return x }\n").program.nodesInScope.any
        fun p => p.1 == some kind && p.2.tree.isReturn) = true := by
    intro kind
    cases kind <;> decide +kernel
  rcases List.any_eq_true.1 (hfound .func) with ⟨p, hp, hfunc⟩
  rcases List.any_eq_true.1 (hfound .proc) with ⟨q, hq, hproc⟩
  rw [Bool.and_eq_true, beq_iff_eq] at hfunc hproc
  exact ⟨p, q, hp, hq, hfunc.1, hfunc.2, hproc.1, hproc.2,
    parse_returns_obey_scope {} _ p hp, parse_returns_obey_scope {} _ q hq⟩

end Ysh
