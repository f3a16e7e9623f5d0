import Ysh.Proofs.Lexing.Basic
import Ysh.Proofs.Steps

/-!
# Readers that Succeed

A reader that is sure to have a result, and to have it without a word to say about
the source. `Ensures` is about the results that a reader happens to have; here a
state is given of which the text ahead is known, and the reader is shown to read it.

The rules follow the combinators. A loop needs an invariant and something that gets
less, and what gets less is always the text: the clock of a loop is as long as the
text when the loop starts, so rounds that each take a character do not outlast it.
For the same reason a loop that reads a source ends because a round stops it.

## Main definitions

* `Attains`: The reader has a result with the property, and reports nothing.
* `Stands`: A token stands at a state, behind blanks at most.
* `Round.Meets`: What a round of a loop has to do.

## Theorems

* `attains_bind`, `attains_loop`: Sequences and loops.
* `attains_loop_items`, `attains_collect`: Lists of items, read one by one.
* `Stands.advance`: The token that stands at a state is consumed.
* `ensures_loop_stop`: A loop over a source ends with a round that stops it.
-/

namespace Ysh

/-- What a round of a loop that keeps `I` and ends in `Q` has to do: keep `I` and
    consume something, or end in `Q`. -/
def Round.Meets {σ : Type} (I Q : σ → State → Prop) (s : State) (r : Round σ) (s' : State) :
    Prop :=
  match r with
  | .stop b => Q b s'
  | .again b => I b s' ∧ s'.cursor.rest.length < s.cursor.rest.length

section

variable {m : Type → Type} [Monad m] [MonadStateOf State m] [Reads m] {α β σ : Type}
  {ctx : Context} {s s' : State} {D : List Diagnostic} {Q Q' : α → State → Prop}

/-- A loop ends with a round that stops it, if the other rounds each consume
    something. -/
theorem ensures_loop_stop {step : σ → m (Round σ)} [hm : ∀ a, Moving (step a)]
    {I Q : σ → State → Prop} {a : σ} (ha : I a s)
    (h : ∀ a s, I a s → Ensures D (step a) ctx s fun r s' => r.Meets I Q s s') :
    Ensures D (loop step a) ctx s Q := by
  refine Moving.ensures_bind (fun s => moving_rounds hm s.cursor.rest a) ?_
  intro t s1 ht _
  unfold Yields at ht
  rw [Reads.outcome_get] at ht
  cases ht
  have hrounds : ∀ clock : List Char, ∀ a s, s.cursor.rest.length ≤ clock.length → I a s →
      Ensures D (rounds step clock a) ctx s Q := by
    intro clock
    induction clock with
    | nil =>
        intro a s hle ha
        refine Moving.ensures_bind (fun r => ?_) ((h a s ha).mono fun r s1 hr => ?_)
        · cases r <;> exact moving_pure _
        · cases r with
          | stop b => exact ensures_pure.2 fun _ => hr
          | again b => exact absurd (Nat.lt_of_lt_of_le hr.2 hle) (Nat.not_lt_zero _)
    | cons c clock ih =>
        intro a s hle ha
        refine Moving.ensures_bind (fun r => ?_) ((h a s ha).mono fun r s1 hr => ?_)
        · cases r with
          | stop b => exact moving_pure _
          | again b => exact moving_rounds hm clock b
        · cases r with
          | stop b => exact ensures_pure.2 fun _ => hr
          | again b => exact ih b s1 (Nat.lt_succ_iff.1 (Nat.lt_of_lt_of_le hr.2 hle)) hr.1
  exact hrounds _ a _ (Nat.le_refl _) ha

/-- The reader has a result with the property, and reports nothing. -/
def Attains (x : m α) (ctx : Context) (s : State) (Q : α → State → Prop) : Prop :=
  ∃ a s', Yields x ctx s a s' ∧ s'.diagnostics = s.diagnostics ∧ Q a s'

theorem Attains.mono {x : m α} (h : Attains x ctx s Q) (hQ : ∀ a s', Q a s' → Q' a s') :
    Attains x ctx s Q' := by
  rcases h with ⟨a, s', hx, hd, ha⟩
  exact ⟨a, s', hx, hd, hQ a s' ha⟩

theorem attains_pure {a : α} (h : Q a s) : Attains (pure a : m α) ctx s Q :=
  ⟨a, s, yields_pure.2 ⟨rfl, rfl⟩, rfl, h⟩

/-- A sequence attains what its second reader attains behind its first. -/
theorem attains_bind {x : m α} {f : α → m β} {Q : β → State → Prop}
    (h : Attains x ctx s fun a s1 => Attains (f a) ctx s1 Q) : Attains (x >>= f) ctx s Q := by
  rcases h with ⟨a, s1, hx, hd, b, s', hf, hd', hb⟩
  exact ⟨b, s', yields_bind.2 ⟨a, s1, hx, hf⟩, hd'.trans hd, hb⟩

/-- A sequence of which the first reader is known to attain something. -/
theorem attains_seq {x : m α} {f : α → m β} {P : α → State → Prop} {Q : β → State → Prop}
    (hx : Attains x ctx s P) (h : ∀ a s1, P a s1 → Attains (f a) ctx s1 Q) :
    Attains (x >>= f) ctx s Q :=
  attains_bind (hx.mono h)

/-- A sequence of which the first reader moves, so that no more is left behind it. -/
theorem attains_onward {x : m α} {f : α → m β} [hm : Moving x] {P : α → State → Prop}
    {Q : β → State → Prop} (hx : Attains x ctx s P)
    (h : ∀ a s1, P a s1 → s1.cursor.rest.length ≤ s.cursor.rest.length → Attains (f a) ctx s1 Q) :
    Attains (x >>= f) ctx s Q := by
  rcases hx with ⟨a, s1, hx, hd, ha⟩
  exact attains_bind ⟨a, s1, hx, hd, h a s1 ha (hm.of_yields hx).length_le⟩

/-- A sequence whose first reader only looks. -/
theorem attains_look {x : m α} {f : α → m β} {a : α} {Q : β → State → Prop}
    (hx : Yields x ctx s a s) (h : Attains (f a) ctx s Q) : Attains (x >>= f) ctx s Q :=
  attains_bind ⟨a, s, hx, rfl, h⟩

theorem attains_loop {step : σ → m (Round σ)} {I Q : σ → State → Prop} {a : σ} (ha : I a s)
    (h : ∀ a s, I a s → Attains (step a) ctx s fun r s' => r.Meets I Q s s') :
    Attains (loop step a) ctx s Q := by
  have hrounds : ∀ clock : List Char, ∀ a s, s.cursor.rest.length ≤ clock.length → I a s →
      Attains (rounds step clock a) ctx s Q := by
    intro clock
    induction clock with
    | nil =>
        intro a s hle ha
        refine attains_seq (h a s ha) fun r s1 hr => ?_
        cases r with
        | stop b => exact attains_pure hr
        | again b => exact absurd (Nat.lt_of_lt_of_le hr.2 hle) (Nat.not_lt_zero _)
    | cons c clock ih =>
        intro a s hle ha
        refine attains_seq (h a s ha) fun r s1 hr => ?_
        cases r with
        | stop b => exact attains_pure hr
        | again b => exact ih b s1 (Nat.lt_succ_iff.1 (Nat.lt_of_lt_of_le hr.2 hle)) hr.1
  exact attains_look (Reads.outcome_get ctx s) (hrounds _ a s (Nat.le_refl _) ha)

/-- A loop that reads the items of a list one by one, each with the same key as the item that
    was there. `taken` says what has been read, and `front` where the items stand that have
    not. The last round may still read an item. -/
theorem attains_loop_items {step : σ → m (Round σ)} (key : α → β) (taken : σ → List α)
    (front : σ → List α → State → Prop) {items : List α} {a : σ} {R : σ → State → Prop}
    (ha : taken a = []) (hs : front a items s)
    (hstep : ∀ a todo t, todo <:+ items → front a todo t →
      t.cursor.rest.length ≤ s.cursor.rest.length → Attains (step a) ctx t fun r t' =>
        r.Meets
          (fun a' t' => ∃ b b' todo', todo = b :: todo' ∧ taken a' = taken a ++ [b'] ∧
            key b' = key b ∧ front a' todo' t')
          (fun a' t' => (taken a').map key = (taken a ++ todo).map key ∧ R a' t') t t') :
    Attains (loop step a) ctx s fun a t => (taken a).map key = items.map key ∧ R a t := by
  refine attains_loop
    (I := fun a t => ∃ done todo, done ++ todo = items ∧ (taken a).map key = done.map key ∧
      front a todo t ∧ t.cursor.rest.length ≤ s.cursor.rest.length)
    ⟨[], items, rfl, by rw [ha], hs, Nat.le_refl _⟩ ?_
  rintro a t ⟨done, todo, rfl, hdone, ht, hle⟩
  refine (hstep a todo t (List.suffix_append _ _) ht hle).mono fun r t' hr => ?_
  cases r with
  | stop a' =>
      refine ⟨?_, hr.2⟩
      rw [hr.1, List.map_append, List.map_append, hdone]
  | again a' =>
      rcases hr with ⟨⟨b, b', todo', rfl, htaken, hb, ht'⟩, hlt⟩
      refine ⟨⟨done ++ [b], todo', List.append_assoc _ _ _, ?_, ht', by omega⟩, hlt⟩
      rw [htaken, List.map_append, List.map_append, hdone, List.map_singleton, List.map_singleton,
        hb]

/-- Items that are read one by one, each with the same key as the item that was
    there. `front` says what stands in front of the items that are still to be read. -/
theorem attains_collect {item : m (Option α)} (key : α → β) (front : List α → State → Prop)
    {items : List α} {Q : List α → State → Prop} (hs : front items s)
    (hitem : ∀ b todo t, b :: todo <:+ items → front (b :: todo) t →
      t.cursor.rest.length ≤ s.cursor.rest.length →
        Attains item ctx t fun r t' => (∃ a, r = some a ∧ key a = key b) ∧ front todo t' ∧
          t'.cursor.rest.length < t.cursor.rest.length)
    (hend : ∀ t, front [] t → t.cursor.rest.length ≤ s.cursor.rest.length →
      Attains item ctx t fun r t' => r = none ∧ ∀ as, as.map key = items.map key → Q as t') :
    Attains (collect item) ctx s Q := by
  refine attains_seq (attains_loop_items key Array.toList (fun _ => front)
    (R := fun _ t => ∀ as, as.map key = items.map key → Q as t) rfl hs ?_)
    fun as t has => attains_pure (has.2 _ has.1)
  rintro as (_ | ⟨b, todo⟩) t hsuffix ht hle
  · refine attains_seq (hend t ht hle) fun r t' hr => ?_
    rcases hr with ⟨rfl, hr⟩
    exact attains_pure ⟨by rw [List.append_nil], hr⟩
  · refine attains_seq (hitem b todo t hsuffix ht hle) fun r t' hr => ?_
    rcases hr with ⟨⟨a, rfl, ha⟩, ht', hlt⟩
    exact attains_pure ⟨⟨b, a, todo, rfl, Array.toList_push, ha, ht'⟩, hlt⟩

end

/-! ## Readers that may fail -/

section

variable {α β : Type} {ctx : Context} {s : State} {Q : α → State → Prop}

theorem attains_read {f : Context → Parse α} (h : Attains (f ctx) ctx s Q) :
    Attains (read >>= f) ctx s Q :=
  attains_look (a := ctx) rfl h

theorem attains_map {x : Parse α} {f : α → β} {Q : β → State → Prop}
    (h : Attains x ctx s fun a s' => Q (f a) s') : Attains (f <$> x) ctx s Q := by
  rw [map_eq_pure_bind]
  exact attains_seq h fun a s1 ha => attains_pure ha

theorem attains_lift {x : Scan α} (h : Attains x ctx s Q) : Attains (liftM x : Parse α) ctx s Q :=
  h

theorem attains_attempt {x : Parse α} (h : Attains x ctx s Q) :
    Attains (attempt x) ctx s fun r s' => ∃ a, r = .ok a ∧ Q a s' := by
  rcases h with ⟨a, s', hx, hd, ha⟩
  refine ⟨.ok a, s', ?_, hd, a, rfl, ha⟩
  have hx' : x.run ctx s = (.ok a, s') := hx
  change ((.ok (x.run ctx s).1, (x.run ctx s).2) :
    Except SyntaxError (Except SyntaxError α) × State) = (.ok (.ok a), s')
  rw [hx']

theorem attains_ahead {x : Scan α} (h : Attains x ctx s fun a _ => Q a s) :
    Attains (ahead x) ctx s Q := by
  rcases h with ⟨a, s', hx, -, ha⟩
  refine ⟨a, s, ?_, rfl, ha⟩
  have hx' : (x ctx s).1 = a := Except.ok.inj (congrArg Prod.fst hx)
  change ((.ok (x ctx s).1, s) : Except SyntaxError α × State) = (.ok a, s)
  rw [hx']

theorem attains_raw {read : Cursor → α × Cursor}
    (h : Q (read s.cursor).1 { s with cursor := (read s.cursor).2 }) :
    Attains (raw read) ctx s Q :=
  ⟨(read s.cursor).1, { s with cursor := (read s.cursor).2 }, rfl, rfl, h⟩

theorem attains_nested {x : Parse α} (hd : ctx.depth < ctx.limits.depth)
    (h : Attains x { ctx with depth := ctx.depth + 1 } s Q) : Attains (nested x) ctx s Q := by
  refine attains_read ?_
  rw [if_neg (Nat.not_le_of_lt hd)]
  exact h

theorem attains_bracketed {x : Parse α} (hd : ctx.depth < ctx.limits.depth)
    (h : Attains x { ctx with depth := ctx.depth + 1, inBrackets := true } s Q) :
    Attains (bracketed x) ctx s Q :=
  attains_nested hd h

end

/-! ## Tokens that stand at a state -/

/-- A token stands at a state, behind blanks at most. It is not a newline that means
    nothing there. -/
structure Stands (mode : Mode) (ctx : Context) (s : State) (text : List Char)
    (kind : Token.Kind) (rest : List Char) : Prop where
  ahead : Ahead mode s.cursor.rest text kind rest
  means : mode = .expression → ctx.inBrackets = true → kind ≠ .newline

namespace Stands

variable {mode : Mode} {ctx : Context} {s : State} {text rest : List Char} {kind : Token.Kind}
  (h : Stands mode ctx s text kind rest)
include h

theorem lookahead : ∃ token after,
    s.cursor.lookahead mode (mode == .expression && ctx.inBrackets) = ⟨token, [], after⟩ ∧
      token.kind = kind ∧ after.rest = rest ∧ Takes mode s.cursor token text after ∧
        (token.immediate = true ↔ s.cursor.rest = text ++ rest) := by
  refine h.ahead.lookahead fun hover => ?_
  rw [Bool.and_eq_true, beq_iff_eq] at hover
  exact h.means hover.1 hover.2

/-- Looking gives the token. -/
theorem next : (s.next mode ctx).kind = kind ∧ (s.next mode ctx).text = .ofList text ∧
    ((s.next mode ctx).immediate = true ↔ s.cursor.rest = text ++ rest) := by
  rcases h.lookahead with ⟨token, after, hnext, hkind, -, htakes, himmediate⟩
  unfold State.next
  rw [hnext]
  exact ⟨hkind, htakes.shown, himmediate⟩

theorem peekKind : Yields (peekKind mode) ctx s kind s := by
  have hkind := h.next.1
  change ((.ok (s.next mode ctx).kind, s) : Except SyntaxError Token.Kind × State) = (.ok kind, s)
  rw [hkind]

theorem peekWord (hmode : mode = .command) (word : String) :
    Yields (peekWord word) ctx s (kind == .word && String.ofList text == word) s := by
  subst hmode
  have hnext := h.next
  change ((.ok ((s.next .command ctx).isWord word), s) : Except SyntaxError Bool × State) = _
  unfold Token.isWord
  rw [hnext.1, hnext.2.1]

/-- Consuming gives the token and leaves what is behind it. -/
theorem advance : Attains (advance mode) ctx s fun token s' =>
    token = s.next mode ctx ∧ s'.cursor.rest = rest ∧
      Takes mode s.cursor (s.next mode ctx) text s'.cursor := by
  rcases h.lookahead with ⟨token, after, hnext, hkind, hrest, htakes, himmediate⟩
  have htoken : s.next mode ctx = token := by
    unfold State.next
    rw [hnext]
  rw [htoken]
  refine ⟨token, { s with cursor := after }, ?_, rfl, rfl, hrest, htakes⟩
  change ((.ok (s.cursor.lookahead mode (mode == .expression && ctx.inBrackets)).token,
    { (reportAll (s.cursor.lookahead mode (mode == .expression && ctx.inBrackets)).errors ctx s).2
      with cursor := (s.cursor.lookahead mode (mode == .expression && ctx.inBrackets)).after }) :
    Except SyntaxError Token × State) = _
  rw [hnext]
  rfl

theorem expectAs (expected : Expectation) : Attains (expectAs mode kind expected) ctx s
    fun token s' => token = s.next mode ctx ∧ s'.cursor.rest = rest := by
  refine attains_look h.peekKind ?_
  rw [if_pos rfl]
  exact attains_lift (h.advance.mono fun _ _ ht => ⟨ht.1, ht.2.1⟩)

theorem expectClosing (opening : Span) : Attains (expectClosing mode kind opening) ctx s
    fun token s' => token = s.next mode ctx ∧ s'.cursor.rest = rest := by
  refine attains_look (a := s.next mode ctx) rfl ?_
  rw [if_pos h.next.1]
  exact attains_lift (h.advance.mono fun _ _ ht => ⟨ht.1, ht.2.1⟩)

end Stands

end Ysh
