import Ysh.Program

/-!
# Outcomes of Readers

The two kinds of reader differ in one thing only: a `Parse` may fail. So both
have an outcome, a result or an error together with the state that is left, and
whatever is proved from the outcome of a sequence alone holds of both kinds at
once. `Reads` says what that takes, and the productions are never unfolded any
further than to a sequence of readers.

`Ensures` is the form in which facts about productions are stated. It fixes the
diagnostics that a whole parse ends with, and speaks of the runs that can be
part of such a parse: those after which no other diagnostics have been reported
than these. Nothing has to be carried along about what was reported in the
meantime, because a sequence that ends within the list has stayed within it
throughout. That last fact needs the readers of a sequence never to withdraw a
diagnostic, which `Moving` says.

## Main definitions

* `Reads`: What the two kinds of reader have in common.
* `Yields`: A reader has a result and leaves a state.
* `Moves`: What every step of every reader does to the state.
* `Moving`: A reader that does nothing else, whether or not it fails.
* `Ensures`: What a reader's result is like, in a parse that ends with a list of
  diagnostics.
* `Quiet`: A list of diagnostics with room left and no error.

## Theorems

* `ensures_bind`: A sequence ensures what its second reader ensures behind its
  first.
* `ensures_loopTo`: A loop comes to its end.
* `ensures_loop_state`, `ensures_loop`: A loop keeps what each of its rounds keeps.
* `ensures_collect`: What every item has, all collected items have.
* `ensures_report`: A parse in which an error has been reported is not quiet.
-/

namespace Ysh

/-- A kind of reader: every reader has an outcome, and the outcome of a sequence
    is that of its parts, up to the first failure. -/
class Reads (m : Type → Type) [Monad m] [MonadStateOf State m] where
  /-- The result or the error of a reader, and the state that it leaves. -/
  outcome {α : Type} : m α → Context → State → Except SyntaxError α × State
  outcome_pure {α : Type} (a : α) (ctx : Context) (s : State) :
    outcome (pure a) ctx s = (.ok a, s)
  outcome_bind {α β : Type} (x : m α) (f : α → m β) (ctx : Context) (s : State) :
    outcome (x >>= f) ctx s = match outcome x ctx s with
      | (.ok a, s1) => outcome (f a) ctx s1
      | (.error e, s1) => (.error e, s1)
  outcome_get (ctx : Context) (s : State) : outcome (getThe State) ctx s = (.ok s, s)

export Reads (outcome)

instance : Reads Scan where
  outcome x ctx s := (.ok (x ctx s).1, (x ctx s).2)
  outcome_pure _ _ _ := rfl
  outcome_bind _ _ _ _ := rfl
  outcome_get _ _ := rfl

instance : Reads Parse where
  outcome x ctx s := x.run ctx s
  outcome_pure _ _ _ := rfl
  outcome_bind x f ctx s := by
    change (ExceptT.bindCont f (x.run ctx s).1 ctx (x.run ctx s).2) = _
    rcases h : x.run ctx s with ⟨_ | _, s1⟩
    · rfl
    · rfl
  outcome_get _ _ := rfl

section

variable {m : Type → Type} [Monad m] [MonadStateOf State m] [Reads m] {α β σ : Type}
  {ctx : Context} {s s' : State} {D : List Diagnostic}

/-- The reader has the result and leaves the state. -/
def Yields (x : m α) (ctx : Context) (s : State) (a : α) (s' : State) : Prop :=
  outcome x ctx s = (.ok a, s')

theorem yields_bind {x : m α} {f : α → m β} {b : β} :
    Yields (x >>= f) ctx s b s' ↔ ∃ a s1, Yields x ctx s a s1 ∧ Yields (f a) ctx s1 b s' := by
  unfold Yields
  rw [Reads.outcome_bind]
  rcases h : outcome x ctx s with ⟨e | a, s1⟩
  · simp
  · constructor
    · intro hf
      exact ⟨a, s1, rfl, hf⟩
    · rintro ⟨a', s1', hx, hf⟩
      cases hx
      exact hf

theorem yields_pure {a b : α} : Yields (pure a : m α) ctx s b s' ↔ a = b ∧ s = s' := by
  simp [Yields, Reads.outcome_pure]

theorem yields_then {c : Prop} [Decidable c] {x y : m α} {a : α} (hc : c)
    (h : Yields x ctx s a s') : Yields (if c then x else y) ctx s a s' := by
  rwa [if_pos hc]

theorem yields_else {c : Prop} [Decidable c] {x y : m α} {a : α} (hc : ¬ c)
    (h : Yields y ctx s a s') : Yields (if c then x else y) ctx s a s' := by
  rwa [if_neg hc]

/-- A sequence depends on a state only by what its first reader does with it. -/
theorem outcome_bind_congr {x : m α} {f : α → m β} (h : outcome x ctx s = outcome x ctx s') :
    outcome (x >>= f) ctx s = outcome (x >>= f) ctx s' := by
  rw [Reads.outcome_bind, Reads.outcome_bind, h]

/-! ## Movement -/

/-- What every step of every reader does: the place goes forward, diagnostics
    are added behind those that are there, and never more than the limit. -/
structure Moves (limits : Limits) (s s' : State) : Prop where
  forward : ∃ n, s'.cursor = s.cursor.advance n
  kept : s.diagnostics <+: s'.diagnostics
  bounded : s.diagnostics.length ≤ limits.diagnostics →
    s'.diagnostics.length ≤ limits.diagnostics

theorem Moves.refl (limits : Limits) (s : State) : Moves limits s s :=
  ⟨⟨0, s.cursor.advance_zero.symm⟩, List.prefix_rfl, id⟩

theorem Moves.trans {limits : Limits} {s s1 s' : State} (h : Moves limits s s1)
    (h' : Moves limits s1 s') : Moves limits s s' := by
  rcases h with ⟨⟨i, hi⟩, hk, hb⟩
  rcases h' with ⟨⟨j, hj⟩, hk', hb'⟩
  refine ⟨⟨i + j, ?_⟩, hk.trans hk', fun h => hb' (hb h)⟩
  rw [hj, hi, Cursor.advance_advance]

theorem Moves.offset_le {limits : Limits} {s s' : State} (h : Moves limits s s') :
    s.cursor.offset ≤ s'.cursor.offset := by
  rcases h.forward with ⟨n, hn⟩
  rw [hn]
  exact Nat.le_add_right _ _

theorem Moves.length_le {limits : Limits} {s s' : State} (h : Moves limits s s') :
    s'.cursor.rest.length ≤ s.cursor.rest.length := by
  rcases h.forward with ⟨n, hn⟩
  have hrest : s'.cursor.rest = s.cursor.rest.drop n := congrArg Cursor.rest hn
  rw [hrest, List.length_drop]
  exact Nat.sub_le _ _

/-- The reader moves, however it ends. Readers made of moving readers move, so
    this is found by looking at what a production is made of. -/
class Moving (x : m α) : Prop where
  moves (ctx : Context) (s : State) : Moves ctx.limits s (outcome x ctx s).2

instance moving_pure (a : α) : Moving (pure a : m α) := ⟨fun ctx s => by
  rw [Reads.outcome_pure]
  exact .refl _ s⟩

theorem Moving.bind {x : m α} {f : α → m β} (hx : Moving x) (hf : ∀ a, Moving (f a)) :
    Moving (x >>= f) := ⟨fun ctx s => by
  rw [Reads.outcome_bind]
  have hx := hx.moves ctx s
  rcases h : outcome x ctx s with ⟨e | a, s1⟩
  · rw [h] at hx
    exact hx
  · rw [h] at hx
    exact hx.trans ((hf a).moves ctx s1)⟩

instance moving_bind {x : m α} {f : α → m β} [hx : Moving x] [hf : ∀ a, Moving (f a)] :
    Moving (x >>= f) :=
  hx.bind hf

instance moving_ite {c : Prop} [Decidable c] {x y : m α} [hx : Moving x] [hy : Moving y] :
    Moving (if c then x else y) := by
  split
  · exact hx
  · exact hy

instance moving_map [LawfulMonad m] {x : m α} {f : α → β} [Moving x] : Moving (f <$> x) := by
  rw [map_eq_pure_bind]
  infer_instance

theorem Moving.of_yields {x : m α} {a : α} (hx : Moving x) (h : Yields x ctx s a s') :
    Moves ctx.limits s s' := by
  have hm := hx.moves ctx s
  rw [show outcome x ctx s = (.ok a, s') from h] at hm
  exact hm

theorem moving_rounds {step : σ → m (Round σ)} (h : ∀ a, Moving (step a)) (clock : List Char) :
    ∀ a, Moving (rounds step clock a) := by
  induction clock with
  | nil =>
      intro a
      refine (h a).bind fun r => ?_
      cases r <;> exact moving_pure _
  | cons c clock ih =>
      intro a
      refine (h a).bind fun r => ?_
      cases r with
      | stop b => exact moving_pure _
      | again b => exact ih b

instance moving_getThe : Moving (getThe State : m State) := ⟨fun ctx s => by
  rw [Reads.outcome_get]
  exact .refl _ s⟩

theorem Moving.loop {step : σ → m (Round σ)} {a : σ} (h : ∀ a, Moving (step a)) :
    Moving (loop step a) :=
  moving_getThe.bind fun s => moving_rounds h s.cursor.rest a

instance moving_loop {step : σ → m (Round σ)} {a : σ} [h : ∀ a, Moving (step a)] :
    Moving (loop step a) :=
  .loop h

instance moving_collectRound {item : m (Option α)} [h : Moving item] {items : Array α} :
    Moving (collectRound item items) := by
  refine h.bind fun r => ?_
  cases r <;> exact moving_pure _

instance moving_collect {item : m (Option α)} [h : Moving item] : Moving (collect item) :=
  (Moving.loop fun _ => moving_collectRound).bind fun _ => moving_pure _

/-! ## What results are like -/

/-- In a parse that ends with the diagnostics `D`, every result of the reader
    from here and the state it leaves have the property. -/
def Ensures (D : List Diagnostic) (x : m α) (ctx : Context) (s : State)
    (Q : α → State → Prop) : Prop :=
  ∀ a s', Yields x ctx s a s' → s'.diagnostics <+: D → Q a s'

variable {Q Q' : α → State → Prop}

theorem Ensures.mono {x : m α} (h : Ensures D x ctx s Q) (hQ : ∀ a s', Q a s' → Q' a s') :
    Ensures D x ctx s Q' :=
  fun a s' hx hD => hQ a s' (h a s' hx hD)

theorem Ensures.and {x : m α} (h : Ensures D x ctx s Q) (h' : Ensures D x ctx s Q') :
    Ensures D x ctx s fun a s' => Q a s' ∧ Q' a s' :=
  fun a s' hx hD => ⟨h a s' hx hD, h' a s' hx hD⟩

theorem ensures_pure {a : α} : Ensures D (pure a : m α) ctx s Q ↔ (s.diagnostics <+: D → Q a s) := by
  simp [Ensures, yields_pure]

/-- Nothing is ensured of the result where there is none. -/
theorem ensures_none {P : α → State → Prop} :
    Ensures D (pure none : m (Option α)) ctx s fun r s' => ∀ a, r = some a → P a s' := by
  refine ensures_pure.2 fun _ a ha => ?_
  cases ha

/-- A sequence ensures what its second reader ensures behind its first, which must
    not withdraw a diagnostic afterwards. -/
theorem Moving.ensures_bind {x : m α} {f : α → m β} {Q : β → State → Prop}
    (hf : ∀ a, Moving (f a)) (h : Ensures D x ctx s fun a s1 => Ensures D (f a) ctx s1 Q) :
    Ensures D (x >>= f) ctx s Q := by
  intro b s' hb hD
  rcases yields_bind.1 hb with ⟨a, s1, ha, hb⟩
  exact h a s1 ha (((hf a).of_yields hb).kept.trans hD) b s' hb hD

theorem Moving.ensures_seq {x : m α} {f : α → m β} {P : α → State → Prop}
    {Q : β → State → Prop} (hf : ∀ a, Moving (f a)) (hx : Ensures D x ctx s P)
    (h : ∀ a s1, P a s1 → Ensures D (f a) ctx s1 Q) : Ensures D (x >>= f) ctx s Q :=
  Moving.ensures_bind hf (hx.mono h)

theorem Moving.ensures_skip {x : m α} {f : α → m β} {Q : β → State → Prop}
    (hf : ∀ a, Moving (f a)) (h : ∀ a s1, Ensures D (f a) ctx s1 Q) :
    Ensures D (x >>= f) ctx s Q :=
  Moving.ensures_bind hf fun a s1 _ _ => h a s1

/-- A sequence ensures what its second reader ensures behind its first. -/
theorem ensures_bind {x : m α} {f : α → m β} [hf : ∀ a, Moving (f a)] {Q : β → State → Prop}
    (h : Ensures D x ctx s fun a s1 => Ensures D (f a) ctx s1 Q) :
    Ensures D (x >>= f) ctx s Q :=
  Moving.ensures_bind hf h

theorem ensures_ite {c : Prop} [Decidable c] {x y : m α} (hx : c → Ensures D x ctx s Q)
    (hy : ¬ c → Ensures D y ctx s Q) : Ensures D (if c then x else y) ctx s Q := by
  by_cases h : c
  · rw [if_pos h]
    exact hx h
  · rw [if_neg h]
    exact hy h

/-- A sequence of which the first reader is known to ensure something. -/
theorem ensures_seq {x : m α} {f : α → m β} [∀ a, Moving (f a)] {P : α → State → Prop}
    {Q : β → State → Prop} (hx : Ensures D x ctx s P)
    (h : ∀ a s1, P a s1 → Ensures D (f a) ctx s1 Q) : Ensures D (x >>= f) ctx s Q :=
  Moving.ensures_seq inferInstance hx h

/-- A reader of whose result nothing is asked. -/
theorem ensures_skip {x : m α} {f : α → m β} [∀ a, Moving (f a)] {Q : β → State → Prop}
    (h : ∀ a s1, Ensures D (f a) ctx s1 Q) : Ensures D (x >>= f) ctx s Q :=
  Moving.ensures_skip inferInstance h

/-- What a round of a loop hands on, whether it stops or not. -/
def Round.value : Round σ → σ
  | .stop a | .again a => a

/-- What a round of a loop comes to: the invariant if it goes on, or the end. -/
def Round.Keeps (I Q : σ → State → Prop) (r : Round σ) (s : State) : Prop :=
  match r with
  | .stop a => Q a s
  | .again a => I a s

theorem ensures_rounds {step : σ → m (Round σ)} {I Q : σ → State → Prop}
    (hm : ∀ a, Moving (step a)) (hQ : ∀ a s, I a s → Q a s)
    (h : ∀ a s, I a s → Ensures D (step a) ctx s (Round.Keeps I Q)) (clock : List Char) :
    ∀ a s, I a s → Ensures D (rounds step clock a) ctx s Q := by
  induction clock with
  | nil =>
      intro a s ha
      refine Moving.ensures_bind (fun r => ?_) ((h a s ha).mono fun r s1 hr => ?_)
      · cases r <;> exact moving_pure _
      · cases r with
        | stop b => exact ensures_pure.2 fun _ => hr
        | again b => exact ensures_pure.2 fun _ => hQ b s1 hr
  | cons c clock ih =>
      intro a s ha
      refine Moving.ensures_bind (fun r => ?_) ((h a s ha).mono fun r s1 hr => ?_)
      · cases r with
        | stop b => exact moving_pure _
        | again b => exact moving_rounds hm clock b
      · cases r with
        | stop b => exact ensures_pure.2 fun _ => hr
        | again b => exact ih b s1 hr

/-- A loop comes to its end, if its rounds keep the invariant and the invariant is an
    end as well: a loop stops when its clock runs out. -/
theorem ensures_loopTo {step : σ → m (Round σ)} [hm : ∀ a, Moving (step a)]
    {I Q : σ → State → Prop} {a : σ} (ha : I a s) (hQ : ∀ a s, I a s → Q a s)
    (h : ∀ a s, I a s → Ensures D (step a) ctx s (Round.Keeps I Q)) :
    Ensures D (loop step a) ctx s Q := by
  refine Moving.ensures_bind (fun s => moving_rounds hm s.cursor.rest a) ?_
  intro t s1 ht _
  unfold Yields at ht
  rw [Reads.outcome_get] at ht
  cases ht
  exact ensures_rounds hm hQ h s.cursor.rest a s ha

/-- A loop keeps what each of its rounds keeps of the value and the state. -/
theorem ensures_loop_state {step : σ → m (Round σ)} [hm : ∀ a, Moving (step a)]
    {I : σ → State → Prop} {a : σ} (ha : I a s)
    (h : ∀ a s, I a s → Ensures D (step a) ctx s fun r s' => I r.value s') :
    Ensures D (loop step a) ctx s I := by
  refine ensures_loopTo ha (fun _ _ h => h) fun b s1 hb => (h b s1 hb).mono fun r s2 hr => ?_
  cases r with
  | stop c => exact hr
  | again c => exact hr

/-- A loop keeps what each of its rounds keeps. -/
theorem ensures_loop {step : σ → m (Round σ)} [hm : ∀ a, Moving (step a)] {I : σ → Prop} {a : σ}
    (ha : I a) (h : ∀ a s, I a → Ensures D (step a) ctx s fun r _ => I r.value) :
    Ensures D (loop step a) ctx s fun b _ => I b :=
  ensures_loop_state (I := fun b _ => I b) ha h

/-- What every item has, all collected items have. -/
theorem ensures_collect {item : m (Option α)} [hm : Moving item] {P : α → Prop}
    (h : ∀ s, Ensures D item ctx s fun r _ => ∀ a, r = some a → P a) :
    Ensures D (collect item) ctx s fun items _ => ∀ a ∈ items, P a := by
  refine ensures_seq (ensures_loop (I := fun items : Array α => ∀ a ∈ items.toList, P a)
    (by simp) ?_) fun items s1 hi => ensures_pure.2 fun _ => hi
  intro items s hi
  refine Moving.ensures_bind (fun r => by cases r <;> exact moving_pure _)
    ((h s).mono fun r s1 hr => ?_)
  cases r with
  | none => exact ensures_pure.2 fun _ => hi
  | some a =>
      refine ensures_pure.2 fun _ => ?_
      intro b hb
      simp only [Round.value, Array.toList_push, List.mem_append, List.mem_singleton] at hb
      rcases hb with hb | rfl
      · exact hi b hb
      · exact hr b rfl

end

/-! ## Readers that may fail -/

section

variable {α : Type} {ctx : Context} {s : State} {D : List Diagnostic} {Q : α → State → Prop}

theorem ensures_read {f : Context → Parse α} (h : Ensures D (f ctx) ctx s Q) :
    Ensures D (read >>= f) ctx s Q := by
  intro a s' ha hD
  rcases yields_bind.1 ha with ⟨ctx', s1, hr, ha⟩
  cases hr
  exact h a s' ha hD

theorem ensures_map {x : Parse α} {β : Type} {f : α → β} {Q : β → State → Prop}
    (h : Ensures D x ctx s fun a s' => Q (f a) s') : Ensures D (f <$> x) ctx s Q := by
  rw [map_eq_pure_bind]
  exact ensures_seq (s := s) h fun a s1 ha => ensures_pure.2 fun _ => ha

theorem ensures_throw {e : SyntaxError} : Ensures D (throw e : Parse α) ctx s Q := by
  intro a s' h
  cases h

/-- A reader that fails has no result. -/
theorem not_yields_throw {e : SyntaxError} {a : α} {s' : State} :
    ¬ Yields (throw e : Parse α) ctx s a s' := by
  intro h
  cases h

/-- What goes on only if nothing is wrong. -/
theorem yields_unless {c : Prop} [Decidable c] {e : SyntaxError} {β : Type} {f : β → Parse α}
    {x : Parse α} {a : α} {s' : State} :
    Yields (if c then throw e >>= f else x) ctx s a s' ↔ ¬ c ∧ Yields x ctx s a s' := by
  by_cases hc : c
  · rw [if_pos hc]
    exact ⟨fun h => (by cases h), fun h => absurd hc h.1⟩
  · rw [if_neg hc]
    exact ⟨fun h => ⟨hc, h⟩, And.right⟩

theorem ensures_lift {x : Scan α} (h : Ensures D x ctx s Q) :
    Ensures D (liftM x : Parse α) ctx s Q :=
  h

/-- A reader that is let fail has the results that it has. -/
theorem yields_attempt {x : Parse α} {s' : State} {a : α} :
    Yields (attempt x) ctx s (.ok a) s' ↔ Yields x ctx s a s' := by
  constructor
  · intro h
    have h : (Except.ok (x.run ctx s).1, (x.run ctx s).2) = (Except.ok (.ok a), s') := h
    have hs' : (x.run ctx s).2 = s' := congrArg Prod.snd h
    exact Prod.ext (Except.ok.inj (congrArg Prod.fst h)) hs'
  · intro h
    change (Except.ok (x.run ctx s).1, (x.run ctx s).2) = (Except.ok (.ok a), s')
    rw [show x.run ctx s = (.ok a, s') from h]

/-- A reader that is let fail ensures its result if it has one. -/
theorem ensures_attempt {x : Parse α} (h : Ensures D x ctx s Q) :
    Ensures D (attempt x) ctx s fun r s' => ∀ a, r = .ok a → Q a s' := by
  intro r s' hr hD a ha
  refine h a s' ?_ hD
  cases hr
  exact Prod.ext ha rfl

theorem ensures_unexpected {mode : Mode} {expected : Expectation} :
    Ensures D (unexpected mode expected : Parse α) ctx s Q := by
  intro a s' h
  cases h

/-- One level deeper, where there is a level left. -/
theorem ensures_nested {x : Parse α}
    (h : ctx.depth < ctx.limits.depth → Ensures D x { ctx with depth := ctx.depth + 1 } s Q) :
    Ensures D (nested x) ctx s Q := by
  intro a s' ha hD
  rcases yields_bind.1 ha with ⟨ctx', s1, hr, ha⟩
  cases hr
  by_cases hd : ctx.limits.depth ≤ ctx.depth
  · rw [if_pos hd] at ha
    cases ha
  · rw [if_neg hd] at ha
    exact h (Nat.lt_of_not_le hd) a s' ha hD

theorem ensures_bracketed {x : Parse α}
    (h : ctx.depth < ctx.limits.depth →
      Ensures D x { ctx with depth := ctx.depth + 1, inBrackets := true } s Q) :
    Ensures D (bracketed x) ctx s Q :=
  ensures_nested h

/-- Brackets have a result where there is a level left, and it is that of what is read in
    them. -/
theorem yields_bracketed_iff {x : Parse α} {a : α} {s' : State} :
    Yields (bracketed x) ctx s a s' ↔ ctx.depth < ctx.limits.depth ∧
      Yields x { ctx with depth := ctx.depth + 1, inBrackets := true } s a s' := by
  have hread : ∀ {f : Context → Parse α}, Yields (read >>= f) ctx s a s' ↔
      Yields (f ctx) ctx s a s' := Iff.rfl
  unfold bracketed nested
  rw [hread]
  by_cases hdepth : ctx.limits.depth ≤ ctx.depth
  · rw [if_pos hdepth]
    exact iff_of_false (fun h => (by cases h)) fun h => Nat.not_lt_of_le hdepth h.1
  · rw [if_neg hdepth]
    exact ⟨fun h => ⟨Nat.lt_of_not_le hdepth, h⟩, And.right⟩

end

/-! ## Looking and reporting -/

/-- The next token of a state in a mode. -/
def State.next (mode : Mode) (ctx : Context) (s : State) : Token :=
  (s.cursor.lookahead mode (mode == .expression && ctx.inBrackets)).token

section

variable {α : Type} {ctx : Context} {s : State} {D : List Diagnostic} {Q : α → State → Prop}
  {mode : Mode}

theorem yields_peek {f : Token → Parse α} {a : α} {s' : State} :
    Yields (liftM (peek mode) >>= f) ctx s a s' ↔ Yields (f (s.next mode ctx)) ctx s a s' :=
  Iff.rfl

theorem Scan.yields_peek {f : Token → Scan α} {a : α} {s' : State} :
    Yields (peek mode >>= f) ctx s a s' ↔ Yields (f (s.next mode ctx)) ctx s a s' :=
  Iff.rfl

theorem Scan.yields_peekKind {f : Token.Kind → Scan α} {a : α} {s' : State} :
    Yields (peekKind mode >>= f) ctx s a s' ↔ Yields (f (s.next mode ctx).kind) ctx s a s' :=
  Iff.rfl

theorem yields_peekKind {f : Token.Kind → Parse α} {a : α} {s' : State} :
    Yields (liftM (peekKind mode) >>= f) ctx s a s' ↔
      Yields (f (s.next mode ctx).kind) ctx s a s' :=
  Iff.rfl

theorem yields_expectAs {kind : Token.Kind} {expected : Expectation} {token : Token}
    {s1 : State} :
    Yields (expectAs mode kind expected) ctx s token s1 ↔
      (s.next mode ctx).kind = kind ∧ Yields (advance mode) ctx s token s1 := by
  have hkind : ∀ {token s1}, Yields (expectAs mode kind expected) ctx s token s1 ↔
      Yields (if (s.next mode ctx).kind = kind then liftM (advance mode) else
        unexpected mode expected : Parse Token) ctx s token s1 := Iff.rfl
  rw [hkind]
  by_cases h : (s.next mode ctx).kind = kind
  · rw [if_pos h]
    exact ⟨fun hx => ⟨h, hx⟩, And.right⟩
  · rw [if_neg h]
    exact ⟨fun hx => (by cases hx), fun hx => absurd hx.1 h⟩

theorem yields_expectClosing {closer : Token.Kind} {opening : Span} {token : Token}
    {s1 : State} :
    Yields (expectClosing mode closer opening) ctx s token s1 ↔
      (s.next mode ctx).kind = closer ∧ Yields (advance mode) ctx s token s1 := by
  have hkind : ∀ {token s1}, Yields (expectClosing mode closer opening) ctx s token s1 ↔
      Yields (if (s.next mode ctx).kind = closer then liftM (advance mode)
        else if (s.next mode ctx).kind = .endOfInput then throw (Parse.unclosed closer opening)
        else throw (.unexpectedToken (s.next mode ctx) (.token closer)) : Parse Token)
        ctx s token s1 :=
    Iff.rfl
  rw [hkind]
  by_cases h : (s.next mode ctx).kind = closer
  · rw [if_pos h]
    exact ⟨fun hx => ⟨h, hx⟩, And.right⟩
  · rw [if_neg h]
    refine ⟨fun hx => ?_, fun hx => absurd hx.1 h⟩
    split at hx
    all_goals cases hx

/-- Looking gives the next token and leaves everything as it is. -/
theorem ensures_peek {f : Token → Parse α} (h : Ensures D (f (s.next mode ctx)) ctx s Q) :
    Ensures D (liftM (peek mode) >>= f) ctx s Q := by
  intro a s' ha hD
  rcases yields_bind.1 ha with ⟨token, s1, hp, ha⟩
  cases hp
  exact h a s' ha hD

theorem ensures_peekKind {f : Token.Kind → Parse α}
    (h : Ensures D (f (s.next mode ctx).kind) ctx s Q) :
    Ensures D (liftM (peekKind mode) >>= f) ctx s Q := by
  intro a s' ha hD
  rcases yields_bind.1 ha with ⟨kind, s1, hp, ha⟩
  cases hp
  exact h a s' ha hD

theorem ensures_position {f : Nat → Parse α} (h : Ensures D (f s.cursor.offset) ctx s Q) :
    Ensures D (liftM position >>= f) ctx s Q := by
  intro a s' ha hD
  rcases yields_bind.1 ha with ⟨n, s1, hp, ha⟩
  cases hp
  exact h a s' ha hD

theorem Scan.ensures_peek {f : Token → Scan α} (h : Ensures D (f (s.next mode ctx)) ctx s Q) :
    Ensures D (peek mode >>= f) ctx s Q :=
  h

theorem Scan.ensures_peekKind {f : Token.Kind → Scan α}
    (h : Ensures D (f (s.next mode ctx).kind) ctx s Q) :
    Ensures D (peekKind mode >>= f) ctx s Q :=
  h

theorem Scan.ensures_position {f : Nat → Scan α} (h : Ensures D (f s.cursor.offset) ctx s Q) :
    Ensures D (position >>= f) ctx s Q :=
  h

/-- Consuming gives the token that looking would give. -/
theorem ensures_advance : Ensures D (advance mode) ctx s fun token _ => token = s.next mode ctx := by
  intro token s' h _
  cases h
  rfl

theorem ensures_ahead {x : Scan α} : Ensures D (ahead x) ctx s fun _ s' => s' = s := by
  intro a s' h _
  cases h
  rfl

end

/-- A list of diagnostics that has room left, and no error in it. -/
def Quiet (limits : Limits) (D : List Diagnostic) : Prop :=
  D.length < limits.diagnostics ∧ ∀ d ∈ D, d.isError = false

theorem hasErrors_eq_false {p : Parsed} :
    p.hasErrors = false ↔ ∀ d ∈ p.diagnostics, d.isError = false := by
  unfold Parsed.hasErrors
  rw [List.any_eq_false]
  simp only [Bool.not_eq_true]

/-- A parse in which an error has been reported is not quiet in the end. -/
theorem ensures_report {d : Diagnostic} {ctx : Context} {s : State} {D : List Diagnostic}
    (hd : d.isError = true) :
    Ensures D (report d) ctx s fun _ _ => ¬ Quiet ctx.limits D := by
  intro a s' h hD hq
  change ((.ok (), if s.diagnostics.length < ctx.limits.diagnostics then
    { s with diagnostics := s.diagnostics ++ [d] } else s) : Except SyntaxError Unit × State)
      = (.ok a, s') at h
  have hs' := congrArg Prod.snd h
  dsimp only at hs'
  subst hs'
  split at hD
  · have hmem : d ∈ D := hD.subset (by simp)
    rw [hq.2 d hmem] at hd
    cases hd
  · case isFalse hfull =>
      have hle := hD.length_le
      have hlt := hq.1
      omega

end Ysh
