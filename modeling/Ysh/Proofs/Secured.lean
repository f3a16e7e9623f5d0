import Ysh.Proofs.Layout.Landing

/-!
# Results from Places of a Source

What a result is like may depend on the source, and then it matters that the reader
stands in the source when it starts. No reader leaves it: whatever has moved from a
place of the source is at a place of the source again. So the rules for what a parse
ensures hold with that premise as well, and where they are used nothing has to be said
about places. It is a premise only where a result is made, and there it is at hand.

## Main definitions

* `Reading`: The source of a parse, and the diagnostics in the end.
* `Secures`: What a reader ensures if it starts at a place of the source.

## Theorems

* `secures_seq`, `secures_loop`, `secures_collect`: The rules.
* `secures_on`: The place of the source may be used.
-/

namespace Ysh

/-- What a parse starts from and what it ends with: a source, and the diagnostics. -/
structure Reading where
  source : String
  diagnostics : List Diagnostic

theorem Cursor.On.moves {source : String} {limits : Limits} {s s' : State}
    (h : s.cursor.On source) (hmoves : Moves limits s s') : s'.cursor.On source := by
  rcases hmoves.forward with ⟨n, hn⟩
  rw [hn]
  exact h.advance n

section

variable {m : Type → Type} [Monad m] [MonadStateOf State m] [Reads m] {α β σ : Type}
  {R : Reading} {ctx : Context} {s : State}

/-- In a parse with this source and this end, every result of the reader from here, which
    is a place of the source, and the state it leaves have the property. -/
def Secures (R : Reading) (x : m α) (ctx : Context) (s : State) (Q : α → State → Prop) : Prop :=
  s.cursor.On R.source → Ensures R.diagnostics x ctx s Q

variable {Q Q' : α → State → Prop}

/-- What is made may be looked at together with the place where it is made. -/
theorem secures_on {x : m α} (h : s.cursor.On R.source → Secures R x ctx s Q) :
    Secures R x ctx s Q :=
  fun hon => h hon hon

theorem Ensures.secures {x : m α} (h : Ensures R.diagnostics x ctx s Q) : Secures R x ctx s Q :=
  fun _ => h

theorem Secures.mono {x : m α} (h : Secures R x ctx s Q) (hQ : ∀ a s', Q a s' → Q' a s') :
    Secures R x ctx s Q' :=
  fun hon => (h hon).mono hQ

theorem secures_pure {a : α} (h : s.diagnostics <+: R.diagnostics → Q a s) :
    Secures R (pure a : m α) ctx s Q :=
  fun _ => ensures_pure.2 h

theorem secures_none {P : α → State → Prop} :
    Secures R (pure none : m (Option α)) ctx s fun r s' => ∀ a, r = some a → P a s' :=
  fun _ => ensures_none

/-- A reader ends at a place of the source if it starts at one. -/
theorem ensures_on {source : String} {D : List Diagnostic} {x : m α} [hx : Moving x]
    (hon : s.cursor.On source) : Ensures D x ctx s fun _ s' => s'.cursor.On source :=
  fun _ _ hyields _ => hon.moves (hx.of_yields hyields)

/-- A sequence of which the first reader is known to secure something. -/
theorem Moving.secures_seq {x : m α} [Moving x] {f : α → m β} {P : α → State → Prop}
    {Q : β → State → Prop} (hf : ∀ a, Moving (f a)) (hx : Secures R x ctx s P)
    (h : ∀ a s1, P a s1 → Secures R (f a) ctx s1 Q) :
    Secures R (x >>= f) ctx s Q :=
  fun hon => Moving.ensures_seq hf ((hx hon).and (ensures_on hon)) fun a s1 hs1 =>
    h a s1 hs1.1 hs1.2

/-- A reader of whose result nothing is asked. -/
theorem Moving.secures_skip {x : m α} [Moving x] {f : α → m β} {Q : β → State → Prop}
    (hf : ∀ a, Moving (f a)) (h : ∀ a s1, Secures R (f a) ctx s1 Q) :
    Secures R (x >>= f) ctx s Q :=
  Moving.secures_seq (P := fun _ _ => True) hf (fun _ _ _ _ _ => trivial) fun a s1 _ => h a s1

theorem secures_seq {x : m α} [Moving x] {f : α → m β} [∀ a, Moving (f a)]
    {P : α → State → Prop} {Q : β → State → Prop} (hx : Secures R x ctx s P)
    (h : ∀ a s1, P a s1 → Secures R (f a) ctx s1 Q) :
    Secures R (x >>= f) ctx s Q :=
  Moving.secures_seq inferInstance hx h

theorem secures_skip {x : m α} [Moving x] {f : α → m β} [∀ a, Moving (f a)]
    {Q : β → State → Prop} (h : ∀ a s1, Secures R (f a) ctx s1 Q) :
    Secures R (x >>= f) ctx s Q :=
  Moving.secures_skip inferInstance h

theorem secures_ite {c : Prop} [Decidable c] {x y : m α} (hx : c → Secures R x ctx s Q)
    (hy : ¬ c → Secures R y ctx s Q) :
    Secures R (if c then x else y) ctx s Q :=
  fun hon => ensures_ite (fun hc => hx hc hon) fun hc => hy hc hon

/-- A loop keeps what each of its rounds keeps. -/
theorem secures_loop {step : σ → m (Round σ)} [hm : ∀ a, Moving (step a)] {I : σ → Prop} {a : σ}
    (ha : I a) (h : ∀ a s, I a → Secures R (step a) ctx s fun r _ => I r.value) :
    Secures R (loop step a) ctx s fun b _ => I b := by
  intro hon
  have hloop : Ensures R.diagnostics (loop step a) ctx s fun b s' => I b ∧ s'.cursor.On R.source :=
    ensures_loop_state (I := fun b s' => I b ∧ s'.cursor.On R.source) ⟨ha, hon⟩ fun b s1 hb =>
      (h b s1 hb.1 hb.2).and (ensures_on hb.2)
  exact hloop.mono fun _ _ hb => hb.1

/-- What every item has, all collected items have. -/
theorem secures_collect {item : m (Option α)} [hm : Moving item] {P : α → Prop}
    (h : ∀ s, Secures R item ctx s fun r _ => ∀ a, r = some a → P a) :
    Secures R (collect item) ctx s fun items _ => ∀ a ∈ items, P a := by
  refine secures_seq (secures_loop (I := fun items : Array α => ∀ a ∈ items.toList, P a)
    (by simp) ?_) fun items s1 hi => secures_pure fun _ => hi
  intro items s hi
  refine Moving.secures_seq (fun r => by cases r <;> exact moving_pure _) (h s) fun r s1 hr => ?_
  cases r with
  | none => exact secures_pure fun _ => hi
  | some a =>
      refine secures_pure fun _ b hb => ?_
      simp only [Round.value, Array.toList_push, List.mem_append, List.mem_singleton] at hb
      rcases hb with hb | rfl
      · exact hi b hb
      · exact hr b rfl

end

/-! ## Readers that may fail -/

section

variable {α : Type} {R : Reading} {ctx : Context} {s : State}
  {Q : α → State → Prop}

theorem secures_read {f : Context → Parse α} (h : Secures R (f ctx) ctx s Q) :
    Secures R (read >>= f) ctx s Q :=
  fun hon => ensures_read (h hon)

theorem secures_map {x : Parse α} {β : Type} {f : α → β} {Q : β → State → Prop}
    (h : Secures R x ctx s fun a s' => Q (f a) s') : Secures R (f <$> x) ctx s Q :=
  fun hon => ensures_map (h hon)

theorem secures_throw {e : SyntaxError} : Secures R (throw e : Parse α) ctx s Q :=
  ensures_throw.secures

/-- Nothing is read behind an error. -/
theorem secures_throw_bind {β : Type} {e : SyntaxError} {f : α → Parse β}
    {Q : β → State → Prop} : Secures R (throw e >>= f) ctx s Q := by
  intro _ b s' hb
  cases hb

theorem secures_unexpected_bind {β : Type} {mode : Mode} {expected : Expectation}
    {f : α → Parse β} {Q : β → State → Prop} :
    Secures R (unexpected mode expected >>= f) ctx s Q := by
  intro _ b s' hb
  cases hb

theorem secures_lift {x : Scan α} (h : Secures R x ctx s Q) :
    Secures R (liftM x : Parse α) ctx s Q :=
  h

theorem secures_attempt {x : Parse α} (h : Secures R x ctx s Q) :
    Secures R (attempt x) ctx s fun r s' => ∀ a, r = .ok a → Q a s' :=
  fun hon => ensures_attempt (h hon)

theorem secures_unexpected {mode : Mode} {expected : Expectation} :
    Secures R (unexpected mode expected : Parse α) ctx s Q :=
  ensures_unexpected.secures

theorem secures_nested {x : Parse α}
    (h : ctx.depth < ctx.limits.depth →
      Secures R x { ctx with depth := ctx.depth + 1 } s Q) :
    Secures R (nested x) ctx s Q :=
  fun hon => ensures_nested fun hd => h hd hon

theorem secures_bracketed {x : Parse α}
    (h : ctx.depth < ctx.limits.depth →
      Secures R x { ctx with depth := ctx.depth + 1, inBrackets := true } s Q) :
    Secures R (bracketed x) ctx s Q :=
  secures_nested h

theorem secures_peek {mode : Mode} {f : Token → Parse α}
    (h : Secures R (f (s.next mode ctx)) ctx s Q) :
    Secures R (liftM (peek mode) >>= f) ctx s Q :=
  fun hon => ensures_peek (h hon)

end

end Ysh
