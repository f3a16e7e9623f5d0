import Ysh.Proofs.Joined.States
import Ysh.Proofs.Progress.Loops

/-!
# Readers in Surroundings

A reader of a text does in surroundings what it does in the text alone, further on. But
not quite always, and whether it does is not known while it reads. An expression that
ends with the text has looked at the end, where the surroundings have a newline. That
makes no difference, provided that the end was really there and not behind an error, and
the error is reported only later, by what comes behind the expression.

So what is known flows backwards. `Carries` takes what is known of the state that a
reader leaves, and gives what is then known of the state that it started from. The facts
that flow are those of `State.Faces`, `State.Rests` and `State.Stays`, and they begin
where a token is consumed: in a parse without errors nothing was wrong in front of it.

## Main definitions

* `Fits`: The surroundings leave room for the diagnostics of a text without errors.
* `Carries`: A reader does the same in surroundings.

## Theorems

* `carries_seq`: What is known flows back through a sequence.
* `carries_peek`: A reader that treats twins alike may look at the next token.
* `carries_loop`, `carries_collect`: What is known flows back through the rounds of a
  loop.
* `Moving.carries_attempt`: Nothing that is caught is reported in a parse without errors.
-/

namespace Ysh

/-- A text has no errors, and the surroundings leave room for its diagnostics. -/
structure Fits (w : Surroundings) (limits : Limits) (D : List Diagnostic) : Prop where
  quiet : Quiet limits D
  room : w.reports.length + D.length ≤ limits.diagnostics

section

variable {m : Type → Type} [Monad m] [MonadStateOf State m] [Reads m]

/-- In a parse that ends with the diagnostics `D`, and whose text fits into the
    surroundings: if the first reader has a result and leaves a state for which `Post`
    is known, then `Pre` is known of where it started, and the second reader has the
    same result in the surroundings. -/
def Carries (w : Surroundings) (D : List Diagnostic) {α : Type} [Shift α] (x y : m α)
    (ctx : Context) (s : State) (Pre : Prop) (Post : α → State → Prop) : Prop :=
  Fits w ctx.limits D → ∀ a s', Yields x ctx s a s' → s'.diagnostics <+: D → Post a s' →
    Pre ∧ Yields y ctx (s.within w) (shift w.size a) (s'.within w)

variable {α β σ : Type} [Shift α] [Shift β] [Shift σ] {w : Surroundings} {D : List Diagnostic}
  {ctx : Context} {s : State} {x y : m α} {Pre Pre' : Prop} {Post Post' : α → State → Prop}

theorem Carries.mono (h : Carries w D x y ctx s Pre Post) (hpre : Pre → Pre')
    (hpost : ∀ a s', Post' a s' → Post a s') : Carries w D x y ctx s Pre' Post' := by
  intro hw a s' hx hD ha
  rcases h hw a s' hx hD (hpost a s' ha) with ⟨hbefore, hy⟩
  exact ⟨hpre hbefore, hy⟩

/-- Nothing need be known of where a reader started. -/
theorem Carries.free (h : Carries w D x y ctx s Pre Post) : Carries w D x y ctx s True Post :=
  h.mono (fun _ => trivial) fun _ _ ha => ha

/-- What is known may be forgotten. -/
theorem Carries.forget (Pre : Prop) (h : Carries w D x y ctx s Pre Post) :
    Carries w D x y ctx s True Post :=
  h.free

/-- What is known from elsewhere need not flow back. -/
theorem Carries.given (hpre : Pre) (h : Carries w D x y ctx s Pre' Post) :
    Carries w D x y ctx s Pre Post :=
  h.mono (fun _ => hpre) fun _ _ ha => ha

/-- More may be known of the state that a reader leaves. -/
theorem Carries.from (h : Carries w D x y ctx s Pre Post)
    (hpost : ∀ a s', Post' a s' → Post a s') : Carries w D x y ctx s Pre Post' :=
  h.mono id hpost

/-- A reader that ensures something without regard to what comes behind it. -/
theorem Carries.with (h : Quiet ctx.limits D → Ensures D x ctx s fun a s' => Post' a s' → Post a s')
    (hx : Carries w D x y ctx s Pre Post) : Carries w D x y ctx s Pre Post' := by
  intro hw a s' ha hD hpost
  exact hx hw a s' ha hD (h hw.quiet a s' ha hD hpost)

/-- A reader that has no result in such a parse. -/
theorem carries_of_ensures (h : Quiet ctx.limits D → Ensures D x ctx s fun _ _ => False) :
    Carries w D x y ctx s Pre Post :=
  fun hw a s' hx hD _ => (h hw.quiet a s' hx hD).elim

theorem carries_pure {a b : α} (hb : b = shift w.size a) (h : Post a s → Pre) :
    Carries w D (pure a) (pure b : m α) ctx s Pre Post := by
  intro _ c s' hx _ hpost
  rcases yields_pure.1 hx with ⟨rfl, rfl⟩
  exact ⟨h hpost, yields_pure.2 ⟨hb, rfl⟩⟩

/-- What is known flows back through a sequence. -/
theorem Moving.carries_bind {f f' : α → m β} {M : α → State → Prop} {Q : β → State → Prop}
    (hm : ∀ a, Moving (f a)) (hx : Carries w D x y ctx s Pre M)
    (h : ∀ a s1, Yields x ctx s a s1 →
      Carries w D (f a) (f' (shift w.size a)) ctx s1 (M a s1) Q) :
    Carries w D (x >>= f) (y >>= f') ctx s Pre Q := by
  intro hw b s' hb hD hQ
  rcases yields_bind.1 hb with ⟨a, s1, ha, hb⟩
  rcases h a s1 ha hw b s' hb hD hQ with ⟨hmid, hf⟩
  rcases hx hw a s1 ha (((hm a).of_yields hb).kept.trans hD) hmid with ⟨hpre, hy⟩
  exact ⟨hpre, yields_bind.2 ⟨_, _, hy, hf⟩⟩

theorem carries_bind {f f' : α → m β} [hm : ∀ a, Moving (f a)] {M : α → State → Prop}
    {Q : β → State → Prop} (hx : Carries w D x y ctx s Pre M)
    (h : ∀ a s1, Yields x ctx s a s1 →
      Carries w D (f a) (f' (shift w.size a)) ctx s1 (M a s1) Q) :
    Carries w D (x >>= f) (y >>= f') ctx s Pre Q :=
  Moving.carries_bind hm hx h

theorem carries_seq {f f' : α → m β} [hm : ∀ a, Moving (f a)] {M : α → State → Prop}
    {Q : β → State → Prop} (hx : Carries w D x y ctx s Pre M)
    (h : ∀ a s1, Carries w D (f a) (f' (shift w.size a)) ctx s1 (M a s1) Q) :
    Carries w D (x >>= f) (y >>= f') ctx s Pre Q :=
  Moving.carries_bind hm hx fun a s1 _ => h a s1

theorem carries_ite {c c' : Prop} [Decidable c] [Decidable c'] {x' y' : m α} (hc : c ↔ c')
    (hx : c → Carries w D x y ctx s Pre Post) (hx' : ¬ c → Carries w D x' y' ctx s Pre Post) :
    Carries w D (if c then x else x') (if c' then y else y') ctx s Pre Post := by
  by_cases h : c
  · rw [if_pos h, if_pos (hc.1 h)]
    exact hx h
  · rw [if_neg h, if_neg fun h' => h (hc.2 h')]
    exact hx' h

/-- A reader may look at something, if it makes no difference what it sees in the
    surroundings as long as that is related to what it sees in the text. -/
theorem carries_look {γ : Type} {look : m γ} {f f' : γ → m α} {b : γ} {R : γ → Prop}
    (hx : Yields look ctx s b s)
    (hy : ∃ b', Yields look ctx (s.within w) b' (s.within w) ∧ (Pre → R b')) (hr : ∃ b', R b')
    (h : ∀ b', R b' → Carries w D (f b) (f' b') ctx s Pre Post) :
    Carries w D (look >>= f) (look >>= f') ctx s Pre Post := by
  intro hw a s' ha hD hpost
  rcases yields_bind.1 ha with ⟨b1, s1, hb1, ha⟩
  cases hx.symm.trans hb1
  rcases hy with ⟨b', hb', hpre⟩
  rcases hr with ⟨b0, hb0⟩
  -- What is known flows back whatever is seen, and then it tells what is seen.
  have hknown := (h b0 hb0 hw a s' ha hD hpost).1
  exact ⟨hknown, yields_bind.2 ⟨b', _, hb', (h b' (hpre hknown) hw a s' ha hD hpost).2⟩⟩

/-! ## Loops -/

/-- What is known of a state in which a round of a loop has ended. -/
def Round.Knows (I Q : σ → State → Prop) (r : Round σ) (s : State) : Prop :=
  match r with
  | .stop a => Q a s
  | .again a => I a s

/-- What is known flows back through the rounds of a loop. -/
theorem carries_loop {step step' : σ → m (Round σ)} [hm : ∀ a, Moving (step a)]
    {I Q : σ → State → Prop} {a a' : σ} (ha : a' = shift w.size a) (hends : Progresses step ctx)
    (hends' : Progresses step' ctx)
    (h : ∀ a s, Carries w D (step a) (step' (shift w.size a)) ctx s (I a s) (Round.Knows I Q)) :
    Carries w D (loop step a) (loop step' a') ctx s (I a s) Q := by
  subst ha
  intro hw b s' hx hD hQ
  have hrounds : ∀ {k a s r}, LoopRuns step ctx k a s r → r = (.ok b, s') →
      I a s ∧ LoopRuns step' ctx k (shift w.size a) (s.within w)
        (.ok (shift w.size b), s'.within w) := by
    intro k a s r hruns
    induction hruns with
    | stop hstep =>
        rintro ⟨⟩
        rcases h _ _ hw _ _ hstep hD hQ with ⟨hI, hy⟩
        exact ⟨hI, .stop hy⟩
    | fail => rintro ⟨⟩
    | again hstep hrest ih =>
        rintro rfl
        rcases ih rfl with ⟨hI, hruns'⟩
        rcases h _ _ hw _ _ hstep ((hrest.kept hm).trans hD) hI with ⟨hbefore, hy⟩
        exact ⟨hbefore, .again hy hruns'⟩
  rcases hends.ends a s with ⟨k, -, hruns⟩
  rcases hrounds hruns hx with ⟨hI, hruns'⟩
  rcases hends'.ends (shift w.size a) (s.within w) with ⟨k', -, hloop⟩
  exact ⟨hI, (hloop.unique hruns').2⟩

/-- What each item hands back, all collected items do. -/
theorem carries_collect {item item' : m (Option α)} [hm : Moving item] {I : State → Prop}
    (hends : Progresses (collectRound item) ctx) (hends' : Progresses (collectRound item') ctx)
    (h : ∀ s, Carries w D item item' ctx s (I s) fun _ s' => I s') :
    Carries w D (collect item) (collect item') ctx s (I s) fun _ s' => I s' := by
  refine carries_seq (carries_loop (I := fun _ s => I s) (Q := fun _ s => I s)
    (shift_empty w.size).symm hends hends' fun as s => ?_) fun as s1 => ?_
  · refine Moving.carries_bind (fun r => by cases r <;> exact moving_pure _) (h s) fun o s' _ => ?_
    cases o with
    | none => exact carries_pure rfl id
    | some a => exact carries_pure (congrArg Round.again (shift_push w.size as a).symm) id
  · exact carries_pure (shift_toList w.size as) id

end

/-! ## Readers that may fail -/

section

variable {α β σ : Type} [Shift α] [Shift β] [Shift σ] {w : Surroundings} {D : List Diagnostic}
  {ctx : Context} {s : State} {Pre : Prop} {Post : α → State → Prop} {mode : Mode}

theorem carries_lift {x y : Scan α} (h : Carries w D x y ctx s Pre Post) :
    Carries w D (liftM x : Parse α) (liftM y) ctx s Pre Post :=
  h

theorem carries_read {f f' : Context → Parse α} (h : Carries w D (f ctx) (f' ctx) ctx s Pre Post) :
    Carries w D (read >>= f) (read >>= f') ctx s Pre Post :=
  fun hw a s' ha => h hw a s' ha

theorem carries_map {x y : Parse α} {f f' : α → β} {Q : β → State → Prop}
    (h : Carries w D x y ctx s Pre fun a s' => Q (f a) s')
    (hf : ∀ a, f' (shift w.size a) = shift w.size (f a)) :
    Carries w D (f <$> x) (f' <$> y) ctx s Pre Q := by
  rw [map_eq_pure_bind, map_eq_pure_bind]
  exact carries_seq h fun a s1 => carries_pure (hf a) id

theorem carries_throw {e : SyntaxError} {y : Parse α} :
    Carries w D (throw e) y ctx s Pre Post :=
  carries_of_ensures fun _ => ensures_throw

theorem carries_unexpected {expected : Expectation} {y : Parse α} :
    Carries w D (unexpected mode expected) y ctx s Pre Post :=
  carries_of_ensures fun _ => ensures_unexpected

/-- An error that is caught is reported, which does not happen in a parse without
    errors. -/
theorem Moving.carries_attempt {x y : Parse α} {f f' : Except SyntaxError α → Scan β}
    {M : α → State → Prop} {Q : β → State → Prop} (hm : ∀ r, Moving (f r))
    (hx : Carries w D x y ctx s Pre M)
    (herror : Quiet ctx.limits D → ∀ e s1, Ensures D (f (.error e)) ctx s1 fun _ _ => False)
    (h : ∀ a s1, Carries w D (f (.ok a)) (f' (.ok (shift w.size a))) ctx s1 (M a s1) Q) :
    Carries w D (attempt x >>= f) (attempt y >>= f') ctx s Pre Q := by
  intro hw b s' hb hD hQ
  rcases yields_bind.1 hb with ⟨r, s1, hr, hb⟩
  cases hr
  rcases hrun : (attempt x ctx s) with ⟨e | a, s1⟩
  all_goals rw [hrun] at hb
  · exact (herror hw.quiet e s1 b s' hb hD).elim
  · rcases h a s1 hw b s' hb hD hQ with ⟨hmid, hf⟩
    rcases hx hw a s1 hrun (((hm (.ok a)).of_yields hb).kept.trans hD) hmid with ⟨hpre, hy⟩
    refine ⟨hpre, yields_bind.2 ⟨.ok (shift w.size a), s1.within w, ?_, hf⟩⟩
    have hy' : attempt y ctx (s.within w) = (.ok (shift w.size a), s1.within w) := hy
    change ((.ok (attempt y ctx (s.within w)).1, (attempt y ctx (s.within w)).2) :
      Except SyntaxError (Except SyntaxError α) × State) = _
    rw [hy']

/-! ## Deeper -/

theorem carries_nested {x y : Parse α}
    (h : Carries w D x y { ctx with depth := ctx.depth + 1 } s Pre Post) :
    Carries w D (nested x) (nested y) ctx s Pre Post := by
  refine carries_read (carries_ite Iff.rfl (fun _ => ?_) fun _ => h)
  exact carries_of_ensures fun _ => ensures_position ensures_throw

theorem carries_bracketed {x y : Parse α}
    (h : Carries w D x y { ctx with depth := ctx.depth + 1, inBrackets := true } s Pre Post) :
    Carries w D (bracketed x) (bracketed y) ctx s Pre Post :=
  carries_nested h

/-! ## Looking -/

/-- Where the next token is the same in the surroundings. -/
theorem carries_see {f f' : Token → Parse α} (hpre : Pre → s.Stays w mode ctx)
    (h : Carries w D (f (s.next mode ctx)) (f' ((s.next mode ctx).shift w.size)) ctx s Pre Post) :
    Carries w D (liftM (peek mode) >>= f) (liftM (peek mode) >>= f') ctx s Pre Post :=
  carries_look (R := fun token => token = (s.next mode ctx).shift w.size) rfl
    ⟨_, rfl, fun hp => (hpre hp).next_within⟩ ⟨_, rfl⟩ (by rintro _ rfl; exact h)

theorem carries_seeKind {f f' : Token.Kind → Parse α} (hpre : Pre → s.Stays w mode ctx)
    (h : Carries w D (f (s.next mode ctx).kind) (f' (s.next mode ctx).kind) ctx s Pre Post) :
    Carries w D (liftM (peekKind mode) >>= f) (liftM (peekKind mode) >>= f') ctx s Pre Post :=
  carries_look (R := fun kind => kind = (s.next mode ctx).kind) rfl
    ⟨_, rfl, fun hp => (hpre hp).kind_within⟩ ⟨_, rfl⟩ (by rintro _ rfl; exact h)

/-- Where the next token may be the end. -/
theorem carries_peek {f f' : Token → Parse α} (hpre : Pre → s.Rests mode ctx)
    (h : ∀ token, (s.next mode ctx).Twin w.size token →
      Carries w D (f (s.next mode ctx)) (f' token) ctx s Pre Post) :
    Carries w D (liftM (peek mode) >>= f) (liftM (peek mode) >>= f') ctx s Pre Post :=
  carries_look rfl ⟨_, rfl, fun hp => (hpre hp).twin⟩ ⟨_, .refl _ _⟩ h

theorem carries_peekKind {f f' : Token.Kind → Parse α} (hpre : Pre → s.Rests mode ctx)
    (h : ∀ kind, (s.next mode ctx).kind.Twin kind →
      Carries w D (f (s.next mode ctx).kind) (f' kind) ctx s Pre Post) :
    Carries w D (liftM (peekKind mode) >>= f) (liftM (peekKind mode) >>= f') ctx s Pre Post :=
  carries_look rfl ⟨_, rfl, fun hp => (hpre hp).twin.kind⟩ ⟨_, .inl rfl⟩ h

theorem carries_position {f f' : Nat → Parse α}
    (h : Carries w D (f s.cursor.offset) (f' (s.cursor.offset + w.size)) ctx s Pre Post) :
    Carries w D (liftM position >>= f) (liftM position >>= f') ctx s Pre Post :=
  carries_look (R := fun offset => offset = s.cursor.offset + w.size) rfl ⟨_, rfl, fun _ => rfl⟩
    ⟨_, rfl⟩ (by rintro _ rfl; exact h)

end

end Ysh
