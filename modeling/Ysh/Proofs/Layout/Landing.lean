import Ysh.Proofs.Layout.Basic
import Ysh.Proofs.Steps

/-!
# Landing

What a reader does to places, however it ends. A state is sound when its place is
one of the source and its diagnostics stand between characters of it. A reader
lands when it leaves a sound state behind, further on or where it was, and the
error that it may fail with stands between characters as well. `Lands` says so
together with what holds of a result.

Unlike `Ensures` this is about every run, the failing ones included, since a
statement that cannot be read still gets a span. So the rules follow the
combinators once more, and none of them needs a parse that ends well.

## Main definitions

* `Cursor.On`, `State.Sound`: A place of the source, and a state at one.
* `State.front`: Where the next token of a state starts.
* `Token.Lies`: A token is a text of the source.
* `Lands`: A reader leaves a sound state, and results of a kind.

## Theorems

* `State.Sound.lookahead`: The next token and the errors in front of it lie in the
  source.
* `lands_bind`, `lands_loop`, `lands_collect`: The rules.
-/

namespace Ysh

/-! ## Places of a source -/

/-- The place is one of the source. -/
def Cursor.On (source : String) (c : Cursor) : Prop :=
  ∃ front, source.toList = front ++ c.rest ∧ c.offset = byteLength front

/-- The span starts and stops between two characters of the source. -/
def Span.Fits (source : String) (s : Span) : Prop :=
  Boundary source s.start ∧ Boundary source s.stop

theorem Span.Fits.between {source : String} {a b : Nat} (ha : Boundary source a)
    (hb : Boundary source b) : (Span.between a b).Fits source := by
  rcases Nat.le_total a b with hle | hle
  · rw [Fits, Span.between]
    simp only [Nat.min_eq_left hle, Nat.max_eq_right hle]
    exact ⟨ha, hb⟩
  · rw [Fits, Span.between]
    simp only [Nat.min_eq_right hle, Nat.max_eq_left hle]
    exact ⟨hb, ha⟩

/-- The token is a text of the source. -/
structure Token.Lies (source : String) (token : Token) : Prop where
  text : LiesAt source token.span.start token.text.toList
  stop : token.span.stop = token.span.start + byteLength token.text.toList

theorem Token.Lies.fits {source : String} {token : Token} (h : token.Lies source) :
    token.span.Fits source := by
  refine ⟨h.text.boundary, ?_⟩
  rw [h.stop]
  exact h.text.boundary_stop

namespace Cursor

variable {source : String} {c : Cursor}

theorem on_ofSource (source : String) : (ofSource source).On source :=
  ⟨[], rfl, rfl⟩

theorem On.advance (h : c.On source) (n : Nat) : (c.advance n).On source := by
  rcases h with ⟨front, hsource, hoffset⟩
  refine ⟨front ++ c.rest.take n, ?_, ?_⟩
  · rw [List.append_assoc]
    change source.toList = front ++ (c.rest.take n ++ c.rest.drop n)
    rw [List.take_append_drop, hsource]
  · rw [byteLength_append, ← hoffset]
    rfl

theorem On.liesAt (h : c.On source) (n : Nat) : LiesAt source c.offset (c.rest.take n) := by
  rcases h with ⟨front, hsource, hoffset⟩
  exact ⟨front, c.rest.drop n, by rw [List.take_append_drop, hsource], hoffset⟩

theorem On.boundary (h : c.On source) : Boundary source c.offset :=
  (h.liesAt 0).boundary

theorem On.fits_spanOf (h : c.On source) (n : Nat) : (c.spanOf n).Fits source :=
  ⟨h.boundary, (h.liesAt n).boundary_stop⟩

theorem offset_le_advance (c : Cursor) (n : Nat) : c.offset ≤ (c.advance n).offset :=
  Nat.le_add_right _ _

/-- A token lies in the source, behind one place and up to another. -/
structure Gives (source : String) (c : Cursor) (token : Token) (behind : Cursor) : Prop where
  on : behind.On source
  lies : token.Lies source
  start : c.offset ≤ token.span.start
  stop : token.span.stop = behind.offset

theorem Gives.later {c' behind : Cursor} {token : Token} (h : Gives source c token behind)
    (hle : c'.offset ≤ c.offset) : Gives source c' token behind :=
  { h with start := Nat.le_trans hle h.start }

theorem Gives.offset_le {behind : Cursor} {token : Token} (h : Gives source c token behind) :
    c.offset ≤ behind.offset := by
  rw [← h.stop]
  exact Nat.le_trans h.start token.span.start_le_stop

theorem On.nextToken_ok (h : c.On source) {mode : Mode} {token : Token} {behind : Cursor}
    (hnext : c.nextToken mode = (.ok token, behind)) : Gives source c token behind := by
  have hfront := h.advance (extrasLength c.rest)
  have hle := c.offset_le_advance (extrasLength c.rest)
  unfold Cursor.nextToken at hnext
  rcases Prod.mk.inj hnext with ⟨hresult, rfl⟩
  generalize c.advance (extrasLength c.rest) = front at hfront hle hresult ⊢
  generalize (Lexeme.ofMode mode front.rest).length = n at hresult ⊢
  split at hresult
  · cases hresult
    have htext : (front.textOf n).toList = front.rest.take n := String.toList_ofList
    refine ⟨hfront.advance n, ⟨?_, ?_⟩, hle, rfl⟩
    · rw [htext]
      exact hfront.liesAt n
    · rw [htext]
      rfl
  · cases hresult

theorem On.nextToken_error (h : c.On source) {mode : Mode} {error : LexicalError}
    {behind : Cursor} (hnext : c.nextToken mode = (.error error, behind)) :
    behind.On source ∧ c.offset ≤ behind.offset ∧ error.span.Fits source := by
  have hfront := h.advance (extrasLength c.rest)
  have hle := c.offset_le_advance (extrasLength c.rest)
  unfold Cursor.nextToken at hnext
  rcases Prod.mk.inj hnext with ⟨hresult, rfl⟩
  generalize c.advance (extrasLength c.rest) = front at hfront hle hresult ⊢
  generalize (Lexeme.ofMode mode front.rest).length = n at hresult ⊢
  refine ⟨hfront.advance n, Nat.le_trans hle (front.offset_le_advance n), ?_⟩
  split at hresult
  · cases hresult
  · case h_2 fault _ =>
      cases hresult
      have hspan : (fault.toError (front.textOf n) (front.spanOf n)).span = front.spanOf n := by
        cases fault <;> rfl
      rw [hspan]
      exact hfront.fits_spanOf n

theorem On.gives_lookaheadFrom (mode : Mode) (overLines : Bool) (clock : List Char) :
    ∀ c : Cursor, c.On source →
      Gives source c (lookaheadFrom mode overLines clock c).token
        (lookaheadFrom mode overLines clock c).after ∧
      ∀ e ∈ (lookaheadFrom mode overLines clock c).errors, e.span.Fits source := by
  induction clock with
  | nil =>
      intro c hc
      rw [lookaheadFrom]
      rcases hnext : c.nextToken mode with ⟨error | token, behind⟩
      · rcases hc.nextToken_error hnext with ⟨hon, hle, herror⟩
        refine ⟨⟨hon, ⟨hon.liesAt 0, rfl⟩, hle, rfl⟩, fun e he => ?_⟩
        rw [List.mem_singleton.1 he]
        exact herror
      · exact ⟨hc.nextToken_ok hnext, by simp⟩
  | cons x clock ih =>
      intro c hc
      rw [lookaheadFrom]
      rcases hnext : c.nextToken mode with ⟨error | token, behind⟩
      · rcases hc.nextToken_error hnext with ⟨hon, hle, herror⟩
        rcases ih behind hon with ⟨hgives, herrors⟩
        refine ⟨hgives.later hle, fun e he => ?_⟩
        rcases List.mem_cons.1 he with rfl | he
        · exact herror
        · exact herrors e he
      · have hgives := hc.nextToken_ok hnext
        dsimp only
        split
        · rcases ih behind hgives.on with ⟨hgives', herrors⟩
          exact ⟨hgives'.later hgives.offset_le, herrors⟩
        · exact ⟨hgives, by simp⟩

end Cursor

/-! ## Sound states -/

/-- The place is one of the source, and what has been reported stands between its
    characters. -/
structure State.Sound (source : String) (s : State) : Prop where
  cursor : s.cursor.On source
  diagnostics : ∀ d ∈ s.diagnostics, d.span.Fits source

/-- Where the next token of a state starts. -/
def State.front (mode : Mode) (ctx : Context) (s : State) : Nat :=
  (s.next mode ctx).span.start

section

variable {source : String} {s : State}

theorem State.sound_ofSource (source : String) : (State.ofSource source).Sound source :=
  ⟨Cursor.on_ofSource source, by simp [State.ofSource]⟩

/-- The next token lies in the source, and so do the errors in front of it. -/
theorem State.Sound.lookahead (h : s.Sound source) (mode : Mode) (ctx : Context) :
    Cursor.Gives source s.cursor (s.next mode ctx)
      (s.cursor.lookahead mode (mode == .expression && ctx.inBrackets)).after ∧
    ∀ e ∈ (s.cursor.lookahead mode (mode == .expression && ctx.inBrackets)).errors,
      e.span.Fits source :=
  h.cursor.gives_lookaheadFrom mode _ s.cursor.rest s.cursor

theorem State.Sound.next (h : s.Sound source) (mode : Mode) (ctx : Context) :
    (s.next mode ctx).Lies source :=
  (h.lookahead mode ctx).1.lies

theorem State.Sound.offset_le_front (h : s.Sound source) (mode : Mode) (ctx : Context) :
    s.cursor.offset ≤ s.front mode ctx :=
  (h.lookahead mode ctx).1.start

theorem State.Sound.boundary (h : s.Sound source) : Boundary source s.cursor.offset :=
  h.cursor.boundary

theorem State.Sound.boundary_front (h : s.Sound source) (mode : Mode) (ctx : Context) :
    Boundary source (s.front mode ctx) :=
  (h.next mode ctx).text.boundary

end

/-! ## Landing -/

section

variable {m : Type → Type} [Monad m] [MonadStateOf State m] [Reads m] {α β σ : Type}
  {source : String} {ctx : Context} {s : State}

/-- From a sound state, the reader leaves a sound state no further back, and fails
    with an error that stands in the source or has a result with the property. -/
def Lands (source : String) (x : m α) (ctx : Context) (s : State) (Q : α → State → Prop) :
    Prop :=
  s.Sound source →
    (outcome x ctx s).2.Sound source ∧ s.cursor.offset ≤ (outcome x ctx s).2.cursor.offset ∧
      match outcome x ctx s with
      | (.ok a, s') => Q a s'
      | (.error e, _) => e.span.Fits source

variable {Q Q' : α → State → Prop}

/-- What is already known of the state in front may be used. -/
theorem lands_of_sound {x : m α} (h : s.Sound source → Lands source x ctx s Q) :
    Lands source x ctx s Q :=
  fun hs => h hs hs

theorem Lands.mono {x : m α} (h : Lands source x ctx s Q)
    (hQ : ∀ a s', s'.Sound source → s.cursor.offset ≤ s'.cursor.offset → Q a s' → Q' a s') :
    Lands source x ctx s Q' := by
  intro hs
  rcases h hs with ⟨hsound, hle, hresult⟩
  refine ⟨hsound, hle, ?_⟩
  rcases houtcome : outcome x ctx s with ⟨e | a, s'⟩
  · rw [houtcome] at hresult
    exact hresult
  · rw [houtcome] at hsound hle hresult
    exact hQ a s' hsound hle hresult

theorem lands_pure {a : α} (h : s.Sound source → Q a s) : Lands source (pure a : m α) ctx s Q := by
  intro hs
  rw [Reads.outcome_pure]
  exact ⟨hs, Nat.le_refl _, h hs⟩

/-- A sequence lands where its second reader lands behind its first. -/
theorem lands_bind {x : m α} {f : α → m β} {P : α → State → Prop} {Q : β → State → Prop}
    (hx : Lands source x ctx s P)
    (hf : ∀ a s1, s1.Sound source → s.cursor.offset ≤ s1.cursor.offset → P a s1 →
      Lands source (f a) ctx s1 Q) : Lands source (x >>= f) ctx s Q := by
  intro hs
  rcases hx hs with ⟨hsound, hle, hresult⟩
  rw [Reads.outcome_bind]
  rcases houtcome : outcome x ctx s with ⟨e | a, s1⟩
  · rw [houtcome] at hsound hle hresult
    exact ⟨hsound, hle, hresult⟩
  · rw [houtcome] at hsound hle hresult
    rcases hf a s1 hsound hle hresult hsound with ⟨hsound', hle', hresult'⟩
    exact ⟨hsound', Nat.le_trans hle hle', hresult'⟩

theorem lands_ite {c : Prop} [Decidable c] {x y : m α} (hx : c → Lands source x ctx s Q)
    (hy : ¬ c → Lands source y ctx s Q) : Lands source (if c then x else y) ctx s Q := by
  by_cases h : c
  · rw [if_pos h]
    exact hx h
  · rw [if_neg h]
    exact hy h

/-- A loop comes to its end, if its rounds keep the invariant and the invariant is an
    end as well: a loop stops when its clock runs out. -/
theorem lands_loopTo {step : σ → m (Round σ)} {I Q : σ → State → Prop} {a : σ} (ha : I a s)
    (hQ : ∀ a s, I a s → Q a s)
    (h : ∀ a s, I a s → Lands source (step a) ctx s (Round.Keeps I Q)) :
    Lands source (loop step a) ctx s Q := by
  have hrounds : ∀ clock : List Char, ∀ a s, I a s → Lands source (rounds step clock a) ctx s Q := by
    intro clock
    induction clock with
    | nil =>
        intro a s ha
        refine lands_bind (h a s ha) fun r s1 _ _ hr => ?_
        cases r with
        | stop b => exact lands_pure fun _ => hr
        | again b => exact lands_pure fun _ => hQ b s1 hr
    | cons c clock ih =>
        intro a s ha
        refine lands_bind (h a s ha) fun r s1 _ _ hr => ?_
        cases r with
        | stop b => exact lands_pure fun _ => hr
        | again b => exact ih b s1 hr
  refine lands_bind (P := fun t s1 => s1 = s) (fun hs => ?_) fun t s1 _ _ hs1 => ?_
  · rw [Reads.outcome_get]
    exact ⟨hs, Nat.le_refl _, rfl⟩
  · subst hs1
    exact hrounds t.cursor.rest a s1 ha

/-- A loop keeps what each of its rounds keeps. -/
theorem lands_loop {step : σ → m (Round σ)} {I : σ → State → Prop} {a : σ} (ha : I a s)
    (h : ∀ a s, I a s → Lands source (step a) ctx s fun r s' => I r.value s') :
    Lands source (loop step a) ctx s I := by
  refine lands_loopTo ha (fun _ _ h => h) fun b s1 hb => (h b s1 hb).mono fun r s2 _ _ hr => ?_
  cases r with
  | stop c => exact hr
  | again c => exact hr

/-- What is collected keeps what each item keeps. -/
theorem lands_collect {item : m (Option α)} {I : List α → State → Prop} (hs : I [] s)
    (hitem : ∀ as s, I as s → Lands source item ctx s fun r s' =>
      I (as ++ r.toList) s') : Lands source (collect item) ctx s I := by
  refine lands_bind (lands_loop (I := fun (as : Array α) s' => I as.toList s') hs
    fun as s1 has => ?_) fun as s1 _ _ has => lands_pure fun _ => has
  refine lands_bind (hitem as.toList s1 has) fun r s2 _ _ hr => ?_
  cases r with
  | none =>
      refine lands_pure fun _ => ?_
      rwa [Option.toList_none, List.append_nil] at hr
  | some a =>
      refine lands_pure fun _ => ?_
      rwa [Option.toList_some, ← Array.toList_push] at hr

/-- What a reader gives that may give nothing: a node laid from the offset on, or
    nothing, and then it has stayed where it was. -/
def LaidAny (source : String) (low : Nat) {c : Category} (s : State) (r : Option (Tree c))
    (s' : State) : Prop :=
  match r with
  | some t => Laid source low t s'.cursor.offset
  | none => s'.cursor = s.cursor

/-- Nodes that a reader gives one after the other are laid one behind the other.
    `f` is where a node may start: at the place of the state or at its next token. -/
theorem lands_collectFrom {c : Category} {item : m (Option (Tree c))} {f : State → Nat} {a : Nat}
    (hlow : ∀ s, s.Sound source → s.cursor.offset ≤ f s ∧ Boundary source (f s))
    (hsame : ∀ s s' : State, s'.cursor = s.cursor → f s' = f s)
    (hitem : ∀ s, Lands source item ctx s (LaidAny source (f s) s))
    (ha : a ≤ f s) (hbefore : Boundary source a) :
    Lands source (collect item) ctx s fun ts s' => LaidEach source a ts (f s') := by
  refine lands_of_sound fun hs => lands_collect (.nil ha hbefore (hlow s hs).2) fun ts s1 hts => ?_
  refine (hitem s1).mono fun r s2 hs2 _ hr => ?_
  cases r with
  | none =>
      rw [Option.toList_none, List.append_nil, hsame s1 s2 hr]
      exact hts
  | some t => exact (hts.append hr).upTo (hlow s2 hs2).1 (hlow s2 hs2).2

/-- What is collected from where a reader stands is laid behind that. -/
theorem lands_collectBehind {c : Category} {item : m (Option (Tree c))} (ctx : Context)
    (s : State) (hitem : ∀ s, Lands source item ctx s (LaidAny source s.cursor.offset s)) :
    Lands source (collect item) ctx s fun ts s' =>
      LaidEach source s.cursor.offset ts s'.cursor.offset :=
  lands_of_sound fun hs =>
    lands_collectFrom (f := (·.cursor.offset)) (fun _ hs => ⟨Nat.le_refl _, hs.boundary⟩)
      (fun _ _ h => congrArg _ h) hitem (Nat.le_refl _) hs.boundary

/-- What may be laid from the next token on may be laid from the place in front. -/
theorem Lands.behind {c : Category} {x : m (Option (Tree c))} {mode : Mode} (ctx : Context)
    (s : State) (h : Lands source x ctx s (LaidAny source (s.front mode ctx) s)) :
    Lands source x ctx s (LaidAny source s.cursor.offset s) := by
  refine lands_of_sound fun hs => h.mono fun r s' _ _ hr => ?_
  cases r with
  | none => exact hr
  | some t => exact Laid.after hr (hs.offset_le_front mode ctx) hs.boundary

end

/-! ## Readers that may fail -/

section

variable {α : Type} {source : String} {ctx : Context} {s : State} {Q : α → State → Prop}

theorem lands_read {f : Context → Parse α} (h : Lands source (f ctx) ctx s Q) :
    Lands source (read >>= f) ctx s Q :=
  h

theorem lands_map {x : Parse α} {β : Type} {f : α → β} {Q : β → State → Prop}
    (h : Lands source x ctx s fun a s' => Q (f a) s') : Lands source (f <$> x) ctx s Q := by
  rw [map_eq_pure_bind]
  exact lands_bind h fun a s1 _ _ ha => lands_pure fun _ => ha

theorem lands_throw {e : SyntaxError} (h : s.Sound source → e.span.Fits source) :
    Lands source (throw e : Parse α) ctx s Q :=
  fun hs => ⟨hs, Nat.le_refl _, h hs⟩

theorem lands_lift {x : Scan α} (h : Lands source x ctx s Q) :
    Lands source (liftM x : Parse α) ctx s Q :=
  h

/-- A reader that is let fail lands either way. -/
theorem lands_attempt {x : Parse α} (h : Lands source x ctx s Q) :
    Lands source (attempt x) ctx s fun r s' =>
      match r with
      | .ok a => Q a s'
      | .error e => e.span.Fits source := by
  intro hs
  rcases h hs with ⟨hsound, hle, hresult⟩
  refine ⟨hsound, hle, ?_⟩
  have hrun : x.run ctx s = outcome x ctx s := rfl
  change (match (x.run ctx s).1 with | .ok a => Q a (x.run ctx s).2 | .error e => e.span.Fits source)
  rw [hrun]
  rcases houtcome : outcome x ctx s with ⟨e | a, s'⟩
  all_goals
    rw [houtcome] at hresult
    exact hresult

/-- One level deeper, where there is a level left. -/
theorem lands_nested {x : Parse α}
    (h : Lands source x { ctx with depth := ctx.depth + 1 } s Q) :
    Lands source (nested x) ctx s Q := by
  refine lands_read (lands_ite (fun _ => ?_) fun _ => h)
  exact @lands_throw α source ctx s Q _ fun hs => ⟨hs.boundary, hs.boundary⟩

theorem lands_bracketed {x : Parse α}
    (h : Lands source x { ctx with depth := ctx.depth + 1, inBrackets := true } s Q) :
    Lands source (bracketed x) ctx s Q :=
  lands_nested h

/-- Reading at the very place, as far as the reader goes. -/
theorem lands_raw {read : Cursor → α × Cursor} (hread : ∃ n, (read s.cursor).2 = s.cursor.advance n)
    (h : s.cursor.On source → Q (read s.cursor).1 { s with cursor := (read s.cursor).2 }) :
    Lands source (raw read) ctx s Q := by
  intro hs
  rcases hread with ⟨n, hn⟩
  change State.Sound source { s with cursor := (read s.cursor).2 } ∧
    s.cursor.offset ≤ (read s.cursor).2.offset ∧ Q (read s.cursor).1 _
  refine ⟨⟨?_, hs.diagnostics⟩, ?_, h hs.cursor⟩
  · rw [hn]
    exact hs.cursor.advance n
  · rw [hn]
    exact s.cursor.offset_le_advance n

theorem lands_report {d : Diagnostic} (h : s.Sound source → d.span.Fits source) :
    Lands source (report d) ctx s fun _ s' => s'.cursor = s.cursor := by
  intro hs
  change State.Sound source (if s.diagnostics.length < ctx.limits.diagnostics then
    { s with diagnostics := s.diagnostics ++ [d] } else s) ∧ _
  refine ⟨?_, Nat.le_of_eq (congrArg _ (report_cursor d ctx s).symm), report_cursor d ctx s⟩
  split
  · refine ⟨hs.cursor, fun d' hd' => ?_⟩
    rcases List.mem_append.1 hd' with hd' | hd'
    · exact hs.diagnostics d' hd'
    · rw [List.mem_singleton.1 hd']
      exact h hs
  · exact hs

theorem sound_reportAll {errors : List LexicalError} (h : ∀ e ∈ errors, e.span.Fits source) :
    ∀ s : State, s.Sound source → (reportAll errors ctx s).2.Sound source := by
  induction errors with
  | nil => exact fun s hs => hs
  | cons e errors ih =>
      intro s hs
      have hreport : Lands source (report (.lexical e)) ctx s fun _ s' => s'.cursor = s.cursor :=
        lands_report fun _ => h e (by simp)
      exact ih (fun e he => h e (by simp [he])) _ (hreport hs).1

/-- Consuming gives the next token and leaves the place behind it. -/
theorem lands_advance {mode : Mode} : Lands source (advance mode) ctx s fun token s' =>
    token = s.next mode ctx ∧ Cursor.Gives source s.cursor (s.next mode ctx) s'.cursor := by
  intro hs
  rcases hs.lookahead mode ctx with ⟨hgives, herrors⟩
  refine ⟨⟨hgives.on, ?_⟩, hgives.offset_le, rfl, hgives⟩
  exact (sound_reportAll herrors s hs).diagnostics

/-! ## Sequences that look first -/

theorem lands_peek {mode : Mode} {f : Token → Parse α} (h : Lands source (f (s.next mode ctx)) ctx s Q) :
    Lands source (liftM (peek mode) >>= f) ctx s Q :=
  h

theorem lands_peekKind {mode : Mode} {f : Token.Kind → Parse α}
    (h : Lands source (f (s.next mode ctx).kind) ctx s Q) :
    Lands source (liftM (peekKind mode) >>= f) ctx s Q :=
  h

theorem lands_position {f : Nat → Parse α} (h : Lands source (f s.cursor.offset) ctx s Q) :
    Lands source (liftM position >>= f) ctx s Q :=
  h

theorem Scan.lands_peek {mode : Mode} {f : Token → Scan α}
    (h : Lands source (f (s.next mode ctx)) ctx s Q) : Lands source (peek mode >>= f) ctx s Q :=
  h

theorem Scan.lands_peekKind {mode : Mode} {f : Token.Kind → Scan α}
    (h : Lands source (f (s.next mode ctx).kind) ctx s Q) :
    Lands source (peekKind mode >>= f) ctx s Q :=
  h

theorem Scan.lands_position {f : Nat → Scan α} (h : Lands source (f s.cursor.offset) ctx s Q) :
    Lands source (position >>= f) ctx s Q :=
  h

theorem lands_ahead {β : Type} {x : Scan β} {f : β → Scan α}
    (h : ∀ b, Lands source (f b) ctx s Q) : Lands source (ahead x >>= f) ctx s Q :=
  h _

theorem Scan.lands_next {mode : Mode} {f : Token → Scan α}
    (h : ∀ s1, s1.Sound source → Cursor.Gives source s.cursor (s.next mode ctx) s1.cursor →
      Lands source (f (s.next mode ctx)) ctx s1 Q) :
    Lands source (advance mode >>= f) ctx s Q := by
  refine lands_bind lands_advance ?_
  rintro token s1 hs1 - ⟨rfl, hgives⟩
  exact h s1 hs1 hgives

/-- A reader behind a token that is consumed. -/
theorem lands_next {mode : Mode} {f : Token → Parse α}
    (h : ∀ s1, s1.Sound source → Cursor.Gives source s.cursor (s.next mode ctx) s1.cursor →
      Lands source (f (s.next mode ctx)) ctx s1 Q) :
    Lands source (liftM (advance mode) >>= f) ctx s Q := by
  refine lands_bind (lands_lift lands_advance) ?_
  rintro token s1 hs1 - ⟨rfl, hgives⟩
  exact h s1 hs1 hgives

theorem lands_unexpected {mode : Mode} {expected : Expectation} :
    Lands source (unexpected mode expected : Parse α) ctx s Q :=
  lands_peek (lands_throw fun hs => (hs.next mode ctx).fits)

theorem lands_expectAs {mode : Mode} {kind : Token.Kind} {expected : Expectation}
    {f : Token → Parse α}
    (h : ∀ s1, s1.Sound source → Cursor.Gives source s.cursor (s.next mode ctx) s1.cursor →
      Lands source (f (s.next mode ctx)) ctx s1 Q) :
    Lands source (expectAs mode kind expected >>= f) ctx s Q := by
  refine lands_bind (P := fun token s1 => token = s.next mode ctx ∧
    Cursor.Gives source s.cursor (s.next mode ctx) s1.cursor) ?_ ?_
  · exact lands_peekKind (lands_ite (fun _ => lands_lift lands_advance) fun _ =>
      lands_unexpected)
  · rintro token s1 hs1 - ⟨rfl, hgives⟩
    exact h s1 hs1 hgives

theorem lands_expectClosing {mode : Mode} {closer : Token.Kind} {opening : Span}
    {f : Token → Parse α} (hopening : opening.Fits source)
    (h : ∀ s1, s1.Sound source → Cursor.Gives source s.cursor (s.next mode ctx) s1.cursor →
      Lands source (f (s.next mode ctx)) ctx s1 Q) :
    Lands source (expectClosing mode closer opening >>= f) ctx s Q := by
  refine lands_bind (P := fun token s1 => token = s.next mode ctx ∧
    Cursor.Gives source s.cursor (s.next mode ctx) s1.cursor) ?_ ?_
  · refine lands_peek (lands_ite (fun _ => lands_lift lands_advance) fun _ =>
      lands_ite (fun _ => ?_) fun _ => ?_)
    · refine lands_throw fun _ => ?_
      have hspan : (Parse.unclosed closer opening).span = opening := by
        unfold Parse.unclosed
        split <;> rfl
      rwa [hspan]
    · exact lands_throw fun hs => (hs.next mode ctx).fits
  · rintro token s1 hs1 - ⟨rfl, hgives⟩
    exact h s1 hs1 hgives

end

end Ysh
