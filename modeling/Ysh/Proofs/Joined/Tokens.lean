import Ysh.Proofs.Joined.Reader

/-!
# Tokens in Surroundings

Consuming the next token, and the small readers that consume nothing but tokens. They
begin what is known: a token that has been consumed was there, with nothing wrong in
front of it.

## Main definitions

* `State.Sees`: A token of a kind comes next.

## Theorems

* `carries_advance`: Consuming a token.
* `carries_expectClosing`, `carries_skipWhile`, `carries_commaSeparated`: Readers that
  are made of it.
-/

namespace Ysh

/-- A token of the kind comes next, with nothing wrong in front of it. -/
structure State.Sees (mode : Mode) (kind : Token.Kind) (ctx : Context) (s : State) : Prop where
  kind : (s.next mode ctx).kind = kind
  clear : s.Clear mode ctx

theorem State.Sees.faces {mode : Mode} {kind : Token.Kind} {ctx : Context} {s : State}
    (h : s.Sees mode kind ctx) (hkind : kind ≠ .endOfInput) : s.Faces mode ctx :=
  ⟨fun hend => hkind (h.kind.symm.trans hend), h.clear⟩

/-! ## Consuming -/

section

variable {α : Type} [Shift α] {w : Surroundings} {D : List Diagnostic} {ctx : Context} {s : State}
  {mode : Mode} {Pre : Prop} {Post : α → State → Prop}

theorem State.Clear.yields_advance (h : s.Clear mode ctx) : Yields (advance mode) ctx s
    (s.next mode ctx) { s with cursor := (s.ahead mode ctx).after } :=
  yields_advance_of_quiet h

/-- A token that is consumed has nothing wrong in front of it. -/
theorem ensures_clear (hq : Quiet ctx.limits D) : Ensures D (advance mode) ctx s
    fun token s' => s.Clear mode ctx ∧ token = s.next mode ctx ∧
      s' = { s with cursor := (s.ahead mode ctx).after } := by
  rintro token ⟨cursor, diagnostics⟩ h hD
  rcases yields_advance hq h hD with ⟨htoken, hcursor, hdiagnostics, herrors⟩
  subst hcursor hdiagnostics
  exact ⟨herrors, htoken, rfl⟩

/-- Consuming what is the same in the surroundings. -/
theorem carries_consume (hlast : (s.next mode ctx).kind = .endOfInput → w.behind = []) :
    Carries w D (advance mode) (advance mode) ctx s (s.Clear mode ctx) fun _ _ => True := by
  intro hw token s' h hD _
  rcases ensures_clear hw.quiet token s' h hD with ⟨hclear, rfl, rfl⟩
  refine ⟨hclear, ?_⟩
  have hahead := State.ahead_within hlast
  have hclear' := (State.Stays.mk hlast hclear).clear_within
  have hy := hclear'.yields_advance
  rw [State.next_within hlast, hahead] at hy
  exact hy

/-- Consuming a token. -/
theorem carries_advance (hkind : (s.next mode ctx).kind ≠ .endOfInput) :
    Carries w D (advance mode) (advance mode) ctx s (s.Faces mode ctx) fun _ _ => True :=
  (carries_consume fun h => absurd h hkind).mono (fun h => ⟨hkind, h⟩) fun _ _ h => h

theorem carries_expectAs {kind : Token.Kind} {expected : Expectation} (hkind : kind ≠ .endOfInput) :
    Carries w D (expectAs mode kind expected) (expectAs mode kind expected) ctx s
      (s.Sees mode kind ctx) fun _ _ => True := by
  refine carries_seeKind (fun h => (h.faces hkind).stays) (carries_ite Iff.rfl (fun heq => ?_)
    fun _ => carries_unexpected)
  exact (carries_advance (heq ▸ hkind)).mono (fun h => ⟨heq, h.clear⟩) fun _ _ h => h

theorem carries_expectClosing {closer : Token.Kind} {opening opening' : Span}
    (hkind : closer ≠ .endOfInput) :
    Carries w D (expectClosing mode closer opening) (expectClosing mode closer opening') ctx s
      (s.Sees mode closer ctx) fun _ _ => True := by
  refine carries_see (fun h => (h.faces hkind).stays) (carries_ite Iff.rfl (fun heq => ?_) fun _ =>
    carries_of_ensures fun _ => ensures_ite (fun _ => ensures_throw) fun _ => ensures_throw)
  exact (carries_advance (heq ▸ hkind)).mono (fun h => ⟨heq, h.clear⟩) fun _ _ h => h

/-! ## Reporting and raw text -/

/-- A notice is as much in place in the surroundings. -/
theorem carries_report {d : Diagnostic} : Carries w D (report d) (report (d.shift w.size)) ctx s
    True fun _ _ => True := by
  intro hw _ s' h hD _
  refine ⟨trivial, ?_⟩
  have hroom := hw.room
  have hfew := hw.quiet.1
  have hs' : (if s.diagnostics.length < ctx.limits.diagnostics then
      { s with diagnostics := s.diagnostics ++ [d] } else s) = s' := congrArg Prod.snd h
  have hless : s.diagnostics.length < ctx.limits.diagnostics := by
    have hle := Nat.le_trans ((moving_report d).of_yields h).kept.length_le hD.length_le
    omega
  rw [if_pos hless] at hs'
  subst hs'
  have hle : s.diagnostics.length + 1 ≤ D.length := by
    have := hD.length_le
    rwa [List.length_append] at this
  change ((.ok (), if (s.within w).diagnostics.length < ctx.limits.diagnostics then
    { s.within w with diagnostics := (s.within w).diagnostics ++ [d.shift w.size] }
      else s.within w) : Except SyntaxError Unit × State) = _
  rw [if_pos]
  · change ((.ok (), ⟨_, w.reports ++ s.diagnostics.map _ ++ [d.shift w.size]⟩) :
      Except SyntaxError Unit × State) = (.ok (), ⟨_, w.reports ++ (s.diagnostics ++ [d]).map _⟩)
    rw [List.map_append, List.append_assoc]
    rfl
  · change (w.reports ++ s.diagnostics.map _).length < _
    rw [List.length_append, List.length_map]
    omega

/-- Raw text that is the same in the surroundings. -/
theorem carries_raw {read read' : Cursor → α × Cursor}
    (h : Post (read s.cursor).1 { s with cursor := (read s.cursor).2 } → Pre ∧
      read' (s.cursor.within w) = (shift w.size (read s.cursor).1, (read s.cursor).2.within w)) :
    Carries w D (raw read) (raw read') ctx s Pre Post := by
  intro _ a s' hx _ hpost
  cases hx
  rcases h hpost with ⟨hpre, hread⟩
  refine ⟨hpre, ?_⟩
  change ((.ok (read' (s.cursor.within w)).1, { s.within w with
    cursor := (read' (s.cursor.within w)).2 }) : Except SyntaxError α × State) = _
  rw [hread]
  rfl

end

/-! ## Readers without a failure -/

namespace Scan

variable {α : Type} [Shift α] {w : Surroundings} {D : List Diagnostic} {ctx : Context} {s : State}
  {mode : Mode} {Pre : Prop} {Post : α → State → Prop}

theorem carries_see {f f' : Token → Scan α} (hpre : Pre → s.Stays w mode ctx)
    (h : Carries w D (f (s.next mode ctx)) (f' ((s.next mode ctx).shift w.size)) ctx s Pre Post) :
    Carries w D (peek mode >>= f) (peek mode >>= f') ctx s Pre Post :=
  Ysh.carries_look (R := fun token => token = (s.next mode ctx).shift w.size) rfl
    ⟨_, rfl, fun hp => (hpre hp).next_within⟩ ⟨_, rfl⟩ (by rintro _ rfl; exact h)

theorem carries_seeKind {f f' : Token.Kind → Scan α} (hpre : Pre → s.Stays w mode ctx)
    (h : Carries w D (f (s.next mode ctx).kind) (f' (s.next mode ctx).kind) ctx s Pre Post) :
    Carries w D (peekKind mode >>= f) (peekKind mode >>= f') ctx s Pre Post :=
  carries_look (R := fun kind => kind = (s.next mode ctx).kind) rfl
    ⟨_, rfl, fun hp => (hpre hp).kind_within⟩ ⟨_, rfl⟩ (by rintro _ rfl; exact h)

theorem carries_peekKind {f f' : Token.Kind → Scan α} (hpre : Pre → s.Rests mode ctx)
    (h : ∀ kind, (s.next mode ctx).kind.Twin kind →
      Carries w D (f (s.next mode ctx).kind) (f' kind) ctx s Pre Post) :
    Carries w D (peekKind mode >>= f) (peekKind mode >>= f') ctx s Pre Post :=
  carries_look rfl ⟨_, rfl, fun hp => (hpre hp).twin.kind⟩ ⟨_, .inl rfl⟩ h

theorem carries_position {f f' : Nat → Scan α}
    (h : Carries w D (f s.cursor.offset) (f' (s.cursor.offset + w.size)) ctx s Pre Post) :
    Carries w D (position >>= f) (position >>= f') ctx s Pre Post :=
  carries_look (R := fun offset => offset = s.cursor.offset + w.size) rfl ⟨_, rfl, fun _ => rfl⟩
    ⟨_, rfl⟩ (by rintro _ rfl; exact h)

end Scan

/-! ## Lists of tokens and items -/

section

variable {α : Type} [Shift α] {w : Surroundings} {D : List Diagnostic} {ctx : Context}

theorem carries_skipWhile {mode : Mode} {skips : Token.Kind → Bool}
    (hskips : skips .endOfInput = false) (s : State) :
    Carries w D (Scan.skipWhile mode skips) (Scan.skipWhile mode skips) ctx s (s.Stays w mode ctx)
      fun _ s' => s'.Stays w mode ctx := by
  have hkind : ∀ {s : State}, skips (s.next mode ctx).kind = true →
      (s.next mode ctx).kind ≠ .endOfInput := by
    intro s h hend
    rw [hend, hskips] at h
    cases h
  have hends : Progresses (Scan.skipRound mode skips) ctx :=
    (Grammar.ScanLoop.separators (g := .turns 0) mode hskips).progresses
  refine carries_loop (a := ()) (I := fun _ s => s.Stays w mode ctx)
    (Q := fun _ s => s.Stays w mode ctx) rfl hends hends fun _ s => ?_
  refine Scan.carries_seeKind id (carries_ite Iff.rfl (fun h => ?_) fun _ => carries_pure rfl id)
  refine (carries_seq (carries_advance (hkind h)) fun _ s1 => ?_).mono
    State.Faces.stays fun _ _ h => h
  exact carries_pure rfl fun _ => trivial

theorem carries_skipNewlines (s : State) : Carries w D skipNewlines skipNewlines ctx s
    (s.Stays w .command ctx) fun _ s' => s'.Stays w .command ctx :=
  carries_skipWhile rfl s

theorem carries_skipSeparators (s : State) : Carries w D skipSeparators skipSeparators ctx s
    (s.Stays w .command ctx) fun _ s' => s'.Stays w .command ctx :=
  carries_skipWhile rfl s

/-- Items with commas between them, up to a token that is known to come. -/
theorem carries_commaSeparated {ends : Token.Kind → Bool} {item item' : Parse α} [Stepwise item]
    [Stepwise item'] (h : ∀ s, Carries w D item item' ctx s (s.Faces .expression ctx)
      fun _ s' => s'.Faces .expression ctx) (s : State) :
    Carries w D (commaSeparated ends item) (commaSeparated ends item') ctx s
      (s.Faces .expression ctx) fun _ s' => s'.Faces .expression ctx := by
  have hcomma : ∀ {s : State}, (s.next .expression ctx).kind = .comma →
      (s.next .expression ctx).kind ≠ .endOfInput := by
    intro s h
    rw [h]
    simp
  refine carries_seq (carries_loop (I := fun _ s => s.Faces .expression ctx)
    (Q := fun _ s => s.Faces .expression ctx) (shift_empty w.size).symm
    (Grammar.ParseLoop.items (g := .turns 0) ends item).progresses
    (Grammar.ParseLoop.items (g := .turns 0) ends item').progresses fun items s => ?_)
    fun items s1 => carries_pure (shift_toList w.size items) id
  refine carries_seeKind State.Faces.stays (carries_ite Iff.rfl
    (fun _ => carries_pure rfl id) fun _ => carries_seq (h s) fun a s1 => ?_)
  have hpush : (shift w.size items).push (shift w.size a) = shift w.size (items.push a) :=
    (shift_push w.size items a).symm
  refine carries_seeKind State.Faces.stays (carries_ite Iff.rfl (fun hkind => ?_) fun _ => ?_)
  · refine carries_seq (carries_lift (carries_advance (hcomma hkind))) fun _ s2 => ?_
    exact carries_pure (congrArg Round.again hpush) fun _ => trivial
  · exact carries_pure (congrArg Round.stop hpush) id

/-! ## Names -/

open Grammar

theorem carries_bindingName (s : State) : Carries w D bindingName bindingName ctx s
    (s.Faces .expression ctx) fun _ _ => True := by
  refine carries_see State.Faces.stays (carries_ite Iff.rfl (fun hkind => ?_) fun _ => carries_throw)
  refine carries_ite Iff.rfl (fun _ => ?_) fun _ => ?_
  · exact carries_of_ensures fun _ => ensures_bind (ensures_throw (s := s))
  · refine carries_seq (carries_lift (carries_advance ?_)) fun _ s1 => carries_pure rfl id
    rw [hkind]
    simp

theorem carries_memberName (s : State) : Carries w D memberName memberName ctx s
    (s.Faces .expression ctx) fun _ _ => True := by
  refine carries_see State.Faces.stays (carries_ite Iff.rfl (fun hkind => ?_) fun _ => carries_throw)
  refine carries_seq (carries_lift (carries_advance ?_)) fun _ s1 => carries_pure rfl id
  intro hend
  rw [hend] at hkind
  cases hkind

end

end Ysh
