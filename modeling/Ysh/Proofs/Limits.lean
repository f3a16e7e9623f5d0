import Ysh.Proofs.Steps

/-!
# What the Limits Do

Two parses of one source that differ in a limit. Both limits only take something away,
so the parse under the larger one is known from the one under the smaller, and the two
are followed step by step.

A list of diagnostics that may hold fewer of them holds the first ones. No reader looks
at the list or at its limit, so both parses read the same, and their lists are never
apart by anything but what was dropped.

A smaller depth makes readers fail that would have succeeded. From there on the two
parses have nothing in common, but the failure cannot be lost: whoever catches it
reports it, and what has been reported stays. So either the two parses are still the
same, or the one with the smaller depth is failing for it, or behind the diagnostics that
the two have in common it has said so, or there was no room left to say anything.

## Main definitions

* `Limits.keeping`, `Limits.nesting`: The limits with one of them changed.
* `State.Cut`: A state with the first diagnostics of another.
* `Limits.Tells`: A list that tells of too deep a nesting next, or that is full.

## Theorems

* `Steps.cut`: A reader keeps the first diagnostics of what it would keep.
* `parse_keeps_first`: A parse keeps the first diagnostics of what it would keep.
* `Steps.deepens`: A reader does the same with more levels, or it has run out of them.
* `parse_eq_or_tells`: A parse does the same with more levels, or it tells that it has run
  out of them.
* `parse_eq_of_deeper`: A parse that never runs out of levels needs no more of them.
* `parse_eq_of_shallower`: The same, seen from the parse with more levels.
-/

namespace Ysh

/-- The limits, with another number of diagnostics to keep. -/
def Limits.keeping (limits : Limits) (count : Nat) : Limits :=
  { limits with diagnostics := count }

/-- The limits, with another number of levels to nest. -/
def Limits.nesting (limits : Limits) (depth : Nat) : Limits :=
  { limits with depth }

/-! ## Fewer diagnostics -/

/-- The states are at one place, and the first has the first `count` diagnostics of the
    second. -/
structure State.Cut (count : Nat) (s t : State) : Prop where
  cursor : s.cursor = t.cursor
  diagnostics : s.diagnostics = t.diagnostics.take count

/-- Run from states that differ in dropped diagnostics alone, and under limits that
    drop them, the reader does the same. -/
def Cuts {α : Type} (x : Parse α) : Prop :=
  ∀ (ctx : Context) (k m : Nat) (s t : State), k ≤ m → State.Cut k s t →
    (x (ctx.under (ctx.limits.keeping k)) s).1 = (x (ctx.under (ctx.limits.keeping m)) t).1 ∧
      State.Cut k (x (ctx.under (ctx.limits.keeping k)) s).2
        (x (ctx.under (ctx.limits.keeping m)) t).2

section

variable {α β : Type}

/-- A diagnostic is kept among the first if there is room for it there. -/
theorem cut_report (d : Diagnostic) (ctx : Context) {k m : Nat} {s t : State} (hkm : k ≤ m)
    (h : State.Cut k s t) :
    State.Cut k (report d (ctx.under (ctx.limits.keeping k)) s).2
      (report d (ctx.under (ctx.limits.keeping m)) t).2 := by
  refine ⟨by rw [report_cursor, report_cursor, h.cursor], ?_⟩
  change State.diagnostics (if s.diagnostics.length < k then
      { s with diagnostics := s.diagnostics ++ [d] } else s)
    = (State.diagnostics (if t.diagnostics.length < m then
      { t with diagnostics := t.diagnostics ++ [d] } else t)).take k
  have hlength : s.diagnostics.length = min k t.diagnostics.length := by
    rw [h.diagnostics, List.length_take]
  by_cases hk : s.diagnostics.length < k
  · rw [if_pos hk, if_pos (by omega)]
    change s.diagnostics ++ [d] = (t.diagnostics ++ [d]).take k
    rw [h.diagnostics, List.take_of_length_le (by omega),
      List.take_of_length_le (by rw [List.length_append, List.length_singleton]; omega)]
  · rw [if_neg hk]
    split
    · change s.diagnostics = (t.diagnostics ++ [d]).take k
      rw [List.take_append_of_le_length (by omega), h.diagnostics]
    · exact h.diagnostics

theorem cut_reportAll (errors : List LexicalError) (ctx : Context) {k m : Nat} (hkm : k ≤ m) :
    ∀ {s t : State}, State.Cut k s t →
      State.Cut k (reportAll errors (ctx.under (ctx.limits.keeping k)) s).2
        (reportAll errors (ctx.under (ctx.limits.keeping m)) t).2 := by
  induction errors with
  | nil => exact fun h => h
  | cons e errors ih => exact fun h => ih (cut_report (.lexical e) ctx hkm h)

theorem cut_advance (mode : Mode) : Cuts (Reads.parse (advance mode)) := by
  intro ctx k m s t hkm h
  have hplain := (plain_advance mode).same (ctx.under (ctx.limits.keeping k))
    (ctx.under (ctx.limits.keeping m)) s t rfl h.cursor
  refine ⟨congrArg Except.ok hplain.1, hplain.2, ?_⟩
  have hreported := (cut_reportAll
    (s.cursor.lookahead mode (mode == .expression && ctx.inBrackets)).errors ctx hkm h).diagnostics
  change (reportAll (s.cursor.lookahead mode (mode == .expression && ctx.inBrackets)).errors _
      s).2.diagnostics
    = (reportAll (t.cursor.lookahead mode (mode == .expression && ctx.inBrackets)).errors _
      t).2.diagnostics.take k
  rw [← h.cursor]
  exact hreported

theorem cuts_pure (a : α) : Cuts (pure a : Parse α) :=
  fun _ _ _ _ _ _ h => ⟨rfl, h⟩

theorem cuts_raw (read : Cursor → α × Cursor) : Cuts (Reads.parse (raw read)) := by
  intro ctx k m s t _ h
  have hplain := (plain_raw read).same ctx ctx s t rfl h.cursor
  exact ⟨congrArg Except.ok hplain.1, hplain.2, h.diagnostics⟩

theorem cuts_tell (error : Option LexicalError) : Cuts (Reads.parse (Scan.tell error)) := by
  cases error with
  | none => exact cuts_pure ()
  | some e => exact fun ctx k m s t hkm h => ⟨rfl, cut_report (.lexical e) ctx hkm h⟩

/-- A sequence does the same if both of its readers do. -/
theorem Cuts.bind {x : Parse α} {f : α → Parse β} (hx : Cuts x) (hf : ∀ a, Cuts (f a)) :
    Cuts (x >>= f) := by
  intro ctx k m s t hkm h
  rcases hx ctx k m s t hkm h with ⟨hresult, hcut⟩
  rw [Parse.bind_run, Parse.bind_run]
  generalize x (ctx.under (ctx.limits.keeping k)) s = r at hresult hcut ⊢
  generalize x (ctx.under (ctx.limits.keeping m)) t = r' at hresult hcut ⊢
  rcases r with ⟨result, s1⟩
  rcases r' with ⟨_, t1⟩
  cases hresult
  cases result with
  | error e => exact ⟨rfl, hcut⟩
  | ok a => exact hf a ctx k m s1 t1 hkm hcut

theorem Cuts.orReport {x : Parse α} {f : α → Parse β} {k : SyntaxError → Parse β} (hx : Cuts x)
    (hf : ∀ a, Cuts (f a)) (hk : ∀ e, Cuts (k e)) : Cuts (Parse.orReport x f k) := by
  intro ctx n m s t hnm h
  rcases hx ctx n m s t hnm h with ⟨hresult, hcut⟩
  unfold Parse.orReport
  generalize x (ctx.under (ctx.limits.keeping n)) s = r at hresult hcut ⊢
  generalize x (ctx.under (ctx.limits.keeping m)) t = r' at hresult hcut ⊢
  rcases r with ⟨result, s1⟩
  rcases r' with ⟨_, t1⟩
  cases hresult
  cases result with
  | error e => exact hk e ctx n m _ _ hnm (cut_report (.syntactic e) ctx hnm hcut)
  | ok a => exact hf a ctx n m s1 t1 hnm hcut

/-- A change of the context that leaves the limits alone does not tell them apart. -/
theorem Cuts.aside {x : Parse α} {f : Context → Context} (hf : Context.Aside f) (hx : Cuts x) :
    Cuts fun ctx => x (f ctx) := by
  intro ctx k m s t hkm h
  have hunder : ∀ n, f (ctx.under (ctx.limits.keeping n))
      = (f ctx).under ((f ctx).limits.keeping n) := by
    intro n
    rw [hf.limits ctx]
    exact hf ctx (ctx.limits.keeping n)
  dsimp only
  rw [hunder, hunder]
  exact hx (f ctx) k m s t hkm h

theorem Cuts.nested {x : Parse α} (hx : Cuts x) : Cuts (Parse.nested x) := by
  intro ctx k m s t hkm h
  rw [Parse.nested_run, Parse.nested_run]
  change (if ctx.limits.depth ≤ ctx.depth then _ else _ : Except SyntaxError α × State).1
      = (if ctx.limits.depth ≤ ctx.depth then _ else _ : Except SyntaxError α × State).1 ∧
    State.Cut k (if ctx.limits.depth ≤ ctx.depth then _ else _ : Except SyntaxError α × State).2
      (if ctx.limits.depth ≤ ctx.depth then _ else _ : Except SyntaxError α × State).2
  split
  · rw [h.cursor]
    exact ⟨rfl, h⟩
  · exact hx { ctx with depth := ctx.depth + 1 } k m s t hkm h

/-- Whatever is made of steps keeps the first diagnostics of what it would keep. -/
theorem Steps.cut {x : Parse α} (h : Steps x) : Cuts x := by
  induction h with
  | pure a => exact cuts_pure a
  | throw => exact fun _ _ _ _ _ _ h => ⟨rfl, h⟩
  | position => exact fun _ _ _ _ _ _ h =>
      ⟨congrArg (fun c : Cursor => Except.ok c.offset) h.cursor, h⟩
  | bind _ _ hx hf => exact hx.bind hf
  | @read _ f _ haside hf =>
      intro ctx k m s t hkm h
      rw [Parse.read_run haside, Parse.read_run haside]
      exact hf ctx ctx k m s t hkm h
  | @clocked _ f _ hf =>
      intro ctx k m s t hkm h
      have hclock := hf s.cursor.rest ctx k m s t hkm h
      change (f s.cursor.rest _ s).1 = (f t.cursor.rest _ t).1
        ∧ State.Cut k (f s.cursor.rest _ s).2 (f t.cursor.rest _ t).2
      rw [← h.cursor]
      exact hclock
  | look mode =>
      intro ctx k m s t _ h
      exact ⟨congrArg Except.ok ((plain_lookahead mode).same _ _ s t rfl h.cursor).1, h⟩
  | report d => exact fun ctx k m s t hkm h => ⟨rfl, cut_report d ctx hkm h⟩
  | advance mode => exact cut_advance mode
  | piece style triple opening =>
      rw [Reads.parse_piece]
      exact (cuts_raw _).bind fun p => (cuts_tell _).bind fun _ => cuts_pure p
  | raw _ => exact cuts_raw _
  | @ahead _ x hx _ _ =>
      intro ctx k m s t _ h
      have hsame := (hx.same (ctx.under (ctx.limits.keeping k)) (ctx.under (ctx.limits.keeping m))
        s t rfl h.cursor).1
      exact ⟨congrArg Except.ok hsame, h⟩
  | nested _ hx => exact hx.nested
  | within change _ hx => exact hx.aside change.aside
  | orReport _ _ _ hx hf hk => exact hx.orReport hf hk

end

/-- A parse that may keep fewer diagnostics has the same program, and it keeps the first
    of the diagnostics that it would keep. -/
theorem parse_keeps_first (limits : Limits) (source : String) {k m : Nat} (hkm : k ≤ m)
    (hsize : source.utf8ByteSize ≤ limits.inputSize) :
    (parse (limits.keeping k) source).program = (parse (limits.keeping m) source).program ∧
      (parse (limits.keeping k) source).diagnostics
        = (parse (limits.keeping m) source).diagnostics.take k := by
  have hfinish : ∀ n, parse (limits.keeping n) source
      = finish (limits.keeping n) source (.ofSource source) := by
    intro n
    unfold parse
    exact if_neg (Nat.not_lt_of_le hsize)
  have hsteps : Steps (Reads.parse (Grammar.forState (.ofSource source)).program) :=
    Stepwise.steps
  have hstart : State.Cut k (.ofSource source) (.ofSource source) :=
    ⟨rfl, (List.take_nil).symm⟩
  rcases hsteps.cut { limits } k m _ _ hkm hstart with ⟨hstatements, hcut⟩
  rw [hfinish, hfinish]
  refine ⟨?_, hcut.diagnostics⟩
  exact congrArg (fun statements => (Parsed.ofStatements source statements []).program)
    (Except.ok.inj hstatements)

/-- Of two errors a list of one keeps the first. -/
theorem parse_keeps_first_error :
    1 ≤ 2 ∧ ")\n\x7d".utf8ByteSize ≤ ({} : Limits).inputSize ∧
      (parse (({} : Limits).keeping 1) ")\n\x7d").program
        = (parse (({} : Limits).keeping 2) ")\n\x7d").program ∧
      (parse (({} : Limits).keeping 1) ")\n\x7d").diagnostics
        = (parse (({} : Limits).keeping 2) ")\n\x7d").diagnostics.take 1 := by
  have hsize : ")\n\x7d".utf8ByteSize ≤ ({} : Limits).inputSize := by decide
  exact ⟨by decide, hsize, parse_keeps_first {} _ (by decide) hsize⟩

/-! ## More levels -/

/-- The diagnostic tells of too deep a nesting. -/
def Diagnostic.isTooDeep : Diagnostic → Bool
  | syntactic (.nestingTooDeep _ _) => true
  | _ => false

/-- Behind `D` the list tells of too deep a nesting next, or there is no room left to. -/
def Limits.Tells (limits : Limits) (D D' : List Diagnostic) : Prop :=
  (limits.diagnostics ≤ D.length ∧ D <+: D') ∨ ∃ d, d.isTooDeep = true ∧ D ++ [d] <+: D'

/-- What has been reported stays. -/
theorem Limits.Tells.moves {limits limits' : Limits} {D : List Diagnostic} {s s' : State}
    (h : limits.Tells D s.diagnostics) (hm : Moves limits' s s') :
    limits.Tells D s'.diagnostics := by
  rcases h with ⟨hfull, hD⟩ | ⟨d, hdeep, hD⟩
  · exact .inl ⟨hfull, hD.trans hm.kept⟩
  · exact .inr ⟨d, hdeep, hD.trans hm.kept⟩

/-- The levels have run out behind `D`: the reader fails for it there, or that has been
    reported as far as there was room to report it. -/
def OutOfLevels {α : Type} (limits : Limits) (D : List Diagnostic)
    (r : Except SyntaxError α × State) : Prop :=
  ((∃ depth span, r.1 = .error (.nestingTooDeep depth span)) ∧ r.2.diagnostics = D) ∨
    limits.Tells D r.2.diagnostics

/-- With more levels the reader does the same, unless it runs out of levels. Up to there
    it reports with more levels what it reports without. -/
def Deepens {α : Type} (x : Parse α) : Prop :=
  ∀ (ctx : Context) (d d' : Nat) (s : State), d ≤ d' →
    (∃ D, D <+: (x (ctx.under (ctx.limits.nesting d')) s).2.diagnostics ∧
      OutOfLevels ctx.limits D (x (ctx.under (ctx.limits.nesting d)) s)) ∨
    x (ctx.under (ctx.limits.nesting d')) s = x (ctx.under (ctx.limits.nesting d)) s

section

variable {α β : Type}

/-- A sequence that runs out of levels in its first reader does not get any further, or
    it has said so already. -/
theorem Deepens.bind {x : Parse α} {f : α → Parse β} (hx : Deepens x)
    (hf : ∀ a, Deepens (f a)) (hm : ∀ a, Moving (f a)) : Deepens (x >>= f) := by
  intro ctx d d' s hd
  rw [Parse.bind_run, Parse.bind_run]
  rcases hx ctx d d' s hd with ⟨D, hD, hout⟩ | hsame
  · refine .inl ⟨D, ?_, ?_⟩
    · revert hD
      generalize x (ctx.under (ctx.limits.nesting d')) s = r
      rcases r with ⟨e | a, s1⟩ <;> intro hD
      · exact hD
      · exact hD.trans ((hm a).moves _ s1).kept
    · revert hout
      generalize x (ctx.under (ctx.limits.nesting d)) s = r
      rcases r with ⟨e | a, s1⟩ <;> rintro (⟨⟨depth, span, he⟩, hs1⟩ | htold)
      · exact .inl ⟨⟨depth, span, congrArg _ (Except.error.inj he)⟩, hs1⟩
      · exact .inr htold
      · cases he
      · exact .inr (htold.moves ((hm a).moves _ s1))
  · rw [hsame]
    rcases x (ctx.under (ctx.limits.nesting d)) s with ⟨e | a, s1⟩
    · exact .inr rfl
    · exact hf a ctx d d' s1 hd

/-- The report of too deep a nesting finds room, or there is none. -/
theorem tells_report (ctx : Context) (s : State) {e : SyntaxError}
    (he : ∃ depth span, e = .nestingTooDeep depth span) :
    ctx.limits.Tells s.diagnostics (report (.syntactic e) ctx s).2.diagnostics := by
  rcases he with ⟨depth, span, rfl⟩
  change ctx.limits.Tells s.diagnostics (State.diagnostics
    (if s.diagnostics.length < ctx.limits.diagnostics then
      { s with diagnostics := s.diagnostics ++ [.syntactic (.nestingTooDeep depth span)] } else s))
  split
  · exact .inr ⟨_, rfl, List.prefix_rfl⟩
  · case isFalse hfull => exact .inl ⟨Nat.le_of_not_lt hfull, List.prefix_rfl⟩

theorem Deepens.orReport {x : Parse α} {f : α → Parse β} {k : SyntaxError → Parse β}
    (hx : Deepens x) (hf : ∀ a, Deepens (f a)) (hk : ∀ e, Deepens (k e))
    (hmf : ∀ a, Moving (f a)) (hmk : ∀ e, Moving (k e)) : Deepens (Parse.orReport x f k) := by
  intro ctx d d' s hd
  unfold Parse.orReport
  rcases hx ctx d d' s hd with ⟨D, hD, hout⟩ | hsame
  · refine .inl ⟨D, ?_, ?_⟩
    · revert hD
      generalize x (ctx.under (ctx.limits.nesting d')) s = r
      rcases r with ⟨e | a, s1⟩ <;> intro hD
      · exact (hD.trans ((moving_report (.syntactic e)).moves _ s1).kept).trans
          ((hmk e).moves _ _).kept
      · exact hD.trans ((hmf a).moves _ s1).kept
    · revert hout
      generalize x (ctx.under (ctx.limits.nesting d)) s = r
      rcases r with ⟨e | a, s1⟩ <;> rintro (⟨⟨depth, span, he⟩, rfl⟩ | htold)
      · have hreported := tells_report (ctx.under (ctx.limits.nesting d)) s1
          ⟨depth, span, Except.error.inj he⟩
        exact .inr (Limits.Tells.moves hreported ((hmk e).moves _ _))
      · exact .inr ((htold.moves ((moving_report (.syntactic e)).moves _ s1)).moves
          ((hmk e).moves _ _))
      · cases he
      · exact .inr (htold.moves ((hmf a).moves _ s1))
  · rw [hsame]
    rcases x (ctx.under (ctx.limits.nesting d)) s with ⟨e | a, s1⟩
    · exact hk e ctx d d' _ hd
    · exact hf a ctx d d' s1 hd

theorem Deepens.aside {x : Parse α} {f : Context → Context} (hf : Context.Aside f)
    (hx : Deepens x) : Deepens fun ctx => x (f ctx) := by
  intro ctx d d' s hd
  have hdeepens := hx (f ctx) d d' s hd
  rw [hf.limits] at hdeepens
  dsimp only
  rw [hf, hf]
  exact hdeepens

/-- With fewer levels there is none left earlier, and otherwise there is one left. -/
theorem Deepens.nested {x : Parse α} (hx : Deepens x) (hm : Moving (Parse.nested x)) :
    Deepens (Parse.nested x) := by
  intro ctx d d' s hd
  by_cases hdepth : d ≤ ctx.depth
  · refine .inl ⟨s.diagnostics, (hm.moves _ s).kept, ?_⟩
    rw [Parse.nested_run]
    change OutOfLevels ctx.limits s.diagnostics
      (if d ≤ ctx.depth then _ else _ : Except SyntaxError α × State)
    rw [if_pos hdepth]
    exact .inl ⟨⟨_, _, rfl⟩, rfl⟩
  · rw [Parse.nested_run, Parse.nested_run]
    change (∃ D,
        D <+: (if d' ≤ ctx.depth then _ else _ : Except SyntaxError α × State).2.diagnostics ∧
        OutOfLevels ctx.limits D (if d ≤ ctx.depth then _ else _ : Except SyntaxError α × State)) ∨
      (if d' ≤ ctx.depth then _ else _ : Except SyntaxError α × State)
        = if d ≤ ctx.depth then _ else _
    rw [if_neg hdepth, if_neg fun h => hdepth (Nat.le_trans hd h)]
    exact hx { ctx with depth := ctx.depth + 1 } d d' s hd

theorem reportAll_nesting (errors : List LexicalError) (ctx : Context) (d d' : Nat) :
    ∀ s, reportAll errors (ctx.under (ctx.limits.nesting d')) s
      = reportAll errors (ctx.under (ctx.limits.nesting d)) s := by
  induction errors with
  | nil => exact fun s => rfl
  | cons e errors ih => exact fun s => ih (report (.lexical e) ctx s).2

theorem deepens_tell (error : Option LexicalError) : Deepens (Reads.parse (Scan.tell error)) := by
  cases error <;> exact fun _ _ _ _ _ => .inr rfl

/-- Whatever is made of steps does the same with more levels, unless it runs out of
    them. Only going deeper asks for the limit. -/
theorem Steps.deepens {x : Parse α} (h : Steps x) : Deepens x := by
  induction h with
  | pure | throw | position | look | report | raw => exact fun _ _ _ _ _ => .inr rfl
  | piece style triple opening =>
      rw [Reads.parse_piece]
      refine Deepens.bind (fun _ _ _ _ _ => .inr rfl) (fun p => ?_) fun p => ?_
      · exact (deepens_tell _).bind (fun _ _ _ _ _ _ => .inr rfl) fun _ => moving_pure p
      · exact (moving_tell _).bind fun _ => moving_pure p
  | advance mode =>
      intro ctx d d' s _
      let next := s.cursor.lookahead mode (mode == .expression && ctx.inBrackets)
      have hstate := congrArg (fun r => ({ r.2 with cursor := next.after } : State))
        (reportAll_nesting next.errors ctx d d' s)
      exact .inr (Prod.ext rfl hstate)
  | bind _ hsteps hx hf => exact hx.bind hf fun a => (hsteps a).moving
  | @read _ f _ haside hf =>
      intro ctx d d' s hd
      rw [Parse.read_run haside, Parse.read_run haside]
      exact hf ctx ctx d d' s hd
  | clocked _ hf => exact fun ctx d d' s hd => hf s.cursor.rest ctx d d' s hd
  | @ahead _ x hx _ _ =>
      intro ctx d d' s _
      have hsame := (hx.same (ctx.under (ctx.limits.nesting d')) (ctx.under (ctx.limits.nesting d))
        s s rfl rfl).1
      exact .inr (congrArg (fun a => (Except.ok a, s)) hsame)
  | nested hsteps hx => exact hx.nested hsteps.nested.moving
  | within change _ hx => exact hx.aside change.aside
  | orReport _ hsteps hsteps' hx hf hk =>
      exact hx.orReport hf hk (fun a => (hsteps a).moving) fun e => (hsteps' e).moving

end

/-- A parse is the same with more levels, unless it tells that it has run out of them.
    Up to there it reports what it reports with more levels. -/
theorem parse_eq_or_tells (limits : Limits) (source : String) {d d' : Nat} (hd : d ≤ d') :
    (∃ D, D <+: (parse (limits.nesting d') source).diagnostics ∧
      limits.Tells D (parse (limits.nesting d) source).diagnostics) ∨
    parse (limits.nesting d') source = parse (limits.nesting d) source := by
  have hsteps : Steps (Reads.parse (Grammar.forState (.ofSource source)).program) :=
    Stepwise.steps
  by_cases hsize : limits.inputSize < source.utf8ByteSize
  · have hlarge : ∀ n, parse (limits.nesting n) source = .ofStatements source []
        [.syntactic (.inputTooLarge source.utf8ByteSize limits.inputSize)] := by
      intro n
      unfold parse
      exact if_pos hsize
    rw [hlarge, hlarge]
    exact .inr rfl
  · have hfinish : ∀ n, parse (limits.nesting n) source
        = finish (limits.nesting n) source (.ofSource source) := by
      intro n
      unfold parse
      exact if_neg hsize
    rw [hfinish, hfinish]
    rcases hsteps.deepens { limits } d d' (.ofSource source) hd with
      ⟨D, hD, ⟨⟨_, _, he⟩, -⟩ | htold⟩ | hsame
    · cases he
    · exact .inl ⟨D, hD, htold⟩
    · have hstatements := Except.ok.inj (congrArg Prod.fst hsame)
      have hstate := congrArg Prod.snd hsame
      have hread : readProgram (limits.nesting d') (.ofSource source)
          = readProgram (limits.nesting d) (.ofSource source) :=
        Prod.ext hstatements hstate
      unfold finish
      rw [hread]
      exact .inr rfl

/-- A parse that has room for its diagnostics, and that never runs out of levels, is the
    same with more of them. -/
theorem parse_eq_of_deeper (limits : Limits) (source : String) {d d' : Nat} (hd : d ≤ d')
    (hroom : (parse (limits.nesting d) source).diagnostics.length < limits.diagnostics)
    (hdeep : ∀ depth span, .syntactic (.nestingTooDeep depth span)
      ∉ (parse (limits.nesting d) source).diagnostics) :
    parse (limits.nesting d') source = parse (limits.nesting d) source := by
  rcases parse_eq_or_tells limits source hd with ⟨D, -, ⟨hfull, hD⟩ | ⟨e, htold, hD⟩⟩ | hsame
  · exact absurd (Nat.le_trans hfull hD.length_le) (Nat.not_le_of_lt hroom)
  · have he := hD.subset (List.mem_append_right D (List.mem_singleton_self e))
    rcases e with _ | (_ | _) | _ <;> cases htold
    exact absurd he (hdeep _ _)
  · exact hsame

/-- Two levels are enough for a declaration, and so are sixty-four. -/
theorem parse_eq_of_two_levels :
    2 ≤ 64 ∧ (parse (({} : Limits).nesting 2) "var x = 1").diagnostics.length
        < ({} : Limits).diagnostics ∧
      (∀ depth span, .syntactic (.nestingTooDeep depth span)
        ∉ (parse (({} : Limits).nesting 2) "var x = 1").diagnostics) ∧
      parse (({} : Limits).nesting 64) "var x = 1" = parse (({} : Limits).nesting 2) "var x = 1" := by
  have hnone : (parse (({} : Limits).nesting 2) "var x = 1").diagnostics = [] := by decide +kernel
  have hroom : (parse (({} : Limits).nesting 2) "var x = 1").diagnostics.length
      < ({} : Limits).diagnostics := by
    rw [hnone]
    decide
  have hdeep : ∀ depth span, .syntactic (.nestingTooDeep depth span)
      ∉ (parse (({} : Limits).nesting 2) "var x = 1").diagnostics := by
    rw [hnone]
    exact fun _ _ => List.not_mem_nil
  exact ⟨by decide, hroom, hdeep, parse_eq_of_deeper {} _ (by decide) hroom hdeep⟩

/-- A parse that would have room for its diagnostics with more levels, and that never runs
    out of them, has enough. -/
theorem parse_eq_of_shallower (limits : Limits) (source : String) {d d' : Nat} (hd : d ≤ d')
    (hroom : (parse (limits.nesting d') source).diagnostics.length < limits.diagnostics)
    (hdeep : ∀ e ∈ (parse (limits.nesting d) source).diagnostics, e.isTooDeep = false) :
    parse (limits.nesting d) source = parse (limits.nesting d') source := by
  rcases parse_eq_or_tells limits source hd with ⟨D, hD, ⟨hfull, -⟩ | ⟨e, htold, hsaid⟩⟩ | hsame
  · exact absurd (Nat.le_trans hfull hD.length_le) (Nat.not_le_of_lt hroom)
  · have he := hdeep e (hsaid.subset (List.mem_append_right D (List.mem_singleton_self e)))
    rw [he] at htold
    cases htold
  · exact hsame.symm

end Ysh
