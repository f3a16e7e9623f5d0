import Ysh.Proofs.Coverage.Tokens
import Ysh.Proofs.Lexing.Quoted
import Ysh.Proofs.Steps

/-!
# Faults Are Told Once and in Order

Some errors are about the text under them: text that is no token, a number that is
malformed, an escape that does not exist. The same text may be looked at many times
before it is read, in one mode and then in the other, by a reader that only looks ahead,
or by one that skips to the end of a statement. Each such error is told once all the
same, and the errors are told in the order of their text.

What carries this is where the reader is. A step that tells of such an error is the step
that reads the text, so the text lies between the place where the reader was and the place
where it is now. No reader goes back. So whatever has been told lies behind the reader,
and what is told next lies in front of it. An error that is dropped for want of room does
no harm to that.

The other errors are about a token that is only looked at, or about an opener far back,
and they keep no order.

## Main definitions

* `FaultsBetween`: Errors that stand one behind the other between two offsets.
* `Told`: The faults told so far are in order, and behind an offset.
* `Tells`: A reader that keeps it so.

## Theorems

* `Cursor.faults_lookahead`: The errors in front of a token.
* `Steps.tells`: Whatever is made of steps tells of faults in order.
* `parse_faults_ordered`: So does the parse of a source.
-/

namespace Ysh

/-! ## Faults in front of a token -/

/-- The errors stand one behind the other between two offsets, each over some text. -/
def FaultsBetween (a : Nat) : List LexicalError → Nat → Prop
  | [], b => a ≤ b
  | e :: es, b => a ≤ e.span.start ∧ e.span.start < e.span.stop ∧ FaultsBetween e.span.stop es b

/-- Between two offsets is also between an earlier one and the second. -/
theorem FaultsBetween.of_le {a a' b : Nat} {es : List LexicalError} (h : FaultsBetween a' es b)
    (hle : a ≤ a') : FaultsBetween a es b := by
  cases es with
  | nil => exact Nat.le_trans hle h
  | cons e es => exact ⟨Nat.le_trans hle h.1, h.2⟩

namespace Cursor

/-- A token or an error takes a reader forward. -/
theorem offset_le_nextToken (mode : Mode) (c : Cursor) :
    c.offset ≤ (c.nextToken mode).2.offset := by
  rcases nextToken_after mode c with ⟨n, hn⟩
  rw [hn]
  exact Nat.le_add_right _ _

/-- An error is over the text that has been read past with it. -/
theorem fault_nextToken {mode : Mode} {c after : Cursor} {e : LexicalError}
    (h : c.nextToken mode = (.error e, after)) :
    c.offset ≤ e.span.start ∧ e.span.start < e.span.stop ∧ e.span.stop = after.offset := by
  rcases tile_nextToken mode c with ⟨gap, text, htile, hends⟩
  rw [h] at htile hends
  rcases hends with ⟨htext, -⟩ | ⟨-, ⟨token, htoken, -⟩, -⟩
  · exact ⟨htile.offset_le_start, htile.start_lt_stop htext, htile.stop⟩
  · cases htoken

theorem faults_lookaheadFrom (mode : Mode) (overLines : Bool) (clock : List Char) :
    ∀ c : Cursor, FaultsBetween c.offset (lookaheadFrom mode overLines clock c).errors
      (lookaheadFrom mode overLines clock c).after.offset := by
  induction clock with
  | nil =>
      intro c
      have hle := offset_le_nextToken mode c
      rw [lookaheadFrom]
      rcases h : c.nextToken mode with ⟨e | token, after⟩
      · rcases fault_nextToken h with ⟨hstart, hlt, hstop⟩
        exact ⟨hstart, hlt, Nat.le_of_eq hstop⟩
      · rw [h] at hle
        exact hle
  | cons x clock ih =>
      intro c
      have hle := offset_le_nextToken mode c
      rw [lookaheadFrom]
      rcases h : c.nextToken mode with ⟨e | token, after⟩
      · rcases fault_nextToken h with ⟨hstart, hlt, hstop⟩
        exact ⟨hstart, hlt, hstop ▸ ih after⟩
      · -- A newline that is passed over adds no error and takes the reader forward.
        rw [h] at hle
        dsimp only
        by_cases hline : (overLines && token.kind == .newline) = true
        · rw [if_pos hline]
          exact (ih after).of_le hle
        · rw [if_neg hline]
          exact hle

/-- The errors in front of a token stand between the place of the reader and the place
    behind the token. -/
theorem faults_lookahead (mode : Mode) (overLines : Bool) (c : Cursor) :
    FaultsBetween c.offset (c.lookahead mode overLines).errors
      (c.lookahead mode overLines).after.offset :=
  faults_lookaheadFrom mode overLines c.rest c

/-- A bad escape is over the text that has been read with it, and a string that never
    ends is not an error of that kind. -/
theorem fault_piece {style : StringStyle} {triple : Bool} {opening : Span} {c : Cursor}
    {e : LexicalError} (h : Quoted.fault? (c.piece style triple opening).1 = some e)
    (hpositional : e.isPositional = true) :
    c.offset ≤ e.span.start ∧ e.span.start < e.span.stop ∧
      e.span.stop ≤ (c.piece style triple opening).2.offset := by
  unfold piece at h ⊢
  by_cases hempty : c.rest.isEmpty = true
  · rw [if_pos hempty] at h
    cases h
    cases hpositional
  · rw [if_neg hempty] at h ⊢
    have hne : c.rest ≠ [] := fun hnil => hempty (List.isEmpty_iff.2 hnil)
    have htakes : 0 < (Quoted.form style triple c.rest).2 := (Quoted.form_within hne).1
    have hlt := c.offset_lt_advance htakes hne
    rcases hform : Quoted.form style triple c.rest with ⟨form, length⟩
    rw [hform] at h hlt
    cases form <;> cases h <;> exact ⟨Nat.le_refl _, hlt, Nat.le_refl _⟩

end Cursor

/-! ## What has been told -/

/-- The faults told so far are in order, one behind the other, and they are behind an
    offset. There is something under each of them. -/
structure Told (D : List Diagnostic) (offset : Nat) : Prop where
  ordered : (D.filter Diagnostic.isPositional).Pairwise fun d e =>
    d.span.stop ≤ e.span.start ∧ d.span.start < e.span.start
  behind : ∀ d ∈ D.filter Diagnostic.isPositional,
    d.span.start < d.span.stop ∧ d.span.stop ≤ offset

namespace Told

variable {D : List Diagnostic} {d : Diagnostic} {a b : Nat}

theorem nothing (offset : Nat) : Told [] offset :=
  ⟨.nil, fun _ h => absurd h List.not_mem_nil⟩

/-- What is behind an offset is behind a later one. -/
theorem of_le (h : Told D a) (hle : a ≤ b) : Told D b :=
  ⟨h.ordered, fun d hd => ⟨(h.behind d hd).1, Nat.le_trans (h.behind d hd).2 hle⟩⟩

/-- Other diagnostics may be told at any time. -/
theorem other (h : Told D a) (hd : d.isPositional = false) : Told (D ++ [d]) a := by
  have hfilter : (D ++ [d]).filter Diagnostic.isPositional = D.filter Diagnostic.isPositional := by
    simp [hd]
  refine ⟨?_, ?_⟩ <;> rw [hfilter]
  · exact h.ordered
  · exact h.behind

/-- A fault may be told if it is not behind the offset. -/
theorem fault (h : Told D a) (hd : d.isPositional = true) (hle : a ≤ d.span.start)
    (hlt : d.span.start < d.span.stop) (hb : d.span.stop ≤ b) : Told (D ++ [d]) b := by
  have hfilter : (D ++ [d]).filter Diagnostic.isPositional
      = D.filter Diagnostic.isPositional ++ [d] := by
    simp [hd]
  refine ⟨?_, ?_⟩ <;> rw [hfilter]
  · -- Whatever has been told ends at the offset, and the new one starts there or later.
    refine List.pairwise_append.2 ⟨h.ordered, List.pairwise_singleton _ _, fun e he f hf => ?_⟩
    have hbehind := h.behind e he
    rw [List.mem_singleton.1 hf]
    omega
  · intro e he
    rcases List.mem_append.1 he with he | he
    · have hbehind := h.behind e he
      omega
    · rw [List.mem_singleton.1 he]
      exact ⟨hlt, hb⟩

end Told

/-! ## Reports -/

section

variable {ctx : Context} {s : State} {a b : Nat}

/-- A report adds the diagnostic or, if there is no room for it, nothing. -/
theorem report_diagnostics (d : Diagnostic) (ctx : Context) (s : State) :
    (report d ctx s).2.diagnostics = s.diagnostics ++ [d] ∨
      (report d ctx s).2.diagnostics = s.diagnostics := by
  change State.diagnostics (if s.diagnostics.length < ctx.limits.diagnostics then
      { s with diagnostics := s.diagnostics ++ [d] } else s) = _ ∨
    State.diagnostics (if s.diagnostics.length < ctx.limits.diagnostics then
      { s with diagnostics := s.diagnostics ++ [d] } else s) = _
  split
  · exact .inl rfl
  · exact .inr rfl

theorem told_report_other {d : Diagnostic} (h : Told s.diagnostics a)
    (hd : d.isPositional = false) : Told (report d ctx s).2.diagnostics a := by
  rcases report_diagnostics d ctx s with hadded | hdropped
  · rw [hadded]
    exact h.other hd
  · rw [hdropped]
    exact h

/-- The report of an error over text in front of the reader, be it a fault or not. -/
theorem told_report_lexical {e : LexicalError} (h : Told s.diagnostics a)
    (hle : a ≤ e.span.start) (hlt : e.span.start < e.span.stop) (hb : e.span.stop ≤ b) :
    Told (report (.lexical e) ctx s).2.diagnostics b := by
  have hab : a ≤ b := by omega
  by_cases he : e.isPositional = true
  · rcases report_diagnostics (.lexical e) ctx s with hadded | hdropped
    · rw [hadded]
      exact h.fault he hle hlt hb
    · rw [hdropped]
      exact h.of_le hab
  · have hother : Diagnostic.isPositional (.lexical e) = false := Bool.eq_false_iff.2 he
    exact (told_report_other h hother).of_le hab

theorem told_reportAll {es : List LexicalError} (hes : FaultsBetween a es b)
    (h : Told s.diagnostics a) : Told (reportAll es ctx s).2.diagnostics b := by
  induction es generalizing a s with
  | nil => exact h.of_le hes
  | cons e es ih =>
      rcases hes with ⟨hle, hlt, hes⟩
      exact ih hes (told_report_lexical h hle hlt (Nat.le_refl _))

end

/-! ## Steps -/

/-- Where a reader is, the faults told so far are behind it. -/
def State.Told (s : State) : Prop :=
  Ysh.Told s.diagnostics s.cursor.offset

/-- The reader tells of faults in order. -/
def Tells {α : Type} (x : Parse α) : Prop :=
  ∀ ctx s, s.Told → (x ctx s).2.Told

section

variable {α β : Type}

theorem Tells.bind {x : Parse α} {f : α → Parse β} (hx : Tells x) (hf : ∀ a, Tells (f a)) :
    Tells (x >>= f) := by
  intro ctx s h
  have hfirst := hx ctx s h
  rw [Parse.bind_run]
  generalize x ctx s = r at hfirst ⊢
  rcases r with ⟨e | a, s1⟩
  · exact hfirst
  · exact hf a ctx s1 hfirst

theorem Tells.orReport {x : Parse α} {f : α → Parse β} {k : SyntaxError → Parse β} (hx : Tells x)
    (hf : ∀ a, Tells (f a)) (hk : ∀ e, Tells (k e)) : Tells (Parse.orReport x f k) := by
  intro ctx s h
  have hfirst := hx ctx s h
  unfold Parse.orReport
  generalize x ctx s = r at hfirst ⊢
  rcases r with ⟨e | a, s1⟩
  · refine hk e ctx _ ?_
    unfold State.Told
    rw [report_cursor]
    exact told_report_other hfirst rfl
  · exact hf a ctx s1 hfirst

theorem Tells.nested {x : Parse α} (hx : Tells x) : Tells (Parse.nested x) := by
  intro ctx s h
  rw [Parse.nested_run]
  split
  · exact h
  · exact hx _ s h

/-- The token is read, and with it the text in front of it that is no token. -/
theorem tells_advance (mode : Mode) : Tells (Reads.parse (advance mode)) := by
  intro ctx s h
  have hfaults := s.cursor.faults_lookahead mode (mode == .expression && ctx.inBrackets)
  exact told_reportAll hfaults h

theorem tells_raw {read : Cursor → α × Cursor} (hread : ∀ c, ∃ n, (read c).2 = c.advance n) :
    Tells (Reads.parse (raw read)) := by
  intro ctx s h
  rcases hread s.cursor with ⟨n, hn⟩
  have hle : s.cursor.offset ≤ (read s.cursor).2.offset := by
    rw [hn]
    exact Nat.le_add_right _ _
  exact Told.of_le h hle

/-- A bad escape is read and told in one. -/
theorem tells_piece (style : StringStyle) (triple : Bool) (opening : Span) :
    Tells (Reads.parse (Scan.piece style triple opening)) := by
  intro ctx s h
  have hread := tells_raw (Cursor.piece_after style triple opening) ctx s h
  let p := (s.cursor.piece style triple opening).1
  let s1 : State := { s with cursor := (s.cursor.piece style triple opening).2 }
  change State.Told (Scan.tell (Quoted.fault? p) ctx s1).2
  rcases hfault : Quoted.fault? p with _ | e
  · exact hread
  · -- A bad escape lies between the two places. The other error there is, that the string
    -- never ends, is about an opener that may be anywhere.
    unfold State.Told
    change Told (report (.lexical e) ctx s1).2.diagnostics
      (report (.lexical e) ctx s1).2.cursor.offset
    rw [report_cursor]
    by_cases he : e.isPositional = true
    · rcases Cursor.fault_piece hfault he with ⟨hle, hlt, hstop⟩
      exact told_report_lexical (s := s1) h hle hlt hstop
    · have hother : Diagnostic.isPositional (.lexical e) = false := Bool.eq_false_iff.2 he
      exact told_report_other hread hother

/-- Whatever is made of steps tells of faults in order. -/
theorem Steps.tells {x : Parse α} (h : Steps x) : Tells x := by
  induction h with
  | pure | throw | look | position => exact fun _ _ h => h
  | bind _ _ hx hf => exact hx.bind hf
  | read _ _ hf => exact fun ctx s h => hf ctx ctx s h
  | clocked _ hf => exact fun ctx s h => hf s.cursor.rest ctx s h
  | report d hd =>
      intro ctx s h
      change State.Told (Scan.report d ctx s).2
      unfold State.Told
      rw [report_cursor]
      exact told_report_other h hd
  | advance mode => exact tells_advance mode
  | piece style triple opening => exact tells_piece style triple opening
  | raw hread => exact tells_raw hread
  | ahead => exact fun _ _ h => h
  | nested _ hx => exact hx.nested
  | within change _ hx => exact fun ctx s h => hx (change.apply ctx) s h
  | orReport _ _ _ hx hf hk => exact hx.orReport hf hk

end

/-- The errors of a parse that are about the text under them, in the order in which they
    are listed: each is behind the one in front of it, and so no two of them are about the
    same text. -/
theorem parse_faults_ordered (limits : Limits) (source : String) :
    ((parse limits source).diagnostics.filter Diagnostic.isPositional).Pairwise fun d e =>
      d.span.stop ≤ e.span.start ∧ d.span.start < e.span.start := by
  unfold parse
  dsimp only
  by_cases hsize : limits.inputSize < source.utf8ByteSize
  · rw [if_pos hsize]
    exact .nil
  · rw [if_neg hsize]
    have hsteps : Steps (Reads.parse (Grammar.forState (.ofSource source)).program) :=
      Stepwise.steps
    exact (hsteps.tells { limits } (.ofSource source) (.nothing _)).ordered

/-- The text that is no token is in front of the one that was not expected, but it is told
    of when it is read, which is behind the complaint. -/
example : (parse {} "f (1 ` 2)\necho b'\\q'\n").diagnostics.map (fun d =>
    (d.isPositional, d.span.start)) = [(false, 7), (true, 5), (true, 17)] := by
  decide +kernel

end Ysh
