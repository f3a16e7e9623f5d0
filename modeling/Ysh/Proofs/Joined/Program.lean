import Ysh.Proofs.Joined.Lines

/-!
# Programs Line by Line

Two sources that are parsed without errors can be put one behind the other, with a
newline between them. The second one has a text in front of it and nothing behind it.
The first one has a line behind it, and that line does not begin with a branch, because a
statement cannot begin with one. So each is parsed as it is parsed by itself.

An error would spoil it. A string that is not closed goes on in the next line, and so
does a backslash at the end. Errors for which there was no room any more would spoil it
as well, so there must be room for further diagnostics.

## Main definitions

* `Surroundings.front`, `Surroundings.line`: A text behind another, and in front of one.
* `Tree.append`: The statements of a list, and then those of another.

## Theorems

* `Grammar.isWord_of_yields`: A program without errors does not begin with a branch.
* `Grammar.yields_statementList_line`: The statements of a text, and then those of the
  lines behind it.
* `parse_append_line`: The program of two sources, one behind the other.
-/

namespace Ysh

variable {D : List Diagnostic} {ctx : Context}

/-! ## Surroundings -/

/-- A text behind another. -/
def Surroundings.front (size : Nat) (reports : List Diagnostic) : Surroundings where
  size := size
  reports := reports
  behind := []
  startsLine := fun c hc => by cases hc
  noBranch := fun offset text htext => by rcases htext with rfl | rfl <;> rfl

/-- What comes next does not depend on how much is in front of a text. -/
theorem Cursor.isWord_lookahead_offset (mode : Mode) (overLines : Bool) (cs : List Char)
    (offset : Nat) (text : String) :
    (lookahead mode overLines ⟨cs, offset⟩).token.isWord text =
      (lookahead mode overLines ⟨cs, 0⟩).token.isWord text := by
  have hwithin : (within (.front offset []) ⟨cs, 0⟩).lookahead mode overLines =
      (lookahead mode overLines ⟨cs, 0⟩).within (.front offset []) :=
    lookahead_within ⟨cs, 0⟩ fun _ => rfl
  have hplace : within (.front offset []) ⟨cs, 0⟩ = ⟨cs, offset⟩ := by
    rw [within, Surroundings.front, List.append_nil, Nat.zero_add]
  rw [hplace] at hwithin
  rw [hwithin]
  rfl

/-- A text with a line behind it, which does not begin with a branch. -/
def Surroundings.line (more : List Char)
    (h : ∀ text, text = "elif" ∨ text = "else" →
      (Cursor.lookahead .command true ⟨more, 0⟩).token.isWord text = false) : Surroundings where
  size := 0
  reports := []
  behind := '\n' :: more
  startsLine := fun c hc => (Option.some.inj hc).symm
  noBranch := fun offset text htext => by
    rw [Cursor.lookahead_eq]
    change (Cursor.lookahead .command true ⟨more, offset + 1⟩).token.isWord text = false
    rw [Cursor.isWord_lookahead_offset]
    exact h text htext

/-! ## A branch is no statement -/

theorem ensures_skipSeparators_branch {text : String} {s : State}
    (h : (s.cursor.lookahead .command true).token.isWord text = true) :
    Ensures D skipSeparators ctx s fun _ s' => (s'.next .command ctx).isWord text = true := by
  refine ensures_loop_stop
    (I := fun _ s1 => (s1.cursor.lookahead .command true).token.isWord text = true)
    (Q := fun _ s1 => (s1.next .command ctx).isWord text = true) h fun _ s1 hs1 => ?_
  have hs1 : (if (s1.next .command ctx).kind = .newline
      then ((s1.ahead .command ctx).after.lookahead .command true).token
      else s1.next .command ctx).isWord text = true := by
    rw [Cursor.lookahead_overLines] at hs1
    exact hs1
  refine Scan.ensures_peekKind (ensures_ite (fun hskips => ?_) fun hskips =>
    ensures_pure.2 fun _ => ?_)
  · have hline : (s1.next .command ctx).kind = .newline := by
      refine Decidable.byContradiction fun hline => ?_
      rw [if_neg hline] at hs1
      have hword := beq_iff_eq.1 (Bool.and_eq_true_iff.1 hs1).1
      rw [hword] at hskips
      cases hskips
    rw [if_pos hline] at hs1
    have hm : Moving (advance .command) := inferInstance
    refine ensures_bind fun token s2 htoken _ => ensures_pure.2 fun _ => ⟨?_, ?_⟩
    · change (s2.cursor.lookahead .command true).token.isWord text = true
      rw [(next_of_advance htoken).2]
      exact hs1
    · exact (hm.of_yields htoken).length_lt
        (Scan.gains_advance (by simp [hline]) token s2 htoken trivial)
  · have hline : (s1.next .command ctx).kind ≠ .newline := fun hline => hskips (by rw [hline]; rfl)
    rw [if_neg hline] at hs1
    exact hs1

namespace Grammar

variable {g : Grammar} [g.Stepwise]

/-- A statement does not begin with a branch. -/
theorem ensures_terminatedStatement_branch {text : String} (htext : text = "elif" ∨ text = "else")
    {s : State} (h : (s.next .command ctx).isWord text = true) :
    Ensures D g.terminatedStatement ctx s fun _ _ => False := by
  have hword := beq_iff_eq.1 (Bool.and_eq_true_iff.1 h).1
  have htoken : (s.next .command ctx).text = text := beq_iff_eq.1 (Bool.and_eq_true_iff.1 h).2
  have hstatement : Ensures D g.statement ctx s fun _ _ => False := by
    refine ensures_nested fun _ => ensures_seq (P := fun _ _ => False)
      (ensures_peek (ensures_ite (fun _ => ?_) fun hnot => absurd hword hnot)) fun _ _ h => h.elim
    change Ensures D (g.wordStatement (s.next .command ctx)) _ s _
    unfold wordStatement
    rw [htoken]
    rcases htext with rfl | rfl <;> exact ensures_throw
  exact ensures_seq hstatement fun _ _ h => h.elim

/-- The list at the top, as rounds that give a statement each. -/
theorem yields_statementList_iff {ts : List Statement} {s s' : State} :
    Yields (g.statementList none) ctx s ts s' ↔
      ∃ n, LoopRuns (collectRound (g.listedStatement none)) ctx n #[] s (.ok ts.toArray, s') := by
  have hends : Progresses (collectRound (g.listedStatement none)) ctx :=
    (ScanLoop.statements none).progresses
  have hlist : Yields (g.statementList none) ctx s ts s' ↔
      Yields (collect (g.listedStatement none)) ctx s ts s' := Iff.rfl
  rw [hlist]
  rcases hends.ends #[] s with ⟨n, -, hruns⟩
  constructor
  · intro hts
    rcases yields_bind.1 hts with ⟨us, s1, hloop, hus⟩
    rcases yields_pure.1 hus with ⟨rfl, rfl⟩
    exact ⟨n, by rwa [show outcome _ ctx s = _ from hloop] at hruns⟩
  · rintro ⟨k, hts⟩
    exact yields_bind.2 ⟨_, _, (hruns.unique hts).2, rfl⟩

/-- A program without errors does not begin with a branch. -/
theorem isWord_of_yields {ts : List Statement} {s s' : State} (hq : Quiet ctx.limits D)
    (hx : Yields (g.statementList none) ctx s ts s') (hD : s'.diagnostics <+: D) {text : String}
    (htext : text = "elif" ∨ text = "else") :
    (s.cursor.lookahead .command true).token.isWord text = false := by
  refine Bool.eq_false_iff.2 fun hbranch => ?_
  have hitem : Ensures D (g.listedStatement none) ctx s fun _ _ => False := by
    intro o s1 ho hD1
    rcases ensures_listedStatement hq o s1 ho hD1 with ⟨s2, hskip, ⟨rfl, rfl⟩ | ⟨t, -, ht, -⟩⟩
    · have hword := ensures_skipSeparators_branch (D := s1.diagnostics) hbranch () s1 hskip
        List.prefix_rfl
      have hkind := beq_iff_eq.1 (Bool.and_eq_true_iff.1 hword).1
      have hlast := (next_of_listedStatement_none ho).resolve_right (by simp)
      rw [hlast] at hkind
      cases hkind
    · have hword := ensures_skipSeparators_branch (D := s2.diagnostics) hbranch () s2 hskip
        List.prefix_rfl
      exact ensures_terminatedStatement_branch htext hword t s1 ht hD1
  have hround : Ensures D (collectRound (g.listedStatement none) #[]) ctx s fun _ _ => False := by
    intro r s2 hr hD2
    rcases yields_collectRound hr with ⟨t, ht, -⟩ | ⟨ht, -⟩
    · exact hitem _ s2 ht hD2
    · exact hitem _ s2 ht hD2
  rcases yields_statementList_iff.1 hx with ⟨n, hruns⟩
  cases hruns with
  | stop hstep => exact hround _ _ hstep hD
  | again hstep hrest =>
      exact hround _ _ hstep ((hrest.kept fun _ => inferInstance).trans hD)

/-! ## One list behind the other -/

variable {w : Surroundings} {h : Grammar} [h.Stepwise] {more : List Char}

/-- The statements of a text, and then those of the lines behind it. -/
theorem yields_statementList_line (hg : Carries w D g h) (hw : Fits w ctx.limits D)
    (hbehind : w.behind = '\n' :: more) (hctx : ctx.inBrackets = false) {ts us : List Statement}
    {s s' t : State} (hts : Yields (g.statementList none) ctx s ts s') (hD : s'.diagnostics <+: D)
    (hclear : s'.Clear .command ctx)
    (hus : Yields (h.statementList none) ctx (s'.nextLine w more) us t) :
    Yields (h.statementList none) ctx (s.within w) (shift w.size ts ++ us) t := by
  rcases yields_statementList_iff.1 hts with ⟨n, hruns⟩
  rcases yields_statementList_iff.1 hus with ⟨k, hruns'⟩
  have hends : Progresses (collectRound (h.listedStatement none)) ctx :=
    (ScanLoop.statements none).progresses
  have hline := (outcome_loop_line hg hw hbehind hctx hruns hD hclear).2
  have hmore := hruns'.append (shift w.size ts.toArray)
  rcases hends.ends (shift w.size ts.toArray) (s'.nextLine w more) with ⟨i, -, hruns⟩
  rw [Array.append_empty] at hmore
  rw [(hruns.unique hmore).2, shift_empty] at hline
  have hlist : Yields (collect (h.listedStatement none)) ctx (s.within w)
      (shift w.size ts.toArray ++ us.toArray).toList t := yields_bind.2 ⟨_, _, hline, rfl⟩
  rw [Array.toList_append, shift_toList] at hlist
  exact hlist

/-- A program without errors is a list of statements, and then the end of input comes next. -/
theorem ensures_program {s : State} (hq : Quiet ctx.limits D) :
    Ensures D g.program ctx s fun ts s' => ∃ s1, Yields (g.statementList none) ctx s ts s1 ∧
      s1.AtEnd ctx ∧ s'.diagnostics = s1.diagnostics := by
  refine ensures_bind fun ts s1 hts hD => ?_
  have hkind := ensures_statementList_end hq ts s1 hts hD
  refine ensures_seq (ensures_clear hq) fun token s2 h => ensures_pure.2 fun _ => ?_
  have hs2 := h.2.2
  subst hs2
  exact ⟨s1, hts, ⟨hkind, h.1⟩, rfl⟩

omit [g.Stepwise] in
theorem yields_program {ts : List Statement} {s s' : State}
    (hts : Yields (g.statementList none) ctx s ts s') (hclear : s'.Clear .command ctx) :
    Yields g.program ctx s ts ⟨(s'.ahead .command ctx).after, s'.diagnostics⟩ := by
  exact yields_bind.2 ⟨ts, s', hts, yields_bind.2 ⟨_, _, hclear.yields_advance, rfl⟩⟩

/-- A longer source is given more turns. -/
theorem carries_forState {s t : State} (hle : s.cursor.rest.length ≤ t.cursor.rest.length) :
    Carries w D (forState s) (forState t) :=
  carries_turns (by unfold enoughTurns; omega)

end Grammar

/-! ## Programs -/

/-- The statements of a list, and then those of another. -/
def Tree.append {c : Category} : Tree (.many c) → Tree (.many c) → Tree (.many c)
  | nil, us => us
  | cons t ts, us => cons t (ts.append us)

theorem Tree.ofList_append {c : Category} (ts us : List (Tree c)) :
    ofList (ts ++ us) = (ofList ts).append (ofList us) := by
  induction ts with
  | nil => rw [List.nil_append, ofList, append]
  | cons t ts ih => rw [List.cons_append, ofList, ofList, append, ih]

theorem yields_readProgram {limits : Limits} {s s' : State} {ts : List Statement}
    (h : readProgram limits s = (ts, s')) :
    Yields (Grammar.forState s).program { limits } s ts s' := by
  change (Except.ok (readProgram limits s).1, (readProgram limits s).2) = _
  rw [h]

/-- The start of the line behind a text is the start of that line with the text in front. -/
theorem State.nextLine_line {s : State} (b : String) (h : ∀ text, text = "elif" ∨ text = "else" →
    (Cursor.lookahead .command true ⟨b.toList, 0⟩).token.isWord text = false) :
    s.nextLine (.line b.toList h) b.toList =
      (State.ofSource b).within (.front (s.cursor.stop + 1) s.diagnostics) := by
  change (⟨⟨b.toList, s.cursor.stop + 0 + 1⟩, [] ++ s.diagnostics.map (Diagnostic.shift 0)⟩ : State)
    = ⟨⟨b.toList ++ [], 0 + (s.cursor.stop + 1)⟩, s.diagnostics ++ []⟩
  simp

/-- The program of a text and of the lines behind it, where there are no errors. -/
theorem readProgram_line (limits : Limits) (a b c : String)
    (ha : Quiet limits (readProgram limits (.ofSource a)).2.diagnostics)
    (hb : Quiet limits (readProgram limits (.ofSource b)).2.diagnostics)
    (hroom : (readProgram limits (.ofSource a)).2.diagnostics.length
      + (readProgram limits (.ofSource b)).2.diagnostics.length ≤ limits.diagnostics)
    (hc : c.toList = a.toList ++ '\n' :: b.toList) :
    (readProgram limits (.ofSource c)).1 = (readProgram limits (.ofSource a)).1
        ++ (readProgram limits (.ofSource b)).1.map (Tree.shift (a.utf8ByteSize + 1)) ∧
      (readProgram limits (.ofSource c)).2.diagnostics
        = (readProgram limits (.ofSource a)).2.diagnostics
          ++ (readProgram limits (.ofSource b)).2.diagnostics.map
            (Diagnostic.shift (a.utf8ByteSize + 1)) := by
  rcases hreada : readProgram limits (.ofSource a) with ⟨ts, s⟩
  rcases hreadb : readProgram limits (.ofSource b) with ⟨us, t⟩
  rw [hreada] at ha hroom
  rw [hreadb] at hb hroom
  have hts : Yields (Grammar.forState (.ofSource a)).program { limits } (.ofSource a) ts s :=
    yields_readProgram hreada
  have hus : Yields (Grammar.forState (.ofSource b)).program { limits } (.ofSource b) us t :=
    yields_readProgram hreadb
  rcases Grammar.ensures_program ha ts s hts List.prefix_rfl with ⟨s1, hts, hend, hs⟩
  rcases Grammar.ensures_program hb us t hus List.prefix_rfl with ⟨t1, hus, hend', ht⟩
  dsimp only at ha hb hroom ⊢
  rw [hs] at ha hroom ⊢
  rw [ht] at hb hroom ⊢
  have hbranch : ∀ text, text = "elif" ∨ text = "else" →
      (Cursor.lookahead .command true ⟨b.toList, 0⟩).token.isWord text = false :=
    fun text htext => Grammar.isWord_of_yields hb hus List.prefix_rfl htext
  have hlength : c.toList.length = a.toList.length + (b.toList.length + 1) := by
    rw [hc, List.length_append, List.length_cons]
  have hcarries : Grammar.Carries (.line b.toList hbranch) s1.diagnostics
      (Grammar.forState (.ofSource a)) (Grammar.forState (.ofSource c)) :=
    Grammar.carries_forState (Nat.le.intro hlength.symm)
  have hcarries' : Grammar.Carries (.front (a.utf8ByteSize + 1) s1.diagnostics) t1.diagnostics
      (Grammar.forState (.ofSource b)) (Grammar.forState (.ofSource c)) :=
    Grammar.carries_forState (by change b.toList.length ≤ c.toList.length; omega)
  have hplace : (State.ofSource a).within (.line b.toList hbranch) = .ofSource c := by
    change (⟨⟨a.toList ++ '\n' :: b.toList, 0⟩, []⟩ : State) = ⟨⟨c.toList, 0⟩, []⟩
    rw [hc]
  have hstop : s1.cursor.stop = a.utf8ByteSize := by
    have hm : Moving ((Grammar.forState (.ofSource a)).statementList none) := inferInstance
    rw [(hm.of_yields hts).stop_eq, utf8ByteSize_eq]
    exact Nat.zero_add _
  have hfits : Fits (.line b.toList hbranch) limits s1.diagnostics :=
    ⟨ha, by change 0 + _ ≤ _; omega⟩
  have hfits' : Fits (.front (a.utf8ByteSize + 1) s1.diagnostics) limits t1.diagnostics :=
    ⟨hb, hroom⟩
  have hstays : t1.Stays (.front (a.utf8ByteSize + 1) s1.diagnostics) .command { limits } :=
    ⟨fun _ => rfl, hend'.clear⟩
  have hlines : Yields ((Grammar.forState (.ofSource c)).statementList none) { limits }
      (s1.nextLine (.line b.toList hbranch) b.toList) (us.map (Tree.shift (a.utf8ByteSize + 1)))
        (t1.within (.front (a.utf8ByteSize + 1) s1.diagnostics)) := by
    rw [State.nextLine_line, hstop]
    exact (Grammar.carries_statementList hcarries' none _ rfl hfits' us t1 hus List.prefix_rfl
      hstays).2
  have hlist := Grammar.yields_statementList_line hcarries hfits rfl rfl hts List.prefix_rfl
    hend.clear hlines
  rw [hplace] at hlist
  have hprogram := Grammar.yields_program hlist hstays.clear_within
  have hreadc : (readProgram limits (.ofSource c)).1 = ts.map (Tree.shift 0)
      ++ us.map (Tree.shift (a.utf8ByteSize + 1)) := Except.ok.inj (congrArg Prod.fst hprogram)
  have hleftc : (readProgram limits (.ofSource c)).2.diagnostics = s1.diagnostics
      ++ t1.diagnostics.map (Diagnostic.shift (a.utf8ByteSize + 1)) :=
    congrArg (·.2.diagnostics) hprogram
  refine ⟨?_, hleftc⟩
  rw [hreadc, Tree.map_shift_zero]

/-- Parsing goes line by line. Take two sources that are parsed without an error, and put one
    behind the other, with a newline between them: the program is made of the statements of
    the first and then those of the second, further on, and so is what there is to say about
    it. There must be room for the diagnostics of each, and of both. -/
theorem parse_append_line (limits : Limits) (a b : String)
    (ha : (parse limits a).hasErrors = false) (hb : (parse limits b).hasErrors = false)
    (hrooma : (parse limits a).diagnostics.length < limits.diagnostics)
    (hroomb : (parse limits b).diagnostics.length < limits.diagnostics)
    (hroom : (parse limits a).diagnostics.length + (parse limits b).diagnostics.length
      ≤ limits.diagnostics)
    (hsize : (a ++ "\n" ++ b).utf8ByteSize ≤ limits.inputSize) :
    (parse limits (a ++ "\n" ++ b)).program.statements =
        (parse limits a).program.statements.append
          ((parse limits b).program.statements.shift (a.utf8ByteSize + 1)) ∧
      (parse limits (a ++ "\n" ++ b)).diagnostics = (parse limits a).diagnostics
        ++ (parse limits b).diagnostics.map (Diagnostic.shift (a.utf8ByteSize + 1)) := by
  have hfinish : parse limits (a ++ "\n" ++ b) =
      finish limits (a ++ "\n" ++ b) (.ofSource (a ++ "\n" ++ b)) := by
    rw [parse, if_neg (by omega)]
  have hfinisha := parse_eq_finish_of_hasErrors ha
  have hfinishb := parse_eq_finish_of_hasErrors hb
  rw [hfinisha] at ha hrooma hroom ⊢
  rw [hfinishb] at hb hroomb hroom ⊢
  rw [hfinish]
  have hlist : (a ++ "\n" ++ b).toList = a.toList ++ '\n' :: b.toList := by simp
  rcases readProgram_line limits a b _ ⟨hrooma, hasErrors_eq_false.1 ha⟩
    ⟨hroomb, hasErrors_eq_false.1 hb⟩ hroom hlist with ⟨hstatements, hdiagnostics⟩
  refine ⟨?_, hdiagnostics⟩
  change Tree.ofList (readProgram limits (.ofSource (a ++ "\n" ++ b))).1 =
    (Tree.ofList (readProgram limits (.ofSource a)).1).append
      ((Tree.ofList (readProgram limits (.ofSource b)).1).shift (a.utf8ByteSize + 1))
  rw [hstatements, Tree.ofList_append, Tree.ofList_shift]

/-- The comment ends with its line, and the line behind it begins with separators. The
    notice about the second call stands where that call is. -/
theorem append_line_of_comment :
    (parse {} "f(1) # one").hasErrors = false ∧ (parse {} "\n; g(2)").hasErrors = false ∧
      (parse {} "f(1) # one").diagnostics.length < ({} : Limits).diagnostics ∧
      (parse {} "\n; g(2)").diagnostics.length < ({} : Limits).diagnostics ∧
      (parse {} "f(1) # one\n\n; g(2)").program.statements =
        (parse {} "f(1) # one").program.statements.append
          ((parse {} "\n; g(2)").program.statements.shift 11) ∧
      (parse {} "f(1) # one\n\n; g(2)").diagnostics =
        [.notice (.ambiguousCallArguments ⟨1, 2, by decide⟩),
          .notice (.ambiguousCallArguments ⟨15, 16, by decide⟩)] := by
  have ha : (parse {} "f(1) # one").hasErrors = false := by decide +kernel
  have hb : (parse {} "\n; g(2)").hasErrors = false := by decide +kernel
  have hfirst : (parse {} "f(1) # one").diagnostics =
      [.notice (.ambiguousCallArguments ⟨1, 2, by decide⟩)] := by decide +kernel
  have hsecond : (parse {} "\n; g(2)").diagnostics =
      [.notice (.ambiguousCallArguments ⟨4, 5, by decide⟩)] := by decide +kernel
  have hrooma : (parse {} "f(1) # one").diagnostics.length < ({} : Limits).diagnostics := by
    rw [hfirst]
    decide
  have hroomb : (parse {} "\n; g(2)").diagnostics.length < ({} : Limits).diagnostics := by
    rw [hsecond]
    decide
  have hlines := parse_append_line {} "f(1) # one" "\n; g(2)" ha hb hrooma hroomb
    (by rw [hfirst, hsecond]; decide) (by decide)
  have hsource : "f(1) # one" ++ "\n" ++ "\n; g(2)" = "f(1) # one\n\n; g(2)" := by decide
  have hfront : "f(1) # one".utf8ByteSize = 10 := by decide
  rw [hfirst, hsecond, hsource, hfront] at hlines
  exact ⟨ha, hb, hrooma, hroomb, hlines⟩

end Ysh
