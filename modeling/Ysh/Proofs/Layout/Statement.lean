import Ysh.Program
import Ysh.Proofs.Layout.Begins
import Ysh.Proofs.Layout.Compound

/-!
# Layout of Statements and Programs

A list of statements never fails, so its layout is that of every parse: what stands
in place of a statement that cannot be read is laid like any other. That node starts
with the first token of the statement and ends where recovery does. The two are in
order because recovery passes that token, unless it is a closing brace or parenthesis,
and no statement starts with one of these.

## Theorems

* `Grammar.places_caseStatement`, `Grammar.places_statement`.
* `Grammar.lands_statementOrError`: What stands for a statement is laid in any case.
* `Grammar.placing_turns`: Every turn of the grammar lays what it reads.
* `parse_spans_nest`: The spans of a program nest, and those of diagnostics fit.
-/

namespace Ysh

namespace Grammar

variable {source : String} {g : Grammar}

section

variable (hg : g.Placing source)
include hg

/-! ## Case -/

theorem lands_furtherGlob (ctx : Context) (s : State) :
    Lands source g.furtherGlob ctx s (LaidAny source s.cursor.offset s) := by
  refine lands_of_sound fun hs => lands_peekKind (lands_ite (fun _ => ?_)
    fun _ => lands_pure fun _ => rfl)
  refine lands_next fun s1 _ hgives => ?_
  refine lands_bind ((places_word hg).behind ctx s1) fun w s2 _ _ hw => lands_pure fun _ => ?_
  exact hw.after hgives.offset_le hs.boundary

theorem places_globPattern : Places source .command g.globPattern := by
  intro ctx s
  refine lands_bind (places_word hg ctx s) fun first s1 _ _ hfirst => ?_
  refine lands_bind (lands_collectBehind ctx s1 (lands_furtherGlob hg ctx)) fun others s2 _ _ h =>
    lands_pure fun _ => ?_
  have hglobs := LaidEach.cons hfirst h
  refine .ofCover hglobs.tiles_children rfl ?_ rfl rfl hglobs.ofList_neat
  -- The pattern covers up to its last glob, which is the first where there is one only.
  change (Tree.ofList (first :: others)).children.getLast? = _
  rw [Tree.children_ofList, List.getLast?_map, List.getLast?_cons, ← List.getLastD_eq_getLast?]
  rfl

theorem places_parenthesizedPattern : Places source .command g.parenthesizedPattern := by
  intro ctx s
  refine lands_next fun s1 hs1 hgives => lands_peek (lands_ite (fun _ => ?_) fun _ => ?_)
  · refine lands_next fun s2 hs2 helse => ?_
    refine lands_expectClosing hgives.lies.fits fun s3 hs3 hclosing => lands_pure fun _ => ?_
    have hinside := (hgives.gap.upTo helse.offset_le hs2.boundary).upTo hclosing.offset_le
      hs3.boundary
    rw [hclosing.stop]
    exact .leaf hinside.enclose rfl rfl
  · refine lands_bind (lands_enclosed hg hgives.lies.fits ctx s1) fun e s2 _ _ he =>
      lands_pure fun _ => ?_
    have hinside := he.after (Nat.le_trans (s.next .command ctx).span.start_le_stop
      (Nat.le_of_eq hgives.stop)) hgives.lies.fits.1
    exact .wrap hinside rfl rfl rfl

theorem places_casePattern : Places source .command g.casePattern := by
  intro ctx s
  refine lands_peek (lands_ite (fun _ => places_parenthesizedPattern hg ctx s) fun _ =>
    lands_ite (fun _ => ?_) fun _ => lands_ite (fun _ => places_globPattern hg ctx s)
      fun _ => lands_unexpected)
  refine lands_next fun s1 _ hgives => ?_
  refine lands_bind (lands_lift (lands_eggexBody hgives.lies.fits ctx s1 (Nat.le_of_eq hgives.stop)))
    fun e s2 _ _ he => lands_pure fun _ => ?_
  exact .name he rfl rfl rfl

theorem places_caseArm : Places source .command g.caseArm := by
  intro ctx s
  refine lands_peek (lands_bind (places_casePattern hg ctx s) fun pattern s1 _ _ hpattern => ?_)
  refine lands_bind ((places_block hg).behind ctx s1) fun body s2 _ _ hbody => lands_pure fun _ => ?_
  exact .untilLast (hpattern.tiles.append hbody.tiles) rfl rfl rfl
    (List.forall_mem_append.2 ⟨hpattern.neat, hbody.neat⟩)

theorem lands_skipArm (ctx : Context) (s : State) :
    Lands source g.skipArm ctx s fun _ _ => True := by
  refine lands_bind (lands_loop (I := fun _ _ => True) trivial fun depth s1 _ => ?_)
    fun _ s1 _ _ _ => lands_pure fun _ => trivial
  refine Scan.lands_peek ?_
  split
  · exact lands_pure fun _ => trivial
  · exact lands_pure fun _ => trivial
  · exact Scan.lands_next fun s2 _ _ => lands_pure fun _ => trivial
  · exact Scan.lands_next fun s2 _ _ => lands_pure fun _ => trivial
  · refine Scan.lands_next fun s2 _ hgives => ?_
    refine lands_bind (lands_stringBody hg ctx s2 hgives.lies.fits (Nat.le_of_eq hgives.stop))
      fun _ s3 _ _ _ => lands_pure fun _ => trivial
  · exact Scan.lands_next fun s2 _ _ => lands_pure fun _ => trivial

/-- An arm that cannot be read leaves nothing in the list of arms. -/
theorem lands_armOrNone (ctx : Context) (s : State) :
    Lands source g.armOrNone ctx s fun o s' =>
      LaidEach source s.cursor.offset o.toList s'.cursor.offset := by
  refine lands_of_sound fun hs => ?_
  refine lands_bind (lands_attempt ((places_caseArm hg).behind ctx s)) fun r s1 _ hle1 hr => ?_
  cases r with
  | ok arm => exact lands_pure fun _ => hr
  | error e =>
      refine lands_bind (lands_report fun _ => hr) fun _ s2 _ hle2 _ => ?_
      refine lands_bind (lands_skipArm hg ctx s2) fun _ s3 hs3 hle3 _ => lands_pure fun _ => ?_
      exact .nil (Nat.le_trans hle1 (Nat.le_trans hle2 hle3)) hs.boundary hs3.boundary

theorem lands_caseArms (ctx : Context) (s : State) :
    Lands source g.caseArms ctx s fun arms s' =>
      LaidEach source s.cursor.offset arms s'.cursor.offset := by
  refine lands_of_sound fun hs => ?_
  refine lands_bind (lands_loop (I := fun (arms : Array Arm) s' =>
    LaidEach source s.cursor.offset arms.toList s'.cursor.offset)
    (.nil (Nat.le_refl _) hs.boundary hs.boundary) fun arms s1 h => ?_)
    fun arms s1 _ _ h => lands_pure fun _ => h
  refine lands_bind (lands_skipWhile ctx s1) fun _ s2 hs2 hle _ => Scan.lands_peekKind ?_
  have h := h.upTo hle hs2.boundary
  refine lands_ite (fun _ => lands_pure fun _ => h) fun _ => ?_
  refine lands_bind (lands_armOrNone hg ctx s2) fun o s3 _ _ ho => lands_pure fun _ => ?_
  change LaidEach source _ (arms ++ o.toList).toList _
  rw [Array.toList_appendList]
  exact h.append ho

theorem places_caseStatement : Places source .command g.caseStatement := by
  intro ctx s
  refine lands_next fun s1 _ hgives => ?_
  refine lands_bind ((places_parenthesized hg).behind ctx s1) fun subject s2 _ _ hsubject => ?_
  refine lands_expectAs fun s3 hs3 hbrace => ?_
  refine lands_bind (lands_nested (lands_lift (lands_caseArms hg _ s3))) fun arms s4 _ _ harms => ?_
  refine lands_bind (lands_lift (lands_closingBraceStop hbrace.lies.fits ctx s4))
    fun stop s5 hs5 hle hstop => lands_pure fun _ => ?_
  subst hstop
  have hinside := (hsubject.upTo hbrace.offset_le hs3.boundary).tiles.append
    (harms.upTo hle hs5.boundary).tiles_children
  exact .enclose (hgives.starts hinside) rfl rfl
    (List.forall_mem_append.2 ⟨hsubject.neat, harms.ofList_neat⟩)

/-! ## Statements -/

theorem places_commandStatement : Places source .command g.commandStatement := by
  intro ctx s
  exact lands_map ((places_commandCall hg true ctx s).mono fun call s1 _ _ h => .wrap h rfl rfl rfl)

theorem lands_wordStatement {token : Token} (htoken : token.Lies source) (ctx : Context)
    (s : State) : Lands source (g.wordStatement token) ctx s fun t s' =>
      Laid source (s.front .command ctx) t s'.cursor.offset := by
  have hreserved : s.Sound source → (SyntaxError.reservedWord token.text token.span).span.Fits source :=
    fun _ => htoken.fits
  unfold wordStatement
  split
  · exact places_variableDeclaration hg ctx s
  · exact places_assignment hg .nearest ctx s
  · exact places_assignment hg .global ctx s
  · exact places_constantDeclaration hg ctx s
  · exact places_funcDefinition hg ctx s
  · exact places_procDefinition hg ctx s
  · exact places_forLoop hg ctx s
  · exact places_whileLoop hg ctx s
  · exact places_conditional hg ctx s
  · exact places_caseStatement hg ctx s
  · exact lands_throw hreserved
  · exact lands_throw hreserved
  · exact lands_throw hreserved
  · refine lands_read (lands_ite (fun _ => places_returnStatement hg ctx s) fun _ =>
      lands_ite (fun _ => ?_) fun _ => places_commandStatement hg ctx s)
    -- Looking for an equals sign leaves the state as it is.
    refine lands_bind (P := fun _ s1 => s1 = s) (x := (liftM startsShorthand : Parse Bool))
      (fun hs => ⟨hs, Nat.le_refl _, rfl⟩) fun found s1 _ _ hs1 => ?_
    subst hs1
    exact lands_ite (fun _ => places_shorthandConstant hg ctx s1)
      fun _ => places_commandStatement hg ctx s1

theorem places_pipelineElement : Places source .command g.pipelineElement := by
  intro ctx s
  refine lands_of_sound fun hs => lands_peek ?_
  exact lands_ite (fun _ => lands_wordStatement hg (hs.next .command ctx) ctx s)
    fun _ => places_commandStatement hg ctx s

/-- What is piped into joins what is in front of the pipe. -/
theorem lands_pipeRound {a : Nat} (left : Statement) (ctx : Context) (s : State)
    (h : Laid source a left s.cursor.offset) :
    Lands source (g.pipeRound left) ctx s fun r s' => Laid source a r.value s'.cursor.offset := by
  refine lands_peekKind (lands_ite (fun _ => ?_) fun _ => lands_pure fun _ => h)
  refine lands_next fun s1 _ hgives => ?_
  refine lands_bind (lands_lift (lands_skipWhile ctx s1)) fun _ s2 hs2 hle _ => ?_
  refine lands_bind ((places_pipelineElement hg).behind ctx s2) fun right s3 _ _ hright =>
    lands_pure fun _ => ?_
  have hleft := h.upTo (Nat.le_trans hgives.offset_le hle) hs2.boundary
  exact .ofCover (hleft.tiles.append hright.tiles) rfl rfl rfl rfl
    (List.forall_mem_append.2 ⟨hleft.neat, hright.neat⟩)

theorem places_statement : Places source .command g.statement := by
  intro ctx s
  refine lands_nested ?_
  refine lands_bind (places_pipelineElement hg _ s) fun first s1 _ _ hfirst => ?_
  exact lands_loop (I := fun left s' => Laid source (s.front .command ctx) left s'.cursor.offset)
    hfirst fun left s2 h => lands_pipeRound hg left _ s2 h

theorem places_terminatedStatement : Places source .command g.terminatedStatement := by
  intro ctx s
  refine lands_bind (places_statement hg ctx s) fun t s1 hs1 _ h => lands_peek ?_
  refine lands_ite (fun _ => ?_) fun _ => lands_ite (fun _ => lands_pure fun _ => h) fun _ => ?_
  · exact lands_next fun s2 hs2 hgives => lands_pure fun _ => h.upTo hgives.offset_le hs2.boundary
  · exact lands_throw fun _ => (hs1.next .command ctx).fits

/-! ## Recovery -/

theorem lands_skipStatement (ctx : Context) (s : State) :
    Lands source g.skipStatement ctx s fun _ _ => True := by
  have hloop : Lands source (loop (g.skipStatementRound ctx.closers) 0) ctx s fun _ _ => True := by
    refine lands_loop (I := fun _ _ => True) trivial fun depth s1 _ => ?_
    refine Scan.lands_peek (lands_ite (fun _ => lands_pure fun _ => trivial) fun _ => ?_)
    refine Scan.lands_next fun s2 _ hgives => ?_
    split
    all_goals
      first
        | exact lands_pure fun _ => trivial
        | refine lands_bind (lands_stringBody hg ctx s2 hgives.lies.fits
            (Nat.le_of_eq hgives.stop)) fun _ s3 _ _ _ => lands_pure fun _ => trivial
  exact hloop

/-- Recovery stops at a place it has passed. -/
theorem lands_recover (ctx : Context) (s : State) :
    Lands source g.recover ctx s fun stop s' => Boundary source stop ∧ stop ≤ s'.cursor.offset := by
  refine lands_bind (lands_skipStatement hg ctx s) fun _ s1 hs1 _ _ => ?_
  refine Scan.lands_position (Scan.lands_peekKind (lands_ite (fun _ => ?_) fun _ => ?_))
  · exact Scan.lands_next fun s2 _ hgives => lands_pure fun _ => ⟨hs1.boundary, hgives.offset_le⟩
  · exact lands_pure fun _ => ⟨hs1.boundary, Nat.le_refl _⟩

omit hg in
theorem lands_strayCloser (ctx : Context) (s : State) :
    Lands source strayCloser ctx s fun t s' =>
      Laid source s.cursor.offset t s'.cursor.offset := by
  refine lands_of_sound fun hs => Scan.lands_next fun s1 hs1 hgives => ?_
  refine lands_bind (lands_report fun _ => hgives.lies.fits) fun _ s2 _ _ hs2 => lands_pure fun _ => ?_
  rw [hs2]
  exact .leaf (hgives.tiles.after hgives.start hs.boundary) rfl rfl

/-! ## Lists of statements -/

omit hg in
/-- What is known of where a reader gets to. -/
theorem lands_also {α : Type} {x : Scan α} {ctx : Context} {s : State} {Q : α → State → Prop}
    {P : State → Prop} (h : Lands source x ctx s Q) (hP : P (outcome x ctx s).2) :
    Lands source x ctx s fun a s' => Q a s' ∧ P s' :=
  fun hs => ⟨(h hs).1, (h hs).2.1, (h hs).2.2, hP⟩

/-- What stands for a statement is laid in any case, unless its first token would end
    the list. -/
theorem lands_statementOrError [g.Stepwise] (ctx : Context) (s : State)
    (hend : (s.next .command ctx).kind ≠ .endOfInput)
    (hclosing : ¬((s.next .command ctx).kind = .rightBrace ∨
      (s.next .command ctx).kind = .rightParen)) :
    Lands source g.statementOrError ctx s fun t s' =>
      Laid source s.cursor.offset t s'.cursor.offset := by
  refine lands_of_sound fun hs => Scan.lands_peek ?_
  have hbegins : s.Passed (outcome (attempt g.terminatedStatement) ctx s).2 ∨
      ((outcome (attempt g.terminatedStatement) ctx s).2.cursor = s.cursor ∧ True) :=
    begins_attempt begins_terminatedStatement ctx s
  refine lands_bind (lands_also (P := fun s1 => s.Passed s1 ∨ (s1.cursor = s.cursor ∧ True))
    (lands_attempt (places_terminatedStatement hg ctx s)) hbegins) fun r s1 _ _ ⟨hr, hs1⟩ => ?_
  cases r with
  | ok t =>
      exact lands_pure fun _ => Laid.after hr (hs.offset_le_front .command ctx) hs.boundary
  | error e =>
      refine lands_bind (lands_report fun _ => hr) fun _ s2 _ _ hs2 => ?_
      have hrecover : s.Passed (outcome g.recover ctx s2).2 := by
        rcases hs1 with hpassed | ⟨hcursor, -⟩
        · have hpassed : s.Passed s2 := by
            unfold State.Passed at hpassed ⊢
            rwa [hs2]
          exact hpassed.moves (Moving.moves ctx s2)
        · -- Nothing of the statement was consumed, so recovery meets its first token.
          have hcursor := hs2.trans hcursor
          have hnext : s2.next .command ctx = s.next .command ctx := by
            rw [State.next_command, State.next_command, hcursor]
          have hpassed : s2.Passed (outcome g.recover ctx s2).2 :=
            passed_recover (hnext ▸ hend) (hnext ▸ hclosing)
          unfold State.Passed at hpassed ⊢
          rwa [hcursor] at hpassed
      refine lands_bind (lands_also (P := s.Passed) (lands_recover hg ctx s2) hrecover)
        fun stop s3 hs3 _ ⟨⟨hstop, hle⟩, hpassed⟩ => lands_pure fun _ => ?_
      have hfront : s.front .command ctx ≤ s3.cursor.offset :=
        Nat.le_trans (s.next .command ctx).span.start_le_stop hpassed
      have hmax : max stop (s.front .command ctx) ≤ s3.cursor.offset := Nat.max_le.2 ⟨hle, hfront⟩
      have hboundary : Boundary source (max stop (s.front .command ctx)) := by
        rcases Nat.le_total stop (s.front .command ctx) with h | h
        · rw [Nat.max_eq_right h]
          exact hs.boundary_front .command ctx
        · rwa [Nat.max_eq_left h]
      have hgap : Tiles source (s.front .command ctx) [] (max stop (s.front .command ctx)) :=
        .nil (Nat.le_max_right _ _) (hs.boundary_front .command ctx) hboundary
      have herror : Laid source (s.front .command ctx) (Tree.error e.message
          (.between (s.front .command ctx) (max stop (s.front .command ctx)))) _ :=
        .leaf hgap.enclose rfl rfl
      exact (herror.after (hs.offset_le_front .command ctx) hs.boundary).upTo hmax hs3.boundary

theorem lands_listedStatement [g.Stepwise] {closer : Option Token.Kind} (ctx : Context) (s : State) :
    Lands source (g.listedStatement closer) ctx s fun o s' =>
      LaidEach source s.cursor.offset o.toList s'.cursor.offset := by
  refine lands_of_sound fun hs => lands_bind (lands_skipWhile ctx s) fun _ s1 hs1 hle _ => ?_
  refine Scan.lands_peekKind (lands_ite (fun _ => lands_pure fun _ => .nil hle hs.boundary
    hs1.boundary) fun hend => lands_ite (fun _ => ?_) fun hclosing => ?_)
  · refine lands_bind (lands_strayCloser ctx s1) fun t s2 _ _ h => lands_pure fun _ => ?_
    exact h.after hle hs.boundary
  · exact lands_bind (lands_statementOrError hg ctx s1 (fun h => hend (.inl h)) hclosing)
      fun t s2 _ _ h => lands_pure fun _ => h.after hle hs.boundary

/-- The statements of a list are laid one behind the other. -/
theorem lands_statementList [g.Stepwise] (closer : Option Token.Kind) (ctx : Context) (s : State) :
    Lands source (g.statementList closer) ctx s fun ts s' =>
      LaidEach source s.cursor.offset ts s'.cursor.offset := by
  intro hs
  have hlist : Lands source (collect (g.listedStatement closer))
      { ctx with closers := closer.toList ++ ctx.closers } s fun ts s' =>
        LaidEach source s.cursor.offset ts s'.cursor.offset := by
    refine lands_collect (.nil (Nat.le_refl _) hs.boundary hs.boundary) fun ts s1 h => ?_
    exact (lands_listedStatement hg _ s1).mono fun o s2 _ _ ho => h.append ho
  exact hlist hs

theorem lands_program [g.Stepwise] (ctx : Context) (s : State) :
    Lands source g.program ctx s fun ts s' =>
      LaidEach source s.cursor.offset ts s'.cursor.offset := by
  refine lands_bind (lands_statementList hg none ctx s) fun ts s1 _ _ h => ?_
  exact Scan.lands_next fun s2 hs2 hgives => lands_pure fun _ => h.upTo hgives.offset_le hs2.boundary

end

/-! ## The circle -/

/-- Every turn of the grammar lays what it reads. -/
theorem placing_turns (source : String) (n : Nat) : (turns n).Placing source := by
  induction n with
  | zero =>
      exact
        { expression := fun ctx s => lands_peek (lands_throw fun hs => (hs.next .expression ctx).fits)
          statements := fun _ _ s => lands_pure fun hs => .nil (Nat.le_refl _) hs.boundary hs.boundary
          expansion := fun _ _ _ _ hlies _ => lands_throw fun _ => hlies.fits }
  | succ n ih =>
      exact
        { expression := places_expressionBody ih
          statements := lands_statementList ih
          expansion := fun opener token ctx s hlies hstop =>
            lands_expansionBody ih opener token ctx s hlies hstop }

end Grammar

/-! ## Programs -/

/-- A program lays its statements in its source. -/
theorem LaidEach.program {source : String} {ts : List Statement} {b : Nat} (h : LaidEach source 0 ts b)
    (hle : b ≤ source.utf8ByteSize) (diagnostics : List Diagnostic) :
    (Parsed.ofStatements source ts diagnostics).program.span.Holds source
      (Parsed.ofStatements source ts diagnostics).program.statements.children := by
  refine Tiles.holds ?_
  change Tiles source (min 0 source.utf8ByteSize) _ (max 0 source.utf8ByteSize)
  rw [Nat.min_eq_left (Nat.zero_le _), Nat.max_eq_right (Nat.zero_le _)]
  exact (h.upTo hle (boundary_size source)).tiles_children

theorem Boundary.le_size {source : String} {offset : Nat} (h : Boundary source offset) :
    offset ≤ source.utf8ByteSize := by
  rcases h with ⟨front, back, hsource, rfl⟩
  rw [utf8ByteSize_eq, hsource, byteLength_append]
  exact Nat.le_add_right _ _

/-- What is read of a whole source is laid in it, and what is reported fits it. -/
theorem finish_spans_nest (limits : Limits) (source : String) :
    (∀ d ∈ (finish limits source (.ofSource source)).diagnostics, d.span.Fits source) ∧
      ∃ ts diagnostics b, finish limits source (.ofSource source) =
        .ofStatements source ts diagnostics ∧ LaidEach source 0 ts b ∧ b ≤ source.utf8ByteSize := by
  have hlands := Grammar.lands_program (g := .forState (.ofSource source))
    (Grammar.placing_turns source _) { limits } (.ofSource source)
    (State.sound_ofSource source)
  rcases hlands with ⟨hsound, -, hlaid⟩
  exact ⟨hsound.diagnostics, _, _, _, rfl, hlaid, hsound.boundary.le_size⟩

/-- In every parse, the texts under the spans of all nodes and diagnostics can be cut
    out of the source. A node's children stand inside it, one behind the other. -/
theorem parse_spans_nest (limits : Limits) (source : String) :
    (∀ d ∈ (parse limits source).diagnostics, (d.span.text? source).isSome = true) ∧
      (parse limits source).program.span.Holds source
        (parse limits source).program.statements.children ∧
      ∀ node ∈ (parse limits source).program.nodes,
        node.tree.span.Holds source node.tree.children := by
  unfold parse
  dsimp only
  split
  · -- A source over the limit has no statements, and its error stands in front of it.
    have hnone : LaidEach source 0 ([] : List Statement) 0 :=
      .nil (Nat.le_refl 0) (boundary_zero source) (boundary_zero source)
    refine ⟨fun d hd => ?_, hnone.program (Nat.zero_le _) _, nofun⟩
    rw [List.mem_singleton.1 hd]
    exact Span.text?_isSome (boundary_zero source) (boundary_zero source)
  · rcases finish_spans_nest limits source with ⟨hdiagnostics, ts, diagnostics, b, hfinish, hlaid, hb⟩
    refine ⟨fun d hd => Span.text?_isSome (hdiagnostics d hd).1 (hdiagnostics d hd).2, ?_⟩
    rw [hfinish]
    exact ⟨hlaid.program hb _, fun node hnode => (hlaid.ofList_neat node hnode).holds⟩

end Ysh
