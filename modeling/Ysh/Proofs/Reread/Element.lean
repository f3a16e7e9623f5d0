import Ysh.Proofs.Reread.Call

/-!
# Reading Printed Pipelines

An element of a pipeline is printed with ` | ` behind it, if another one follows. Not
every element can stand in front of a pipe. One that ends with an expression cannot: the
expression would go on behind the pipe. So what may stand behind an element depends on
whether a pipe stood behind it in the source.

What an element is follows from its first word, and the first word is printed as it was.

## Main definitions

* `State.Pipes`: A pipe comes next in a source.
* `EndsElement`, `RereadsElement`, `RereadsPipeline`: What stands behind an element, and
  what it means for elements and pipelines to be read again.

## Theorems

* `rereadsElement_of_keyword`: A statement that starts with a keyword.
* `RereadsCall.element`: A call.
* `RereadsPipeline.statement`: A pipeline is read again as a statement.
* `Grammar.keeps_statement`: The statements of a source are read again, if its elements are.
-/

namespace Ysh

open Grammar

variable {d : Option Definition} {P : Prop}

/-! ## What stands behind an element -/

/-- A pipe comes next, with nothing wrong in front of it. -/
def State.Pipes (s : State) : Prop :=
  (s.cursor.lookahead .command false).errors = [] ∧
    (s.cursor.lookahead .command false).token.kind = .pipe

/-- A token with nothing wrong in front of it is the very next one. -/
theorem Cursor.nextToken_of_clear {mode : Mode} {c : Cursor}
    (h : (c.lookahead mode false).errors = []) :
    ∃ after, c.nextToken mode = (.ok (c.lookahead mode false).token, after) := by
  unfold lookahead lookaheadFrom at h ⊢
  generalize c.rest = clock at h ⊢
  rcases hnext : c.nextToken mode with ⟨error | token, after⟩
  · rw [hnext] at h
    cases clock <;> cases h
  · cases clock <;> exact ⟨after, rfl⟩

/-- A pipe is an operator where an expression stands. -/
theorem State.Pipes.binary? {ctx : Context} {s : State} (h : s.Pipes)
    (hout : ctx.inBrackets = false) :
    (s.next .expression ctx).kind.binary? = some .bitOr := by
  rcases Cursor.nextToken_of_clear h.1 with ⟨after, hnext⟩
  have hreads := Cursor.reads_of_nextToken hnext
  have hlexed := hreads.lexed
  rw [h.2] at hlexed
  have hfront := hreads.front
  rw [spelling_of_lexed hlexed rfl] at hfront
  have hlexeme : Lexeme.ofMode .expression s.cursor.skipExtras.rest = .token .pipe 1 := by
    rw [hfront]
    rfl
  have hlook : s.cursor.lookahead .expression false = ⟨_, [], _⟩ :=
    Cursor.lookaheadFrom_token (Cursor.nextToken_of_lexeme hlexeme) nofun
  unfold State.next
  rw [hout, Bool.and_false, hlook]
  rfl

/-- Behind an expression no pipe comes next. -/
theorem not_pipes {ctx : Context} {s : State} (hout : ctx.inBrackets = false)
    (h : (s.next .expression ctx).kind.binary? = none) : ¬ s.Pipes := by
  intro hpipes
  rw [hpipes.binary? hout] at h
  cases h

/-- What stands behind an element of a pipeline, where a pipe may stand if `P`. -/
def EndsElement (P : Prop) (rest : List Char) : Prop :=
  EndsStatement rest ∨ P ∧ ∃ r, rest = ' ' :: '|' :: ' ' :: r

/-- Where a statement ends there is no pipe. -/
theorem EndsStatement.notPipe {rest : List Char} (h : EndsStatement rest) :
    ∃ x kind r, Ahead .command rest x kind r ∧ kind ≠ .pipe := by
  rcases h with ⟨k, whole, rfl, -⟩ | ⟨r, rfl⟩ | ⟨r, rfl⟩
  · exact ⟨_, _, _, ahead_newline _, by decide⟩
  · exact ⟨_, _, _, ahead_semicolon r, by decide⟩
  · exact ⟨_, _, _, ahead_rightParen r, by decide⟩

theorem EndsElement.endsCall {rest : List Char} (h : EndsElement P rest) : EndsCall true rest := by
  rcases h with h | ⟨-, r, rfl⟩
  · exact h.endsCall
  · exact endsCall_pipe _

theorem EndsElement.endsWord {rest : List Char} (h : EndsElement P rest) : EndsWord rest :=
  h.endsCall.endsArguments.endsWord

/-- An element of a pipeline is read again, where a pipe may follow if `P`. -/
structure RereadsElement (d : Option Definition) (P : Prop) (e : Statement) : Prop where
  begins : ∀ indent rest, EndsElement P rest → BeginsStatement (e.chars indent "" ++ rest)
  reads : ∀ n ctx s indent rest, Room d n ctx s → ctx.inBrackets = false → EndsElement P rest →
    s.Shows (e.chars indent "") rest →
      Attains (turns n).pipelineElement ctx s fun a t => a.erase = e.erase ∧ t.cursor.rest = rest

theorem RereadsElement.mono {P' : Prop} {e : Statement} (h : RereadsElement d P e) (hP : P' → P) :
    RereadsElement d P' e where
  begins indent rest hrest := h.begins indent rest (hrest.imp_right (And.imp_left hP))
  reads n ctx s indent rest hroom hout hrest :=
    h.reads n ctx s indent rest hroom hout (hrest.imp_right (And.imp_left hP))

/-! ## First words -/

/-- A name is a word in front of what ends words. -/
theorem lexed_bareName {x rest : List Char} (hx : IsName x)
    (hrest : ∃ c, rest.head? = some c ∧ isWordEnd c = true) : Lexed .command x .word rest := by
  rcases hx.exists_cons with ⟨b, y, rfl⟩
  rcases hrest with ⟨c, hhead, hc⟩
  rcases List.head?_eq_some_iff.1 hhead with ⟨t, rfl⟩
  have hparts := isName_cons.1 hx
  refine lexed_run (List.cons_ne_nil _ _)
    (List.forall_mem_cons.2 ⟨isNamePart_of_isNameStart hparts.1, hparts.2⟩) ?_ ?_
  · rcases isWordEnd_iff.1 hc with rfl | rfl | rfl | rfl | rfl <;> rfl
  · rcases isWordEnd_iff.1 hc with rfl | rfl | rfl | rfl | rfl <;> decide

/-- A statement that starts with a word of its own is an element of a pipeline. -/
theorem rereadsElement_of_word {x : List Char} {e : Statement} (tail : Nat → List Char)
    (hx : IsName x) (hfree : x ≠ "elif".toList ∧ x ≠ "else".toList)
    (hchars : ∀ indent, e.chars indent "" = x ++ tail indent)
    (htail : ∀ indent, tail indent = [] ∨ ∃ r, tail indent = ' ' :: r)
    (hreads : ∀ n ctx s indent rest, Room d n ctx s → ctx.inBrackets = false → EndsElement P rest →
      Stands .command ctx s x .word (tail indent ++ rest) →
        Attains ((turns n).wordStatement (s.next .command ctx)) ctx s fun a t =>
          a.erase = e.erase ∧ t.cursor.rest = rest) : RereadsElement d P e := by
  have hlexed : ∀ indent rest, EndsElement P rest → Lexed .command x .word
      (tail indent ++ rest) := by
    intro indent rest hrest
    refine lexed_bareName hx ?_
    rcases htail indent with hnil | ⟨r, hr⟩
    · rw [hnil]
      exact hrest.endsWord.1
    · rw [hr]
      exact ⟨' ', rfl, rfl⟩
  refine ⟨fun indent rest hrest => ?_, fun n ctx s indent rest hroom hout hrest hs => ?_⟩
  · rw [hchars, List.append_assoc]
    exact ⟨x, .word, _, rfl, hlexed indent rest hrest, rfl, fun _ => hfree⟩
  · rw [hchars] at hs
    have hstands : Stands .command ctx s x .word (tail indent ++ rest) :=
      hs.assoc.stands (hlexed indent rest hrest) (.inr (.inl rfl))
    refine attains_look (a := s.next .command ctx) rfl ?_
    rw [if_pos hstands.next.1]
    exact hreads n ctx s indent rest hroom hout hrest hstands

/-- A statement that is known from its keyword is read on behind the keyword, where the
    printed `tail` stands. -/
theorem rereadsElement_of_keyword (word : String) (tail : Nat → List Char)
    (read : Grammar → Token → Parse Statement) {e : Statement}
    (hword : isValidName word = true ∧ word ≠ "elif" ∧ word ≠ "else")
    (hchars : ∀ indent, e.chars indent "" = word.toList ++ tail indent)
    (htail : ∀ indent, tail indent = [] ∨ ∃ r, tail indent = ' ' :: r)
    (hdispatch : ∀ {g : Grammar} {ctx : Context} {s : State} {Q : Statement → State → Prop},
      ctx.definition = d → (s.next .command ctx).text = word →
        Attains (do read g (← advance .command) : Parse Statement) ctx s Q →
          Attains (g.wordStatement (s.next .command ctx)) ctx s Q)
    (hreads : ∀ n ctx s keyword indent rest, RoomBelow d n ctx s → ctx.inBrackets = false →
      EndsElement P rest → s.cursor.rest = tail indent ++ rest →
        Attains (read (turns n) keyword) ctx s fun a t =>
          a.erase = e.erase ∧ t.cursor.rest = rest) : RereadsElement d P e := by
  have hname : IsName word.toList := by
    unfold IsName
    rw [String.ofList_toList]
    exact hword.1
  refine rereadsElement_of_word tail hname ⟨fun heq => hword.2.1 (String.toList_injective heq),
    fun heq => hword.2.2 (String.toList_injective heq)⟩ hchars htail
    fun n ctx s indent rest hroom hout hrest hstands => ?_
  refine hdispatch hroom.definition (hstands.next.2.1.trans String.ofList_toList) ?_
  refine attains_seq hstands.advance fun keyword t ht => ?_
  refine hreads n ctx t keyword indent rest (hroom.below ?_).1 hout hrest ht.2.1
  rcases hstands.ahead with ⟨k, hwhole, -⟩
  rcases hname.exists_cons with ⟨c, y, heq⟩
  rw [ht.2.1, hwhole, heq]
  simp only [List.length_append, List.length_cons]
  omega

/-! ## Calls -/

/-- The words at which a statement is no call. -/
def startWords : List String :=
  ["var", "setvar", "setglobal", "const", "func", "proc", "for", "while", "if", "case", "in",
    "elif", "else"]

/-- A statement that starts with none of these words is a call, a constant in short, or in
    a definition what it returns. -/
theorem Grammar.wordStatement_eq {g : Grammar} {token : Token} (h : token.text ∉ startWords) :
    g.wordStatement token = (do
      if token.text = "return" ∧ (← read).definition.isSome then g.returnStatement
      else if isValidName token.text then
        if ← startsShorthand then g.shorthandConstant else g.commandStatement
      else g.commandStatement) := by
  unfold wordStatement
  split
  all_goals first
    | rfl
    | next htext =>
        rw [htext] at h
        exact absurd (by decide) h

/-- A call that starts like no other statement is an element of a pipeline. -/
theorem RereadsCall.element {kind : Token.Kind} {x : List Char} {short : Prop} {c : CommandCall}
    (h : RereadsCall d true kind x short c) (hstart : kind = .word → .ofList x ∉ startWords)
    (hreturn : kind = .word → ¬ (.ofList x = "return" ∧ d.isSome))
    (hshort : kind = .word → IsName x → ¬ short) : RereadsElement d P (.command c) := by
  refine ⟨fun indent rest hrest => ?_, fun n ctx s indent rest hroom hout hrest hs => ?_⟩
  · rcases h.starts indent rest hrest.endsCall with ⟨tail, htext, hlexed, -⟩
    refine ⟨x, kind, tail, htext, hlexed, h.piece, fun hword => ⟨?_, ?_⟩⟩
    · rintro rfl
      exact hstart hword (by decide)
    · rintro rfl
      exact hstart hword (by decide)
  · rcases h.starts indent rest hrest.endsCall with ⟨tail, htext, hlexed, hbehind⟩
    have hstands : Stands .command ctx s x kind tail := by
      rcases hs with ⟨k, hk⟩
      exact (hlexed.ahead.blanks k).stands (hk.trans (congrArg _ htext))
    have hcall : Attains (turns n).commandStatement ctx s fun a t =>
        a.erase = (Tree.command c).erase ∧ t.cursor.rest = rest := by
      refine attains_map ((h.reads n ctx s indent rest hroom hrest.endsCall hs).mono
        fun a t ha => ?_)
      refine ⟨?_, ha.2⟩
      rw [Tree.erase, Tree.erase, ha.1]
    refine attains_look (a := s.next .command ctx) rfl ?_
    rw [hstands.next.1]
    by_cases hword : kind = .word
    · subst hword
      rw [if_pos rfl, wordStatement_eq (by rw [hstands.next.2.1]; exact hstart rfl),
        hstands.next.2.1]
      refine attains_read ?_
      rw [if_neg (by rw [hroom.definition]; exact hreturn rfl)]
      by_cases hname : isValidName (.ofList x) = true
      · rw [if_pos hname]
        -- The token behind the name is the one of the source, where it began no constant.
        have hplain : Attains startsShorthand ctx s fun b t => b = false ∧ t = s := by
          rcases hbehind rfl hname with ⟨y, kind', r, hahead, hequals⟩
          refine attains_seq (attains_secondToken hstands hahead) ?_
          rintro second t ⟨rfl, hkind, htext', himmediate⟩
          refine attains_pure ⟨Bool.eq_false_iff.2 fun hboth => hshort rfl hname ?_, rfl⟩
          rw [Bool.and_eq_true, Token.isWord, Bool.and_eq_true, beq_iff_eq, beq_iff_eq,
            Bool.not_eq_true'] at hboth
          refine hequals (hkind ▸ hboth.1.1) ?_ fun htouches => ?_
          · rw [← String.toList_ofList (l := y), ← htext', hboth.1.2]
            rfl
          · rw [himmediate.2 htouches] at hboth
            cases hboth.2
        refine attains_seq (attains_lift hplain) ?_
        rintro _ t ⟨rfl, rfl⟩
        exact hcall
      · rw [if_neg hname]
        exact hcall
    · rw [if_neg hword]
      exact hcall

/-! ## Pipelines -/

/-- A pipeline is read again, element by element, where a pipe may follow if `P`. -/
structure RereadsPipeline (d : Option Definition) (P : Prop) (e : Statement) : Prop where
  begins : ∀ indent rest, EndsElement P rest → BeginsStatement (e.chars indent "" ++ rest)
  reads : ∀ n ctx s indent rest, Room d n ctx s → ctx.inBrackets = false → EndsElement P rest →
    s.Shows (e.chars indent "") rest → Attains (turns n).pipelineElement ctx s fun a t =>
      ∃ b u, Runs (turns n).pipeRound ctx a t b u ∧ u.diagnostics = t.diagnostics ∧
        b.erase = e.erase ∧ u.cursor.rest = rest

theorem RereadsPipeline.mono {P' : Prop} {e : Statement} (h : RereadsPipeline d P e) (hP : P' → P) :
    RereadsPipeline d P' e where
  begins indent rest hrest := h.begins indent rest (hrest.imp_right (And.imp_left hP))
  reads n ctx s indent rest hroom hout hrest :=
    h.reads n ctx s indent rest hroom hout (hrest.imp_right (And.imp_left hP))

theorem RereadsElement.pipeline {e : Statement} (h : RereadsElement d P e) :
    RereadsPipeline d P e where
  begins := h.begins
  reads n ctx s indent rest hroom hout hrest hs :=
    (h.reads n ctx s indent rest hroom hout hrest hs).mono fun a t ha =>
      ⟨a, t, .refl a t, rfl, ha⟩

theorem Tree.chars_pipe (left right : Statement) (indent : Nat) :
    (left.pipe right).chars indent ""
      = left.chars indent "" ++ ' ' :: '|' :: ' ' :: right.chars indent "" := by
  change (left.write indent "" ++ " | " ++ right.write indent "").toList = _
  rw [String.toList_append, String.toList_append, List.append_assoc]
  rfl

/-- A pipeline that a pipe may follow is read again with a further element. -/
theorem RereadsPipeline.snoc {left right : Statement} (h : RereadsPipeline d True left)
    (hpipeable : left.isPipeable = true) (hright : RereadsElement d P right) :
    RereadsPipeline d P (left.pipe right) := by
  refine ⟨fun indent rest hrest => ?_, fun n ctx s indent rest hroom hout hrest hs => ?_⟩
  · rw [Tree.chars_pipe, List.append_assoc]
    exact h.begins indent _ (.inr ⟨trivial, _, rfl⟩)
  · rw [Tree.chars_pipe] at hs
    refine (h.reads n ctx s indent _ hroom hout (.inr ⟨trivial, _, rfl⟩) hs.assoc).mono ?_
    rintro a t ⟨b, u, hruns, hquiet, hb, hu⟩
    have hu : u.cursor.rest = ' ' :: '|' :: ' ' :: (right.chars indent "" ++ rest) := hu
    have hround : Attains ((turns n).pipeRound b) ctx u fun r v => ∃ c, r = .again (b.pipe c) ∧
        c.erase = right.erase ∧ v.cursor.rest = rest := by
      have hpipe : Stands .command ctx u ['|'] .pipe (' ' :: (right.chars indent "" ++ rest)) :=
        (ahead_pipe _).stands hu
      refine attains_look hpipe.peekKind ?_
      rw [if_pos ⟨rfl, by rw [← Tree.isPipeable_erase, hb, Tree.isPipeable_erase, hpipeable]⟩]
      refine attains_seq hpipe.advance fun _ v hv => ?_
      rcases (hright.begins indent rest hrest).ahead with ⟨x, kind, r, hahead, hpiece⟩
      have hskips : (kind == .newline) = false := by
        cases kind with
        | newline => cases hpiece
        | _ => rfl
      refine attains_seq (attains_lift (attains_skipWhile rfl hahead.blank hskips (.inl hv.2.1)))
        fun _ w hw => ?_
      refine attains_seq (hright.reads n ctx w indent rest (hroom.shorter ?_) hout hrest
        (.of_blank hw)) fun c w' hc => attains_pure ⟨c, rfl, hc⟩
      have hlength := hs.length_le
      rw [hw]
      simp only [List.length_append, List.length_cons] at hlength ⊢
      omega
    rcases hround with ⟨_, v, hstep, hquiet', c, rfl, hc, hv⟩
    refine ⟨b.pipe c, v, hruns.snoc hstep hquiet' ?_, hquiet'.trans hquiet, ?_, hv⟩
    · rw [hv, hu]
      simp only [List.length_append, List.length_cons]
      omega
    · change Tree.piped b.erase c.erase default = Tree.piped left.erase right.erase default
      rw [hb, hc]

/-- A pipeline is read again as a statement. -/
theorem RereadsPipeline.statement {e : Statement} (h : RereadsPipeline d P e) :
    RereadsStatement d e := by
  refine ⟨fun indent rest hrest => h.begins indent rest (.inl hrest),
    fun n ctx s indent rest hroom hout hrest hs => ?_⟩
  refine attains_nested ?_ (attains_seq (h.reads n _ s indent rest hroom hout (.inl hrest) hs) ?_)
  · have hlevels := hroom.levels
    dsimp only at hlevels
    omega
  rintro a t ⟨b, u, hruns, hquiet, hb, hu⟩
  refine hruns.attains_loop ?_
  -- Where a statement ends no pipe follows.
  rcases hrest.notPipe with ⟨x, kind, r, hahead, hnot⟩
  refine attains_look (hahead.stands hu).peekKind ?_
  rw [if_neg fun hand => hnot hand.1]
  exact attains_pure ⟨b, rfl, hb, hu⟩

/-! ## Pipelines of a source -/

namespace Grammar

variable {D : List Diagnostic} {g : Grammar} [g.Stepwise] {ctx : Context} {s : State}

omit [g.Stepwise] in
/-- Nothing is wrong in front of a token that is consumed in a quiet parse. -/
theorem ensures_clear (hq : Quiet ctx.limits D) : Ensures D (advance .command) ctx s fun _ _ =>
    (s.cursor.lookahead .command false).errors = [] :=
  fun _ _ h hD => (yields_advance hq h hD).2.2.2

/-- A statement of a source is read again, if its elements are. -/
theorem keeps_statement (hq : Quiet ctx.limits D)
    (helement : ∀ (depth : Nat) (s : State), Ensures D g.pipelineElement
      { ctx with depth } s fun e s' => RereadsElement ctx.definition s'.Pipes e) :
    Ensures D g.statement ctx s fun e _ => RereadsStatement ctx.definition e := by
  refine ensures_nested fun _ => ?_
  refine ensures_seq (helement _ s) fun e s1 he => ?_
  refine (ensures_loop_state (I := fun e s' => RereadsPipeline ctx.definition s'.Pipes e)
    he.pipeline fun e s2 he => ?_).mono fun e s' he => he.statement
  refine ensures_peekKind (ensures_ite (fun hpipe => ?_) fun _ => ensures_pure.2 fun _ => he)
  refine ensures_seq (ensures_clear hq) fun token s3 hclear => ensures_skip fun _ s4 =>
    ensures_seq (helement _ s4) fun right s5 hright => ensures_pure.2 fun _ => ?_
  exact (he.mono fun _ => ⟨hclear, hpipe.1⟩).snoc hpipe.2 hright

end Grammar

end Ysh
