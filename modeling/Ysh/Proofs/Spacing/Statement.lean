import Ysh.Proofs.Coverage.Statement
import Ysh.Proofs.Spacing.Compound

/-!
# Squeezed Programs

The rules for statements close the circle of productions, and the two parses are compared
from the end of the source backwards. What comes out is that spacing does not matter: with
a single blank for every gap, or for any of them, a source has the same program and the
same diagnostics up to places.

The gaps are those of the program that the parse gives, which is a program of the source by
its leaves. A source with errors has no such gaps, since what an error skips is in no leaf.

## Main definitions

* `squeeze`: The source with a single blank for every gap of the program, but for those
  that stay.

## Theorems

* `mirrors_statement`, `mirrors_statementList`, `mirrors_program`: The last productions.
* `mirrors_turns`: The circle of productions, by induction on the length of the text.
* `parse_squeeze`: Squeezing changes neither the program nor the diagnostics.
-/

namespace Ysh

open Lexeme Spanned

/-! ## Ends of statements -/

namespace Token.Kind

variable {kind : Token.Kind}

theorem endsArguments_of_isTerminator (h : kind.isTerminator = true) :
    kind.endsArguments = true := by
  cases kind with
  | semicolon | doubleSemicolon | ampersand | newline => rfl
  | _ => cases h

theorem endsArguments_of_closes
    (h : [Kind.rightBrace, .rightParen, .endOfInput].contains kind = true) :
    kind.endsArguments = true := by
  cases kind with
  | rightBrace | rightParen | endOfInput => rfl
  | _ => cases h

end Token.Kind

namespace Grammar

variable {gaps : Gaps} {D : List Diagnostic} {n : Nat} {g h : Grammar} [g.Stepwise]
  [h.Stepwise] {ctx : Context} {s : State} {origin : Nat} {seen : List Leaf} {J : State → Prop}

section

variable (hg : g.Mirrors gaps D n n h)
include hg

/-! ## Statements -/

theorem mirrors_commandStatement (hctx : ctx.inBrackets = false) : Ysh.Mirrors gaps D (n + 1)
    g.commandStatement h.commandStatement ctx Tree.leaves (·.Opening gaps)
    fun _ => (·.Stops gaps) := by
  intro s
  unfold commandStatement
  rw [map_eq_pure_bind, map_eq_pure_bind]
  refine retraces_bind (mirrors_commandCall hg true hctx).retraces fun call call' s1 hcall => ?_
  exact retraces_pure (congrArg Tree.command hcall) (by simp [Tree.leaves])

omit [g.Stepwise] [h.Stepwise] hg in
/-- Whether a name starts a constant in short is the same, if what is behind it is seen. -/
theorem retraces_startsShorthand {f f' : Bool → Parse Statement} {total : Statement → List Leaf}
    {post : Statement → Cursor → Prop} (hword : (s.next .command ctx).kind = .word)
    (h : ∀ found, (found = true → ((advance .command ctx s).2.next .command ctx).isWord "=" = true) →
      Retraces gaps D n J (f found) (f' found) ctx origin seen s total (s.cursor.Opening gaps)
        post) :
    Retraces gaps D n J (liftM startsShorthand >>= f) (liftM startsShorthand >>= f') ctx origin
      seen s total (s.cursor.Opening gaps) post := by
  have hsecond : Retraces gaps D n J
      (liftM secondToken >>= fun second => f (second.isWord "=" && !second.immediate))
      (liftM secondToken >>= fun second => f' (second.isWord "=" && !second.immediate)) ctx origin
      seen s total (s.cursor.Opening gaps) post :=
    retraces_secondToken hword id fun _ => h _ fun hfound => (Bool.and_eq_true_iff.1 hfound).1
  exact hsecond

/-- A statement that starts with a word is read alike. -/
theorem retraces_wordStatement {span : Span} (hctx : ctx.inBrackets = false)
    (hword : (s.next .command ctx).kind = .word) :
    Retraces gaps D (n + 1) J (g.wordStatement (s.next .command ctx))
      (h.wordStatement { s.next .command ctx with span }) ctx origin seen s
      (fun t => seen ++ t.leaves) (s.cursor.Sees gaps .command ctx) fun _ => (·.Ending gaps) := by
  have hend : (s.next .command ctx).kind ≠ .endOfInput := by simp [hword]
  have hcommand : Retraces gaps D (n + 1) J g.commandStatement h.commandStatement ctx origin seen s
      (fun t => seen ++ t.leaves) (s.cursor.Opening gaps) fun _ => (·.Ending gaps) :=
    Retraces.demand (mirrors_commandStatement hg hctx).retraces fun _ _ => Cursor.Ending.stops
  unfold wordStatement
  dsimp only
  split
  · next htext => exact retraces_variableDeclaration hg hctx (by rw [htext]; decide) hend
  · next htext => exact retraces_assignment hg .nearest hctx (by rw [htext]; decide) hend
  · next htext => exact retraces_assignment hg .global hctx (by rw [htext]; decide) hend
  · next htext => exact retraces_constantDeclaration hg hctx (by rw [htext]; decide) hend
  · next htext =>
      exact Retraces.loose (retraces_funcDefinition hg (by rw [htext]; decide) hend)
  · next htext =>
      exact Retraces.loose (retraces_procDefinition hg (by rw [htext]; decide) hend)
  · next htext =>
      exact Retraces.loose (retraces_forLoop hg hctx (by rw [htext]; decide) hend)
  · next htext =>
      exact Retraces.loose (retraces_whileLoop hg hctx (by rw [htext]; decide) hend)
  · next htext =>
      exact Retraces.demand (retraces_conditional hg hctx (by rw [htext]; decide) hend)
        fun _ _ => Cursor.Ending.lines
  · next htext =>
      exact Retraces.loose (retraces_caseStatement hg hctx (by rw [htext]; decide) hend)
  · exact retraces_throw
  · exact retraces_throw
  · exact retraces_throw
  · refine retraces_read (retraces_ite Iff.rfl (fun hreturn => ?_) fun _ =>
      Retraces.weaken (retraces_ite Iff.rfl (fun _ => ?_) fun _ => hcommand) Cursor.Opening.seen)
    · exact Retraces.demand (retraces_returnStatement hg (by rw [hreturn.1]; decide) hend)
        fun _ _ hends => hends.stops.seen
    · refine retraces_startsShorthand hword fun found hequals =>
        retraces_ite Iff.rfl (fun hfound => ?_) fun _ => hcommand
      exact retraces_shorthandConstant hg hctx hword (hequals hfound)

theorem mirrors_pipelineElement (hctx : ctx.inBrackets = false) : Ysh.Mirrors gaps D (n + 1)
    g.pipelineElement h.pipelineElement ctx Tree.leaves (·.Sees gaps .command ctx)
    fun _ => (·.Ending gaps) := by
  intro s
  refine retraces_peek id fun span => retraces_ite Iff.rfl
    (fun hword => retraces_wordStatement hg hctx hword) fun _ => ?_
  exact Retraces.weaken (Retraces.demand (Retraces.knowing
    (mirrors_commandStatement hg hctx).retraces fun _ _ => trivial)
    fun _ _ => Cursor.Ending.stops) Cursor.Opening.seen

/-- What is piped into is read alike. A pipe ends what is in front of it. -/
theorem retraces_pipeRound (hctx : ctx.inBrackets = false) {a b : Statement}
    (hab : erase b = erase a) :
    Retraces gaps D (n + 1) (fun _ => True) (g.pipeRound a) (h.pipeRound b) ctx origin
      (seen ++ a.leaves) s (fun r => seen ++ r.value.leaves) (s.cursor.Ending gaps)
      (Round.Asks (fun _ => (·.Ending gaps)) fun _ => (·.Ending gaps)) := by
  have hab : b.erase = a.erase := hab
  have hpipeable : b.isPipeable = a.isPipeable := by
    rw [← Tree.isPipeable_erase, hab, Tree.isPipeable_erase]
  refine retraces_peekKind (fun hends => hends.lines.inLine) (retraces_ite (by rw [hpipeable])
    (fun hpipe => ?_) fun _ => ?_)
  · refine Retraces.weaken (retraces_advanceThen (Q := fun _ => True)
      (.fixed (by rw [hpipe.1]; rfl)) (by simp [hpipe.1]) fun s1 span _ _ => ?_) fun hsees => ?_
    · rw [List.append_nil]
      refine Retraces.free (Retraces.knowing (retraces_bind (Retraces.down
        (mirrors_skipWhile (fun kind hkind => ?_) rfl rfl).lift.retraces) fun _ _ s2 _ => ?_)
        fun _ _ => trivial)
      · rw [beq_iff_eq.1 hkind]
        rfl
      · rw [List.append_nil]
        refine retraces_bind (Retraces.down (mirrors_pipelineElement hg hctx).retraces)
          fun right right' s3 hright => ?_
        exact retraces_pure (by simp_all [Tree.pipe, Tree.erase])
          (by simp [Tree.pipe, Tree.leaves, Round.value])
    · refine ⟨Cursor.Seen.over hsees.1 fun hline => ?_, ?_⟩
      · rw [← State.next_command, hpipe.1] at hline
        cases hline
      · rw [← State.next_command, hpipe.1]
        rfl
  · exact retraces_pure (congrArg Round.stop hab) fun _ => rfl

theorem mirrors_statement (hctx : ctx.inBrackets = false) : Ysh.Mirrors gaps D (n + 1)
    g.statement h.statement ctx Tree.leaves (·.Sees gaps .command ctx)
    fun _ => (·.Ending gaps) := by
  intro s
  have hdeeper : { ctx with depth := ctx.depth + 1 }.inBrackets = false := hctx
  refine retraces_nested (retraces_bind (mirrors_pipelineElement hg hdeeper).retraces
    fun a b s1 hab => ?_)
  exact retraces_loop (P := fun _ => (·.Ending gaps)) (ParseLoop.pipeline (g := g)).progresses
    (ParseLoop.pipeline (g := h)).progresses (fun a b s hab => retraces_pipeRound hg hdeeper hab) hab
    fun _ => rfl

/-- A statement is read alike with its terminator, and is seen to end. -/
theorem mirrors_terminatedStatement (hctx : ctx.inBrackets = false) : Ysh.Mirrors gaps D (n + 1)
    g.terminatedStatement h.terminatedStatement ctx Tree.leaves (·.Sees gaps .command ctx)
    fun _ => (·.Seen gaps .command true) := by
  intro s
  refine retraces_bind (mirrors_statement hg hctx).retraces fun t t' s1 ht => ?_
  refine retraces_peek (fun hends => hends.lines.inLine) fun span =>
    retraces_ite Iff.rfl (fun hends => ?_) fun hnot => retraces_ite Iff.rfl (fun hcloser => ?_)
      fun _ => retraces_throw
  · refine Retraces.weaken (retraces_advanceThen (Q := (·.Seen gaps .command true))
      (.fixed (Token.Kind.isFixed_of_isTerminator hends)) (fun hend => ?_) fun s2 span' _ _ => ?_)
      fun hsees => ?_
    · rw [hend] at hends
      cases hends
    · rw [List.append_nil]
      exact retraces_pure ht fun _ => rfl
    · refine ⟨Cursor.Seen.over hsees.1 fun _ => hsees.2, ?_⟩
      rw [← State.next_command ctx]
      exact Token.Kind.endsArguments_of_isTerminator hends
  · refine Retraces.weaken (retraces_pure ht fun _ => rfl) fun hlines => ⟨hlines, ?_⟩
    rw [← State.next_command ctx]
    exact Token.Kind.endsArguments_of_closes hcloser

/-! ## Lists of statements -/

/-- In a quiet parse every statement is read. -/
theorem mirrors_statementOrError (hctx : ctx.inBrackets = false) : Ysh.Mirrors gaps D (n + 1)
    g.statementOrError h.statementOrError ctx Tree.leaves (·.Sees gaps .command ctx)
    fun _ => (·.Seen gaps .command true) := by
  intro s
  refine retraces_peek id fun span => Retraces.knowing (retraces_attempt
    (fun r => by cases r <;> infer_instance) (mirrors_terminatedStatement hg hctx).retraces
    (fun t t' s1 ht => retraces_pure ht fun _ => rfl) fun e s1 hq => ?_) fun _ _ => trivial
  exact ensures_blame hq rfl

theorem mirrors_listedStatement (hctx : ctx.inBrackets = false) (closer : Option Token.Kind) :
    Ysh.Mirrors gaps D (n + 1) (g.listedStatement closer) (h.listedStatement closer) ctx
      (fun o => o.toList.flatMap Tree.leaves) (·.Seen gaps .command true)
      fun o => o.elim (·.Sees gaps .command ctx) fun _ => (·.Seen gaps .command true) := by
  intro s
  refine retraces_bind mirrors_skipSeparators.retraces fun _ _ s1 _ => ?_
  rw [List.append_nil]
  refine retraces_peekKind id (retraces_ite Iff.rfl (fun _ => retraces_pure rfl fun _ => rfl) fun _ =>
    retraces_ite Iff.rfl (fun _ => ?_) fun _ => ?_)
  · exact retraces_of_ensures fun hq => ensures_bind (ensures_strayCloser hq)
  · refine retraces_bind (mirrors_statementOrError hg hctx).retraces fun t t' s2 ht => ?_
    exact retraces_pure (congrArg some ht) (by simp)

theorem mirrors_statementList (hctx : ctx.inBrackets = false) (closer : Option Token.Kind) :
    Ysh.Mirrors gaps D (n + 1) (g.statementList closer) (h.statementList closer) ctx
      (·.flatMap Tree.leaves) (·.Seen gaps .command true) fun _ => (·.Sees gaps .command ctx) := by
  have hcloser : { ctx with closers := closer.toList ++ ctx.closers }.inBrackets = false := hctx
  have hlist := mirrors_collect (ScanLoop.statements (g := g) closer).progresses
    (ScanLoop.statements (g := h) closer).progresses (mirrors_listedStatement hg hcloser closer)
  exact fun s => hlist s

/-- A program is read alike, up to the end of input. -/
theorem mirrors_program (hctx : ctx.inBrackets = false) : Ysh.Mirrors gaps D (n + 1) g.program
    h.program ctx (·.flatMap Tree.leaves) (·.Seen gaps .command true) fun _ _ => True := by
  intro s
  refine retraces_quiet fun hq => Moving.retraces_bindWith (fun _ => inferInstance)
    (E := fun _ s1 => (s1.next .command ctx).kind = .endOfInput) (ensures_statementList_end hq)
    (mirrors_statementList hg hctx none).retraces fun ts us s1 hts hend => ?_
  refine Retraces.weaken (retraces_take (Q := fun _ => True) (.fixed (by rw [hend]; rfl))
    (.inl (Nat.le_refl _)) fun s2 span _ _ => ?_) And.left
  rw [List.append_nil]
  exact retraces_done hts fun _ => rfl

end

/-! ## The circle -/

namespace Mirrors

variable {k k' n' : Nat}

omit [g.Stepwise] [h.Stepwise] in
theorem fewer (hg : g.Mirrors gaps D k n h) (hk : k' ≤ k) (hn : n' ≤ n) :
    g.Mirrors gaps D k' n' h where
  expression ctx s := (hg.expression ctx s).fewer hk
  statements closer _ hctx s := (hg.statements closer hctx s).fewer hk
  expansion hread := (hg.expansion hread).fewer hn

omit [g.Stepwise] [h.Stepwise] in
/-- Where no text is short enough, it does not matter what the second grammar is. -/
theorem blind {h' : Grammar} (hg : g.Mirrors gaps D 0 0 h) : g.Mirrors gaps D 0 0 h' where
  expression ctx s := (hg.expression ctx s).blind
  statements closer _ hctx s := (hg.statements closer hctx s).blind
  expansion := by
    intro opener token span front text ctx s origin seen J hread
    exact Retraces.blind (y := h.expansion opener { token with span }) (hg.expansion hread)

end Mirrors

/-- A further turn of both grammars mirrors a text that is longer by a character. Expansions
    take a turn more, since their opener has been consumed. -/
theorem mirrors_turn {k i j : Nat} (hg : (turns i).Mirrors gaps D k n (turns j)) (hn : n ≤ k)
    (hk : k ≤ n + 1) : (turns (i + 1)).Mirrors gaps D (n + 1) k (turns (j + 1)) where
  expression _ := mirrors_expressionBody (hg.fewer hn (Nat.le_refl n))
  statements closer _ hctx s :=
    (mirrors_statementList (hg.fewer hn (Nat.le_refl n)) hctx closer s).free
  expansion hread := retraces_expansionBody hg hk hread

/-- Without text there is nothing to mirror but what is asked for. -/
theorem mirrors_turns_zero (i : Nat) (h : Grammar) : (turns i).Mirrors gaps D 0 0 h := by
  induction i generalizing h with
  | zero =>
      exact
        { expression := fun _ _ => retraces_of_ensures fun _ => ensures_peek ensures_throw
          statements := fun _ _ _ s => Retraces.blind (y := pure [])
            (retraces_done (s := s) (a := []) (b := []) rfl fun _ => rfl)
          expansion := fun _ => retraces_throw }
  | succ i ih =>
      have hturn := mirrors_turn (ih (turns 0)) (Nat.le_refl 0) (Nat.zero_le 1)
      exact (hturn.fewer (Nat.zero_le 1) (Nat.le_refl 0)).blind

/-- Two turns for each character are enough, and it does not matter how many more there are. -/
theorem mirrors_turns (n i j : Nat) :
    (turns (2 * n + i)).Mirrors gaps D n n (turns (2 * n + j)) := by
  induction n with
  | zero => exact mirrors_turns_zero _ _
  | succ n ih =>
      rw [Nat.mul_succ, Nat.add_right_comm _ 2, Nat.add_right_comm _ 2]
      exact mirrors_turn (mirrors_turn ih (Nat.le_refl n) (Nat.le_succ n)) (Nat.le_succ n)
        (Nat.le_refl _)

end Grammar

/-! ## Programs -/

/-- The source with a single blank for every gap that does not stay: for every run of extras
    that is no part of a leaf of its program. -/
def squeeze (stays : Nat → Bool) (source : String) (program : Program) : String :=
  .ofList (squeezeFrom ⟨covered program.leaves, stays⟩ 0 0 0 source.toList)

/-- A squeezed source takes no more bytes. -/
theorem utf8ByteSize_squeeze (stays : Nat → Bool) (source : String) (program : Program) :
    (squeeze stays source program).utf8ByteSize ≤ source.utf8ByteSize := by
  rw [utf8ByteSize_eq, utf8ByteSize_eq, squeeze, String.toList_ofList]
  exact byteLength_squeezeFrom _ _ _ _ _

/-- What is left to read in the squeezed source is read as in the source. -/
theorem finish_squeeze (limits : Limits) (stays : Nat → Bool) (source : String)
    (hq : Quiet limits (finish limits source (.ofSource source)).diagnostics) {source' : String}
    (hsource : source' = squeeze stays source (finish limits source (.ofSource source)).program) :
    (finish limits source' (.ofSource source')).program.erase
        = (finish limits source (.ofSource source)).program.erase ∧
      (finish limits source' (.ofSource source')).diagnostics.map Diagnostic.erase
        = (finish limits source (.ofSource source)).diagnostics.map Diagnostic.erase := by
  have hleaves : (finish limits source (.ofSource source)).program.leaves =
      (readProgram limits (.ofSource source)).1.flatMap Tree.leaves := Tree.leaves_ofList _
  rw [squeeze, hleaves] at hsource
  generalize hgaps : Gaps.mk (covered ((readProgram limits (.ofSource source)).1.flatMap
    Tree.leaves)) stays = gaps at hsource
  have hsqueezed : Squeezed gaps (.ofSource source) (.ofSource source') :=
    ⟨by rw [hsource]; exact String.toList_ofList, rfl⟩
  have hlength : source'.toList.length ≤ source.toList.length := by
    rw [hsource, String.toList_ofList]
    exact length_squeezeFrom _ _ _ _ _
  -- The longer source is given more turns, but those are more than enough for either.
  have hturns : (Grammar.forState (.ofSource source)).Mirrors gaps
      (finish limits source (.ofSource source)).diagnostics source'.toList.length
      source'.toList.length (Grammar.forState (.ofSource source')) := by
    have hmirrors := @Grammar.mirrors_turns gaps
      (finish limits source (.ofSource source)).diagnostics source'.toList.length
      (2 * (source.toList.length - source'.toList.length) + 3) 3
    rw [← Nat.add_assoc, ← Nat.mul_add, Nat.add_sub_cancel' hlength] at hmirrors
    exact hmirrors
  have hprogram : Mirrors gaps (finish limits source (.ofSource source)).diagnostics
      (source'.toList.length + 1) (Grammar.forState (.ofSource source)).program
      (Grammar.forState (.ofSource source')).program { limits } (·.flatMap Tree.leaves)
      (·.Seen gaps .command true) fun _ _ => True := Grammar.mirrors_program hturns rfl
  rcases hprogram (.ofSource source) hq (.nil (Nat.le_refl _)) _ _ rfl List.prefix_rfl with
    ⟨-, hback⟩
  -- The leaves of the program are all the leaves there are.
  rcases (hback (fun p _ _ => hgaps ▸ rfl) trivial).2 (.ofSource source') hsqueezed
    (Nat.lt_succ_self _) trivial with ⟨ts, t, hyields, hts, ht, -⟩
  obtain ⟨rfl, rfl⟩ : (readProgram limits (.ofSource source')).1 = ts ∧
      (readProgram limits (.ofSource source')).2 = t :=
    ⟨Except.ok.inj (congrArg Prod.fst hyields), congrArg Prod.snd hyields⟩
  refine ⟨?_, ht.diagnostics⟩
  have hstatements : (Tree.ofList (readProgram limits (.ofSource source')).1).erase
      = (Tree.ofList (readProgram limits (.ofSource source)).1).erase := by
    rw [Tree.erase_ofList, Tree.erase_ofList]
    exact congrArg Tree.ofList hts
  exact congrArg (Program.mk · default) hstatements

/-- Spacing means nothing. Take a source that is parsed without an error, and with room for
    more diagnostics, and make any of its gaps a single blank, or all of them: the program is
    the same but for its spans, and so is what there is to say about it. -/
theorem parse_squeeze (limits : Limits) (stays : Nat → Bool) (source : String)
    (hroom : (parse limits source).diagnostics.length < limits.diagnostics)
    (herrors : (parse limits source).hasErrors = false) :
    (parse limits (squeeze stays source (parse limits source).program)).program.erase
        = (parse limits source).program.erase ∧
      (parse limits (squeeze stays source (parse limits source).program)).diagnostics.map
          Diagnostic.erase
        = (parse limits source).diagnostics.map Diagnostic.erase := by
  have hfinish := parse_eq_finish_of_hasErrors herrors
  have hfits : source.utf8ByteSize ≤ limits.inputSize := by
    refine Nat.le_of_not_lt fun hlarge => ?_
    rw [parse, if_pos hlarge] at herrors
    cases herrors
  rw [hfinish] at hroom herrors ⊢
  have hq : Quiet limits (finish limits source (.ofSource source)).diagnostics :=
    ⟨hroom, hasErrors_eq_false.1 herrors⟩
  have hsize := utf8ByteSize_squeeze stays source
    (finish limits source (.ofSource source)).program
  generalize hsource : squeeze stays source (finish limits source (.ofSource source)).program
    = source' at hsize ⊢
  rw [parse, if_neg (by omega)]
  exact finish_squeeze limits stays source hq hsource.symm

/-- The blanks of a string are no gap. The gap in front of the first token may stay, and the
    arguments in parentheses still do not touch the name in front of them. -/
theorem squeeze_of_commented_call :
    (parse {} "  f \\\n(1,\t 'a  b')  # c\n\n g\t").diagnostics.length
        < ({} : Limits).diagnostics ∧
      (parse {} "  f \\\n(1,\t 'a  b')  # c\n\n g\t").hasErrors = false ∧
      squeeze (· == 0) "  f \\\n(1,\t 'a  b')  # c\n\n g\t"
          (parse {} "  f \\\n(1,\t 'a  b')  # c\n\n g\t").program
        = "  f (1, 'a  b') \n\n g " ∧
      (parse {} "  f (1, 'a  b') \n\n g ").program.erase
        = (parse {} "  f \\\n(1,\t 'a  b')  # c\n\n g\t").program.erase := by
  have hsqueeze : squeeze (· == 0) "  f \\\n(1,\t 'a  b')  # c\n\n g\t"
      (parse {} "  f \\\n(1,\t 'a  b')  # c\n\n g\t").program
        = "  f (1, 'a  b') \n\n g " := by decide +kernel
  have hroom : (parse {} "  f \\\n(1,\t 'a  b')  # c\n\n g\t").diagnostics.length
      < ({} : Limits).diagnostics := by decide +kernel
  have herrors : (parse {} "  f \\\n(1,\t 'a  b')  # c\n\n g\t").hasErrors = false := by
    decide +kernel
  have hsame := parse_squeeze {} (· == 0) _ hroom herrors
  rw [hsqueeze] at hsame
  exact ⟨hroom, herrors, hsqueeze, hsame.1⟩

end Ysh
