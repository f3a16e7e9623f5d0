import Ysh.Proofs.Reread.ControlFlow

/-!
# Reading Printed Cases

What a pattern is follows from its first token, and the first token is printed as it was.
Two patterns could be taken for others. A list of globs that starts with a slash by itself
would be an eggex; but then it was one in the source. And an expression that starts with
`else` would be the last arm; but `else` is reserved, and no expression starts with a
reserved word.

The arms are printed like the statements of a block, each on lines of its own.

## Main definitions

* `RereadsPattern`, `RereadsArm`: Patterns and arms are read again.

## Theorems

* `rereads_globPattern`, `rereads_elsePattern`, `rereads_eggexPattern`,
  `RereadsExpression.pattern`: The patterns.
* `rereads_caseOf`: The whole statement.
* `Grammar.keeps_caseStatement`: The cases of a source are read again.
-/

namespace Ysh

open Grammar

variable {d : Option Definition} {P : Prop} {n : Nat} {ctx : Context} {s : State}

/-! ## Patterns -/

/-- A token stands in front that starts an arm. -/
def BeginsArm (whole : List Char) : Prop :=
  ∃ x kind r, whole = x ++ r ∧ Lexed .command x kind r ∧
    (kind.isWordPiece = true ∨ kind = .leftParen)

/-- A pattern is read again, in front of the body of its arm. -/
structure RereadsPattern (d : Option Definition) (p : Pattern) : Prop where
  begins : ∀ indent rest, EndsHead rest → BeginsArm (p.chars indent "" ++ rest)
  reads : ∀ n ctx s indent rest, Room d n ctx s → ctx.inBrackets = false → EndsHead rest →
    s.Shows (p.chars indent "") rest →
      Attains (turns n).casePattern ctx s fun a t => a.erase = p.erase ∧ t.cursor.rest = rest

theorem EndsHead.endsWord {rest : List Char} (h : EndsHead rest) : EndsWord rest :=
  h.endsCall.endsArguments.endsWord

/-- A pattern in parentheses is read again, if what is in them is. -/
theorem rereadsPattern_of_parenthesized {p : Pattern} (inner : Nat → List Char)
    (hchars : ∀ indent, p.chars indent "" = '(' :: (inner indent ++ [')']))
    (hreads : ∀ n ctx s indent rest, Room d n ctx s → ctx.inBrackets = false →
      Stands .command ctx s ['('] .leftParen (inner indent ++ ')' :: rest) →
        Attains (turns n).parenthesizedPattern ctx s fun a t =>
          a.erase = p.erase ∧ t.cursor.rest = rest) : RereadsPattern d p := by
  have htext : ∀ indent rest, p.chars indent "" ++ rest = '(' :: (inner indent ++ ')' :: rest) := by
    intro indent rest
    rw [hchars]
    simp
  refine ⟨fun indent rest _ => ⟨['('], .leftParen, inner indent ++ ')' :: rest, htext indent rest,
    ⟨rfl, rfl⟩, .inr rfl⟩, fun n ctx s indent rest hroom hout _ hs => ?_⟩
  have hopen : Stands .command ctx s ['('] .leftParen (inner indent ++ ')' :: rest) := by
    rcases hs with ⟨k, hk⟩
    exact ((ahead_leftParen _).blanks k).stands (hk.trans (congrArg _ (htext indent rest)))
  refine attains_look (a := s.next .command ctx) rfl ?_
  rw [if_pos hopen.next.1]
  exact hreads n ctx s indent rest hroom hout hopen

/-- The arm for everything else is read again. -/
theorem rereads_elsePattern {span : Span} : RereadsPattern d (.elsePattern span) := by
  refine rereadsPattern_of_parenthesized (fun _ => "else".toList) (fun _ => ?_)
    fun n ctx s indent rest hroom hout hopen => ?_
  · change "(else)".toList = _
    decide
  refine attains_seq hopen.advance fun opening t ht => ?_
  have hatom : EndsAtom (')' :: rest) := by
    rintro c ⟨⟩
    decide
  have helse : Stands .expression ctx t "else".toList .identifier (')' :: rest) :=
    State.Shows.name (.of_eq ht.2.1) (by unfold IsName; decide) hatom
  refine attains_look (a := t.next .expression ctx) rfl ?_
  rw [if_pos ⟨helse.next.1, helse.next.2.1.trans rfl⟩]
  refine attains_seq helse.advance fun _ u hu => ?_
  exact attains_seq ((State.Shows.rightParen (.of_eq hu.2.1)).expectClosing _) fun closing v hv =>
    attains_pure ⟨rfl, hv.2⟩

/-- An expression as a pattern is read again. -/
theorem RereadsExpression.pattern {e : Expression} (h : RereadsExpression d e) :
    RereadsPattern d (.expressionPattern e) := by
  refine rereadsPattern_of_parenthesized (e.chars · "") (fun indent => ?_)
    fun n ctx s indent rest hroom hout hopen => ?_
  · change ("(" ++ e.write indent "" ++ ")").toList = _
    simp [Tree.chars]
  · refine attains_seq hopen.advance fun opening t ht => ?_
    have hlt : t.cursor.rest.length < s.cursor.rest.length :=
      ht.2.1 ▸ hopen.shorter (List.cons_ne_nil _ _)
    have hends : EndsExpression ctx (')' :: rest) := .inr (.inl ⟨')', by decide, rest, rfl⟩)
    have hother : ¬ ((t.next .expression ctx).kind = .identifier ∧
        (t.next .expression ctx).text = "else") := by
      rintro ⟨hkind, htext⟩
      have hfree := h.whole.free (hroom.shorter (Nat.le_of_lt hlt)) hends (.of_eq ht.2.1) hkind
      rw [htext] at hfree
      exact absurd hfree (by decide)
    refine attains_look (a := t.next .expression ctx) rfl ?_
    rw [if_neg hother]
    exact attains_seq (h.enclosed (hroom.below hlt).2 (.inl ⟨rfl, rfl⟩) (.of_eq ht.2.1))
      fun a u ha =>
      attains_pure ⟨congrArg Tree.expressionPattern ha.1, ha.2⟩

/-- An eggex as a pattern is read again. -/
theorem rereads_eggexPattern {e : Eggex} (h : Eggex.IsPattern e.pattern) :
    RereadsPattern d (.eggexPattern e) := by
  have hchars : ∀ indent rest, (Tree.eggexPattern e).chars indent "" ++ rest
      = '/' :: (Eggex.printedBody e.pattern ++ rest) := fun _ rest =>
    congrArg (· ++ rest) (Cursor.toList_writeEggex e)
  have hlexed : ∀ rest, Lexed .command ['/'] .word (Eggex.printedBody e.pattern ++ rest) := fun _ =>
    ⟨rfl, rfl⟩
  refine ⟨fun indent rest _ => ⟨['/'], .word, _, hchars indent rest, hlexed rest, .inl rfl⟩,
    fun n ctx s indent rest hroom hout _ hs => ?_⟩
  have hslash : Stands .command ctx s ['/'] .word (Eggex.printedBody e.pattern ++ rest) := by
    rcases hs with ⟨k, hk⟩
    exact ((hlexed rest).ahead.blanks k).stands (hk.trans (congrArg _ (hchars indent rest)))
  refine attains_look (a := s.next .command ctx) rfl ?_
  rw [Token.isWord, hslash.next.1, hslash.next.2.1, if_neg (by decide), if_pos (by decide)]
  refine attains_seq hslash.advance fun _ t ht => ?_
  refine attains_seq (attains_lift (attains_eggexBody h ht.2.1)) fun e' u he =>
    attains_pure ⟨?_, he.2⟩
  rw [Tree.erase, Tree.erase, Eggex.erase_eq he.1]

/-! ## Globs -/

/-- The printed globs of a pattern behind the first one. -/
def globChars (globs : List Word) (indent : Nat) : List Char :=
  globs.flatMap fun w => ' ' :: '|' :: ' ' :: w.chars indent ""

theorem endsWord_globChars {rest : List Char} (hrest : EndsWord rest) (globs : List Word)
    (indent : Nat) :
    EndsWord (globChars globs indent ++ rest) := by
  cases globs with
  | nil => exact hrest
  | cons w globs => exact (endsCall_pipe _).endsArguments.endsWord

/-- The globs behind the first one are read again. -/
theorem attains_furtherGlobs {globs : List Word} {indent : Nat} {rest : List Char}
    (hglobs : ∀ w ∈ globs, RereadsWord d w) (hroom : Room d n ctx s) (hrest : EndsHead rest)
    (hs : s.cursor.rest = globChars globs indent ++ rest) :
    Attains (collect (turns n).furtherGlob) ctx s fun ws t =>
      ws.map Tree.erase = globs.map Tree.erase ∧ t.cursor.rest = rest := by
  refine attains_collect Tree.erase (fun todo t => t.cursor.rest = globChars todo indent ++ rest) hs
    (fun w todo t hsuffix ht hle => ?_) fun t ht _ => ?_
  · have hpipe : Stands .command ctx t ['|'] .pipe
        (' ' :: (w.chars indent "" ++ (globChars todo indent ++ rest))) := by
      refine (ahead_pipe _).stands ?_
      rw [ht, globChars, List.flatMap_cons]
      simp [globChars]
    refine attains_look hpipe.peekKind ?_
    rw [if_pos rfl]
    refine attains_seq hpipe.advance fun _ u hu => ?_
    have hlt : u.cursor.rest.length < t.cursor.rest.length :=
      hu.2.1 ▸ hpipe.shorter (List.cons_ne_nil _ _)
    refine attains_seq ((hglobs w (hsuffix.subset List.mem_cons_self)).reads n ctx u indent _
      (hroom.shorter (by omega)) (endsWord_globChars hrest.endsWord todo indent) (.of_blank hu.2.1))
      fun a v ha => attains_pure ⟨⟨a, rfl, ha.1⟩, ha.2, ?_⟩
    rw [hu.2.1] at hlt
    rw [ha.2]
    simp only [List.length_cons, List.length_append] at hlt ⊢
    omega
  · rcases hrest with ⟨r, rfl⟩
    have hbrace : Stands .command ctx t ['{'] .leftBrace r := (ahead_leftBrace r).blank.stands ht
    refine attains_look hbrace.peekKind ?_
    rw [if_neg (by decide)]
    exact attains_pure ⟨rfl, fun ws hws => ⟨hws, ht⟩⟩

/-- Globs with pipes between them are read again, unless they start with a slash by
    itself. -/
theorem rereads_globPattern {first : Word} {others : List Word} {span : Span} {kind : Token.Kind}
    {x : List Char} {alone : Prop} (hfirst : RereadsWordFrom d kind x alone first)
    (hslash : kind = .word → x ≠ ['/']) (hothers : ∀ w ∈ others, RereadsWord d w) :
    RereadsPattern d (.globPattern (.ofList (first :: others)) span) := by
  have hchars : ∀ indent rest,
      (Tree.globPattern (.ofList (first :: others)) span).chars indent "" ++ rest
      = first.chars indent "" ++ (globChars others indent ++ rest) := by
    intro indent rest
    have hlist := Tree.chars_ofList (by simp) (by simp) (first :: others) indent " | "
    rw [List.map_cons, intercalate_cons, List.flatMap_map] at hlist
    change (Tree.ofList (first :: others)).chars indent " | " ++ rest = _
    rw [hlist, List.append_assoc]
    rfl
  have hstarts : ∀ indent rest, EndsHead rest → ∃ r,
      (Tree.globPattern (.ofList (first :: others)) span).chars indent "" ++ rest = x ++ r ∧
        Lexed .command x kind r := by
    intro indent rest hrest
    rcases hfirst.starts indent _ (endsWord_globChars hrest.endsWord others indent) with
      ⟨r, htext, hlexed, -⟩
    exact ⟨r, (hchars indent rest).trans htext, hlexed⟩
  refine ⟨fun indent rest hrest => ?_, fun n ctx s indent rest hroom hout hrest hs => ?_⟩
  · rcases hstarts indent rest hrest with ⟨r, htext, hlexed⟩
    exact ⟨x, kind, r, htext, hlexed, .inl hfirst.piece⟩
  · rcases hstarts indent rest hrest with ⟨r, htext, hlexed⟩
    rcases hs with ⟨k, hs⟩
    have hstands : Stands .command ctx s x kind r :=
      (hlexed.ahead.blanks k).stands (hs.trans (congrArg _ htext))
    have hother : (s.next .command ctx).isWord "/" = false := by
      refine Bool.eq_false_iff.2 fun hword => ?_
      have hkind : (s.next .command ctx).kind = .word :=
        beq_iff_eq.1 (Bool.and_eq_true_iff.1 hword).1
      rw [hstands.next.1] at hkind
      refine hslash hkind ?_
      rw [← String.toList_ofList (l := x), ← hstands.next.2.1, Token.text_of_isWord hword]
      rfl
    refine attains_look (a := s.next .command ctx) rfl ?_
    rw [hother, hstands.next.1, if_neg (by rintro rfl; cases hfirst.piece),
      if_neg Bool.false_ne_true,
      if_pos hfirst.piece]
    have hshows : s.Shows (first.chars indent "") (globChars others indent ++ rest) :=
      ⟨k, hs.trans (congrArg _ (hchars indent rest))⟩
    refine attains_onward (hfirst.reads n ctx s indent _ hroom
      (endsWord_globChars hrest.endsWord others indent) hshows) fun a t ha hle => ?_
    refine attains_seq (attains_furtherGlobs hothers (hroom.shorter hle) hrest ha.2)
      fun ws u hws => attains_pure ⟨?_, hws.2⟩
    simp only [Tree.erase, Tree.erase_ofList, List.map_cons, ha.1, hws.1]

/-! ## Arms -/

/-- An arm is read again. -/
structure RereadsArm (d : Option Definition) (a : Arm) : Prop where
  begins : ∀ indent rest, BeginsArm (a.chars indent "" ++ rest)
  reads : ∀ n ctx s indent rest, Room d n ctx s → ctx.inBrackets = false →
    s.Shows (a.chars indent "") rest →
      Attains (turns n).caseArm ctx s fun b t => b.erase = a.erase ∧ t.cursor.rest = rest

theorem rereads_arm {pattern : Pattern} {body : Block} {span : Span}
    (hpattern : RereadsPattern d pattern)
    (hbody : RereadsBlock d body) : RereadsArm d (.arm pattern body span) := by
  have hchars : ∀ indent rest, (Tree.arm pattern body span).chars indent "" ++ rest
      = pattern.chars indent "" ++ ' ' :: (body.chars indent "" ++ rest) := by
    intro indent rest
    change (pattern.write indent "" ++ " " ++ body.write indent "").toList ++ rest = _
    simp [Tree.chars]
  have hhead : ∀ indent rest, EndsHead (' ' :: (body.chars indent "" ++ rest)) :=
    body.endsHead_chars_block
  refine ⟨fun indent rest => ?_, fun n ctx s indent rest hroom hout hs => ?_⟩
  · rw [hchars]
    exact hpattern.begins indent _ (hhead indent rest)
  · rcases hs with ⟨k, hs⟩
    refine attains_look (a := s.next .command ctx) rfl ?_
    refine attains_onward (hpattern.reads n ctx s indent _ hroom hout (hhead indent rest)
      ⟨k, hs.trans (congrArg _ (hchars indent rest))⟩) fun p t hp hle => ?_
    refine attains_seq (hbody n ctx t indent rest (hroom.shorter hle) trivial (.of_blank hp.2))
      fun b u hb => attains_pure ⟨?_, hb.2⟩
    rw [Tree.erase, Tree.erase, hp.1, hb.1]

/-- The printed arms of a case, each on lines of its own. -/
def armChars (arms : List Arm) (indent : Nat) : List Char :=
  arms.flatMap fun a => '\n' :: (blanks (2 * indent) ++ a.chars indent "")

/-- The arms of a case are read again, up to the closing brace. -/
theorem attains_caseArms {arms : List Arm} {indent k : Nat} {rest : List Char}
    (harms : ∀ a ∈ arms, RereadsArm d a) (hroom : Room d n ctx s) (hout : ctx.inBrackets = false)
    (hs : s.cursor.rest = armChars arms indent ++ '\n' :: (blanks k ++ '}' :: rest)) :
    Attains (turns n).caseArms ctx s fun as t =>
      as.map Tree.erase = arms.map Tree.erase ∧ t.Shows [] ('}' :: rest) := by
  refine attains_seq (attains_loop_items Tree.erase Array.toList
    (fun _ todo t => t.cursor.rest = armChars todo indent ++ '\n' :: (blanks k ++ '}' :: rest))
    (R := fun _ t => t.Shows [] ('}' :: rest)) rfl hs ?_) fun as t h => attains_pure h
  rintro as (_ | ⟨a, todo⟩) t hsuffix ht hle
  · have hbrace := (ahead_rightBrace rest).blanks k
    refine attains_seq (attains_skipWhile rfl hbrace rfl (.inr ht)) fun _ u hu => ?_
    refine attains_look (hbrace.stands hu).peekKind ?_
    rw [if_pos (by decide)]
    exact attains_pure ⟨by rw [List.append_nil], k, hu⟩
  · have ha := harms a (hsuffix.subset List.mem_cons_self)
    generalize hmore : armChars todo indent ++ '\n' :: (blanks k ++ '}' :: rest) = more
    have ht : t.cursor.rest = '\n' :: (blanks (2 * indent) ++ (a.chars indent "" ++ more)) := by
      rw [ht, ← hmore, armChars, List.flatMap_cons]
      simp [armChars]
    rcases ha.begins indent more with ⟨x, kind, r, htext, hlexed, hkind⟩
    -- A pattern starts with a piece of a word or a parenthesis, so nothing else stands here.
    have hne : ∀ {other : Token.Kind}, other.isWordPiece = false → other ≠ .leftParen →
        kind ≠ other := by
      rintro other hpiece hparen rfl
      rcases hkind with hkind | hkind
      · rw [hpiece] at hkind
        cases hkind
      · exact hparen hkind
    have hahead : Ahead .command (blanks (2 * indent) ++ (a.chars indent "" ++ more)) x kind r := by
      rw [htext]
      exact hlexed.ahead.blanks _
    have hskips : (kind == .newline || kind == .semicolon) = false := by
      rw [beq_eq_false_iff_ne.2 (hne rfl (by decide)),
        beq_eq_false_iff_ne.2 (hne rfl (by decide))]
      rfl
    refine attains_seq (attains_skipWhile rfl hahead hskips (.inr ht)) fun _ u hu => ?_
    refine attains_look (hahead.stands hu).peekKind ?_
    rw [decide_eq_false (hne rfl (by decide)), decide_eq_false (hne rfl (by decide)),
      Bool.or_self, if_neg Bool.false_ne_true]
    have hlt : u.cursor.rest.length < t.cursor.rest.length := by
      rw [hu, ht]
      exact Nat.lt_succ_self _
    have hread : Attains (turns n).armOrNone ctx u fun r v =>
        (∃ b, r = some b ∧ b.erase = a.erase) ∧ v.cursor.rest = more := by
      refine attains_seq (attains_attempt
        (ha.reads n ctx u indent more (hroom.shorter (by omega)) hout ⟨_, hu⟩)) ?_
      rintro _ v ⟨b, rfl, hb⟩
      exact attains_pure ⟨⟨b, rfl, hb.1⟩, hb.2⟩
    refine attains_seq hread ?_
    rintro _ v ⟨⟨b, rfl, hb⟩, hv⟩
    refine attains_pure ⟨⟨a, b, todo, rfl, ?_, hb, hv.trans hmore.symm⟩, ?_⟩
    · rw [Option.toList_some, Array.toList_appendList]
    · rw [hv, ht]
      simp only [List.length_cons, List.length_append]
      omega

/-- A case is read again. -/
theorem rereads_caseOf {subject : Expression} {arms : List Arm} {span : Span}
    (hsubject : RereadsExpression d subject) (harms : ∀ a ∈ arms, RereadsArm d a) :
    RereadsElement d P (.caseOf subject (.ofList arms) span) := by
  refine rereadsElement_of_keyword "case"
    (fun indent => ' ' :: '(' :: (subject.chars indent "" ++ ')' :: ' ' :: '{' ::
      (armChars arms (indent + 1) ++ '\n' :: (blanks (2 * indent) ++ ['}']))))
    (fun g keyword => do
      let subject ← g.parenthesized
      let opening ← expectAs .command .leftBrace .caseBrace
      let arms ← nested (liftM g.caseArms)
      let stop ← closingBraceStop opening.span
      return .caseOf subject (.ofList arms) (keyword.span.upTo stop))
    (by decide) (fun indent => ?_) (fun _ => .inr ⟨_, rfl⟩) (fun _ hword h => ?_)
    fun n ctx s keyword indent rest hroom hout hrest hs => ?_
  · have harms : (Tree.preceded (Tree.lineBreak (indent + 1)) (Tree.ofList arms).isEmpty
        ((Tree.ofList arms).write (indent + 1) (Tree.lineBreak (indent + 1)))).toList
          = armChars arms (indent + 1) := by
      rw [Tree.toList_preceded_between (by simp) (by simp), Tree.toList_ofList,
        Tree.toList_lineBreak]
      rfl
    change ("case (" ++ subject.write indent "" ++ ") \x7b"
      ++ Tree.preceded (Tree.lineBreak (indent + 1)) (Tree.ofList arms).isEmpty
        ((Tree.ofList arms).write (indent + 1) (Tree.lineBreak (indent + 1)))
      ++ Tree.lineBreak indent ++ "\x7d").toList = _
    simp only [String.toList_append, harms, Tree.toList_lineBreak]
    simp [Tree.chars]
  · rw [wordStatement, hword]
    exact h
  · have hs : s.Shows ('(' :: (subject.chars indent "" ++ [')'])) (' ' :: '{' ::
        (armChars arms (indent + 1) ++ '\n' :: (blanks (2 * indent) ++ '}' :: rest))) :=
      .of_blank (by rw [hs]; simp)
    refine attains_onward (attains_parenthesized hsubject hroom.above hs) fun a t ha hle => ?_
    have hbrace : Stands .command ctx t ['{'] .leftBrace _ := (ahead_leftBrace _).blank.stands ha.2
    refine attains_onward (hbrace.expectAs _) fun opening u hu hle' => ?_
    have hinner := ((hroom.shorter hle).shorter hle').inner
    refine attains_seq (attains_nested hinner.1
      (attains_lift (attains_caseArms harms hinner.2 hout hu.2)))
      fun as v has => ?_
    refine attains_seq (attains_lift (attains_closingBraceStop has.2)) fun stop w hw =>
      attains_pure ⟨?_, hw⟩
    simp only [Tree.erase, Tree.erase_ofList, ha.1, has.1]

/-! ## Cases of a source -/

namespace Grammar

variable {D : List Diagnostic} {g : Grammar} [g.Stepwise]

section

variable (hg : g.KeepsExpressions D) (hx : g.KeepsExpansions D)

include hg in
theorem keeps_parenthesizedPattern : Keeps D g.parenthesizedPattern RereadsPattern := by
  intro ctx s hq
  refine ensures_skip fun opening s1 => ensures_peek (ensures_ite (fun _ => ?_) fun _ => ?_)
  · exact ensures_skip fun _ s2 => ensures_skip fun closing s3 => ensures_pure.2 fun _ =>
      rereads_elsePattern
  · exact ensures_seq (keeps_enclosed hg _ _ hq) fun e s2 he => ensures_pure.2 fun _ =>
      he.rereads.pattern

include hx in
theorem keeps_furtherGlob : Keeps D g.furtherGlob fun d r => ∀ w ∈ r, RereadsWord d w := by
  intro ctx s hq
  refine ensures_peekKind (ensures_ite (fun _ => ensures_skip fun _ s1 => ?_) fun _ => ensures_none)
  refine ensures_seq (keeps_word hx hq) fun w s2 hw => ensures_pure.2 fun _ => ?_
  rintro _ ⟨⟩
  exact ⟨_, _, _, hw⟩

include hx in
theorem keeps_globPattern (hq : Quiet ctx.limits D)
    (hslash : (s.next .command ctx).isWord "/" = false) :
    Ensures D g.globPattern ctx s fun p _ => RereadsPattern ctx.definition p := by
  refine ensures_seq (keeps_word hx hq) fun first s1 hfirst => ?_
  refine ensures_seq (ensures_collect (P := RereadsWord ctx.definition) fun s =>
    keeps_furtherGlob hx _ _ hq) fun others s2 hothers => ensures_pure.2 fun _ => ?_
  refine rereads_globPattern hfirst (fun hkind htext => ?_) hothers
  rw [Token.isWord, hkind, String.toList_injective
    (htext.trans (by rfl : ['/'] = "/".toList))] at hslash
  cases hslash

include hg hx

theorem keeps_casePattern : Keeps D g.casePattern RereadsPattern := by
  intro ctx s hq
  refine ensures_peek (ensures_ite (fun _ => keeps_parenthesizedPattern hg _ _ hq) fun _ =>
    ensures_ite (fun _ => ?_) fun hslash => ensures_ite (fun _ =>
      keeps_globPattern hx hq (Bool.eq_false_iff.2 hslash)) fun _ => ensures_unexpected)
  refine ensures_skip fun _ s1 => ensures_seq (ensures_lift (keeps_eggexBody hq)) fun e s2 he => ?_
  exact ensures_pure.2 fun _ => rereads_eggexPattern he

theorem keeps_caseArm (hs : g.KeepsStatements D) : Keeps D g.caseArm RereadsArm := by
  intro ctx s hq
  refine ensures_peek (ensures_seq (keeps_casePattern hg hx _ _ hq) fun pattern s1 hpattern => ?_)
  exact ensures_seq (keeps_block hs _ _ hq) fun body s2 hbody => ensures_pure.2 fun _ =>
    rereads_arm hpattern hbody

theorem keeps_caseArms (hs : g.KeepsStatements D) (hq : Quiet ctx.limits D) :
    Ensures D g.caseArms ctx s fun as _ => ∀ a ∈ as, RereadsArm ctx.definition a := by
  refine ensures_seq (ensures_loop (I := fun as : Array Arm => ∀ a ∈ as.toList,
    RereadsArm ctx.definition a) (by simp) ?_) fun as s1 has => ensures_pure.2 fun _ => has
  intro as s1 has
  refine ensures_skip fun _ s2 =>
    Scan.ensures_peekKind (ensures_ite (fun _ => ensures_pure.2 fun _ => has)
    fun _ => ?_)
  have harm : Ensures D g.armOrNone ctx s2 fun r _ => ∀ a ∈ r, RereadsArm ctx.definition a := by
    refine Moving.ensures_seq (fun r => by cases r <;> infer_instance)
      (ensures_attempt (keeps_caseArm hg hx hs ctx s2 hq)) fun r s3 hr => ?_
    cases r with
    | ok a =>
        refine ensures_pure.2 fun _ => ?_
        rintro _ ⟨⟩
        exact hr a rfl
    | error error => exact ensures_blame hq rfl
  refine ensures_seq harm fun r s3 hr => ensures_pure.2 fun _ => fun a ha => ?_
  rw [Round.value, Array.toList_appendList, List.mem_append, Option.mem_toList] at ha
  exact ha.elim (has a) (hr a)

/-- A case of a source is read again. -/
theorem keeps_caseStatement (hs : g.KeepsStatements D) (hq : Quiet ctx.limits D) :
    Ensures D g.caseStatement ctx s fun e s' => RereadsElement ctx.definition s'.Pipes e := by
  refine ensures_skip fun keyword s1 => ensures_seq (keeps_parenthesized hg _ _ hq)
    fun subject s2 hsubject => ensures_skip fun opening s3 => ?_
  have harms : Ensures D g.caseArms { ctx with depth := ctx.depth + 1 } s3 fun as _ =>
      ∀ a ∈ as, RereadsArm ctx.definition a := keeps_caseArms hg hx hs hq
  refine ensures_seq (ensures_nested fun _ => ensures_lift harms) fun arms s4 harms => ?_
  exact ensures_skip fun stop s5 => ensures_pure.2 fun _ => rereads_caseOf hsubject.rereads harms

end

end Grammar

end Ysh
