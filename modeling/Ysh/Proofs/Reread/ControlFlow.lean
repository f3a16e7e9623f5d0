import Ysh.Proofs.Reread.Routine

/-!
# Reading Printed Loops and Conditions

A condition is printed in front of the brace of a body, and there a call has ended, for a
call that is tested takes no block. What a loop runs over is printed in front of a brace
as well, and so its last word ends.

An `if` looks for further branches past the ends of lines. Where the printed form goes on
with another statement there is none, because no statement starts with the keyword of a
branch; and between the branches of one `if` there are only blanks.

## Main definitions

* `RereadsCondition`, `RereadsIterable`, `RereadsBranch`: The parts of loops and
  conditions are read again.

## Theorems

* `rereads_whileLoop`, `rereads_forLoop`, `rereads_conditional`: Loops and conditions.
* `Grammar.keeps_whileLoop`, `Grammar.keeps_forLoop`, `Grammar.keeps_conditional`: Those of
  a source are read again.
-/

namespace Ysh

open Grammar

variable {d : Option Definition} {P : Prop} {n : Nat} {ctx : Context} {s : State}

/-! ## Conditions -/

/-- Behind the text a block comes next. -/
def EndsHead (rest : List Char) : Prop :=
  ∃ r, rest = ' ' :: '{' :: r

theorem EndsHead.endsCall {rest : List Char} (h : EndsHead rest) : EndsCall false rest := by
  rcases h with ⟨r, rfl⟩
  exact endsCall_leftBrace r

theorem Tree.endsHead_chars_block (b : Block) (indent : Nat) (rest : List Char) :
    EndsHead (' ' :: (b.chars indent "" ++ rest)) := by
  rcases b.chars_block_head indent with ⟨inner, hinner⟩
  exact ⟨inner ++ rest, by rw [hinner]; rfl⟩

/-- A condition is read again, in front of the body. -/
def RereadsCondition (d : Option Definition) (c : Condition) : Prop :=
  Rereads d (·.condition) (c.chars · "") (fun _ => EndsHead) (·.erase = c.erase)

theorem RereadsExpression.condition {e : Expression} (h : RereadsExpression d e) :
    RereadsCondition d (.expressionCondition e) := by
  intro n ctx s indent rest hroom _ hs
  have hchars : (Tree.expressionCondition e).chars indent ""
      = '(' :: (e.chars indent "" ++ [')']) := by
    change ("(" ++ e.write indent "" ++ ")").toList = _
    simp [Tree.chars]
  dsimp only at hs
  rw [hchars] at hs
  have hopen : Stands .command ctx s ['('] .leftParen ((e.chars indent "" ++ [')']) ++ rest) :=
    State.Shows.stands (State.Shows.assoc (x := ['(']) hs) ⟨rfl, rfl⟩ (.inr (.inl rfl))
  refine attains_look hopen.peekKind ?_
  rw [if_pos rfl]
  exact attains_seq (attains_parenthesized h hroom hs) fun a t ha =>
    attains_pure ⟨congrArg Tree.expressionCondition ha.1, ha.2⟩

theorem RereadsCall.condition {kind : Token.Kind} {x : List Char} {short : Prop} {c : CommandCall}
    (h : RereadsCall d false kind x short c) : RereadsCondition d (.commandCondition c) := by
  intro n ctx s indent rest hroom hrest hs
  have hs : s.Shows (c.chars indent "") rest := hs
  rcases h.starts indent rest hrest.endsCall with ⟨tail, htext, hlexed, -⟩
  have hstands : Stands .command ctx s x kind tail := by
    rcases hs with ⟨k, hk⟩
    exact (hlexed.ahead.blanks k).stands (hk.trans (congrArg _ htext))
  refine attains_look hstands.peekKind ?_
  rw [if_neg (by rintro rfl; cases h.piece)]
  exact attains_seq (h.reads n ctx s indent rest hroom hrest.endsCall hs) fun a t ha =>
    attains_pure ⟨congrArg Tree.commandCondition ha.1, ha.2⟩

/-- A condition and the body behind it are read again. -/
theorem attains_tested {α : Type} {condition : Condition} {body : Block}
    {make : Condition → Block → α}
    {result : α → Prop} {indent : Nat} {rest : List Char}
    (hcondition : RereadsCondition d condition)
    (hbody : RereadsBlock d body) (hroom : Room d n ctx s)
    (hs : s.Shows (condition.chars indent "" ++ ' ' :: body.chars indent "") rest)
    (hmake : ∀ {c b}, c.erase = condition.erase → b.erase = body.erase → result (make c b)) :
    Attains (do
      let condition ← (turns n).condition
      let body ← (turns n).block
      return make condition body : Parse α) ctx s fun a t => result a ∧ t.cursor.rest = rest := by
  refine attains_onward (hcondition n ctx s indent _ hroom (body.endsHead_chars_block indent rest)
    hs.assoc) fun c t hc hle => ?_
  exact attains_seq (hbody n ctx t indent rest (hroom.shorter hle) trivial (.of_blank hc.2))
    fun b u hb => attains_pure ⟨hmake hc.1 hb.1, hb.2⟩

/-! ## Loops -/

/-- A loop over a condition is read again. -/
theorem rereads_whileLoop {condition : Condition} {body : Block} {span : Span}
    (hcondition : RereadsCondition d condition) (hbody : RereadsBlock d body) :
    RereadsElement d P (.whileLoop condition body span) := by
  refine rereadsElement_of_keyword "while"
    (fun indent => ' ' :: (condition.chars indent "" ++ ' ' :: body.chars indent ""))
    (fun g keyword => do
      let condition ← g.condition
      let body ← g.block
      return .whileLoop condition body (keyword.span.upTo body.span.stop))
    (by decide) (fun indent => ?_) (fun _ => .inr ⟨_, rfl⟩) (fun _ hword h => ?_)
    fun n ctx s keyword indent rest hroom hout hrest hs => ?_
  · change ("while " ++ condition.write indent "" ++ " " ++ body.write indent "").toList = _
    simp [Tree.chars]
  · rw [wordStatement, hword]
    exact h
  · refine attains_tested hcondition hbody hroom.above (.of_blank hs) fun hc hb => ?_
    rw [Tree.erase, Tree.erase, hc, hb]

/-- The printed names of a loop behind the first one. -/
def nameChars (names : List Identifier) : List Char :=
  names.flatMap fun name => ',' :: ' ' :: name.name.toList

/-- The names that a loop binds are read again, in front of the keyword. -/
theorem attains_loopNames {first : Identifier} {others : List Identifier} {rest : List Char}
    (hnames : ∀ name ∈ first :: others, IsReference name.name.toList)
    (hs : s.cursor.rest = ' ' :: (first.name.toList ++ (nameChars others
      ++ ' ' :: 'i' :: 'n' :: ' ' :: rest))) :
    Attains loopNames ctx s fun names t =>
      names.map Identifier.erase = (first :: others).map Identifier.erase ∧
        t.cursor.rest = ' ' :: 'i' :: 'n' :: ' ' :: rest := by
  have hatom : ∀ todo, EndsAtom (nameChars todo ++ ' ' :: 'i' :: 'n' :: ' ' :: rest) := by
    rintro (_ | ⟨name, todo⟩)
    · exact endsAtom_blank _
    · rintro c ⟨⟩
      decide
  refine attains_seq (attains_bindingName (.of_blank hs) (hnames first List.mem_cons_self)
    (hatom others)) fun a t ha => ?_
  have hmore : Attains (collect furtherName) ctx t fun names u =>
      names.map Identifier.erase = others.map Identifier.erase ∧
        u.cursor.rest = ' ' :: 'i' :: 'n' :: ' ' :: rest := by
    refine attains_collect Identifier.erase (fun todo t => t.cursor.rest
      = nameChars todo ++ ' ' :: 'i' :: 'n' :: ' ' :: rest) ha.2 (fun b todo t hsuffix ht _ => ?_)
      fun t ht _ => ?_
    · have ht : t.cursor.rest = ',' :: (' ' :: (b.name.toList
          ++ (nameChars todo ++ ' ' :: 'i' :: 'n' :: ' ' :: rest))) := by
        rw [ht, nameChars, List.flatMap_cons]
        simp [nameChars]
      refine attains_seq (attains_lift (attains_comma (.of_eq ht))) ?_
      rintro _ u ⟨rfl, hu⟩
      have hb := hnames b (List.mem_cons_of_mem _ (hsuffix.subset List.mem_cons_self))
      refine attains_seq (attains_bindingName (.of_blank hu) hb (hatom todo)) fun c v hc =>
        attains_pure ⟨⟨c, rfl, Identifier.erase_eq (hc.1.trans Identifier.toList_name)⟩, hc.2, ?_⟩
      rw [hc.2, ht]
      simp only [List.length_cons, List.length_append]
      omega
    · have hin : Stands .expression ctx t ['i', 'n'] _ (' ' :: rest) :=
        State.Shows.name ⟨1, ht⟩ (by unfold IsName; decide) (endsAtom_blank rest)
      refine attains_seq (attains_lift (attains_noComma hin (by decide))) ?_
      rintro _ _ ⟨rfl, rfl⟩
      exact attains_pure ⟨rfl, fun names hnames => ⟨hnames, ht⟩⟩
  refine attains_seq hmore fun names u hu => attains_pure ⟨?_, hu.2⟩
  rw [List.map_cons, List.map_cons, Identifier.erase_eq (ha.1.trans Identifier.toList_name), hu.1]

/-- What a loop runs over is read again, in front of the body. -/
def RereadsIterable (d : Option Definition) (i : Iterable) : Prop :=
  ∀ n ctx s indent rest, Room d n ctx s → EndsHead rest →
    s.cursor.rest = ' ' :: (i.chars indent "" ++ rest) →
      Attains (turns n).iterable ctx s fun a t => a.erase = i.erase ∧ t.cursor.rest = rest

/-- What stands in parentheses is read again as what a loop runs over. -/
theorem rereadsIterable_of_parenthesized {i : Iterable} (inner : Nat → List Char)
    (hchars : ∀ indent, i.chars indent "" = '(' :: (inner indent ++ [')']))
    (hreads : ∀ n ctx s indent rest, RoomBelow d n ctx s →
      s.cursor.rest = inner indent ++ ')' :: rest →
        Attains (turns n).rangeOrValue ctx s fun a t =>
          a.erase = i.erase ∧ t.cursor.rest = ')' :: rest) :
    RereadsIterable d i := by
  intro n ctx s indent rest hroom _ hs
  rw [hchars] at hs
  have hopen : Stands .command ctx s ['('] .leftParen ((inner indent ++ [')']) ++ rest) :=
    (ahead_leftParen _).blank.stands hs
  refine attains_look hopen.peekKind ?_
  rw [if_pos rfl]
  refine attains_seq hopen.advance fun opening t ht => ?_
  have hlt : t.cursor.rest.length < s.cursor.rest.length := by
    rw [ht.2.1, hs]
    simp only [List.length_append, List.length_cons]
    omega
  have hroom := (hroom.below hlt).2 true
  refine attains_bracketed hroom.1 ?_
  refine attains_seq (hreads n _ t indent rest hroom.2 (by rw [ht.2.1]; simp)) fun a u ha => ?_
  exact attains_seq ((State.Shows.rightParen (.of_eq ha.2)).expectClosing _) fun token v hv =>
    attains_pure ⟨ha.1, hv.2⟩

theorem RereadsExpression.iterable {e : Expression} (h : RereadsExpression d e) :
    RereadsIterable d (.expressionIterable e) := by
  refine rereadsIterable_of_parenthesized (e.chars · "") (fun indent => ?_)
    fun n ctx s indent rest hroom hs => ?_
  · change ("(" ++ e.write indent "" ++ ")").toList = _
    simp [Tree.chars]
  · have hends : EndsExpression ctx (')' :: rest) := .inr (.inl ⟨')', by decide, rest, rfl⟩)
    refine attains_seq (h.expression hroom hends (.of_eq hs)).2 fun a t ha => ?_
    refine attains_look (State.Shows.rightParen (.of_eq ha.2)).peekKind ?_
    rw [if_neg (by decide)]
    exact attains_pure ⟨congrArg Tree.expressionIterable ha.1, ha.2⟩

/-- A range is read again. Its ends are operands. -/
theorem rereads_rangeIterable {first last : Expression} {span : Span}
    (hfirst : RereadsExpression d first)
    (hlast : RereadsExpression d last) : RereadsIterable d (.rangeIterable first last span) := by
  refine rereadsIterable_of_parenthesized
    (fun indent => (Tree.parenthesize first.isOperation (first.write indent "")).toList
      ++ ' ' :: '.' :: '.' :: '<' :: ' '
        :: (Tree.parenthesize last.isOperation (last.write indent "")).toList) (fun indent => ?_)
    fun n ctx s indent rest hroom hs => ?_
  · change ("(" ++ Tree.parenthesize first.isOperation (first.write indent "") ++ " ..< "
      ++ Tree.parenthesize last.isOperation (last.write indent "") ++ ")").toList = _
    simp
  · rw [List.append_assoc] at hs
    have hread := (hfirst.operand.whole fun _ _ => id).expression hroom
      (.inr (.inr (.inr ⟨_, rfl⟩))) (.of_eq hs)
    refine attains_onward hread.2 fun a t ha hle => ?_
    have hrange : Stands .expression ctx t ['.', '.', '<'] .range (' '
        :: ((Tree.parenthesize last.isOperation (last.write indent "")).toList ++ ')' :: rest)) :=
      State.Shows.stands ⟨1, ha.2⟩ ⟨rfl, rfl⟩ (.inl (by decide))
    refine attains_look hrange.peekKind ?_
    rw [if_pos rfl]
    refine attains_onward (attains_lift hrange.advance) fun _ u hu hle' => ?_
    have hends : EndsExpression ctx (')' :: rest) := .inr (.inl ⟨')', by decide, rest, rfl⟩)
    refine attains_seq ((hlast.operand.whole fun _ _ => id).expression
      ((hroom.shorter hle).shorter hle')
      hends (.of_blank hu.2.1)).2 fun b v hb => attains_pure ⟨?_, hb.2⟩
    rw [Tree.erase, Tree.erase, ha.1, hb.1]

theorem RereadsWord.nextWord {w : Word} (h : RereadsWord d w) :
    Rereads d (·.nextWord) (w.chars · "") (fun _ => EndsWord) fun r =>
      ∃ a, r = some a ∧ a.erase = w.erase := by
  intro n ctx s indent rest hroom hrest hs
  have hs : s.Shows (w.chars indent "") rest := hs
  have hpiece : (s.next .command ctx).kind.isWordPiece = true := by
    rcases h.startsPiece indent hrest with ⟨x, kind, r, htext, hlexed, hpiece⟩
    rcases hs with ⟨k, hk⟩
    rw [((hlexed.ahead.blanks k).stands (hk.trans (congrArg _ htext))).next.1]
    exact hpiece
  refine attains_look (a := (s.next .command ctx).kind) rfl ?_
  rw [if_pos hpiece]
  exact attains_seq (h.reads n ctx s indent rest hroom hrest hs) fun a t ha =>
    attains_pure ⟨⟨a, rfl, ha.1⟩, ha.2⟩

/-- Words that a loop runs over are read again. -/
theorem rereads_wordsIterable {words : List Word} (hne : words ≠ [])
    (hwords : ∀ w ∈ words, RereadsWord d w) :
    RereadsIterable d (.wordsIterable (.ofList words)) := by
  rintro n ctx s indent rest hroom ⟨r, rfl⟩ hs
  have hlist : ' ' :: ((Tree.ofList words).write indent " ").toList = Tree.spaced words indent := by
    have hpreceded := Tree.toList_preceded (by simp) (by simp) (Tree.ofList words) indent
    rcases List.exists_cons_of_ne_nil hne with ⟨w, ws, rfl⟩
    rw [Tree.toList_ofList] at hpreceded
    refine Eq.trans ?_ hpreceded
    change _ = (" " ++ _ : String).toList
    rw [String.toList_append]
    rfl
  have hs : s.cursor.rest = Tree.spaced words indent ++ ' ' :: '{' :: r := by
    rw [hs, ← hlist]
    rfl
  have hends : EndsWord (' ' :: '{' :: r) := ⟨⟨' ', rfl, rfl⟩, _, _, _, (ahead_leftBrace r).blank⟩
  have hpiece : ∃ x kind tail,
      Ahead .command s.cursor.rest x kind tail ∧ kind.isWordPiece = true := by
    rcases List.exists_cons_of_ne_nil hne with ⟨w, ws, rfl⟩
    have hmore : EndsWord (Tree.spaced ws indent ++ ' ' :: '{' :: r) :=
      endsWord_spaced (fun b hb rest hrest =>
        ((hwords b (List.mem_cons_of_mem _ hb)).startsPiece indent hrest).endsWord) hends
    rcases (hwords w List.mem_cons_self).startsPiece indent hmore with
      ⟨x, kind, tail, htext, hlexed, hpiece⟩
    refine ⟨x, kind, tail, ?_, hpiece⟩
    rw [hs, Tree.spaced, List.flatMap_cons, List.append_assoc, List.cons_append, htext]
    exact hlexed.ahead.blank
  rcases hpiece with ⟨x, kind, tail, hahead, hpiece⟩
  refine attains_look (hahead.stands rfl).peekKind ?_
  rw [if_neg (by rintro rfl; cases hpiece)]
  refine attains_seq (attains_spaced (fun b hb rest hrest => ((hwords b hb).startsPiece indent
    hrest).endsWord) hends (fun b hb => (hwords b hb).nextWord) (fun t ht => ?_) hroom hs)
    fun ws t hws => ?_
  · have hbrace : Stands .command ctx t ['{'] .leftBrace r := (ahead_leftBrace r).blank.stands ht
    refine attains_look hbrace.peekKind ?_
    rw [if_neg (by decide)]
    exact attains_pure ⟨rfl, rfl⟩
  · have hsome : ws.isEmpty = false := by
      rcases List.exists_cons_of_ne_nil hne with ⟨w, ws', rfl⟩
      cases ws with
      | nil => cases hws.1
      | cons => rfl
    rw [hsome, if_neg Bool.false_ne_true]
    refine attains_pure ⟨?_, hws.2⟩
    change Tree.wordsIterable (Tree.ofList ws).erase = Tree.wordsIterable (Tree.ofList words).erase
    rw [Tree.erase_ofList, Tree.erase_ofList, hws.1]

/-- A loop that binds names is read again. -/
theorem rereads_forLoop {first : Identifier} {others : List Identifier} {items : Iterable}
    {body : Block} {span : Span} (hnames : ∀ name ∈ first :: others, IsReference name.name.toList)
    (hitems : RereadsIterable d items) (hbody : RereadsBlock d body) :
    RereadsElement d P (.forLoop (first :: others) items body span) := by
  refine rereadsElement_of_keyword "for"
    (fun indent => ' ' :: (first.name.toList ++ (nameChars others
      ++ ' ' :: 'i' :: 'n' :: ' ' :: (items.chars indent "" ++ ' ' :: body.chars indent ""))))
    (fun g keyword => do
      let names ← loopNames
      if !(← peekWord "in") then unexpected .command .inKeyword
      let _ ← advance .command
      let items ← g.iterable
      let body ← g.block
      return .forLoop names items body (keyword.span.upTo body.span.stop))
    (by decide) (fun indent => ?_) (fun _ => .inr ⟨_, rfl⟩) (fun _ hword h => ?_)
    fun n ctx s keyword indent rest hroom hout hrest hs => ?_
  · have hnames : (", ".intercalate ((first :: others).map (·.name))).toList
        = first.name.toList ++ nameChars others := by
      rw [String.toList_intercalate, List.map_cons, List.map_cons, intercalate_cons]
      simp [nameChars, List.flatMap_map]
    unfold Tree.chars
    rw [Tree.write_forLoop]
    simp only [String.toList_append, hnames]
    simp
  · rw [wordStatement, hword]
    exact h
  · have hs : s.cursor.rest = ' ' :: (first.name.toList ++ (nameChars others
        ++ ' ' :: 'i' :: 'n' :: ' ' ::
          (items.chars indent "" ++ ' ' :: (body.chars indent "" ++ rest)))) := by
      rw [hs]
      simp
    refine attains_onward (attains_loopNames hnames hs) fun names t ht hle => ?_
    have hin : Stands .command ctx t ['i', 'n'] .word _ :=
      State.Shows.stands (x := ['i', 'n']) ⟨1, ht.2⟩ ⟨rfl, rfl⟩ (.inr (.inl rfl))
    refine attains_look (hin.peekWord rfl "in") ?_
    refine attains_onward (attains_lift hin.advance) fun _ u hu hle' => ?_
    have hroom := ((hroom.shorter hle).shorter hle').above
    refine attains_onward
      (hitems n ctx u indent _ hroom (body.endsHead_chars_block indent rest) hu.2.1)
      fun i v hi hle => ?_
    refine attains_seq (hbody n ctx v indent rest (hroom.shorter hle) trivial (.of_blank hi.2))
      fun b w hb => attains_pure ⟨?_, hb.2⟩
    simp only [Tree.erase, ht.1, hi.1, hb.1]

/-! ## Branches -/

/-- A branch is read again behind its keyword. -/
def RereadsBranch (d : Option Definition) (b : Branch) : Prop :=
  ∀ keyword, Rereads d (·.branch keyword) (b.chars · "") (fun _ _ => True) (·.erase = b.erase)

theorem rereads_branch {condition : Condition} {body : Block} {span : Span}
    (hcondition : RereadsCondition d condition) (hbody : RereadsBlock d body) :
    RereadsBranch d (.branch condition body span) := by
  intro keyword n ctx s indent rest hroom _ hs
  have hchars : (Tree.branch condition body span).chars indent ""
      = condition.chars indent "" ++ ' ' :: body.chars indent "" := by
    change (condition.write indent "" ++ " " ++ body.write indent "").toList = _
    simp [Tree.chars]
  dsimp only at hs
  rw [hchars] at hs
  refine attains_tested hcondition hbody hroom hs fun hc hb => ?_
  rw [Tree.erase, Tree.erase, hc, hb]

/-- Neither next nor behind a line break comes the word. -/
def LacksWord (word : String) (rest : List Char) : Prop :=
  ∃ whole x kind r, (rest = whole ∨ rest = '\n' :: whole) ∧ Ahead .command whole x kind r ∧
    kind ≠ .newline ∧ (kind = .word → x ≠ word.toList)

/-- Behind an element of a pipeline there is no further branch. -/
theorem EndsElement.lacksWord {rest : List Char} (h : EndsElement P rest) :
    LacksWord "elif" rest ∧ LacksWord "else" rest := by
  have hboth : ∃ whole x kind r, (rest = whole ∨ rest = '\n' :: whole) ∧
      Ahead .command whole x kind r ∧
      kind ≠ .newline ∧ (kind = .word → x ≠ "elif".toList ∧ x ≠ "else".toList) := by
    rcases h with (⟨k, whole, rfl, hwhole⟩ | ⟨r, rfl⟩ | ⟨r, rfl⟩) | ⟨-, r, rfl⟩
    · rcases hwhole with rfl | ⟨r, rfl⟩ | ⟨x, kind, r, rfl, hlexed, hpiece, hfree⟩
      · exact ⟨_, _, _, _, .inr rfl, ahead_endOfInput.blanks k, by decide, nofun⟩
      · exact ⟨_, _, _, _, .inr rfl, (ahead_rightBrace r).blanks k, by decide, nofun⟩
      · refine ⟨_, x, kind, r, .inr rfl, hlexed.ahead.blanks k, ?_, hfree⟩
        rintro rfl
        cases hpiece
    · exact ⟨_, _, _, _, .inl rfl, ahead_semicolon r, by decide, nofun⟩
    · exact ⟨_, _, _, _, .inl rfl, ahead_rightParen r, by decide, nofun⟩
    · exact ⟨_, _, _, _, .inl rfl, ahead_pipe _, by decide, nofun⟩
  rcases hboth with ⟨whole, x, kind, r, hrest, hahead, hkind, hfree⟩
  exact ⟨⟨whole, x, kind, r, hrest, hahead, hkind, fun hword => (hfree hword).1⟩,
    whole, x, kind, r, hrest, hahead, hkind, fun hword => (hfree hword).2⟩

/-- There is no branch where its keyword is not. -/
theorem attains_noBranch {word : String} (h : LacksWord word s.cursor.rest) :
    Attains (branchKeyword word) ctx s fun r t => r = none ∧ t = s := by
  rcases h with ⟨whole, x, kind, r, hrest, hahead, hkind, hfree⟩
  have hcomes : Attains (ahead (do skipNewlines; peekWord word)) ctx s fun b t =>
      b = false ∧ t = s := by
    refine attains_ahead (attains_seq
      (attains_skipWhile rfl hahead (beq_eq_false_iff_ne.2 hkind) hrest)
      fun _ t ht => ?_)
    refine ⟨_, t, (hahead.stands ht).peekWord rfl word, rfl,
      Bool.eq_false_iff.2 fun hboth => ?_, rfl⟩
    rw [Bool.and_eq_true, beq_iff_eq, beq_iff_eq] at hboth
    refine hfree hboth.1 ?_
    rw [← hboth.2, String.toList_ofList]
  refine attains_seq hcomes ?_
  rintro _ t ⟨rfl, rfl⟩
  exact attains_pure ⟨rfl, rfl⟩

/-- The keyword of a branch is read again behind a blank. -/
theorem attains_branchKeyword {word : String} {rest : List Char}
    (hlexed : Lexed .command word.toList .word (' ' :: rest))
    (hs : s.cursor.rest = ' ' :: (word.toList ++ ' ' :: rest)) :
    Attains (branchKeyword word) ctx s fun r t =>
      (∃ k, r = some k) ∧ t.cursor.rest = ' ' :: rest := by
  have hahead : Ahead .command s.cursor.rest word.toList .word (' ' :: rest) := by
    rw [hs]
    exact hlexed.ahead.blank
  have hskip : Attains skipNewlines ctx s fun _ t => t.cursor.rest = s.cursor.rest :=
    attains_skipWhile rfl hahead rfl (.inl rfl)
  have hcomes : Attains (ahead (do skipNewlines; peekWord word)) ctx s fun b t =>
      b = true ∧ t = s := by
    refine attains_ahead (attains_seq hskip fun _ t ht => ?_)
    refine ⟨_, t, (hahead.stands ht).peekWord rfl word, rfl, ?_, rfl⟩
    simp
  refine attains_seq hcomes ?_
  rintro _ t ⟨rfl, rfl⟩
  refine attains_seq hskip fun _ u hu => ?_
  exact attains_seq (hahead.stands hu).advance fun k v hv => attains_pure ⟨⟨k, rfl⟩, hv.2.1⟩

/-- The printed branches of an `if` behind the first one. -/
def elifChars (branches : List Branch) (indent : Nat) : List Char :=
  branches.flatMap fun b => ' ' :: ("elif".toList ++ ' ' :: b.chars indent "")

/-- The printed last branch of an `if`, which tests nothing. -/
def elseChars (otherwise : Option Block) (indent : Nat) : List Char :=
  otherwise.elim [] fun b => ' ' :: ("else".toList ++ ' ' :: b.chars indent "")

section

variable {others : List Branch} {otherwise : Option Block} {indent : Nat} {rest : List Char}

/-- The branches behind the first one are read again. -/
theorem attains_elifBranches (hothers : ∀ b ∈ others, RereadsBranch d b) (hroom : Room d n ctx s)
    (hrest : LacksWord "elif" rest)
    (hs : s.cursor.rest = elifChars others indent ++ (elseChars otherwise indent ++ rest)) :
    Attains (collect (turns n).elifBranch) ctx s fun bs t =>
      bs.map Tree.erase = others.map Tree.erase ∧
        t.cursor.rest = elseChars otherwise indent ++ rest := by
  refine attains_collect Tree.erase (fun todo t => t.cursor.rest
    = elifChars todo indent ++ (elseChars otherwise indent ++ rest)) hs
    (fun b todo t hsuffix ht hle => ?_) fun t ht _ => ?_
  · have ht : t.cursor.rest = ' ' :: ("elif".toList ++ ' ' :: (b.chars indent ""
        ++ (elifChars todo indent ++ (elseChars otherwise indent ++ rest)))) := by
      rw [ht, elifChars, List.flatMap_cons]
      simp [elifChars]
    have hread : Attains (turns n).elifBranch ctx t fun r u =>
        (∃ a, r = some a ∧ a.erase = b.erase) ∧
        u.cursor.rest = elifChars todo indent ++ (elseChars otherwise indent ++ rest) := by
      refine attains_onward (attains_lift (attains_branchKeyword ⟨rfl, rfl⟩ ht)) ?_
      rintro _ u ⟨⟨k, rfl⟩, hu⟩ hle'
      exact attains_seq (hothers b (hsuffix.subset List.mem_cons_self) k n ctx u indent _
        ((hroom.shorter hle).shorter hle') trivial (.of_blank hu)) fun a v ha =>
          attains_pure ⟨⟨a, rfl, ha.1⟩, ha.2⟩
    refine hread.mono fun r u hr => ⟨hr.1, hr.2, ?_⟩
    rw [hr.2, ht]
    simp only [List.length_cons, List.length_append]
    omega
  · -- Behind the branches stands the last one, or else the rest, and no further branch.
    have hlacks : LacksWord "elif" t.cursor.rest := by
      rw [ht]
      cases otherwise with
      | none => exact hrest
      | some b =>
          have hlexed : Lexed .command "else".toList .word
              (' ' :: (b.chars indent "" ++ rest)) := ⟨rfl, rfl⟩
          refine ⟨_, "else".toList, .word, _, .inl ?_, hlexed.ahead.blank, by decide,
            fun _ => by decide⟩
          simp [elifChars, elseChars]
    refine attains_seq (attains_lift (attains_noBranch hlacks)) ?_
    rintro _ u ⟨rfl, rfl⟩
    exact attains_pure ⟨rfl, fun bs hbs => ⟨hbs, ht⟩⟩

/-- The last branch is read again. -/
theorem attains_elseBody (hotherwise : ∀ b ∈ otherwise, RereadsBlock d b) (hroom : Room d n ctx s)
    (hrest : LacksWord "else" rest) (hs : s.cursor.rest = elseChars otherwise indent ++ rest) :
    Attains (turns n).elseBody ctx s fun r t =>
      r.map Tree.erase = otherwise.map Tree.erase ∧ t.cursor.rest = rest := by
  cases otherwise with
  | none =>
      have hs : s.cursor.rest = rest := hs
      refine attains_seq (attains_lift (attains_noBranch (hs ▸ hrest))) ?_
      rintro _ t ⟨rfl, rfl⟩
      exact attains_pure ⟨rfl, hs⟩
  | some b =>
      have hs : s.cursor.rest = ' ' :: ("else".toList ++ ' ' :: (b.chars indent "" ++ rest)) := by
        rw [hs]
        simp [elseChars]
      refine attains_onward (attains_lift (attains_branchKeyword ⟨rfl, rfl⟩ hs)) ?_
      rintro _ t ⟨⟨k, rfl⟩, ht⟩ hle
      exact attains_seq (hotherwise b rfl n ctx t indent rest (hroom.shorter hle) trivial
        (.of_blank ht))
        fun a u ha => attains_pure ⟨congrArg some ha.1, ha.2⟩

end

/-- Branches of which at most one runs are read again. -/
theorem rereads_conditional {first : Branch} {others : List Branch} {otherwise : Option Block}
    {span : Span} (hbranches : ∀ b ∈ first :: others, RereadsBranch d b)
    (hotherwise : ∀ b ∈ otherwise, RereadsBlock d b) :
    RereadsElement d P (.conditional (.ofList (first :: others)) (.ofOption otherwise) span) := by
  refine rereadsElement_of_keyword "if"
    (fun indent => ' ' :: (first.chars indent "" ++ (elifChars others indent
      ++ elseChars otherwise indent)))
    (fun g keyword => do
      let first ← g.branch keyword
      let others ← collect g.elifBranch
      let otherwise ← g.elseBody
      return .conditional (.ofList (first :: others)) (.ofOption otherwise)
        (keyword.span.upTo (← position)))
    (by decide) (fun indent => ?_) (fun _ => .inr ⟨_, rfl⟩) (fun _ hword h => ?_)
    fun n ctx s keyword indent rest hroom hout hrest hs => ?_
  · have hlist : ((Tree.ofList (first :: others)).write indent " elif ").toList
        = first.chars indent "" ++ elifChars others indent := by
      have hchars := Tree.chars_ofList (by simp) (by simp) (first :: others) indent " elif "
      rw [List.map_cons, intercalate_cons, List.flatMap_map] at hchars
      exact hchars
    have helse : (Tree.preceded " else " (Tree.ofOption otherwise).isEmpty
        ((Tree.ofOption otherwise).write indent "")).toList = elseChars otherwise indent := by
      cases otherwise <;>
        simp [Tree.ofOption, Tree.preceded, Tree.isEmpty, Tree.write, Tree.chars, elseChars]
    change (("if " ++ (Tree.ofList (first :: others)).write indent " elif ")
      ++ Tree.preceded " else " (Tree.ofOption otherwise).isEmpty
        ((Tree.ofOption otherwise).write indent "")).toList = _
    rw [String.toList_append, String.toList_append, hlist, helse, List.append_assoc,
      List.append_assoc]
    rfl
  · rw [wordStatement, hword]
    exact h
  · have hs : s.cursor.rest = ' ' :: (first.chars indent "" ++ (elifChars others indent
        ++ (elseChars otherwise indent ++ rest))) := by
      rw [hs]
      simp
    have hlacks := hrest.lacksWord
    have hroom := hroom.above
    refine attains_onward (hbranches first List.mem_cons_self keyword n ctx s indent _ hroom trivial
      (.of_blank hs)) fun a t ha hle => ?_
    have hroom := hroom.shorter hle
    refine attains_onward
      (attains_elifBranches (fun b hb => hbranches b (List.mem_cons_of_mem _ hb)) hroom
      hlacks.1 ha.2) fun bs u hbs hle => ?_
    refine attains_seq (attains_elseBody hotherwise (hroom.shorter hle) hlacks.2 hbs.2)
      fun r v hr => ?_
    refine attains_look (a := v.cursor.offset) rfl (attains_pure ⟨?_, hr.2⟩)
    simp only [Tree.erase, Tree.erase_ofList, Tree.erase_ofOption, List.map_cons, ha.1, hbs.1, hr.1]

/-! ## Loops and conditions of a source -/

namespace Grammar

variable {D : List Diagnostic} {g : Grammar} [g.Stepwise] (hg : g.KeepsExpressions D)
  (hx : g.KeepsExpansions D) (hs : g.KeepsStatements D)

include hg in
theorem keeps_rangeOrValue : Keeps D g.rangeOrValue RereadsIterable := by
  intro ctx s hq
  refine ensures_seq (hg hq) fun first s1 hfirst => ensures_peekKind (ensures_ite (fun _ => ?_)
    fun _ => ensures_pure.2 fun _ => hfirst.1.rereads.iterable)
  exact ensures_skip fun _ s2 => ensures_seq (hg hq) fun last s3 hlast => ensures_pure.2 fun _ =>
    rereads_rangeIterable hfirst.1.rereads hlast.1.rereads

include hx in
theorem keeps_nextWord : Keeps D g.nextWord fun d r => ∀ w ∈ r, RereadsWord d w := by
  intro ctx s hq
  refine ensures_peekKind (ensures_ite (fun _ => ?_) fun _ => ensures_none)
  refine ensures_seq (keeps_word hx hq) fun w s1 hw => ensures_pure.2 fun _ => ?_
  rintro _ ⟨⟩
  exact ⟨_, _, _, hw⟩

include hg hx in
theorem keeps_iterable : Keeps D g.iterable RereadsIterable := by
  intro ctx s hq
  refine ensures_peekKind (ensures_ite (fun _ => ?_) fun _ => ?_)
  · refine ensures_skip fun opening s1 => ensures_bracketed fun _ => ?_
    refine ensures_seq (keeps_rangeOrValue hg _ _ hq) fun i s2 hi => ?_
    exact ensures_skip fun _ s3 => ensures_pure.2 fun _ => hi
  · refine ensures_seq (ensures_collect (P := RereadsWord ctx.definition) fun s =>
      keeps_nextWord hx _ _ hq)
      fun words s1 hwords => ensures_ite (fun _ => ensures_unexpected) fun hne =>
        ensures_pure.2 fun _ => rereads_wordsIterable (fun hnil => hne (by rw [hnil]; rfl)) hwords

theorem keeps_loopNames : Keeps D loopNames fun _ names =>
    ∃ first others, names = first :: others ∧
      ∀ name ∈ first :: others, IsReference name.name.toList := by
  intro ctx s hq
  refine ensures_seq (keeps_bindingName _ _ hq) fun first s1 hfirst => ?_
  refine ensures_seq (ensures_collect (P := fun name : Identifier => IsReference name.name.toList)
    fun s => ?_) fun others s2 hothers => ensures_pure.2 fun _ =>
      ⟨first, others, rfl, List.forall_mem_cons.2 ⟨hfirst, hothers⟩⟩
  refine ensures_skip fun b s1 => ensures_ite (fun _ => ?_) fun _ => ensures_none
  refine ensures_seq (keeps_bindingName _ _ hq) fun name s2 hname => ensures_pure.2 fun _ => ?_
  rintro _ ⟨⟩
  exact hname

include hg hx in
/-- A loop of a source is read again. -/
theorem keeps_forLoop (hs : g.KeepsStatements D) (hq : Quiet ctx.limits D) :
    Ensures D g.forLoop ctx s fun e s' => RereadsElement ctx.definition s'.Pipes e := by
  refine ensures_skip fun keyword s1 => ensures_seq (keeps_loopNames _ _ hq) ?_
  rintro _ s2 ⟨first, others, rfl, hnames⟩
  refine ensures_skip fun b s3 => ensures_ite (fun _ => ensures_bind (ensures_unexpected (s := s3)))
    fun _ => ensures_skip fun _ s4 => ?_
  refine ensures_seq (keeps_iterable hg hx _ _ hq) fun items s5 hitems => ?_
  exact ensures_seq (keeps_block hs _ _ hq) fun body s6 hbody => ensures_pure.2 fun _ =>
    rereads_forLoop hnames hitems hbody

include hg hx hs

theorem keeps_condition : Keeps D g.condition RereadsCondition := by
  intro ctx s hq
  refine ensures_peekKind (ensures_ite (fun _ => ?_) fun _ => ?_)
  · exact ensures_seq (keeps_parenthesized hg _ _ hq) fun e s1 he => ensures_pure.2 fun _ =>
      he.rereads.condition
  · exact ensures_seq (keeps_commandCall hg hx hs hq false) fun c s1 hc => ensures_pure.2 fun _ =>
      hc.condition

theorem keeps_branch (keyword : Token) : Keeps D (g.branch keyword) RereadsBranch := by
  intro ctx s hq
  refine ensures_seq (keeps_condition hg hx hs _ _ hq) fun condition s1 hcondition => ?_
  exact ensures_seq (keeps_block hs _ _ hq) fun body s2 hbody => ensures_pure.2 fun _ =>
    rereads_branch hcondition hbody

variable (hq : Quiet ctx.limits D)
include hq

theorem keeps_whileLoop : Ensures D g.whileLoop ctx s fun e s' =>
    RereadsElement ctx.definition s'.Pipes e := by
  refine ensures_skip fun keyword s1 => ensures_seq (keeps_condition hg hx hs _ _ hq)
    fun condition s2 hcondition => ?_
  exact ensures_seq (keeps_block hs _ _ hq) fun body s3 hbody => ensures_pure.2 fun _ =>
    rereads_whileLoop hcondition hbody

omit hq in
theorem keeps_elifBranch : Keeps D g.elifBranch fun d r => ∀ b ∈ r, RereadsBranch d b := by
  intro ctx s hq
  refine Moving.ensures_skip (fun r => by cases r <;> infer_instance) fun r s1 => ?_
  cases r with
  | none => exact ensures_none
  | some keyword =>
      refine ensures_seq (keeps_branch hg hx hs keyword _ _ hq) fun b s2 hb =>
        ensures_pure.2 fun _ => ?_
      rintro _ ⟨⟩
      exact hb

omit hq hg hx in
theorem keeps_elseBody : Keeps D g.elseBody fun d r => ∀ b ∈ r, RereadsBlock d b := by
  intro ctx s hq
  refine Moving.ensures_skip (fun r => by cases r <;> infer_instance) fun r s1 => ?_
  cases r with
  | none => exact ensures_none
  | some keyword =>
      refine ensures_seq (keeps_block hs _ _ hq) fun b s2 hb => ensures_pure.2 fun _ => ?_
      rintro _ ⟨⟩
      exact hb

theorem keeps_conditional : Ensures D g.conditional ctx s fun e s' =>
    RereadsElement ctx.definition s'.Pipes e := by
  refine ensures_skip fun keyword s1 => ensures_seq (keeps_branch hg hx hs _ _ _ hq)
    fun first s2 hfirst => ?_
  refine ensures_seq (ensures_collect (P := RereadsBranch ctx.definition) fun s =>
    keeps_elifBranch hg hx hs _ _ hq) fun others s3 hothers => ?_
  refine ensures_seq (keeps_elseBody hs _ _ hq) fun otherwise s4 hotherwise => ensures_position
    (ensures_pure.2 fun _ => ?_)
  exact rereads_conditional (List.forall_mem_cons.2 ⟨hfirst, hothers⟩) hotherwise

end Grammar

end Ysh
