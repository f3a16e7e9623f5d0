import Ysh.Proofs.Reread.Word

/-!
# Reading Printed Primaries

The primaries that go on in a way of their own: eggexes, strings, lists of words and
expansions. An eggex and the name of a braced expansion are raw text, and end by
themselves. Words between blanks end in front of the blanks.

## Main definitions

* `RereadsDefault`: The default of a braced expansion is read again.
* `defaultChars`: What is printed of it.

## Theorems

* `rereads_eggex`, `rereads_character`, `rereads_stringLiteral`, `rereads_wordList`,
  `rereads_expansionExpression`: The primaries.
* `rereads_stringKey`: A string as a key of a dict.
* `rereads_braced`: A braced expansion, with a default or without one.
* `Grammar.keeps_eggexBody`, `Grammar.keeps_wordListBody`, `Grammar.keeps_bracedBody`: Those
  of a source are read again.
-/

namespace Ysh

open Grammar

variable {d : Option Definition} {n : Nat} {ctx : Context} {s : State}

/-! ## Eggexes -/

/-- A pattern is read again behind its slash. -/
theorem attains_eggexBody {pattern : String} (h : Eggex.IsPattern pattern) {opening : Span}
    {rest : List Char} (hs : s.cursor.rest = Eggex.printedBody pattern ++ rest) :
    Attains (eggexBody opening) ctx s fun e t => e.pattern = pattern ∧ t.cursor.rest = rest := by
  have hread := Cursor.eggexBody_of_isPattern h rest s.cursor.offset
  rw [← hs] at hread
  refine attains_seq (attains_raw
    (Q := fun r t => r = (pattern, true) ∧ t.cursor.rest = rest) ?_) ?_
  · rw [hread]
    exact ⟨rfl, rfl⟩
  · rintro r t ⟨rfl, ht⟩
    exact attains_look (a := t.cursor.offset) rfl (attains_pure ⟨rfl, ht⟩)

theorem Eggex.erase_eq {e e' : Eggex} (h : e'.pattern = e.pattern) : e'.erase = e.erase := by
  unfold Eggex.erase
  rw [h]

/-- An eggex is read again. -/
theorem rereads_eggex {e : Eggex} (h : Eggex.IsPattern e.pattern) :
    RereadsExpression d (.literalExpression (.eggexLiteral e)) := by
  refine .of_primary fun n ctx s indent rest hroom hrest hs => ?_
  have htext : (Tree.literalExpression (.eggexLiteral e)).chars indent ""
      = ['/'] ++ Eggex.printedBody e.pattern := Cursor.toList_writeEggex e
  rw [htext] at hs
  have hslash : Stands .expression ctx s ['/'] (.operator .divide)
      (Eggex.printedBody e.pattern ++ rest) := hs.assoc.stands ⟨rfl, rfl⟩ (.inl (by decide))
  refine attains_look (a := s.next .expression ctx) rfl ?_
  dsimp only
  rw [hslash.next.1]
  refine attains_seq hslash.advance fun token t ht => ?_
  refine attains_seq (attains_lift (attains_eggexBody h ht.2.1)) fun e' u he =>
    attains_pure ⟨?_, he.2⟩
  rw [Tree.erase, Tree.erase, Tree.erase, Tree.erase, Eggex.erase_eq he.1]

/-! ## Characters and strings -/

/-- A character literal is read again. -/
theorem rereads_character {x rest : List Char} {span : Span}
    (h : Lexed .expression x .character rest) :
    RereadsExpression d (.literalExpression (.character (.ofList x) span)) := by
  have htext : ∀ indent,
      (Tree.literalExpression (.character (.ofList x) span)).chars indent "" = x :=
    fun _ => String.toList_ofList
  refine .of_primary fun n ctx s indent rest' hroom hrest hs => ?_
  rw [htext] at hs
  have hstands : Stands .expression ctx s x .character rest' :=
    hs.stands (h.character_of_ends hrest.atom) (.inl (by decide))
  refine attains_look (a := s.next .expression ctx) rfl ?_
  dsimp only
  rw [hstands.next.1, hstands.next.2.1]
  exact attains_seq hstands.advance fun token t ht => attains_pure ⟨rfl, ht.2.1⟩

/-- A string is read again where an expression is looked for. -/
theorem RereadsString.attains {style : StringStyle} {triple : Bool} {after : List Char}
    {str : StringLiteral} (h : RereadsString d style triple after str) (mode : Mode) {indent : Nat}
    {rest : List Char} (hroom : Room d n ctx s) (hrest : Resumes after rest)
    (hs : s.Shows (str.chars indent "") rest) :
    (s.next mode ctx).kind = .quote style triple ∧
      Attains (advance mode) ctx s fun token t => token = s.next mode ctx ∧
        ∀ opening, Attains ((turns n).stringBody style triple opening) ctx t fun a u =>
          a.erase = str.erase ∧ u.cursor.rest = rest := by
  rcases h with ⟨tail, htext, hreads⟩
  rcases hreads indent rest hrest with ⟨hlexed, hread⟩
  rw [htext] at hs
  have hstands : Stands mode ctx s _ (.quote style triple) (tail indent ++ rest) :=
    hs.assoc.stands (hlexed mode) (.inl (by simp))
  refine ⟨hstands.next.1, hstands.advance.mono fun token t ht =>
    ⟨ht.1, fun opening => hread n ctx t opening (hroom.shorter ?_) ht.2.1⟩⟩
  have hle := hs.length_le
  rw [ht.2.1]
  simp only [List.length_append] at hle ⊢
  omega

/-- A string is read again as an expression. -/
theorem rereads_stringLiteral {style : StringStyle} {triple : Bool} {after : List Char}
    {str : StringLiteral} (h : RereadsString d style triple after str) :
    RereadsExpression d (.literalExpression (.stringLiteral str)) := by
  refine .of_primary fun n ctx s indent rest hroom hrest hs => ?_
  rcases h.attains .expression hroom (EndsObject.resumes hrest after) hs with
    ⟨hkind, hadvance⟩
  refine attains_look (a := s.next .expression ctx) rfl ?_
  dsimp only
  rw [hkind]
  refine attains_seq hadvance fun token t ht => ?_
  refine attains_seq (attains_lift (ht.2 _)) fun a u ha => attains_pure ⟨?_, ha.2⟩
  exact congrArg (fun s => Tree.literalExpression (.stringLiteral s)) ha.1

/-- A string is read again as a key. -/
theorem rereads_stringKey {style : StringStyle} {triple : Bool} {after : List Char}
    {str : StringLiteral} (h : RereadsString d style triple after str) :
    RereadsKey d (.stringKey str) := by
  intro n ctx s indent rest hroom hs
  have hcolon : Resumes after (':' :: ' ' :: rest) := by
    refine .inr ?_
    rintro c ⟨⟩
    decide
  rcases h.attains .expression hroom.above hcolon hs with ⟨hkind, hadvance⟩
  refine ⟨by rw [hkind]; rfl, attains_look (a := s.next .expression ctx) rfl ?_⟩
  rw [hkind]
  refine attains_seq hadvance fun token t ht => ?_
  exact attains_seq (attains_lift (ht.2 _)) fun a u ha =>
    attains_pure ⟨congrArg Tree.stringKey ha.1, ha.2⟩

/-! ## Expansions -/

/-- An expansion is read again as an expression. -/
theorem rereads_expansionExpression {o : Opener} {x after : List Char} {e : Expansion}
    (h : RereadsExpansion d o x after e) : RereadsExpression d (.expansionExpression e) := by
  refine .of_primary fun n ctx s indent rest hroom hrest hs => ?_
  rcases h with ⟨tail, htext, hreads⟩
  rcases hreads indent rest (EndsObject.resumes hrest after) with ⟨hopens, hread⟩
  have hs : s.Shows (e.chars indent "") rest := hs
  rw [htext] at hs
  have hstands : Stands .expression ctx s x (.opener o) (tail indent ++ rest) :=
    hs.assoc.stands (Lexed.opener_iff.2 hopens) (.inl (by simp))
  refine attains_look (a := s.next .expression ctx) rfl ?_
  dsimp only
  rw [hstands.next.1]
  refine attains_seq hstands.advance fun token t ht => ?_
  refine attains_seq (hread n ctx t _ (hroom.behind ?_) hstands.next.2.1 ht.2.1) fun a u ha =>
    attains_pure ⟨congrArg Tree.expansionExpression ha.1, ha.2⟩
  have hle := hs.length_le
  rw [ht.2.1]
  simp only [List.length_append] at hle ⊢
  omega

/-- The default of a braced expansion: nothing at all, or a word. -/
def RereadsDefault (d : Option Definition) (default : Option Word) : Prop :=
  ∀ w, default = some w → (∃ span, w = .word .nil span) ∨ RereadsWord d w

/-- What is printed between the name of a braced expansion and its closing brace. -/
def defaultChars (default : Option Word) (indent : Nat) : List Char :=
  match default with
  | some w => ':' :: '-' :: w.chars indent ""
  | none => []

theorem endsWord_rightBrace (rest : List Char) : EndsWord ('}' :: rest) :=
  ⟨⟨'}', rfl, rfl⟩, ['}'], .rightBrace, rest, 0, rfl, rfl, rfl⟩

theorem attains_closingBrace {rest : List Char} (hs : s.cursor.rest = '}' :: rest) :
    Attains closingBrace ctx s fun found t => found = true ∧ t.cursor.rest = rest := by
  refine attains_raw ?_
  unfold Cursor.closingBrace?
  rw [hs]
  refine ⟨rfl, ?_⟩
  change s.cursor.rest.drop 1 = rest
  rw [hs]
  rfl

/-- Whether the closing brace comes next can be seen from the text. -/
theorem attains_atClosingBrace (found : Bool)
    (h : found = true ↔ s.cursor.rest.head? = some '}') :
    Attains atClosingBrace ctx s fun a t => a = found ∧ t = s := by
  refine attains_ahead (Q := fun a t => a = found ∧ t = s) (attains_raw ⟨?_, rfl⟩)
  change s.cursor.closingBrace?.1.isSome = found
  unfold Cursor.closingBrace?
  split
  · next r hr =>
      rw [hr] at h
      exact (h.2 rfl).symm
  · next hr =>
      refine (Bool.eq_false_iff.2 fun hfound => ?_).symm
      rcases List.head?_eq_some_iff.1 (h.1 hfound) with ⟨r, hr'⟩
      exact hr r hr'

theorem StartsPiece.head?_ne {whole : List Char} (h : StartsPiece whole) {c : Char}
    (hc : c ∈ nonWordStarts) : whole.head? ≠ some c := by
  rcases h with ⟨x, kind, r, rfl, hlexed, hpiece⟩
  rcases hlexed.head_of_isWordPiece hpiece with ⟨c', y, rfl, hnot⟩
  rintro ⟨⟩
  exact hnot hc

/-- A default is read again in front of the closing brace. -/
theorem attains_bracedDefault {default : Option Word} (h : RereadsDefault d default)
    {indent : Nat} {rest : List Char} (hroom : Room d n ctx s)
    (hs : s.cursor.rest = defaultChars default indent ++ '}' :: rest) :
    Attains (turns n).bracedDefault ctx s fun a t =>
      a.map Tree.erase = default.map Tree.erase ∧ t.cursor.rest = '}' :: rest := by
  cases default with
  | none =>
      have hmark : Attains defaultMark ctx s fun found t => found = false ∧ t = s := by
        refine attains_raw ?_
        unfold Cursor.defaultMark
        rw [hs]
        exact ⟨rfl, rfl⟩
      refine attains_seq (attains_lift hmark) ?_
      rintro _ _ ⟨rfl, rfl⟩
      exact attains_pure ⟨rfl, hs⟩
  | some w =>
      have hs : s.cursor.rest = ':' :: '-' :: (w.chars indent "" ++ '}' :: rest) := hs
      have hmark : Attains defaultMark ctx s fun found t => found = true ∧
          t.cursor.rest = w.chars indent "" ++ '}' :: rest := by
        refine attains_raw ?_
        unfold Cursor.defaultMark
        rw [hs]
        refine ⟨rfl, ?_⟩
        change s.cursor.rest.drop 2 = _
        rw [hs]
        rfl
      refine attains_seq (attains_lift hmark) ?_
      rintro _ t ⟨rfl, ht⟩
      have hle : t.cursor.rest.length ≤ s.cursor.rest.length := by
        rw [ht, hs, List.length_cons, List.length_cons]
        omega
      rw [if_pos rfl]
      refine attains_look (x := liftM (position : Scan Nat)) (a := t.cursor.offset) rfl ?_
      rcases h w rfl with ⟨span, rfl⟩ | hword
      · refine attains_seq (attains_lift (attains_atClosingBrace true ?_)) ?_
        · rw [ht]
          exact ⟨fun _ => rfl, fun _ => rfl⟩
        · rintro _ _ ⟨rfl, rfl⟩
          exact attains_pure ⟨rfl, ht⟩
      · refine attains_seq (attains_lift (attains_atClosingBrace false ?_)) ?_
        · rw [ht]
          refine ⟨nofun, fun hhead => absurd hhead ?_⟩
          exact (hword.startsPiece indent (endsWord_rightBrace rest)).head?_ne (by decide)
        · rintro _ _ ⟨rfl, rfl⟩
          refine attains_seq (hword.reads n ctx _ indent _ (hroom.shorter hle)
            (endsWord_rightBrace rest) (.of_eq ht)) fun a u ha => attains_pure ⟨?_, ha.2⟩
          exact congrArg some ha.1

/-- What stands behind the name between braces is no part of it. -/
theorem defaultChars_head (default : Option Word) (indent : Nat) (rest : List Char) :
    ∀ c, (defaultChars default indent ++ '}' :: rest).head? = some c →
      Character.isNamePart c = false := by
  cases default <;>
  · rintro c ⟨⟩
    decide

/-- A braced expansion is read again. -/
theorem rereads_braced {name behind after : List Char} {default : Option Word} {span : Span}
    (hname : BracedName.length? (name ++ behind) = some name.length)
    (hdefault : RereadsDefault d default) :
    RereadsExpansion d .brace ['$', '{'] after
      (.braced (.ofList name) (.ofOption default) span) := by
  refine ⟨fun indent => name ++ (defaultChars default indent ++ ['}']), fun indent => ?_,
    fun indent rest hrest => ⟨opens_brace _, fun n ctx s token hroom htoken hs => ?_⟩⟩
  · change ("$\x7b" ++ String.ofList name ++ Tree.preceded ":-" (Tree.ofOption default).isEmpty
      ((Tree.ofOption default).write indent "") ++ "\x7d").toList = _
    cases default <;>
      simp [defaultChars, Tree.preceded, Tree.ofOption, Tree.isEmpty, Tree.chars, Tree.write]
  · rcases hroom.inner (Nat.le_refl _) with ⟨n, rfl, hroom, -⟩
    have hs : s.cursor.rest = name ++ (defaultChars default indent ++ '}' :: rest) := by
      rw [hs]
      simp
    have hread : Attains bracedName ctx s fun a t => (∃ span, a = some (.ofList name, span)) ∧
        t.cursor.rest = defaultChars default indent ++ '}' :: rest := by
      have hlength := BracedName.length?_append hname (defaultChars_head default indent rest)
      refine attains_raw ?_
      unfold Cursor.bracedName?
      rw [hs, hlength]
      refine ⟨⟨s.cursor.spanOf name.length, ?_⟩, ?_⟩
      · change some (String.ofList (s.cursor.rest.take name.length), _) = _
        rw [hs, List.take_left' rfl]
      · change s.cursor.rest.drop name.length = _
        rw [hs, List.drop_left' rfl]
    refine attains_seq (attains_lift hread) ?_
    rintro _ t ⟨⟨span', rfl⟩, ht⟩
    have hle : t.cursor.rest.length ≤ s.cursor.rest.length := by
      rw [ht, hs]
      exact (List.suffix_append name _).length_le
    refine attains_seq (attains_bracedDefault hdefault (hroom.shorter hle) ht) fun a u ha => ?_
    have hbrace : Attains (expectBrace token.span) ctx u fun _ v => v.cursor.rest = rest := by
      refine attains_seq (attains_lift (attains_closingBrace ha.2)) ?_
      rintro _ v ⟨rfl, hv⟩
      exact attains_pure hv
    refine attains_seq hbrace fun _ v hv => attains_look (a := v.cursor.offset) rfl
      (attains_pure ⟨?_, hv⟩)
    rw [Tree.erase, Tree.erase, Tree.erase_ofOption, Tree.erase_ofOption, ha.1]

/-! ## Lists of words -/

theorem ahead_pipe (rest : List Char) : Ahead .command (' ' :: '|' :: rest) ['|'] .pipe rest :=
  ⟨1, rfl, rfl, rfl⟩

/-- A pipe behind a blank ends a word. -/
theorem endsWord_pipe (rest : List Char) : EndsWord (' ' :: '|' :: rest) :=
  ⟨⟨' ', rfl, rfl⟩, _, _, _, ahead_pipe rest⟩

/-- The words of a list are read again up to its closing pipe. -/
theorem attains_wordListRounds {words : List Word} (hwords : ∀ w ∈ words, RereadsWord d w)
    {opening : Span} {indent : Nat} {rest : List Char} (hroom : Room d n ctx s)
    (hs : s.cursor.rest = blankWords words indent ++ ' ' :: '|' :: rest) :
    Attains (loop ((turns n).wordListRound opening) #[]) ctx s fun as t =>
      as.toList.map Tree.erase = words.map Tree.erase ∧ t.cursor.rest = rest := by
  refine attains_loop_items Tree.erase Array.toList
    (fun _ todo t => t.cursor.rest = blankWords todo indent ++ ' ' :: '|' :: rest)
    (R := fun _ t => t.cursor.rest = rest) rfl hs ?_
  intro as todo t hsuffix ht hle
  refine attains_look (a := t.next .command ctx) rfl ?_
  cases todo with
  | nil =>
      have hpipe : Stands .command ctx t ['|'] .pipe rest := ⟨ht ▸ ahead_pipe rest, nofun⟩
      rw [if_pos hpipe.next.1]
      exact attains_seq hpipe.advance fun token u hu =>
        attains_pure ⟨by rw [List.append_nil], hu.2.1⟩
  | cons w todo =>
      have hw : RereadsWord d w := hwords w (hsuffix.subset List.mem_cons_self)
      have hends : EndsWord (blankWords todo indent ++ ' ' :: '|' :: rest) :=
        endsWord_blankWords (fun w' hw' => hwords w' (hsuffix.subset (List.mem_cons_of_mem _ hw')))
          indent (endsWord_pipe rest)
      have ht : t.cursor.rest = ' ' :: (w.chars indent "" ++
          (blankWords todo indent ++ ' ' :: '|' :: rest)) := by
        rw [ht, blankWords, List.flatMap_cons, List.append_assoc]
        rfl
      have hpiece : (t.next .command ctx).kind.isWordPiece = true := by
        rcases hw.startsPiece indent hends with ⟨x, kind, r, htext, hlexed, hpiece⟩
        have hstands : Stands .command ctx t x kind r := by
          refine State.Shows.stands (.of_blank ?_) hlexed (.inr (.inl rfl))
          rw [ht, htext]
        rwa [hstands.next.1]
      have hne : ∀ {kind : Token.Kind},
          kind.isWordPiece = false → (t.next .command ctx).kind ≠ kind := by
        rintro kind hkind rfl
        rw [hpiece] at hkind
        cases hkind
      rw [if_neg (hne rfl), if_neg (hne rfl), if_neg (hne rfl), if_pos hpiece]
      refine attains_seq (hw.reads n ctx t indent _ (hroom.shorter hle) hends (.of_blank ht))
        fun a u ha => attains_pure ⟨⟨w, a, todo, rfl, Array.toList_push, ha.1, ha.2⟩, ?_⟩
      have hlength := congrArg List.length ht
      rw [ha.2]
      simp only [List.length_append, List.length_cons] at hlength ⊢
      omega

/-- A list of words is read again. -/
theorem rereads_wordList {words : List Word} (hwords : ∀ w ∈ words, RereadsWord d w)
    {span : Span} : RereadsExpression d (.literalExpression (.wordList (.ofList words) span)) := by
  refine .of_primary fun n ctx s indent rest hroom hrest hs => ?_
  have htext : (Tree.literalExpression (.wordList (.ofList words) span)).chars indent ""
      = [':', '|'] ++ (blankWords words indent ++ [' ', '|']) := by
    change (":|" ++ Tree.preceded " " (Tree.ofList words).isEmpty
      ((Tree.ofList words).write indent " ") ++ " |" : String).toList = _
    rw [String.toList_append, String.toList_append, Tree.toList_preceded (by simp) (by simp),
      Tree.toList_ofList, List.append_assoc]
    rfl
  rw [htext] at hs
  have hopen : Stands .expression ctx s [':', '|'] .wordList _ :=
    State.Shows.stands hs.assoc ⟨rfl, rfl⟩ (.inl (by decide))
  refine attains_look (a := s.next .expression ctx) rfl ?_
  dsimp only
  rw [hopen.next.1]
  refine attains_seq hopen.advance fun token t ht => ?_
  have ht : t.cursor.rest = blankWords words indent ++ ' ' :: '|' :: rest := by
    rw [ht.2.1]
    simp
  have hle : t.cursor.rest.length ≤ s.cursor.rest.length := by
    have hle := hs.length_le
    rw [ht]
    simp only [List.length_cons, List.length_append, List.length_nil] at hle ⊢
    omega
  refine attains_seq
    (P := fun l u => (∃ span', l.erase = (Tree.wordList (.ofList words) span').erase)
    ∧ u.cursor.rest = rest) ?_ fun l u hl => attains_pure ⟨?_, hl.2⟩
  · refine attains_seq (attains_wordListRounds hwords (hroom.shorter hle) ht) fun as u has => ?_
    refine attains_look (a := u.cursor.offset) rfl (attains_pure ⟨⟨span, ?_⟩, has.2⟩)
    rw [Tree.erase, Tree.erase, Tree.erase_ofList, Tree.erase_ofList, has.1]
  · rcases hl.1 with ⟨span', herase⟩
    rw [Tree.erase, Tree.erase, herase]
    rfl

/-! ## Primaries of a source -/

section

variable {D : List Diagnostic} {g : Grammar} [g.Stepwise]

/-- The pattern of an eggex of a source is what is left of a body. -/
theorem Grammar.keeps_eggexBody (hq : Quiet ctx.limits D) {opening : Span} :
    Ensures D (eggexBody opening) ctx s fun e _ => Eggex.IsPattern e.pattern := by
  refine ensures_seq ensures_raw ?_
  rintro _ s1 ⟨rfl, -⟩
  refine ensures_ite (fun _ => ensures_blame hq rfl) fun hclosed => ?_
  refine Scan.ensures_position
    (ensures_pure.2 fun _ => Cursor.isPattern_of_eggexBody (c := s.cursor) ?_)
  exact Prod.ext rfl (by simpa using hclosed)

/-- The words of a list of a source are read again. -/
theorem Grammar.keeps_wordListBody (hg : g.KeepsExpansions D) (hq : Quiet ctx.limits D)
    {opening : Span} : Ensures D (g.wordListBody opening) ctx s fun l _ =>
      RereadsExpression ctx.definition (.literalExpression l) := by
  refine ensures_seq (ensures_loop (I := fun words : Array Word =>
    ∀ w ∈ words.toList, RereadsWord ctx.definition w) (by simp) ?_) fun words s1 h => ?_
  · intro words s1 h
    refine ensures_peek (ensures_ite (fun _ => ?_) fun _ => ensures_ite (fun _ => ?_)
      fun _ => ensures_ite (fun _ => ?_) fun _ => ensures_ite (fun _ => ?_)
        fun _ => ensures_unexpected)
    · exact ensures_skip fun _ s2 => ensures_pure.2 fun _ => h
    · exact ensures_skip fun _ s2 => ensures_pure.2 fun _ => h
    · exact ensures_seq (ensures_lift (ensures_report rfl)) fun _ s2 hnot => absurd hq hnot
    · refine ensures_seq (keeps_word hg hq) fun w s2 hw => ensures_pure.2 fun _ w' hw' => ?_
      have hw' : w' ∈ (words.push w).toList := hw'
      rw [Array.toList_push, List.mem_append, List.mem_singleton] at hw'
      rcases hw' with hw' | rfl
      · exact h w' hw'
      · exact ⟨_, _, _, hw⟩
  · exact ensures_position (ensures_pure.2 fun _ => rereads_wordList h)

/-- The default of an expansion of a source is read again. -/
theorem Grammar.keeps_bracedDefault (hg : g.KeepsExpansions D) (hq : Quiet ctx.limits D) :
    Ensures D g.bracedDefault ctx s fun default _ => RereadsDefault ctx.definition default := by
  refine ensures_skip fun found s1 => ensures_ite (fun _ => ?_) fun _ =>
    ensures_pure.2 fun _ => nofun
  refine ensures_position (ensures_skip fun closes s2 => ensures_ite (fun _ => ?_) fun _ => ?_)
  · exact ensures_pure.2 fun _ w hw => .inl ⟨.emptyAt s1.cursor.offset, (Option.some.inj hw).symm⟩
  · refine ensures_seq (keeps_word hg hq) fun w s3 hword => ensures_pure.2 fun _ w' hw => .inr ?_
    rw [← Option.some.inj hw]
    exact ⟨_, _, _, hword⟩

/-- A braced expansion of a source is read again. -/
theorem Grammar.keeps_bracedBody (hg : g.KeepsExpansions D) (hq : Quiet ctx.limits D)
    {opener : Token} : Ensures D (g.bracedBody opener) ctx s fun e s' =>
      RereadsExpansion ctx.definition .brace ['$', '{'] s'.cursor.rest e := by
  refine Moving.ensures_seq (fun r => by split <;> infer_instance) (ensures_lift ensures_raw) ?_
  rintro r s1 ⟨hr, -⟩
  split
  · next name span =>
      rcases Cursor.bracedName?_some (Prod.ext hr.symm rfl) with ⟨n, hlength, -, hle, hname, -⟩
      have htake : (s.cursor.rest.take n).length = n := by
        rw [List.length_take, Nat.min_eq_left hle]
      have hbraced : BracedName.length? (s.cursor.rest.take n ++ s.cursor.rest.drop n)
          = some (s.cursor.rest.take n).length := by
        rw [List.take_append_drop, htake, hlength]
      subst hname
      refine ensures_seq (keeps_bracedDefault hg hq) fun default s2 hdefault => ?_
      refine ensures_skip fun _ s3 => ensures_position (ensures_pure.2 fun _ => ?_)
      exact rereads_braced hbraced hdefault
  · exact ensures_unexpected

end

end Ysh
