import Ysh.Proofs.Accounts.Word
import Ysh.Proofs.Joined.Tokens

/-!
# Words in Surroundings

A word may end where the text ends. Then the last of its pieces has looked at the end,
and has found it with nothing wrong in front of it, or else what comes behind the word
would have been wrong. A string and an expansion end with something that closes them, so
whatever they have looked at was there.

A word is also what tells that its first token was not the last thing in front of an
error: `State.Leads`.

## Main definitions

* `Grammar.Carries`: The three readers of a grammar do the same in surroundings.
* `State.Leads`: A word comes next, and what is behind its first token is known.

## Theorems

* `Grammar.carries_stringBody`: Strings.
* `Grammar.carries_word`: Words.
* `Grammar.carries_expansionBody`: Expansions.
-/

namespace Ysh

variable {w : Surroundings} {D : List Diagnostic} {ctx : Context} {s : State}

/-! ## Pieces of strings -/

/-- The piece further on. -/
def Quoted.Piece.shift (k : Nat) : Quoted.Piece → Quoted.Piece
  | text value span => text value (span.shift k)
  | escape raw span => escape raw (span.shift k)
  | badEscape error raw span => badEscape (error.shift k) raw (span.shift k)
  | expansion opener token => expansion opener (token.shift k)
  | close span => close (span.shift k)

instance : Shift Quoted.Piece := ⟨Quoted.Piece.shift⟩

instance : Shift LexicalError := ⟨LexicalError.shift⟩

instance {α : Type} [Shift α] : Shift (Except LexicalError α) := ⟨fun k r => match r with
  | .ok a => .ok (shift k a)
  | .error error => .error (shift k error)⟩

/-- What is known behind a piece of a string: it was the closing quote, or there is
    something left for the closing quote. -/
def Quoted.Unclosed (r : Except LexicalError Quoted.Piece) (s : State) : Prop :=
  match r with
  | .ok (.close _) => True
  | _ => s.cursor.rest ≠ []

/-- A piece of a string that is not the last thing in the text is there in the
    surroundings. -/
theorem Cursor.piece_within {style : StringStyle} {triple : Bool} {opening : Span} {c : Cursor}
    {diagnostics : List Diagnostic}
    (h : Quoted.Unclosed (c.piece style triple opening).1
      ⟨(c.piece style triple opening).2, diagnostics⟩) :
    (c.within w).piece style triple (opening.shift w.size) =
      (shift w.size (c.piece style triple opening).1, (c.piece style triple opening).2.within w) := by
  unfold piece at h ⊢
  by_cases hempty : c.rest.isEmpty = true
  · rw [if_pos hempty] at h
    exact absurd (List.isEmpty_iff.1 hempty) h
  · have hne : c.rest ≠ [] := fun hnil => hempty (by rw [hnil]; rfl)
    have hne' : (c.within w).rest.isEmpty ≠ true := by
      intro hnil
      exact hne (List.append_eq_nil_iff.1 (List.isEmpty_iff.1 hnil)).1
    rw [if_neg hempty] at h ⊢
    rw [if_neg hne']
    have hwithin : 0 < (Quoted.form style triple c.rest).2 ∧
        (Quoted.form style triple c.rest).2 ≤ c.rest.length := Quoted.form_within hne
    have hform : Quoted.form style triple (c.within w).rest = Quoted.form style triple c.rest := by
      rcases hform : Quoted.form style triple c.rest with ⟨form, n⟩
      rw [hform] at h
      have hless : form ≠ .close → n < c.rest.length := by
        intro hclose
        have hleft : c.rest.drop n ≠ [] := by cases form <;> first | exact h | exact absurd rfl hclose
        exact Nat.lt_of_not_le fun hle => hleft (List.drop_eq_nil_of_le hle)
      by_cases hclose : form = .close
      · subst hclose
        exact Quoted.form_append_of_close hform
      · rw [← hform]
        exact Quoted.form_append w.startsLine (by rw [hform]; exact hless hclose)
    dsimp only
    rw [hform, textOf_within hwithin.2, spanOf_within hwithin.2, advance_within hwithin.2]
    cases (Quoted.form style triple c.rest).1 <;> rfl

/-- A reader that leaves something has started from something. -/
theorem Carries.unended {α : Type} [Shift α] {x y : Parse α} [hm : Moving x]
    (h : Carries w D x y ctx s True fun _ _ => True) :
    Carries w D x y ctx s (s.cursor.rest ≠ []) fun _ s' => s'.cursor.rest ≠ [] := by
  intro hw a s' hx hD hleft
  refine ⟨fun hnil => hleft ?_, (h hw a s' hx hD trivial).2⟩
  have hle := (hm.of_yields hx).length_le
  rw [hnil] at hle
  exact List.eq_nil_of_length_eq_zero (Nat.le_zero.1 hle)

/-- The name between braces is a part of the text. -/
theorem BracedName.length_le_of_length? {cs : List Char} {n : Nat} (h : length? cs = some n) :
    n ≤ cs.length := by
  rcases cs with _ | ⟨c, cs⟩
  · cases h
  · have hname := Lexeme.runLength_le Character.isNamePart cs
    have hdigits := Lexeme.runLength_le Char.isDigit cs
    rw [List.length_cons]
    simp only [length?] at h
    repeat' split at h
    all_goals
      cases h
      try omega

/-- A mark of a default is one character in front of another, so it does not run into the
    next line. -/
theorem Cursor.defaultMark_within (c : Cursor) :
    (c.within w).defaultMark = (c.defaultMark.1, c.defaultMark.2.within w) := by
  unfold defaultMark
  split
  · next rest hrest =>
      split
      · next rest' hrest' => rw [advance_within (by rw [hrest']; simp)]
      · next hmark =>
          exfalso
          change c.rest ++ w.behind = _ at hrest
          rcases hs : c.rest with _ | ⟨x, _ | ⟨y, left⟩⟩
          all_goals
            rw [hs] at hrest
            rcases w.startsLine.cases with hbehind | ⟨more, hbehind⟩
            all_goals
              rw [hbehind] at hrest
              cases hrest
          all_goals exact hmark _ hs
  · next hmark =>
      split
      · next rest hrest =>
          refine absurd ?_ (hmark (rest ++ w.behind))
          rw [within, hrest]
          rfl
      · rfl

theorem Cursor.closingBrace?_within (c : Cursor) : (c.within w).closingBrace? =
    (c.closingBrace?.1.map (Span.shift w.size), c.closingBrace?.2.within w) := by
  unfold closingBrace?
  split
  · next rest hrest =>
      split
      · next rest' hrest' =>
          rw [advance_within (by rw [hrest']; simp), spanOf_within (by rw [hrest']; simp)]
          rfl
      · next hbrace =>
          exfalso
          change c.rest ++ w.behind = _ at hrest
          rcases hs : c.rest with _ | ⟨x, left⟩
          all_goals
            rw [hs] at hrest
            rcases w.startsLine.cases with hbehind | ⟨more, hbehind⟩
            all_goals
              rw [hbehind] at hrest
              cases hrest
          all_goals exact hbrace _ hs
  · next hbrace =>
      split
      · next rest hrest =>
          refine absurd ?_ (hbrace (rest ++ w.behind))
          rw [within, hrest]
          rfl
      · rfl

/-! ## What is behind a word -/

/-- What is known of a state depends on its place. -/
theorem State.Rests.of_cursor {mode : Mode} {s s' : State} (h : s.Rests mode ctx)
    (hcursor : s'.cursor = s.cursor) : s'.Rests mode ctx := by
  unfold State.Rests State.next State.Clear State.ahead at h ⊢
  rwa [hcursor]

/-- A token comes next, and if it is a word then what is behind it is known. -/
structure State.Leads (ctx : Context) (s : State) : Prop where
  faces : s.Faces .command ctx
  behind : (s.next .command ctx).kind = .word →
    ∀ s1 : State, s1.cursor = (s.ahead .command ctx).after → s1.Rests .command ctx

/-- Consuming gives the next token and goes behind it. -/
theorem next_of_advance {mode : Mode} {token : Token} {s1 : State}
    (h : Yields (advance mode) ctx s token s1) :
    token = s.next mode ctx ∧ s1.cursor = (s.ahead mode ctx).after := by
  cases h
  exact ⟨rfl, rfl⟩

/-- Consuming a token, with what is known of the state behind it. -/
theorem carries_advanced {mode : Mode} {Pre : Prop} (P : State → Prop)
    (hkind : (s.next mode ctx).kind ≠ .endOfInput)
    (hpre : ∀ s1 : State, s1.cursor = (s.ahead mode ctx).after → s.Faces mode ctx → P s1 → Pre) :
    Carries w D (advance mode) (advance mode) ctx s Pre fun _ s1 => P s1 := by
  intro hw token s1 htoken hD hP
  rcases carries_advance hkind hw token s1 htoken hD trivial with ⟨hfaces, hy⟩
  exact ⟨hpre s1 (next_of_advance htoken).2 hfaces hP, hy⟩

/-- What is known where the parts of a word begin. -/
def State.Starts (ctx : Context) (continuing : Bool) (s : State) : Prop :=
  s.Rests .command ctx ∧ (continuing = false →
    (s.next .command ctx).kind.isWordPiece = true → s.Leads ctx)

/-! ## Grammars -/

namespace Grammar

/-- The three readers of a grammar do in surroundings what those of the other do in the
    text. An expression may end where the text ends, statements in front of the token
    that closes them, and expansions behind what closes them. -/
structure Carries (w : Surroundings) (D : List Diagnostic) (g h : Grammar) : Prop where
  expression : ∀ ctx s, Ysh.Carries w D g.expression h.expression ctx s (s.Faces .expression ctx)
    fun _ s' => s'.Rests .expression ctx
  statements : ∀ closer ctx s, (closer = .rightBrace ∨ closer = .rightParen) →
    ctx.inBrackets = false → Ysh.Carries w D (g.statements (some closer))
      (h.statements (some closer)) ctx s True fun _ s' => s'.Sees .command closer ctx
  expansion : ∀ opener token ctx s, Ysh.Carries w D (g.expansion opener token)
    (h.expansion opener (token.shift w.size)) ctx s True fun _ _ => True

variable {g h : Grammar} [g.Stepwise] [h.Stepwise]

/-! ## Strings -/

/-- What a round does that reads a piece of a string, in a parse without errors. -/
theorem ensures_stringRound {style : StringStyle} {triple : Bool} {opening : Span}
    {fragments : Array Fragment} {Q : Round (Array Fragment) → State → Prop}
    (hq : Quiet ctx.limits D)
    (htext : ∀ value span s1, (s.cursor.piece style triple opening).1 = .ok (.text value span) →
      s1.cursor = (s.cursor.piece style triple opening).2 →
      Q (.again (fragments.push (.text value span))) s1)
    (hescape : ∀ raw span s1, (s.cursor.piece style triple opening).1 = .ok (.escape raw span) →
      s1.cursor = (s.cursor.piece style triple opening).2 →
      Q (.again (fragments.push (.escape raw span))) s1)
    (hexpansion : ∀ opener token s1,
      (s.cursor.piece style triple opening).1 = .ok (.expansion opener token) →
      s1.cursor = (s.cursor.piece style triple opening).2 →
      Ensures D (g.expansion opener token) ctx s1 fun e s' =>
        Q (.again (fragments.push (.expansionFragment e))) s')
    (hclose : ∀ span s1, (s.cursor.piece style triple opening).1 = .ok (.close span) →
      s1.cursor = (s.cursor.piece style triple opening).2 → Q (.stop fragments) s1) :
    Ensures D (g.stringRound style triple opening fragments) ctx s Q := by
  refine Moving.ensures_seq (fun p => ?_) (ensures_raw (D := D)) ?_
  · rcases p with e | (_ | _ | _ | ⟨opener, token⟩ | _)
    · infer_instance
    · infer_instance
    · infer_instance
    · infer_instance
    · exact Moving.bind inferInstance fun r => by cases r <;> infer_instance
    · infer_instance
  · rintro p s1 ⟨hp, hcursor⟩
    rcases p with e | (⟨value, span⟩ | ⟨raw, span⟩ | _ | ⟨opener, token⟩ | span)
    · exact ensures_blame hq rfl
    · exact ensures_pure.2 fun _ => htext value span s1 hp.symm hcursor
    · exact ensures_pure.2 fun _ => hescape raw span s1 hp.symm hcursor
    · exact ensures_blame hq rfl
    · refine Moving.ensures_seq (fun r => by cases r <;> infer_instance)
        (ensures_attempt (hexpansion opener token s1 hp.symm hcursor)) fun r s2 hr => ?_
      cases r with
      | ok e => exact ensures_pure.2 fun _ => hr e rfl
      | error e => exact ensures_blame hq rfl
    · exact ensures_pure.2 fun _ => hclose span s1 hp.symm hcursor

variable (hg : Carries w D g h)
include hg

omit [h.Stepwise] in
theorem carries_stringRound (style : StringStyle) (triple : Bool) (opening : Span)
    (fragments : Array Fragment) (s : State) :
    Ysh.Carries w D (g.stringRound style triple opening fragments)
      (h.stringRound style triple (opening.shift w.size) (shift w.size fragments)) ctx s
      (s.cursor.rest ≠ []) (Round.Knows (fun _ s => s.cursor.rest ≠ []) fun _ _ => True) := by
  have hpush : ∀ f : Fragment, Round.again ((shift w.size fragments).push (f.shift w.size))
      = shift w.size (Round.again (fragments.push f)) := fun f =>
    congrArg Round.again (shift_push w.size fragments f).symm
  refine Moving.carries_bind (M := Quoted.Unclosed) (fun p => ?_)
    (carries_raw fun hleft => ⟨?_, Cursor.piece_within hleft⟩) fun p s1 _ => ?_
  · rcases p with e | (_ | _ | _ | ⟨opener, token⟩ | _)
    · infer_instance
    · infer_instance
    · infer_instance
    · infer_instance
    · exact Moving.bind inferInstance fun r => by cases r <;> infer_instance
    · infer_instance
  · intro hnil
    rw [Cursor.piece, if_pos (by rw [hnil]; rfl)] at hleft
    exact hleft hnil
  · rcases p with e | (⟨value, span⟩ | ⟨raw, span⟩ | ⟨error, raw, span⟩ | ⟨opener, token⟩ | span)
    · exact carries_of_ensures fun hq => ensures_blame hq rfl
    · exact carries_pure (hpush (.text value span)) id
    · exact carries_pure (hpush (.escape raw span)) id
    · exact carries_of_ensures fun hq => ensures_blame hq rfl
    · refine Moving.carries_attempt (fun r => by cases r <;> infer_instance)
        (hg.expansion opener token ctx s1).unended (fun hq e s2 => ensures_blame hq rfl) fun e s2 => ?_
      exact carries_pure (hpush (.expansionFragment e)) id
    · exact carries_pure rfl fun _ => trivial

theorem carries_stringBody (style : StringStyle) (triple : Bool) (opening : Span) (s : State) :
    Ysh.Carries w D (g.stringBody style triple opening)
      (h.stringBody style triple (opening.shift w.size)) ctx s True fun _ _ => True := by
  refine .free (carries_seq (carries_loop (shift_empty w.size).symm
    (ScanLoop.string style triple opening).progresses
    (ScanLoop.string style triple _).progresses
    fun fragments s => carries_stringRound hg style triple opening fragments s)
    fun fragments s1 => ?_)
  refine Scan.carries_position (carries_pure ?_ id)
  rw [shift_toList]
  change Tree.string style triple (.ofList (fragments.toList.map (Tree.shift w.size))) _ = _
  rw [Tree.ofList_shift, Span.upTo_shift]
  rfl

/-! ## Words -/

/-- A piece that is bare text ends where its token ends. -/
theorem carries_pushPiece (token : Token) (parts : List WordPart) (s : State) :
    Ysh.Carries w D (g.pushPiece token parts)
      (h.pushPiece (token.shift w.size) (shift w.size parts)) ctx s
      (token.kind = .word → s.Rests .command ctx) fun _ s' => s'.Rests .command ctx := by
  rcases token with ⟨kind, text, span, immediate⟩
  cases kind with
  | quote style triple =>
      refine .given (by simp) (carries_seq (carries_lift (carries_stringBody hg _ _ _ s))
        fun t s1 => ?_)
      exact carries_pure (shift_append w.size parts [.stringPart t]).symm fun _ => trivial
  | opener o =>
      refine .given (by simp) (carries_seq (hg.expansion _ _ ctx s) fun e s1 => ?_)
      exact carries_pure (shift_append w.size parts [.expansionPart e]).symm fun _ => trivial
  | _ => exact carries_pure (Tree.pushText_shift w.size _ parts span.start) fun hrests _ => hrests

/-- The pieces of a word. What is known where they begin is what is behind the first of
    them, if it does not have to touch anything. -/
theorem carries_wordParts (parts : List WordPart) (continuing : Bool) (s : State) :
    Ysh.Carries w D (g.wordParts parts continuing)
      (h.wordParts (shift w.size parts) continuing) ctx s (s.Starts ctx continuing)
      fun _ s' => s'.Rests .command ctx := by
  refine carries_seq (carries_loop (a := (parts, continuing))
    (I := fun (p : List WordPart × Bool) s => s.Starts ctx p.2)
    (Q := fun _ s => s.Rests .command ctx) rfl ParseLoop.word.progresses
    ParseLoop.word.progresses ?_) fun p s1 => carries_pure rfl id
  rintro ⟨parts, continuing⟩ s
  refine carries_peek And.left fun token htwin => carries_ite ?_ (fun hstop => ?_) fun hpiece => ?_
  · rcases htwin with rfl | ⟨hend, hline⟩
    · exact Iff.rfl
    · simp [hend, hline, Token.Kind.isWordPiece]
  · refine carries_pure rfl fun hrests => ⟨hrests, fun hfirst hkind => ?_⟩
    change continuing = false at hfirst
    rw [hfirst, hkind] at hstop
    cases hstop
  · have hkind : (s.next .command ctx).kind ≠ .endOfInput := by
      intro hend
      rw [hend] at hpiece
      exact hpiece rfl
    rw [htwin.eq hkind]
    refine carries_bind (carries_lift (carries_advanced
      (fun s1 => (s.next .command ctx).kind = .word → s1.Rests .command ctx) hkind
      fun s1 hs1 hfaces hbehind => ?_)) fun token s1 _ => ?_
    · refine ⟨hfaces.rests, fun _ _ => ⟨hfaces, fun hword s2 hs2 => ?_⟩⟩
      exact (hbehind hword).of_cursor (hs2.trans hs1.symm)
    · refine carries_seq (carries_pushPiece hg (s.next .command ctx) parts s1) fun parts' s2 => ?_
      exact carries_pure rfl fun hstarts => hstarts.1

omit hg in
/-- A word begins with a piece. -/
theorem ensures_word_begins : Ensures D g.word ctx s fun _ _ =>
    (s.next .command ctx).kind.isWordPiece = true := by
  refine ensures_seq (P := fun parts _ => parts = [] ∨
    (s.next .command ctx).kind.isWordPiece = true) ?_ fun parts s1 hparts => ?_
  · refine ensures_seq (ensures_loop_state (I := fun (p : List WordPart × Bool) s' =>
      (p.1 = [] ∧ s' = s) ∨ (s.next .command ctx).kind.isWordPiece = true) (.inl ⟨rfl, rfl⟩) ?_)
      fun p s1 hp => ensures_pure.2 fun _ => hp.imp_left And.left
    rintro ⟨parts, continuing⟩ s1 (⟨hparts, rfl⟩ | hkind)
    · refine ensures_peek (ensures_ite (fun _ => ensures_pure.2 fun _ => .inl ⟨hparts, rfl⟩)
        fun hpiece => ?_)
      refine ensures_skip fun token s2 => ensures_skip fun parts' s3 => ensures_pure.2 fun _ => ?_
      rcases hkind : (s1.next .command ctx).kind.isWordPiece with _ | _
      · rw [hkind] at hpiece
        exact absurd rfl hpiece
      · exact .inr rfl
    · exact fun _ _ _ _ => .inr hkind
  · refine ensures_ite (fun _ => ensures_unexpected) fun hempty => ensures_pure.2 fun _ => ?_
    rcases hparts with rfl | hkind
    · exact absurd rfl hempty
    · exact hkind

theorem carries_word (s : State) : Ysh.Carries w D g.word h.word ctx s (s.Leads ctx)
    fun _ s' => s'.Rests .command ctx := by
  have hword : Ysh.Carries w D g.word h.word ctx s (s.Starts ctx false)
      fun _ s' => s'.Rests .command ctx := by
    refine carries_seq (carries_wordParts hg [] false s) fun parts s1 => ?_
    refine carries_ite ?_ (fun _ => carries_unexpected) fun hempty => ?_
    · cases parts <;> exact Iff.rfl
    · refine carries_pure (Tree.ofParts_shift w.size ?_) id
      rintro rfl
      exact hempty rfl
  intro hw a s' ha hD hpost
  rcases hword hw a s' ha hD hpost with ⟨hstarts, hy⟩
  exact ⟨hstarts.2 rfl (ensures_word_begins a s' ha hD), hy⟩

/-! ## Braces -/

omit hg in
theorem carries_bracedName (s : State) : Ysh.Carries w D bracedName bracedName ctx s True
    fun _ _ => True := by
  refine carries_raw fun _ => ⟨trivial, ?_⟩
  have hlength : BracedName.length? (s.cursor.within w).rest = BracedName.length? s.cursor.rest :=
    BracedName.length?_append_line w.startsLine s.cursor.rest
  unfold Cursor.bracedName?
  rw [hlength]
  rcases hname : BracedName.length? s.cursor.rest with _ | n
  · rfl
  · have hle : n ≤ s.cursor.rest.length := BracedName.length_le_of_length? hname
    dsimp only
    rw [Cursor.textOf_within hle, Cursor.spanOf_within hle, Cursor.advance_within hle]
    rfl

omit hg in
theorem carries_defaultMark (s : State) : Ysh.Carries w D defaultMark defaultMark ctx s True
    fun _ _ => True :=
  carries_raw fun _ => ⟨trivial, s.cursor.defaultMark_within⟩

omit hg in
theorem carries_atClosingBrace (s : State) : Ysh.Carries w D atClosingBrace atClosingBrace ctx s
    True fun _ _ => True := by
  intro _ found s' hx _ _
  cases hx
  refine ⟨trivial, ?_⟩
  change ((.ok (s.cursor.within w).closingBrace?.1.isSome, s.within w) :
    Except SyntaxError Bool × State) = _
  rw [s.cursor.closingBrace?_within, Option.isSome_map]
  rfl

omit hg in
/-- A closing brace is a token. -/
theorem carries_closingBrace (s : State) : Ysh.Carries w D closingBrace closingBrace ctx s
    (s.Rests .command ctx) fun found _ => found = true := by
  refine carries_raw fun hfound => ⟨fun hend => ?_, ?_⟩
  · exfalso
    rcases s with ⟨⟨rest, offset⟩, diagnostics⟩
    dsimp only at hfound
    unfold Cursor.closingBrace? at hfound
    split at hfound
    · next left hrest =>
        cases hrest
        rw [State.next, Cursor.lookahead_eq] at hend
        cases hend
    · cases hfound
  · dsimp only
    rw [s.cursor.closingBrace?_within, Option.isSome_map]
    rfl

theorem carries_bracedDefault (s : State) : Ysh.Carries w D g.bracedDefault h.bracedDefault ctx s
    True fun _ s' => s'.Rests .command ctx := by
  refine carries_seq (carries_lift (carries_defaultMark s)) fun found s1 => carries_ite Iff.rfl
    (fun _ => carries_position ?_) fun _ => carries_pure rfl fun _ => trivial
  refine carries_seq (carries_lift (carries_atClosingBrace s1)) fun closes s2 => carries_ite Iff.rfl
    (fun _ => carries_pure ?_ fun _ => trivial) fun _ => ?_
  · simp [Tree.shift]
  · exact .free (carries_seq (carries_word hg s2) fun word s3 => carries_pure rfl id)

omit hg in
theorem carries_expectBrace (opening : Span) (s : State) :
    Ysh.Carries w D (expectBrace opening) (expectBrace (opening.shift w.size)) ctx s
      (s.Rests .command ctx) fun _ _ => True := by
  refine carries_bind (carries_lift (carries_closingBrace s)) fun found s1 _ => ?_
  refine carries_ite Iff.rfl (fun hfound => carries_pure rfl fun _ => hfound) fun _ => ?_
  refine carries_of_ensures fun hq => ensures_peek (ensures_ite (fun _ => ?_) fun _ => ensures_throw)
  exact (ensures_report rfl).mono fun _ _ hnot => hnot hq

theorem carries_bracedBody (opener : Token) (s : State) :
    Ysh.Carries w D (g.bracedBody opener) (h.bracedBody (opener.shift w.size)) ctx s
      True fun _ _ => True := by
  refine Moving.carries_bind (fun r => by cases r <;> infer_instance)
    (carries_lift (carries_bracedName s)) fun r s1 _ => ?_
  rcases r with _ | ⟨name, span⟩
  · exact carries_unexpected
  · refine carries_seq (carries_bracedDefault hg s1) fun value s2 => ?_
    refine carries_seq (carries_expectBrace opener.span s2) fun _ s3 => ?_
    refine carries_position (carries_pure ?_ fun _ => trivial)
    simp [Tree.shift]

/-! ## Brackets -/

omit [g.Stepwise] [h.Stepwise] in
theorem carries_enclosed {closer : Token.Kind} (hcloser : closer ≠ .endOfInput) (opening : Span)
    (s : State) : Ysh.Carries w D (g.enclosed closer opening)
      (h.enclosed closer (opening.shift w.size)) ctx s
      (s.Faces .expression { ctx with inBrackets := true }) fun _ _ => True := by
  refine carries_bracketed ((carries_seq (hg.expression _ s) fun e s1 => ?_).mono
    (fun hfaces => ⟨hfaces.token, hfaces.clear⟩) fun _ _ h => h)
  refine (carries_seq (carries_expectClosing hcloser) fun _ s2 => ?_).mono
    (fun hsees => (hsees.faces hcloser).rests) fun _ _ h => h
  exact carries_pure rfl fun _ => trivial

omit [h.Stepwise] in
theorem carries_parenthesized (s : State) : Ysh.Carries w D g.parenthesized h.parenthesized ctx s
    (s.Sees .command .leftParen ctx) fun _ _ => True :=
  carries_seq (carries_expectAs (by simp)) fun opening s1 =>
    .free (carries_enclosed hg (by simp) opening.span s1)

omit [g.Stepwise] [h.Stepwise] in
theorem carries_body {closer : Token.Kind} (hcloser : closer = .rightBrace ∨ closer = .rightParen)
    (s : State) : Ysh.Carries w D (g.body closer) (h.body closer) ctx s True
      fun _ s' => s'.Sees .command closer ctx := by
  refine carries_nested ?_
  have hbody := hg.statements closer { ctx with depth := ctx.depth + 1, inBrackets := false } s
    hcloser rfl
  exact fun hw a s' ha hD hsees => hbody hw a s' ha hD ⟨hsees.kind, hsees.clear⟩

theorem carries_expansionBody (opener : Opener) (token : Token) (s : State) :
    Ysh.Carries w D (g.expansionBody opener token) (h.expansionBody opener (token.shift w.size))
      ctx s True fun _ _ => True := by
  cases opener with
  | name | splice => exact carries_pure rfl id
  | brace => exact carries_bracedBody hg token s
  | bracket sigil =>
      refine .free (carries_seq (carries_enclosed hg (by simp) token.span s) fun e s1 => ?_)
      refine carries_position (carries_pure ?_ id)
      simp [Tree.shift]
  | paren sigil =>
      refine carries_seq (carries_body hg (.inr rfl) s) fun ts s1 => ?_
      refine carries_seq (carries_expectClosing (by simp)) fun _ s2 => ?_
      refine carries_position (carries_pure ?_ id)
      simp [Tree.shift]

end Grammar

end Ysh
