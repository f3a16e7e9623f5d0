import Ysh.Proofs.Reread.Quoted
import Ysh.Proofs.Spacing.Command

/-!
# Reading Printed Words

A word is printed piece by piece with nothing in between, and where one piece ends is
seen from the first character of the next. That is the character that stood there in
the source, because only what is inside strings and expansions is printed anew. The
last piece ends in front of a blank, a line, a closing bracket or a semicolon, which
are characters that end all words.

The parts of a word do not show where the pieces were. Their text does, and so a word
is followed through the loop that reads it: what stands between two places of the
source is read again in front of every text that carries on as the source did.

## Main definitions

* `EndsWord`: What stands behind a printed word.
* `GoesOn`: A rest that starts with the piece the source went on with, or ends the word.
* `RereadsPiece`, `RereadsPieces`: One piece of a word, and the pieces behind the first.
* `RereadsWordFrom`: A word is read again, and starts with the token it started with.
* `RereadsWord`: A word is read again.

## Theorems

* `Lexed.word_of_goesOn`: A run of word text ends where it did.
* `rereads_bareText`, `rereads_stringPart`, `rereads_expansionPart`: The kinds of piece.
* `Grammar.keeps_pieces`, `Grammar.keeps_word`: The words of a source are read again.
-/

namespace Ysh

open Grammar

variable {d : Option Definition}

/-! ## Where pieces start and end -/

/-- The characters with which no piece of a word starts. -/
def nonWordStarts : List Char :=
  ['<', '>', '&', '|', ';', '(', ')', '{', '}', '\n', ' ', '#']

theorem Lexed.head_of_isWordPiece {x rest : List Char} {kind : Token.Kind}
    (h : Lexed .command x kind rest) (hkind : kind.isWordPiece = true) :
    ∃ c y, x = c :: y ∧ c ∉ nonWordStarts := by
  rcases h.advances with hpos | rfl
  · rcases List.exists_cons_of_length_pos hpos with ⟨c, y, rfl⟩
    refine ⟨c, y, rfl, fun hc => ?_⟩
    have hgap : c ≠ ' ' ∧ c ≠ '#' :=
      ⟨(Lexeme.extrasLength_eq_zero.1 h.plain).1.1, (Lexeme.extrasLength_eq_zero.1 h.plain).1.2.2.2⟩
    have hline : c ≠ '\n' := by
      rintro rfl
      have hkind' : kind = .newline := (Except.ok.inj (congrArg Lexeme.verdict h.lexeme)).symm
      rw [hkind'] at hkind
      cases hkind
    have hop : c ∈ Lexeme.operatorStarts ∧ c ≠ '[' ∧ c ≠ ']' := by
      simp only [nonWordStarts, List.mem_cons, List.not_mem_nil, or_false] at hc
      rcases hc with rfl | rfl | rfl | rfl | rfl | rfl | rfl | rfl | rfl | rfl | rfl | rfl
      all_goals first
        | exact ⟨by decide, by decide, by decide⟩
        | exact absurd rfl hline
        | exact absurd rfl hgap.1
        | exact absurd rfl hgap.2
    rcases hm : commandOperators.match? (c :: (y ++ rest)) with _ | l
    · exact Lexeme.match?_command_eq_none.1 hm hop.1
    · have hlexeme : Lexeme.ofMode .command (c :: (y ++ rest)) = .token kind (y.length + 1) :=
        h.lexeme
      rw [Lexeme.ofMode_cons hline] at hlexeme
      unfold Lexeme.ofCommandText at hlexeme
      dsimp only at hlexeme
      rw [hm, Option.getD_some] at hlexeme
      subst hlexeme
      rcases (operator_kind (.inl rfl) hm).1 with hnot | hbracket | hbracket
      · rw [hnot] at hkind
        cases hkind
      · have htext := spelling_of_lexed h (by rw [hbracket]; rfl)
        rw [hbracket] at htext
        exact hop.2.1 (List.cons.inj htext).1
      · have htext := spelling_of_lexed h (by rw [hbracket]; rfl)
        rw [hbracket] at htext
        exact hop.2.2 (List.cons.inj htext).1
  · cases hkind

/-- What stands behind a printed word: a character that ends words, and a token. -/
def EndsWord (rest : List Char) : Prop :=
  (∃ c, rest.head? = some c ∧ isWordEnd c = true) ∧ ∃ x kind r, Ahead .command rest x kind r

/-- A piece of a word stands in front. -/
def StartsPiece (whole : List Char) : Prop :=
  ∃ x kind r, whole = x ++ r ∧ Lexed .command x kind r ∧ kind.isWordPiece = true

theorem StartsPiece.endsWord {whole : List Char} (h : StartsPiece whole) :
    EndsWord (' ' :: whole) := by
  rcases h with ⟨x, kind, r, rfl, hlexed, -⟩
  exact ⟨⟨' ', rfl, rfl⟩, x, kind, r, hlexed.ahead.blank⟩

theorem StartsPiece.not_endsWord {whole : List Char} (h : StartsPiece whole) :
    ¬ EndsWord whole := by
  rintro ⟨⟨c, hhead, hc⟩, -⟩
  rcases h with ⟨x, kind, r, rfl, hlexed, hpiece⟩
  rcases hlexed.head_of_isWordPiece hpiece with ⟨c', y, rfl, hnot⟩
  cases hhead
  refine hnot ?_
  rcases isWordEnd_iff.1 hc with rfl | rfl | rfl | rfl | rfl <;> decide

/-- No piece touches a word that ends. -/
theorem EndsWord.stops {ctx : Context} {s : State} (h : EndsWord s.cursor.rest) :
    (s.next .command ctx).kind.isWordPiece = true → (s.next .command ctx).immediate = false := by
  intro hpiece
  rcases h.2 with ⟨x, kind, r, hahead⟩
  have hstands : Stands .command ctx s x kind r := ⟨hahead, nofun⟩
  rw [hstands.next.1] at hpiece
  refine Bool.eq_false_iff.2 fun himmediate => StartsPiece.not_endsWord ?_ h
  exact ⟨x, kind, r, hstands.next.2.2.1 himmediate, hahead.lexed, hpiece⟩

/-- The rest starts with the piece that the source went on with, or else the word ends
    there. -/
def GoesOn (after rest : List Char) : Prop :=
  (∃ x kind r r', after = x ++ r ∧ rest = x ++ r' ∧ Lexed .command x kind r ∧
    Lexed .command x kind r' ∧ kind.isWordPiece = true) ∨ EndsWord rest

theorem GoesOn.resumes {after rest : List Char} (h : GoesOn after rest) : Resumes after rest := by
  rcases h with ⟨x, kind, r, r', rfl, rfl, hlexed, -, hpiece⟩ | ⟨⟨c, hhead, hc⟩, -⟩
  · rcases hlexed.head_of_isWordPiece hpiece with ⟨c, y, rfl, -⟩
    exact .inl rfl
  · refine .inr fun c' hc' => ?_
    rw [hhead] at hc'
    cases hc'
    rcases isWordEnd_iff.1 hc with rfl | rfl | rfl | rfl | rfl <;> decide

/-- Only word text starts with a backslash. -/
theorem Lexed.eq_word_of_backslash {x rest : List Char} {kind : Token.Kind}
    (h : Lexed .command x kind rest) (hpiece : kind.isWordPiece = true)
    (hhead : x.head? = some '\\') : kind = .word := by
  cases kind with
  | word => rfl
  | quote style triple =>
      rw [(Lexed.quote_iff.1 h).1] at hhead
      cases style <;> cases triple <;> cases hhead
  | opener o =>
      have hshape := (Lexed.opener_iff.1 h).shape
      cases o with
      | name | splice =>
          rcases hshape with ⟨name, rfl, -⟩
          cases hhead
      | brace =>
          cases hshape
          cases hhead
      | bracket sigil | paren sigil =>
          cases hshape
          cases sigil <;> cases hhead
  | leftBracket | rightBracket =>
      rw [spelling_of_lexed h rfl] at hhead
      cases hhead
  | _ => cases hpiece

/-- A run of word text ends where it did. -/
theorem Lexed.word_of_goesOn {x after rest : List Char} (h : Lexed .command x .word after)
    (hgoesOn : GoesOn after rest) : Lexed .command x .word rest := by
  rcases hgoesOn with ⟨y, kind, r, r', rfl, rfl, hlexed, -, hpiece⟩ | ⟨⟨c, hhead, hc⟩, -⟩
  · rcases hlexed.head_of_isWordPiece hpiece with ⟨c, y, rfl, -⟩
    refine h.word_of_head rfl rfl fun hback => ?_
    subst hback
    have hkind := hlexed.eq_word_of_backslash hpiece rfl
    subst hkind
    exact h.eq_dollar_of_backslash hlexed rfl
  · rcases List.head?_eq_some_iff.1 hhead with ⟨t, rfl⟩
    exact h.word_of_isWordEnd hc

/-! ## Pieces -/

/-- The parts read again are those that were there, and what comes next touches them. -/
structure SameParts (qs parts : List WordPart) (offset : Nat) : Prop where
  same : qs.map Tree.erase = parts.map Tree.erase
  touches : Tree.Touches qs offset

/-- What a piece adds to the parts of a word is read again, where the source went on with
    `after` behind the piece. -/
def RereadsPiece (d : Option Definition) (x : List Char) (kind : Token.Kind) (after : List Char)
    (parts parts' : List WordPart) : Prop :=
  ∃ tail : Nat → List Char, (kind = .word → ∀ indent, tail indent = []) ∧
    (∀ indent, parts'.flatMap (·.chars indent "")
      = parts.flatMap (·.chars indent "") ++ (x ++ tail indent)) ∧
    ∀ indent rest, GoesOn after rest → Lexed .command x kind (tail indent ++ rest) ∧
      ∀ n ctx s token qs, RoomBehind d n ctx x s → token.kind = kind → token.text = .ofList x →
        s.cursor.offset = token.span.start + byteLength x → s.cursor.rest = tail indent ++ rest →
          SameParts qs parts token.span.start →
            Attains ((turns n).pushPiece token qs) ctx s fun qs' t =>
              SameParts qs' parts' t.cursor.offset ∧ t.cursor.rest = rest

section

variable {x after : List Char} {kind : Token.Kind} {parts : List WordPart} {offset : Nat}

theorem Tree.chars_pushText (parts : List WordPart) (x : List Char) (offset indent : Nat) :
    (pushText parts x offset).flatMap (·.chars indent "")
      = parts.flatMap (·.chars indent "") ++ x := by
  have hkept : (pushText parts x offset).flatMap (·.chars indent "") ++ []
      = parts.flatMap (·.chars indent "") ++ x := by
    refine Tree.pushText_induction (I := fun text _ parts' =>
      parts'.flatMap (·.chars indent "") ++ text = parts.flatMap (·.chars indent "") ++ x) ?_ ?_ rfl
    · intro c cs offset parts' h
      rw [← h]
      rcases Tree.pushBare_eq c offset parts' with ⟨front, run, span, rfl, -, heq⟩ | heq
      · rw [heq]
        simp [chars, write]
      · rw [heq]
        simp [chars, write]
    · intro c cs offset parts' h
      rw [← h]
      simp [chars, write]
  rwa [List.append_nil] at hkept

/-- Word text and brackets are read again. -/
theorem rereads_bareText (hkind : kind = .word ∨ kind = .leftBracket ∨ kind = .rightBracket)
    (hlexed : Lexed .command x kind after) (htouches : Tree.Touches parts offset) :
    RereadsPiece d x kind after parts (Tree.pushText parts x offset) := by
  refine ⟨fun _ => [], fun _ _ => rfl, fun indent => ?_, fun indent rest hrest =>
    ⟨?_, fun n ctx s token qs hroom htoken hshown hoffset hs hqs => ?_⟩⟩
  · rw [Tree.chars_pushText, List.append_nil]
  · rcases hkind with rfl | rfl | rfl
    · exact hlexed.word_of_goesOn hrest
    · have htext := spelling_of_lexed hlexed rfl
      subst htext
      exact lexed_leftBracket _
    · have htext := spelling_of_lexed hlexed rfl
      subst htext
      exact lexed_rightBracket _
  · have hpush : (turns n).pushPiece token qs
        = pure (Tree.pushText qs token.text.toList token.span.start) := by
      unfold pushPiece
      rw [htoken]
      rcases hkind with rfl | rfl | rfl <;> rfl
    rw [hpush, hshown, String.toList_ofList]
    refine attains_pure ⟨⟨Tree.erase_pushText x htouches hqs.touches hqs.same, ?_⟩, hs⟩
    rw [hoffset]
    exact Tree.touches_pushText x hqs.touches

/-- A part that is no bare text stands behind the parts that were there. -/
theorem SameParts.snoc {qs : List WordPart} {p q : WordPart} {offset offset' : Nat}
    (h : SameParts qs parts offset) (hpart : q.erase = p.erase)
    (hq : ∀ run span, q ≠ .bare run span) :
    SameParts (qs ++ [q]) (parts ++ [p]) offset' where
  same := by rw [List.map_append, List.map_append, h.same, List.map_singleton, List.map_singleton,
    hpart]
  touches := Tree.touches_append fun run span hbare => absurd hbare (hq run span)

/-- A string is read again as a part of a word. -/
theorem rereads_stringPart {style : StringStyle} {triple : Bool} {str : StringLiteral}
    (h : RereadsString d style triple after str) :
    RereadsPiece d (style.tag.toList ++ style.delimiter triple) (.quote style triple) after parts
      (parts ++ [.stringPart str]) := by
  rcases h with ⟨tail, htext, hreads⟩
  refine ⟨tail, nofun, fun indent => ?_, fun indent rest hrest => ?_⟩
  · rw [List.flatMap_append, List.flatMap_singleton]
    exact congrArg _ (htext indent)
  · rcases hreads indent rest hrest.resumes with ⟨hlexed, hread⟩
    refine ⟨hlexed _, fun n ctx s token qs hroom htoken hshown hoffset hs hqs => ?_⟩
    unfold pushPiece
    rw [htoken]
    refine attains_seq (attains_lift (hread n ctx s _ hroom.here hs)) fun a t ha =>
      attains_pure ⟨hqs.snoc ?_ nofun, ha.2⟩
    rw [Tree.erase, Tree.erase, ha.1]

/-- An expansion is read again as a part of a word. -/
theorem rereads_expansionPart {o : Opener} {e : Expansion} (h : RereadsExpansion d o x after e) :
    RereadsPiece d x (.opener o) after parts (parts ++ [.expansionPart e]) := by
  rcases h with ⟨tail, htext, hreads⟩
  refine ⟨tail, nofun, fun indent => ?_, fun indent rest hrest => ?_⟩
  · rw [List.flatMap_append, List.flatMap_singleton]
    exact congrArg _ (htext indent)
  · rcases hreads indent rest hrest.resumes with ⟨hopens, hread⟩
    refine ⟨Lexed.opener_iff.2 hopens,
      fun n ctx s token qs hroom htoken hshown hoffset hs hqs => ?_⟩
    unfold pushPiece
    rw [htoken]
    refine attains_seq (hread n ctx s token hroom hshown hs) fun a t ha =>
      attains_pure ⟨hqs.snoc ?_ nofun, ha.2⟩
    rw [Tree.erase, Tree.erase, ha.1]

end

/-! ## Runs of pieces -/

/-- One round of a word reads a piece that stands there, the first of a word or one that
    touches what is in front of it. -/
theorem RereadsPiece.attains_wordRound {x after : List Char} {kind : Token.Kind}
    {parts parts' : List WordPart} (h : RereadsPiece d x kind after parts parts')
    (hpiece : kind.isWordPiece = true) :
    ∃ tail : Nat → List Char, (∀ indent, parts'.flatMap (·.chars indent "")
        = parts.flatMap (·.chars indent "") ++ (x ++ tail indent)) ∧
      (kind = .word → ∀ indent, tail indent = []) ∧
      ∀ indent rest, GoesOn after rest → Lexed .command x kind (tail indent ++ rest) ∧
        ∀ n ctx s qs continuing, Room d n ctx s → s.Shows (x ++ tail indent) rest →
          (continuing = true → s.cursor.rest = x ++ tail indent ++ rest ∧
            SameParts qs parts s.cursor.offset) → (continuing = false → qs = [] ∧ parts = []) →
            Attains ((turns n).wordRound (qs, continuing)) ctx s fun r t =>
              (∃ qs', r = .again (qs', true) ∧ SameParts qs' parts' t.cursor.offset) ∧
                t.cursor.rest = rest := by
  rcases h with ⟨tail, hword, htext, hreads⟩
  refine ⟨tail, htext, hword, fun indent rest hrest => ?_⟩
  rcases hreads indent rest hrest with ⟨hlexed, hread⟩
  refine ⟨hlexed, fun n ctx s qs continuing hroom hs htouching hfirst => ?_⟩
  have hstands : Stands .command ctx s x kind (tail indent ++ rest) :=
    hs.assoc.stands hlexed (.inr (.inl rfl))
  have himmediate : continuing = true → (s.next .command ctx).immediate = true := by
    intro hc
    rw [hstands.next.2.2, (htouching hc).1, List.append_assoc]
  refine attains_look (a := s.next .command ctx) rfl ?_
  -- The first piece may stand behind blanks. The others touch what is in front of them.
  have hgo : (!(s.next .command ctx).kind.isWordPiece
      || (continuing && !(s.next .command ctx).immediate)) = false := by
    rw [hstands.next.1, hpiece]
    cases continuing with
    | false => rfl
    | true => rw [himmediate rfl]; rfl
  rw [if_neg (Bool.eq_false_iff.1 hgo)]
  refine attains_seq hstands.advance fun token t ht => ?_
  have hlength : x.length + t.cursor.rest.length ≤ s.cursor.rest.length := by
    have hle := hs.length_le
    rw [ht.2.1]
    simp only [List.length_append] at hle ⊢
    omega
  have hsame : SameParts qs parts (s.next .command ctx).span.start := by
    cases continuing with
    | false =>
        rcases hfirst rfl with ⟨rfl, rfl⟩
        exact ⟨rfl, Tree.touches_nil _⟩
    | true =>
        rw [← (ht.2.2.touches rfl (himmediate rfl)).2]
        exact (htouching rfl).2
  refine attains_seq (hread n ctx t _ qs (hroom.behind hlength) hstands.next.1 hstands.next.2.1
    ht.2.2.stops ht.2.1 hsame) fun qs' u hu => attains_pure ⟨⟨qs', rfl, hu.1⟩, hu.2⟩

/-- The pieces between two places of a word add parts that are read again, round by
    round. -/
structure RereadsPieces (d : Option Definition) (c c' : Cursor) (parts parts' : List WordPart)
    (text : Nat → List Char) : Prop where
  printed : ∀ indent, parts'.flatMap (·.chars indent "")
    = parts.flatMap (·.chars indent "") ++ text indent
  /-- There is no piece at all, or else one stands in front. -/
  apart : (c' = c ∧ ∀ indent, text indent = []) ∨
    ∀ indent rest, GoesOn c'.rest rest → StartsPiece (text indent ++ rest)
  reads : ∀ indent rest, GoesOn c'.rest rest → GoesOn c.rest (text indent ++ rest) ∧
    ∀ n ctx s qs, Room d n ctx s → s.cursor.rest = text indent ++ rest →
      SameParts qs parts s.cursor.offset → ∃ qs' t,
        Runs ((turns n).wordRound) ctx (qs, true) s (qs', true) t ∧
          SameParts qs' parts' t.cursor.offset ∧ t.diagnostics = s.diagnostics ∧
            t.cursor.rest = rest

theorem rereadsPieces_nil (c : Cursor) (parts : List WordPart) :
    RereadsPieces d c c parts parts fun _ => [] where
  printed _ := by rw [List.append_nil]
  apart := .inl ⟨rfl, fun _ => rfl⟩
  reads _ _ hrest := ⟨hrest, fun _ _ s qs _ hs hqs => ⟨qs, s, .refl _ _, hqs, rfl, hs⟩⟩

/-- One more piece, which touches those in front of it. -/
theorem RereadsPieces.snoc {c c₁ : Cursor} {x r : List Char} {kind : Token.Kind} {c' : Cursor}
    {parts parts₁ parts' : List WordPart} {text : Nat → List Char}
    (h : RereadsPieces d c c₁ parts parts₁ text) (hc₁ : c₁.rest = x ++ r)
    (hlexed : Lexed .command x kind r) (hkind : kind.isWordPiece = true)
    (hpiece : RereadsPiece d x kind c'.rest parts₁ parts') :
    ∃ text', RereadsPieces d c c' parts parts' text' := by
  rcases hpiece.attains_wordRound hkind with ⟨tail, htext, -, hround⟩
  have hgoesOn : ∀ indent rest, GoesOn c'.rest rest →
      GoesOn c₁.rest (x ++ tail indent ++ rest) := fun indent rest hrest =>
    .inl ⟨x, kind, r, tail indent ++ rest, hc₁, List.append_assoc _ _ _, hlexed,
      (hround indent rest hrest).1, hkind⟩
  refine ⟨fun indent => text indent ++ (x ++ tail indent), fun indent => ?_,
    .inr fun indent rest hrest => ?_,
    fun indent rest hrest => ?_⟩
  · rw [htext, h.printed, List.append_assoc]
  · rw [List.append_assoc]
    rcases h.apart with ⟨rfl, hnone⟩ | hstarts
    · rw [hnone, List.nil_append]
      exact ⟨x, kind, tail indent ++ rest, List.append_assoc _ _ _, (hround indent rest hrest).1,
        hkind⟩
    · exact hstarts indent _ (hgoesOn indent rest hrest)
  · rcases h.reads indent _ (hgoesOn indent rest hrest) with ⟨hfront, hruns⟩
    rw [List.append_assoc]
    refine ⟨hfront, fun n ctx s qs hroom hs hqs => ?_⟩
    rcases hruns n ctx s qs hroom hs hqs with ⟨qs₁, t, hruns, hqs₁, hquiet, ht⟩
    have hle : t.cursor.rest.length ≤ s.cursor.rest.length := by
      rw [ht, hs]
      simp
    rcases (hround indent rest hrest).2 n ctx t qs₁ true (hroom.shorter hle) (.of_eq ht)
      (fun _ => ⟨ht, hqs₁⟩) nofun with ⟨_, u, hstep, hquiet', ⟨qs', rfl, hqs'⟩, hu⟩
    refine ⟨qs', u, hruns.snoc hstep hquiet' ?_, hqs', hquiet'.trans hquiet, hu⟩
    rcases hlexed.head_of_isWordPiece hkind with ⟨c, y, rfl, -⟩
    rw [hu, ht]
    simp only [List.length_append, List.length_cons]
    omega

/-- A word ends in front of what ends words. -/
theorem attains_wordRound_stop {g : Grammar} {ctx : Context} {s : State} {qs : List WordPart}
    (h : EndsWord s.cursor.rest) : Attains (g.wordRound (qs, true)) ctx s fun r t =>
      ∃ p, r = .stop p ∧ p = (qs, true) ∧ t = s := by
  refine attains_look (a := s.next .command ctx) rfl ?_
  have hstop : (!(s.next .command ctx).kind.isWordPiece
      || (true && !(s.next .command ctx).immediate)) = true := by
    cases hpiece : (s.next .command ctx).kind.isWordPiece with
    | false => rfl
    | true => rw [h.stops hpiece]; rfl
  rw [if_pos hstop]
  exact attains_pure ⟨_, rfl, rfl, rfl⟩

/-! ## Words -/

/-- A word is read again. It starts with the token that it started with, a piece of the
    kind and text given, and if that is a bare run then either the word is `alone`, with
    nothing behind the run, or another piece follows. -/
structure RereadsWordFrom (d : Option Definition) (kind : Token.Kind) (x : List Char) (alone : Prop)
    (w : Word) : Prop where
  piece : kind.isWordPiece = true
  starts : ∀ indent rest, EndsWord rest → ∃ tail, w.chars indent "" ++ rest = x ++ tail ∧
    Lexed .command x kind tail ∧ (kind = .word → (alone ∧ tail = rest) ∨ StartsPiece tail)
  reads : Rereads d (·.word) (w.chars · "") (fun _ => EndsWord) (·.erase = w.erase)

/-- A word is read again. -/
def RereadsWord (d : Option Definition) (w : Word) : Prop :=
  ∃ kind x alone, RereadsWordFrom d kind x alone w

namespace RereadsWord

variable {w : Word} (h : RereadsWord d w)
include h

theorem reads : Rereads d (·.word) (w.chars · "") (fun _ => EndsWord) (·.erase = w.erase) := by
  rcases h with ⟨kind, x, alone, h⟩
  exact h.reads

theorem startsPiece (indent : Nat) {rest : List Char} (hrest : EndsWord rest) :
    StartsPiece (w.chars indent "" ++ rest) := by
  rcases h with ⟨kind, x, alone, h⟩
  rcases h.starts indent rest hrest with ⟨tail, htext, hlexed, -⟩
  exact ⟨x, kind, tail, htext, hlexed, h.piece⟩

end RereadsWord

theorem Tree.erase_ofParts {qs parts : List WordPart} (h : qs.map erase = parts.map erase) :
    (ofParts qs).erase = (ofParts parts).erase := by
  unfold ofParts
  rw [erase, erase, erase_ofList, erase_ofList, h]

theorem Tree.chars_ofParts (parts : List WordPart) (indent : Nat) :
    (ofParts parts).chars indent "" = parts.flatMap (·.chars indent "") :=
  chars_ofList_flatMap (by simp) (by simp) parts indent

/-- A first piece and the pieces behind it are a word. -/
theorem RereadsPieces.word {x : List Char} {kind : Token.Kind} {c c' : Cursor}
    {parts parts' : List WordPart} {text : Nat → List Char} {alone : Prop}
    (hkind : kind.isWordPiece = true) (hfirst : RereadsPiece d x kind c.rest [] parts)
    (h : RereadsPieces d c c' parts parts' text)
    (halone : kind = .word → c' = c → alone) :
    RereadsWordFrom d kind x alone (.ofParts parts') := by
  rcases hfirst.attains_wordRound hkind with ⟨tail, htext, hword, hround⟩
  have hchars : ∀ indent,
      (Tree.ofParts parts').chars indent "" = x ++ tail indent ++ text indent := by
    intro indent
    rw [Tree.chars_ofParts, h.printed, htext]
    simp
  refine ⟨hkind, fun indent rest hrest => ?_, fun n ctx s indent rest hroom hrest hs => ?_⟩
  · rcases h.reads indent rest (.inr hrest) with ⟨hgoesOn, -⟩
    refine ⟨tail indent ++ (text indent ++ rest), ?_, (hround indent _ hgoesOn).1, fun hbare => ?_⟩
    · rw [hchars, List.append_assoc, List.append_assoc]
    · rw [hword hbare indent, List.nil_append]
      rcases h.apart with ⟨hsame, hnone⟩ | hstarts
      · exact .inl ⟨halone hbare hsame, by rw [hnone, List.nil_append]⟩
      · exact .inr (hstarts indent rest (.inr hrest))
  · rcases h.reads indent rest (.inr hrest) with ⟨hgoesOn, hruns⟩
    have hs : s.Shows (x ++ tail indent) (text indent ++ rest) := by
      have hs : s.Shows ((Tree.ofParts parts').chars indent "") rest := hs
      rw [hchars] at hs
      exact hs.assoc
    have hstep := (hround indent _ hgoesOn).2 n ctx s [] false hroom hs nofun
      fun _ => ⟨rfl, rfl⟩
    rcases hstep with ⟨_, t, hstep, hquiet, ⟨qs, rfl, hqs⟩, ht⟩
    have hpos : 0 < x.length := by
      rcases (hround indent _ hgoesOn).1.head_of_isWordPiece hkind with ⟨c, y, rfl, -⟩
      exact Nat.succ_pos _
    have hlt : t.cursor.rest.length < s.cursor.rest.length := by
      have hle := hs.length_le
      rw [ht]
      simp only [List.length_append] at hle ⊢
      omega
    rcases hruns n ctx t qs (hroom.shorter (Nat.le_of_lt hlt)) ht hqs with
      ⟨qs', u, hruns, hqs', -, hu⟩
    have hparts : Attains ((turns n).wordParts [] false) ctx s fun as v =>
        as = qs' ∧ v.cursor.rest = rest := by
      refine attains_seq ((Runs.head hstep hquiet hlt hruns).attains_loop
        (Q := fun p v => p = (qs', true) ∧ v.cursor.rest = rest) ?_) fun p v hp =>
          attains_pure ⟨by rw [hp.1], hp.2⟩
      refine (attains_wordRound_stop (hu ▸ hrest)).mono ?_
      rintro r v ⟨p, rfl, rfl, rfl⟩
      exact ⟨_, rfl, rfl, hu⟩
    refine attains_seq hparts ?_
    rintro as v ⟨rfl, hv⟩
    have hsome : as.isEmpty = false := by
      cases as with
      | cons => rfl
      | nil =>
          -- The text of the word is not empty, so there is a part in it.
          have hmap : parts'.map Tree.erase = [] := hqs'.same.symm
          have hnil : parts' = [] := List.map_eq_nil_iff.1 hmap
          have hempty := hchars indent
          rw [hnil, Tree.chars_ofParts] at hempty
          have hlength := congrArg List.length hempty
          simp only [List.flatMap_nil, List.length_nil, List.length_append] at hlength
          omega
    rw [hsome, if_neg Bool.false_ne_true]
    exact attains_pure ⟨Tree.erase_ofParts hqs'.same, hv⟩

/-! ## Words with blanks in front of them -/

namespace Tree

/-- The nodes, each behind a blank. -/
abbrev spaced {c : Category} (ts : List (Tree c)) (indent : Nat) : List Char :=
  ts.flatMap fun t => ' ' :: t.chars indent ""

end Tree

theorem endsWord_spaced {c : Category} {items : List (Tree c)} {indent : Nat} {close : List Char}
    (hstarts : ∀ b ∈ items, ∀ rest, EndsWord rest → EndsWord (' ' :: (b.chars indent "" ++ rest)))
    (hclose : EndsWord close) : EndsWord (Tree.spaced items indent ++ close) := by
  induction items with
  | nil => exact hclose
  | cons b items ih =>
      have hrest := ih fun b' hb' => hstarts b' (List.mem_cons_of_mem _ hb')
      have hends := hstarts b List.mem_cons_self _ hrest
      rwa [Tree.spaced, List.flatMap_cons, List.cons_append, List.cons_append, List.append_assoc]

/-- The words, each behind a blank. -/
abbrev blankWords (words : List Word) (indent : Nat) : List Char :=
  words.flatMap fun w => ' ' :: w.chars indent ""

theorem endsWord_blankWords {words : List Word} (hwords : ∀ w ∈ words, RereadsWord d w)
    (indent : Nat) {close : List Char} (hclose : EndsWord close) :
    EndsWord (blankWords words indent ++ close) :=
  endsWord_spaced (fun w hw _ hrest => ((hwords w hw).startsPiece indent hrest).endsWord) hclose

/-! ## Words of a source -/

section

variable {D : List Diagnostic} {g : Grammar} [g.Stepwise] {ctx : Context} {s : State}

/-- Consuming leads behind the token that looking gives. -/
theorem ensures_after : Ensures D (advance .command) ctx s fun _ s' =>
    s'.cursor = (s.cursor.lookahead .command false).after :=
  fun _ _ h _ => (congrArg (·.2.cursor) h).symm

/-- A piece of a source is read again. -/
theorem Grammar.keeps_pushPiece (hg : g.KeepsExpansions D) (hq : Quiet ctx.limits D) {c : Cursor}
    {token : Token} {parts : List WordPart} (hoffers : c.Offers .command token s.cursor)
    (hpiece : token.kind.isWordPiece = true) (htouches : Tree.Touches parts token.span.start) :
    Ensures D (g.pushPiece token parts) ctx s fun parts' s' =>
      RereadsPiece ctx.definition token.text.toList token.kind s'.cursor.rest parts parts' ∧
        Tree.Touches parts' s'.cursor.offset ∧ (token.kind = .word → s'.cursor = s.cursor) := by
  unfold pushPiece
  rcases hoffers with ⟨front, text, hfront, hread, himmediate⟩
  have htext : token.text.toList = text := by
    rw [hread.shown, String.toList_ofList]
  have hlexed := hread.lexed
  rw [htext]
  split
  · next style triple hkind =>
      rw [hkind] at hlexed ⊢
      rcases Lexed.quote_iff.1 hlexed with ⟨rfl, hstart⟩
      refine ensures_seq (ensures_lift (keeps_stringBody hg hq hstart)) fun str s1 hstr =>
        ensures_pure.2 fun _ => ⟨rereads_stringPart hstr, Tree.touches_append ?_, ?_⟩
      · rintro _ _ ⟨⟩
      · rintro ⟨⟩
  · next opener hkind =>
      rw [hkind] at hlexed ⊢
      have hopener : opener.Read token front text s.cursor :=
        ⟨hread.passes, hread.shown, Lexed.opener_iff.1 hlexed, hread.start, hread.stop⟩
      refine ensures_seq (hg hq hopener) fun e s1 he =>
        ensures_pure.2 fun _ => ⟨rereads_expansionPart he, Tree.touches_append ?_, ?_⟩
      · rintro _ _ ⟨⟩
      · rintro ⟨⟩
  · next hquote hopener =>
      have hkind : token.kind = .word ∨ token.kind = .leftBracket ∨ token.kind = .rightBracket := by
        cases hk : token.kind with
        | word => exact .inl rfl
        | leftBracket => exact .inr (.inl rfl)
        | rightBracket => exact .inr (.inr rfl)
        | quote style triple => exact absurd hk (hquote style triple)
        | opener o => exact absurd hk (hopener o)
        | _ =>
            rw [hk] at hpiece
            cases hpiece
      refine ensures_pure.2 fun _ => ⟨rereads_bareText hkind hlexed htouches, ?_, fun _ => rfl⟩
      rw [hread.passes.offset, ← hread.start]
      exact Tree.touches_pushText text htouches

/-- The pieces that touch what is in front of them are read again. -/
theorem Grammar.keeps_pieces (hg : g.KeepsExpansions D) (hq : Quiet ctx.limits D)
    {parts : List WordPart} (htouches : Tree.Touches parts s.cursor.offset) :
    Ensures D (loop g.wordRound (parts, true)) ctx s fun p s' =>
      ∃ text, RereadsPieces ctx.definition s.cursor s'.cursor parts p.1 text := by
  have hloop : Progresses g.wordRound ctx := ParseLoop.word.progresses
  refine hloop.ensures_loop (I := fun (p : List WordPart × Bool) s' => p.2 = true ∧
    Tree.Touches p.1 s'.cursor.offset ∧
      ∃ text, RereadsPieces ctx.definition s.cursor s'.cursor parts p.1 text)
    ⟨rfl, htouches, _, rereadsPieces_nil _ _⟩ ?_
  rintro ⟨parts₁, continuing⟩ s1 ⟨rfl, htouches₁, text, hpieces⟩
  refine ensures_peek (ensures_ite (fun _ => ensures_pure.2 fun _ => ⟨text, hpieces⟩) fun hgo => ?_)
  rw [Bool.not_eq_true, Bool.or_eq_false_iff, Bool.true_and, Bool.not_eq_false',
    Bool.not_eq_false'] at hgo
  refine ensures_next hq fun s2 hoffers => ?_
  have hread := hoffers
  rcases hread with ⟨front, x, -, hread, himmediate⟩
  have hfront := himmediate rfl hgo.2
  subst hfront
  have hx : (s1.next .command ctx).text.toList = x := by
    rw [hread.shown, String.toList_ofList]
  refine ensures_seq (keeps_pushPiece hg hq hoffers hgo.1 (hread.start ▸ htouches₁))
    fun parts₂ s3 hpiece => ensures_pure.2 fun _ => ⟨rfl, hpiece.2.1, ?_⟩
  rw [hx] at hpiece
  exact hpieces.snoc hread.passes.rest hread.lexed hgo.1 hpiece.1

/-- A word of a source is read again. -/
theorem Grammar.keeps_word (hg : g.KeepsExpansions D) (hq : Quiet ctx.limits D) :
    Ensures D g.word ctx s fun w s' =>
      RereadsWordFrom ctx.definition (s.next .command ctx).kind (s.next .command ctx).text.toList
        (s'.cursor = (s.cursor.lookahead .command false).after) w := by
  have hloop : Progresses g.wordRound ctx := ParseLoop.word.progresses
  have hparts : Ensures D (g.wordParts [] false) ctx s fun parts s' => parts = [] ∨
      RereadsWordFrom ctx.definition (s.next .command ctx).kind (s.next .command ctx).text.toList
        (s'.cursor = (s.cursor.lookahead .command false).after) (.ofParts parts) := by
    refine ensures_seq (hloop.ensures_round
      (Q := fun p s' => p.1 = [] ∨ RereadsWordFrom ctx.definition
      (s.next .command ctx).kind (s.next .command ctx).text.toList
      (s'.cursor = (s.cursor.lookahead .command false).after) (.ofParts p.1)) ?_)
      fun p s1 hp => ensures_pure.2 fun _ => hp
    refine ensures_peek (ensures_ite (fun _ => ensures_pure.2 fun _ => .inl rfl) fun hgo => ?_)
    rw [Bool.not_eq_true, Bool.or_eq_false_iff, Bool.not_eq_false'] at hgo
    refine ensures_seq (ensures_lift ((ensures_offers hq).and ensures_after))
      fun token s1 hs1 => ?_
    rcases hs1 with ⟨⟨rfl, hoffers⟩, hafter⟩
    refine ensures_seq (keeps_pushPiece hg hq hoffers hgo.1 (Tree.touches_nil _))
      fun parts s2 hpiece => ensures_pure.2 fun _ => ?_
    refine (keeps_pieces hg hq hpiece.2.1).mono ?_
    rintro p s3 ⟨text, hpieces⟩
    refine .inr (hpieces.word hgo.1 hpiece.1 fun hword hsame => ?_)
    rw [hsame, hpiece.2.2 hword, hafter]
  refine ensures_seq hparts fun parts s1 hword => ensures_ite (fun _ => ensures_unexpected)
    fun hsome => ensures_pure.2 fun _ => hword.resolve_left ?_
  rintro rfl
  exact hsome rfl

end

end Ysh
