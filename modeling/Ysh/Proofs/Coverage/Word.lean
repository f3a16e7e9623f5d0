import Ysh.Grammar.Language
import Ysh.Proofs.Coverage.Reader
import Ysh.Proofs.Lexing.Quoted
import Ysh.Proofs.Parts

/-!
# Words, Strings and Expansions Lose Nothing

The text of a word is cut into parts character by character, so the parts are followed
character by character as well. A string is followed piece by piece, and an expansion
from the opener on, which its reader does not consume but which is part of it.

## Main definitions

* `Opener.Read`: The opener of an expansion stands between two places.
* `Grammar.Lossless`: The three readers of a grammar lose nothing.

## Theorems

* `Covers.pushText`: The text of a token is covered by the parts it adds.
* `Grammar.lossless_stringBody`, `Grammar.lossless_word`,
  `Grammar.lossless_expansionBody`.
-/

namespace Ysh

open Lexeme

variable {D : List Diagnostic}

/-- The opener of an expansion stands between the two places. -/
structure Opener.Read (opener : Opener) (token : Token) (front : Cursor) (text : List Char)
    (after : Cursor) : Prop where
  passes : front.Passes text after
  shown : token.text = .ofList text
  opens : Opens text opener after.rest
  start : token.span.start = front.offset
  stop : token.span.stop = after.offset

/-- An opener that has been consumed stands behind fillers. -/
theorem Cursor.Offers.opener {mode : Mode} {c after : Cursor} {token : Token} {o : Opener}
    (h : c.Offers mode token after) (hkind : token.kind = .opener o) :
    ∃ front text, Covers c [] front ∧ o.Read token front text after := by
  rcases h with ⟨front, text, hfront, hread, -⟩
  have hlexed := hread.lexed
  rw [hkind] at hlexed
  exact ⟨front, text, hfront, hread.passes, hread.shown, Lexed.opener_iff.1 hlexed, hread.start,
    hread.stop⟩

/-- The three readers of the grammar lose nothing. An expansion begins with its opener. -/
structure Grammar.Lossless (D : List Diagnostic) (g : Grammar) : Prop where
  expression : Ysh.Lossless D g.expression Tree.leaves
  statements (closer : Option Token.Kind) :
    Ysh.Lossless D (g.statements closer) (·.flatMap Tree.leaves)
  expansion {opener : Opener} {token : Token} {front : Cursor} {text : List Char} {ctx : Context}
      {s : State} (hq : Quiet ctx.limits D) (h : opener.Read token front text s.cursor) :
    Ensures D (g.expansion opener token) ctx s fun e s' => Covers front e.leaves s'.cursor

/-! ## Parts of words -/

namespace Covers

variable {c d e : Cursor} {parts : List WordPart}

/-- A character of bare text extends a bare part that touches it, and is a leaf of its
    own behind any other. -/
theorem pushBare {x : Char} (h : Covers c (parts.flatMap Tree.leaves) d) (hx : d.Passes [x] e) :
    Covers c ((Tree.pushBare x d.offset parts).flatMap Tree.leaves) e := by
  have hstop : e.offset = d.offset + x.utf8Size := by
    rw [hx.offset]
    simp
  rcases Tree.pushBare_eq x d.offset parts with ⟨front, run, span, rfl, hspan, heq⟩ | heq
  · rw [heq, List.flatMap_append]
    rw [List.flatMap_append] at h
    rcases Covers.last h with ⟨c', d', text, hfront, hpasses, hstart, hstop', hspelled, htail⟩
    -- The part ends where the character stands, so there is no filler between them.
    rcases htail.passes with ⟨gap, hgap⟩
    have hd : d' = d := hgap.eq_of_offset (hspan.symm.trans hstop')
    subst hd
    have hle : span.start ≤ d'.offset + x.utf8Size :=
      Nat.le_trans span.start_le_stop (Nat.le_trans (Nat.le_of_eq hspan) (Nat.le_add_right _ _))
    refine hfront.append (.ofLeaf (hpasses.trans hx) ?_ ?_ ?_)
    · change min span.start _ = c'.offset
      rw [Nat.min_eq_left hle, ← hstart]
    · change max span.start _ = e.offset
      rw [Nat.max_eq_right hle, hstop]
    · have htext : text = run.toList := hspelled
      change text ++ [x] = (run.push x).toList
      rw [htext, String.toList_push]
  · rw [heq, List.flatMap_append]
    refine h.append (.ofLeaf hx ?_ ?_ ?_)
    · exact Nat.min_eq_left (Nat.le_add_right _ _)
    · exact (Nat.max_eq_right (Nat.le_add_right _ _)).trans hstop.symm
    · change [x] = x.toString.toList
      simp

/-- The text of a token is covered by the parts it adds. -/
theorem pushText {text : List Char} (h : Covers c (parts.flatMap Tree.leaves) d)
    (htext : d.Passes text e) :
    Covers c ((Tree.pushText parts text d.offset).flatMap Tree.leaves) e := by
  have hkept : ∃ d' : Cursor, d'.offset = d.offset + byteLength text ∧ d'.Passes [] e ∧
      Covers c ((Tree.pushText parts text d.offset).flatMap Tree.leaves) d' := by
    refine Tree.pushText_induction (I := fun text offset parts => ∃ d : Cursor,
      d.offset = offset ∧ d.Passes text e ∧ Covers c (parts.flatMap Tree.leaves) d) ?_ ?_
      ⟨d, rfl, htext, h⟩
    · rintro x xs _ parts ⟨d, rfl, hpasses, hcovers⟩
      rcases hpasses.split (x := [x]) with ⟨d', hx, hxs⟩
      refine ⟨d', ?_, hxs, hcovers.pushBare hx⟩
      rw [hx.offset]
      simp
    · rintro x xs _ parts ⟨d, rfl, hpasses, hcovers⟩
      rcases hpasses.split (x := ['\\', x]) with ⟨d', hx, hxs⟩
      have hstop : d'.offset = d.offset + '\\'.utf8Size + x.utf8Size := by
        rw [hx.offset]
        simp [Nat.add_assoc]
      refine ⟨d', hstop, hxs, ?_⟩
      rw [List.flatMap_append]
      refine hcovers.append (.ofLeaf hx ?_ ?_ ?_)
      · exact Nat.min_eq_left (by omega)
      · exact (Nat.max_eq_right (by omega)).trans hstop.symm
      · change ['\\', x] = '\\' :: x.toString.toList
        simp
  rcases hkept with ⟨d', -, hpasses, hcovers⟩
  rwa [← hpasses.eq_of_nil]

end Covers

/-! ## Pieces of strings -/

/-- What was read of a string body, from one place to the other, in a string in which
    nothing is wrong. -/
def Quoted.Cover (c d : Cursor) : Except LexicalError Quoted.Piece → Prop
  | .ok (.text value span) | .ok (.escape value span) => Covers c [⟨.plain, value, span⟩] d
  | .ok (.expansion opener token) => ∃ text, opener.Read token c text d
  | .ok (.close _) => Covers c [] d
  | .ok (.badEscape _ _ _) | .error _ => True

theorem Cursor.cover_piece (c : Cursor) (style : StringStyle) (triple : Bool) (opening : Span) :
    Quoted.Cover c (c.piece style triple opening).2 (c.piece style triple opening).1 := by
  unfold piece
  split
  · trivial
  · rcases hform : Quoted.form style triple c.rest with ⟨form, n⟩
    have hpasses := Passes.advance c n
    have htext : (c.textOf n).toList = c.rest.take n := String.toList_ofList
    cases form with
    | text | escape => exact .ofLeaf hpasses rfl rfl htext.symm
    | badEscape | badByteEscape => trivial
    | expansion opener =>
        have hdollar := (Quoted.form_expansion_iff.1 hform).2
        have hlexeme : ofMode .command c.rest = .token (.opener opener) n := by
          rcases dollar?_head hdollar with ⟨t, ht⟩
          rw [ht] at hdollar ⊢
          exact ofMode_dollar.2 hdollar
        have hwithin := within_ofMode .command c.rest
        rw [hlexeme] at hwithin
        have hlength : (c.rest.take n).length = n := by
          rw [List.length_take]
          exact Nat.min_eq_left hwithin.1
        refine ⟨c.rest.take n, hpasses, rfl, .inl ?_, rfl, rfl⟩
        rw [← hpasses.rest, hlength]
        exact hdollar
    | close =>
        rcases Quoted.form_close_iff.1 hform with ⟨⟨t, ht⟩, rfl⟩
        have hclose : c.rest.take (style.delimiter triple).length = style.delimiter triple := by
          rw [← ht, List.take_left']
          rfl
        rw [hclose] at hpasses
        exact .ofFixed hpasses (.closeQuote style triple)

/-! ## Reading at the very place -/

theorem ensures_raw {α : Type} {read : Cursor → α × Cursor} {ctx : Context} {s : State} :
    Ensures D (raw read) ctx s fun a s' => a = (read s.cursor).1 ∧ s'.cursor = (read s.cursor).2 := by
  intro a s' h _
  cases h
  exact ⟨rfl, rfl⟩

namespace Grammar

variable {g : Grammar} [g.Stepwise] (hg : g.Lossless D)
include hg

/-! ## Strings -/

theorem covers_stringRound {style : StringStyle} {triple : Bool} {opening : Span} {c : Cursor}
    (fragments : Array Fragment) {ctx : Context} {s : State} (hq : Quiet ctx.limits D)
    (h : Covers c (fragments.toList.flatMap Tree.leaves) s.cursor) :
    Ensures D (g.stringRound style triple opening fragments) ctx s fun r s' =>
      Covers c (r.value.toList.flatMap Tree.leaves) s'.cursor := by
  have hpush : ∀ {f : Fragment} {d : Cursor}, Covers s.cursor f.leaves d →
      Covers c ((fragments.push f).toList.flatMap Tree.leaves) d := by
    intro f d hf
    rw [Array.toList_push, List.flatMap_append, List.flatMap_singleton]
    exact h.append hf
  refine Moving.ensures_seq (fun p => ?_) (ensures_raw (D := D)) ?_
  · rcases p with e | (_ | _ | _ | ⟨opener, token⟩ | _)
    · infer_instance
    · infer_instance
    · infer_instance
    · infer_instance
    · exact Moving.bind inferInstance fun r => by cases r <;> infer_instance
    · infer_instance
  · rintro p s1 ⟨rfl, hcursor⟩
    have hp := s.cursor.cover_piece style triple opening
    rw [← hcursor] at hp
    generalize (s.cursor.piece style triple opening).1 = p at hp ⊢
    rcases p with e | (_ | _ | _ | ⟨opener, token⟩ | _)
    · exact ensures_blame hq rfl
    · exact ensures_pure.2 fun _ => hpush hp
    · exact ensures_pure.2 fun _ => hpush hp
    · exact ensures_blame hq rfl
    · rcases hp with ⟨text, hread⟩
      refine Moving.ensures_seq (fun r => by cases r <;> infer_instance)
        (ensures_attempt (hg.expansion hq hread)) fun r s2 hr => ?_
      cases r with
      | ok e => exact ensures_pure.2 fun _ => hpush (hr e rfl)
      | error e => exact ensures_blame hq rfl
    · exact ensures_pure.2 fun _ => h.upTo hp

/-- The fragments of a string cover it behind its opening quote. -/
theorem lossless_stringBody (style : StringStyle) (triple : Bool) (opening : Span) :
    Ysh.Lossless D (g.stringBody style triple opening) Tree.leaves := by
  intro ctx s hq
  refine ensures_seq (ensures_loop_state
    (I := fun fragments s' => Covers s.cursor (fragments.toList.flatMap Tree.leaves) s'.cursor)
    (.nil _) fun fragments s1 h => covers_stringRound hg fragments hq h) fun fragments s1 h => ?_
  refine Scan.ensures_position (ensures_pure.2 fun _ => ?_)
  change Covers s.cursor (Tree.ofList fragments.toList).leaves s1.cursor
  rwa [Tree.leaves_ofList]

/-! ## Words -/

/-- A piece of a word adds parts that cover it. -/
theorem covers_pushPiece {token : Token} {parts : List WordPart} {c d : Cursor} {ctx : Context}
    {s : State} (hq : Quiet ctx.limits D) (h : Covers c (parts.flatMap Tree.leaves) d)
    (hoffers : d.Offers .command token s.cursor) :
    Ensures D (g.pushPiece token parts) ctx s fun parts s' =>
      Covers c (parts.flatMap Tree.leaves) s'.cursor := by
  have hpush : ∀ {p : WordPart} {e : Cursor}, Covers d p.leaves e →
      Covers c ((parts ++ [p]).flatMap Tree.leaves) e := by
    intro p e hp
    rw [List.flatMap_append, List.flatMap_singleton]
    exact h.append hp
  unfold pushPiece
  split
  · next hkind =>
      have hopen := hoffers.fixed (by rw [hkind]; rfl)
      refine ensures_seq (ensures_lift (lossless_stringBody hg _ _ _ ctx s hq)) fun t s1 ht => ?_
      exact ensures_pure.2 fun _ => hpush (p := .stringPart t) (hopen.after ht)
  · next opener hkind =>
      rcases hoffers.opener hkind with ⟨front, text, hfront, hopener⟩
      refine ensures_seq (hg.expansion hq hopener) fun e s1 he => ensures_pure.2 fun _ => ?_
      exact hpush (p := .expansionPart e) (hfront.after he)
  · rcases hoffers with ⟨front, text, hfront, hread, -⟩
    refine ensures_pure.2 fun _ => ?_
    rw [hread.shown, String.toList_ofList, hread.start]
    exact (h.upTo hfront).pushText hread.passes

/-- The parts of a word cover what is read of it. -/
theorem covers_wordParts {parts : List WordPart} {continuing : Bool} {c : Cursor} {ctx : Context}
    {s : State} (hq : Quiet ctx.limits D) (h : Covers c (parts.flatMap Tree.leaves) s.cursor) :
    Ensures D (g.wordParts parts continuing) ctx s fun parts s' =>
      Covers c (parts.flatMap Tree.leaves) s'.cursor := by
  refine ensures_seq (ensures_loop_state (I := fun (p : List WordPart × Bool) s' =>
    Covers c (p.1.flatMap Tree.leaves) s'.cursor) h ?_) fun p s1 hp => ensures_pure.2 fun _ => hp
  rintro ⟨parts, continuing⟩ s1 hparts
  refine ensures_peek (ensures_ite (fun _ => ensures_pure.2 fun _ => hparts) fun _ => ?_)
  refine ensures_next hq fun s2 hoffers => ?_
  refine ensures_seq (covers_pushPiece hg hq hparts hoffers) fun parts' s3 hparts' => ?_
  exact ensures_pure.2 fun _ => hparts'

theorem lossless_word : Ysh.Lossless D g.word Tree.leaves := by
  intro ctx s hq
  refine ensures_seq (covers_wordParts hg hq (.nil _)) fun parts s1 hparts => ?_
  refine ensures_ite (fun _ => ensures_unexpected) fun _ => ensures_pure.2 fun _ => ?_
  change Covers s.cursor (Tree.ofList parts).leaves s1.cursor
  rwa [Tree.leaves_ofList]

/-! ## Expansions -/

omit [g.Stepwise] hg in
theorem lossless_defaultMark : Ysh.Lossless D defaultMark fun _ => [] := by
  intro ctx s hq
  refine ensures_raw.mono ?_
  rintro found s1 ⟨-, hcursor⟩
  rw [hcursor]
  unfold Cursor.defaultMark
  split
  · next hrest =>
      have hpasses := Cursor.Passes.advance s.cursor 2
      rw [hrest] at hpasses
      exact .ofFixed hpasses .defaultMark
  · exact .nil _

omit [g.Stepwise] hg in
theorem lossless_closingBrace : Ysh.Lossless D closingBrace fun _ => [] := by
  intro ctx s hq
  refine ensures_raw.mono ?_
  rintro found s1 ⟨-, hcursor⟩
  rw [hcursor]
  change Covers s.cursor [] s.cursor.closingBrace?.2
  unfold Cursor.closingBrace?
  split
  · next hrest =>
      have hpasses := Cursor.Passes.advance s.cursor 1
      rw [hrest] at hpasses
      exact .ofFixed hpasses
        (.commandOperator (by decide : (['}'], Token.Kind.rightBrace) ∈ commandOperators))
  · exact .nil _

theorem lossless_bracedDefault : Ysh.Lossless D g.bracedDefault fun o => o.toList.flatMap Tree.leaves := by
  intro ctx s hq
  refine ensures_seq (ensures_lift (lossless_defaultMark ctx s hq)) fun found s1 hmark => ?_
  refine ensures_ite (fun _ => ?_) fun _ => ensures_pure.2 fun _ => hmark
  refine ensures_position (ensures_seq (ensures_lift ensures_ahead) fun _ s2 hs2 => ?_)
  subst hs2
  refine ensures_ite (fun _ => ensures_pure.2 fun _ => hmark) fun _ => ?_
  refine ensures_seq (lossless_word hg ctx s2 hq) fun w s3 hw => ensures_pure.2 fun _ => ?_
  change Covers s.cursor (w.leaves ++ []) s3.cursor
  rw [List.append_nil]
  exact hmark.after hw

omit [g.Stepwise] hg in
theorem lossless_expectBrace {opening : Span} : Ysh.Lossless D (expectBrace opening) fun _ => [] := by
  intro ctx s hq
  refine ensures_seq (ensures_lift (lossless_closingBrace ctx s hq)) fun found s1 hbrace => ?_
  refine ensures_ite (fun _ => ensures_pure.2 fun _ => hbrace) fun _ => ?_
  refine ensures_peek (ensures_ite (fun _ => ?_) fun _ => ensures_throw)
  exact ensures_lift (ensures_stays.mono fun _ s2 hs2 => hs2 ▸ hbrace)

omit [g.Stepwise] hg in
/-- The name of a braced expansion, behind its opener. -/
theorem covers_bracedName {ctx : Context} {s : State} :
    Ensures D bracedName ctx s fun r s' =>
      ∀ name span, r = some (name, span) → s.cursor.Passes name.toList s'.cursor := by
  refine ensures_raw.mono ?_
  rintro r s1 ⟨rfl, hcursor⟩ name span hname
  rw [hcursor]
  unfold Cursor.bracedName? at hname ⊢
  split at hname
  · next n _ =>
      cases hname
      have htext : (s.cursor.textOf n).toList = s.cursor.rest.take n := String.toList_ofList
      rw [htext]
      exact .advance s.cursor n
  · cases hname

theorem covers_bracedBody {token : Token} {front : Cursor} {ctx : Context} {s : State}
    (hq : Quiet ctx.limits D) (hpasses : front.Passes ['$', '{'] s.cursor)
    (hstart : token.span.start = front.offset) :
    Ensures D (g.bracedBody token) ctx s fun e s' => Covers front e.leaves s'.cursor := by
  refine Moving.ensures_seq (fun r => by split <;> infer_instance)
    (ensures_lift covers_bracedName) fun r s1 hname => ?_
  split
  · next name span =>
      have hname := hpasses.trans (hname name span rfl)
      refine ensures_seq (lossless_bracedDefault hg ctx s1 hq) fun default s2 hdefault => ?_
      refine ensures_seq (lossless_expectBrace ctx s2 hq) fun _ s3 hbrace => ?_
      refine ensures_position (ensures_pure.2 fun _ => ?_)
      have hrest : Covers s1.cursor (Tree.ofOption default).leaves s3.cursor := by
        rw [Tree.leaves_ofOption]
        exact hdefault.upTo hbrace
      -- The span of the expansion starts where its opener does.
      have hends : token.span.start ≤ s3.cursor.offset := by
        have hle := hrest.offset_le
        rw [hname.offset] at hle
        omega
      have hspan : (token.span.upTo s3.cursor.offset).start = front.offset := by
        rw [← hstart]
        exact Nat.min_eq_left hends
      refine .leaf hname ?_ ?_ rfl hrest
      · change min (token.span.upTo s3.cursor.offset).start _ = _
        rw [hspan]
        exact Nat.min_eq_left (Nat.le_add_right _ _)
      · change max (token.span.upTo s3.cursor.offset).start _ = _
        rw [hspan, hname.offset]
        exact Nat.max_eq_right (Nat.le_add_right _ _)
  · exact ensures_unexpected

omit [g.Stepwise] in
/-- An expression in brackets is covered behind the opening one. -/
theorem lossless_enclosed {closer : Token.Kind} {opening : Span} (hcloser : closer.isFixed = true) :
    Ysh.Lossless D (g.enclosed closer opening) Tree.leaves := by
  intro ctx s hq
  refine ensures_bracketed fun _ => ensures_seq (hg.expression _ s hq) fun e s1 he => ?_
  refine ensures_seq (lossless_expectClosing hcloser _ s1 hq) fun _ s2 hs2 => ?_
  exact ensures_pure.2 fun _ => he.upTo hs2

theorem lossless_parenthesized : Ysh.Lossless D g.parenthesized Tree.leaves := by
  intro ctx s hq
  refine ensures_expectAs hq rfl fun s1 hs1 => ?_
  exact (lossless_enclosed hg rfl ctx s1 hq).mono fun e s2 he => hs1.after he

omit [g.Stepwise] in
theorem lossless_body (closer : Token.Kind) :
    Ysh.Lossless D (g.body closer) (·.flatMap Tree.leaves) := by
  intro ctx s hq
  refine ensures_nested fun _ => ensures_lift (x := unbracketed (g.statements (some closer))) ?_
  exact hg.statements (some closer) { ctx with depth := ctx.depth + 1, inBrackets := false } s hq

theorem covers_expansionBody {opener : Opener} {token : Token} {front : Cursor}
    {text : List Char} {ctx : Context} {s : State} (hq : Quiet ctx.limits D)
    (h : opener.Read token front text s.cursor) :
    Ensures D (g.expansionBody opener token) ctx s fun e s' => Covers front e.leaves s'.cursor := by
  have hshape := h.opens.shape
  have hname : ∀ sigil name, text = Sigil.char sigil :: name →
      Covers front [⟨.variable sigil, String.ofList (token.text.toList.drop 1), token.span⟩]
        s.cursor := by
    intro sigil name htext
    refine .ofLeaf h.passes h.start h.stop ?_
    change text = sigil.char :: (String.ofList (token.text.toList.drop 1)).toList
    rw [h.shown, String.toList_ofList, String.toList_ofList, htext]
    rfl
  cases opener with
  | name =>
      rcases hshape with ⟨name, htext, -⟩
      exact ensures_pure.2 fun _ => hname .dollar name htext
  | splice =>
      rcases hshape with ⟨name, htext, -⟩
      exact ensures_pure.2 fun _ => hname .at name htext
  | brace =>
      have hpasses := h.passes
      rw [show text = ['$', '{'] from hshape] at hpasses
      exact covers_bracedBody hg hq hpasses h.start
  | bracket sigil =>
      have hopen : Covers front [] s.cursor := .ofFixed h.passes (hshape ▸ .bracket sigil)
      refine ensures_seq (lossless_enclosed hg rfl ctx s hq) fun e s1 he => ?_
      exact ensures_position (ensures_pure.2 fun _ => hopen.after he)
  | paren sigil =>
      have hopen : Covers front [] s.cursor := .ofFixed h.passes (hshape ▸ .paren sigil)
      refine ensures_seq (lossless_body hg .rightParen ctx s hq) fun statements s1 hstatements => ?_
      refine ensures_seq (lossless_expectClosing rfl ctx s1 hq) fun _ s2 hs2 => ?_
      refine ensures_position (ensures_pure.2 fun _ => ?_)
      change Covers front (Tree.ofList statements).leaves s2.cursor
      rw [Tree.leaves_ofList]
      exact (hopen.after hstatements).upTo hs2

end Grammar

end Ysh
