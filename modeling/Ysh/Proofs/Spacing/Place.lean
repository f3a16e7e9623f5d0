import Ysh.Proofs.Coverage.Reader
import Ysh.Proofs.Lexing.Quoted
import Ysh.Proofs.Lexing.Raw
import Ysh.Proofs.Spacing.Lexeme

/-!
# Places of the Squeezed Source

At a place of the source and at the place it becomes in the squeezed source the same is
read. For a token this takes two things: its characters are copied, and what is in front
of it is a gap and no part of a leaf. A token that is looked at need not be consumed, and
may be looked at in two modes, so what can be `Seen` from a place is a notion of its own.
Lookahead over newlines passes several gaps, and each of them is squeezed.

Text that is read without tokens, the inside of strings, the name in `${name}` and the
body of an eggex, starts right behind the last token and is copied as it stands.

## Main definitions

* `Cursor.Reads`: What is read as the next token, and where.
* `Cursor.Seen`: The next token is read alike in the squeezed source.
* `Cursor.Piece`: The next piece of a string is read alike in the squeezed source.

## Theorems

* `Cursor.Reads.squeezed`: A token is read again in the squeezed source.
* `Cursor.Seen.shows`: What is seen is looked at with the same result.
* `Cursor.Seen.inExpression`, `Cursor.Seen.inCommand`: What is seen in one mode and means
  the same in the other is seen in the other.
* `Cursor.Piece.squeezed`: A piece of a string is the same piece.
-/

namespace Ysh

open Lexeme

/-- The words and signs of the language are solid. -/
theorem Fixed.solid {text : List Char} (h : Fixed text) :
    ∀ x ∈ text, Character.isSolid x = true := by
  cases h with
  | @keyword word h =>
      have hall : keywords.all (fun word => word.toList.all Character.isSolid) = true := by decide
      exact List.all_eq_true.1 (List.all_eq_true.1 hall word h)
  | @commandOperator entry h => exact commandOperators_solid entry h
  | @expressionOperator entry h => exact expressionOperators_solid entry h
  | newline | brace | defaultMark => exact List.all_eq_true.1 rfl
  | bracket sigil | paren sigil => exact List.all_eq_true.1 (by cases sigil <;> rfl)
  | openQuote style triple | closeQuote style triple =>
      exact List.all_eq_true.1 (by cases style <;> cases triple <;> rfl)

/-- Only a newline ends a line. -/
theorem Lexeme.head?_of_newline {mode : Mode} {cs : List Char} {n : Nat}
    (h : ofMode mode cs = .token .newline n) : cs.head? = some '\n' := by
  have harises := arises_ofMode mode cs
  rw [h] at harises
  generalize hl : Lexeme.token .newline n = l at harises
  cases harises with
  | newline hhead => exact hhead
  | quote hq =>
      rcases quote?_kind hq with ⟨_, _, _, rfl⟩
      cases hl
  | commandOperator hm =>
      subst hl
      exact absurd rfl (match?_kind (P := fun kind => kind ≠ .newline) (by decide) hm)
  | expressionOperator hm =>
      subst hl
      exact absurd rfl (match?_kind (P := fun kind => kind ≠ .newline) (by decide) hm)
  | number => cases number_kind hl.symm
  | name =>
      rcases name_kind cs with ⟨kind, hname, -, hmember⟩
      rw [hname] at hl
      rw [← Except.ok.inj (congrArg Lexeme.verdict hl)] at hmember
      cases hmember
  | character => cases character_kind hl.symm
  | _ => cases hl

/-- The token, standing nowhere. -/
def Token.erase (token : Token) : Token :=
  { token with span := default }

theorem Token.kind_eq {t t' : Token} (h : t'.erase = t.erase) : t'.kind = t.kind := by
  have hkind := congrArg Token.kind h
  exact hkind

namespace Cursor

variable {gaps : Gaps} {mode : Mode} {overLines : Bool} {c d after : Cursor}
  {token : Token}

/-- What stands in front of the next token of a place is no part of a leaf. -/
def Clear (gaps : Gaps) (c : Cursor) : Prop :=
  extrasLength c.rest ≠ 0 → gaps.inside c.offset = false

/-- What is read as the next token, and where. -/
structure Reads (mode : Mode) (c : Cursor) (token : Token) (after : Cursor) : Prop where
  lexed : Lexed mode token.text.toList token.kind after.rest
  front : c.skipExtras.rest = token.text.toList ++ after.rest
  after : after = c.skipExtras.advance token.text.toList.length
  span : token.span = c.skipExtras.spanOf token.text.toList.length
  immediate : token.immediate = (extrasLength c.rest == 0)

theorem nextToken_of_lexeme {kind : Token.Kind} {n : Nat}
    (h : ofMode mode c.skipExtras.rest = .token kind n) : c.nextToken mode
      = (.ok ⟨kind, c.skipExtras.textOf n, c.skipExtras.spanOf n, extrasLength c.rest == 0⟩,
          c.skipExtras.advance n) := by
  unfold skipExtras at h
  simp only [nextToken, h, Lexeme.token]
  rfl

theorem reads_of_nextToken (h : c.nextToken mode = (.ok token, after)) :
    c.Reads mode token after := by
  have hwithin := within_ofMode mode c.skipExtras.rest
  rcases hl : ofMode mode c.skipExtras.rest with ⟨verdict | kind, n⟩
  · simp only [skipExtras] at hl
    simp only [nextToken, hl] at h
    cases h
  · rw [nextToken_of_lexeme hl] at h
    cases h
    rw [hl] at hwithin
    have hlength : (c.skipExtras.rest.take n).length = n := by
      rw [List.length_take]
      exact Nat.min_eq_left hwithin.1
    have hsplit : c.skipExtras.rest.take n ++ (c.skipExtras.advance n).rest = c.skipExtras.rest :=
      List.take_append_drop n c.skipExtras.rest
    have htext : (c.skipExtras.textOf n).toList = c.skipExtras.rest.take n := String.toList_ofList
    constructor
    all_goals dsimp only
    · rw [htext]
      refine ⟨by rw [hsplit]; exact extrasLength_drop c.rest, ?_⟩
      rw [hsplit, hl, hlength]
      rfl
    · rw [htext, hsplit]
    · rw [htext, hlength]
    · rw [htext, hlength]

/-- What stands in front of the token in the squeezed source is a gap where it was one. -/
theorem gap_squeezed (hclear : c.Clear gaps) {rest : List Char}
    (hfront : c.skipExtras.squeezed gaps = rest) (hplain : extrasLength rest = 0)
    (hhead : rest.head? = c.skipExtras.rest.head?) :
    ∃ gap, c.squeezed gaps = gap ++ rest ∧ extrasLength (gap ++ rest) = gap.length ∧
      (gap.length == 0) = (extrasLength c.rest == 0) := by
  by_cases hgap : extrasLength c.rest = 0
  · have hskip : c.skipExtras = c := by rw [skipExtras, hgap, advance_zero]
    exact ⟨[], by rw [← hskip, hfront]; rfl, hplain, by rw [hgap]; rfl⟩
  · have hsplit := squeezed_skipExtras (hclear hgap) hgap
    rw [hfront] at hsplit
    by_cases hstays : gaps.stays c.offset = true
    · rw [if_pos hstays] at hsplit
      have hlength : (c.rest.take (extrasLength c.rest)).length = extrasLength c.rest := by
        rw [List.length_take]
        exact Nat.min_eq_left (extrasLength_le c.rest)
      refine ⟨_, hsplit, ?_, by rw [hlength]⟩
      rw [hlength]
      exact extrasLengthFrom_take_append .between c.rest hplain hhead
    · rw [if_neg hstays] at hsplit
      refine ⟨[' '], hsplit, ?_, by simp [hgap]⟩
      have hblank := extrasLength_blanks 1 rest
      rwa [hplain] at hblank

namespace Reads

variable (h : c.Reads mode token after)
include h

/-- The token read again in the squeezed source. -/
theorem squeezed (hclear : c.Clear gaps)
    (hverbatim : c.skipExtras.Verbatim gaps token.text.toList.length)
    (hd : d.rest = c.squeezed gaps) : ∃ token' after', d.nextToken mode = (.ok token', after') ∧
      token'.erase = token.erase ∧ after'.rest = after.squeezed gaps := by
  have hfront : c.skipExtras.squeezed gaps = token.text.toList ++ after.squeezed gaps := by
    rw [squeezed_of_verbatim hverbatim, ← h.after, h.front, List.take_left']
    rfl
  have hlexed := h.lexed.of_spaced (after.spaced_squeezed gaps)
  have hhead : (token.text.toList ++ after.squeezed gaps).head? = c.skipExtras.rest.head? := by
    rw [h.front]
    rcases htext : token.text.toList with _ | ⟨x, xs⟩
    · -- Without text it is the end, and nothing is behind that.
      have hend := h.lexed.advances.resolve_left (by simp [htext])
      have hrest := h.lexed
      rw [hend] at hrest
      rw [List.nil_append, squeezed_of_nil hrest.endOfInput.2, hrest.endOfInput.2]
      rfl
    · rfl
  rcases gap_squeezed hclear hfront hlexed.plain hhead with ⟨gap, hsplit, hlength, hnone⟩
  rw [← hd] at hsplit
  refine ⟨_, _, nextToken_gap hlexed d hsplit (by rw [hsplit, hlength]), ?_, ?_⟩
  · rw [Token.erase, Token.erase, h.immediate, hnone, String.ofList_toList]
  · rw [← advance_advance]
    simp [advance, hsplit, List.drop_left']

/-- The words and signs of the language are copied. -/
theorem verbatim_of_fixed (hfixed : Fixed token.text.toList) :
    c.skipExtras.Verbatim gaps token.text.toList.length := by
  refine verbatim_of_solid ?_
  rw [h.front, List.take_left]
  exact hfixed.solid

end Reads

/-- The next token of the place, with the newlines in front of it that mean nothing, is
    read alike in the squeezed source. -/
inductive Seen (gaps : Gaps) (mode : Mode) (overLines : Bool) : Cursor → Prop
  | token {c after : Cursor} {token : Token} (hnext : c.nextToken mode = (.ok token, after))
      (hclear : c.Clear gaps)
      (hverbatim : c.skipExtras.Verbatim gaps token.text.toList.length)
      (hstop : overLines = true → token.kind ≠ .newline) : Seen gaps mode overLines c
  | line {c after : Cursor} {token : Token} (hnext : c.nextToken mode = (.ok token, after))
      (hclear : c.Clear gaps) (hover : overLines = true) (hline : token.kind = .newline)
      (hrest : Seen gaps mode overLines after) : Seen gaps mode overLines c

theorem lookaheadFrom_token {clock : List Char} (h : c.nextToken mode = (.ok token, after))
    (hstop : overLines = true → token.kind ≠ .newline) :
    lookaheadFrom mode overLines clock c = ⟨token, [], after⟩ := by
  rw [lookaheadFrom, h]
  cases clock with
  | nil => rfl
  | cons _ clock =>
      dsimp only
      refine if_neg fun hline => ?_
      rw [Bool.and_eq_true, beq_iff_eq] at hline
      exact hstop hline.1 hline.2

theorem lookaheadFrom_line {clock : List Char} (h : c.nextToken mode = (.ok token, after))
    (hover : overLines = true) (hline : token.kind = .newline)
    (hclock : c.rest.length ≤ clock.length) : ∃ clock', after.rest.length ≤ clock'.length ∧
      lookaheadFrom mode overLines clock c = lookaheadFrom mode overLines clock' after := by
  have hreads := reads_of_nextToken h
  have hpos : 0 < token.text.toList.length :=
    hreads.lexed.advances.resolve_right (by rw [hline]; simp)
  have hlength : c.skipExtras.rest.length ≤ c.rest.length := by
    simp [skipExtras, advance]
  rw [hreads.front, List.length_append] at hlength
  cases clock with
  | nil =>
      simp only [List.length_nil] at hclock
      omega
  | cons _ clock =>
      refine ⟨clock, ?_, ?_⟩
      · simp only [List.length_cons] at hclock
        omega
      · rw [lookaheadFrom, h]
        dsimp only
        rw [hover, hline]
        rfl

/-- The next token is the same in the squeezed source, and no error is in front of it. -/
structure Shows (gaps : Gaps) (l l' : Lookahead) : Prop where
  quiet : l.errors = [] ∧ l'.errors = []
  token : l'.token.erase = l.token.erase
  after : l'.after.rest = l.after.squeezed gaps

theorem Seen.showsFrom (h : c.Seen gaps mode overLines) {d : Cursor}
    (hd : d.rest = c.squeezed gaps) {clock clock' : List Char}
    (hclock : c.rest.length ≤ clock.length) (hclock' : d.rest.length ≤ clock'.length) :
    Shows gaps (lookaheadFrom mode overLines clock c) (lookaheadFrom mode overLines clock' d) := by
  induction h generalizing d clock clock' with
  | @token c after token hnext hclear hverbatim hstop =>
      rcases (reads_of_nextToken hnext).squeezed hclear hverbatim hd with
        ⟨token', after', hnext', htoken, hafter⟩
      have hkind := Token.kind_eq htoken
      rw [lookaheadFrom_token hnext hstop, lookaheadFrom_token hnext' (by rwa [hkind])]
      exact ⟨⟨rfl, rfl⟩, htoken, hafter⟩
  | @line c after token hnext hclear hover hline _ ih =>
      have hreads := reads_of_nextToken hnext
      have hverbatim : c.skipExtras.Verbatim gaps token.text.toList.length :=
        hreads.verbatim_of_fixed (fixed_of_lexed hreads.lexed (by rw [hline]; rfl) (by simp [hline]))
      rcases hreads.squeezed hclear hverbatim hd with ⟨token', after', hnext', htoken, hafter⟩
      have hkind := Token.kind_eq htoken
      rcases lookaheadFrom_line hnext hover hline hclock with ⟨clock1, hle, heq⟩
      rcases lookaheadFrom_line hnext' hover (by rwa [hkind]) hclock' with ⟨clock2, hle', heq'⟩
      rw [heq, heq']
      exact ih hafter hle hle'

theorem Seen.shows (h : c.Seen gaps mode overLines) (hd : d.rest = c.squeezed gaps) :
    Shows gaps (c.lookahead mode overLines) (d.lookahead mode overLines) :=
  h.showsFrom hd (Nat.le_refl _) (Nat.le_refl _)

/-- A sign behind a gap is seen, whatever it means in the mode. -/
theorem seen_of_sign {x : Char} {cs : List Char} {kind : Token.Kind} (hclear : c.Clear gaps)
    (hrest : c.skipExtras.rest = x :: cs) (hsolid : Character.isSolid x = true)
    (hlexeme : ofMode mode (x :: cs) = .token kind 1)
    (hstop : overLines = true → kind ≠ .newline) : c.Seen gaps mode overLines := by
  refine .token (nextToken_of_lexeme (by rw [hrest, hlexeme])) hclear ?_ hstop
  have htext : (c.skipExtras.textOf 1).toList = [x] := by
    rw [textOf, hrest, String.toList_ofList]
    rfl
  dsimp only
  rw [htext]
  refine verbatim_of_solid ?_
  rw [hrest]
  simpa using hsolid

/-- A name behind a gap is seen in an expression, whatever it means. -/
theorem seen_of_name {cs : List Char} (hclear : c.Clear gaps)
    (hrest : c.skipExtras.rest = 'i' :: cs) (hstop : overLines = false) :
    c.Seen gaps .expression overLines := by
  have hlexeme : ofMode .expression c.skipExtras.rest = name c.skipExtras.rest := by
    rw [hrest]
    rfl
  rw [name] at hlexeme
  refine .token (nextToken_of_lexeme hlexeme) hclear ?_ fun hlines =>
    absurd (hstop.symm.trans hlines) Bool.false_ne_true
  dsimp only
  have hrun : c.skipExtras.rest.take (c.skipExtras.rest.takeWhile Character.isNamePart).length
      = c.skipExtras.rest.takeWhile Character.isNamePart :=
    (List.prefix_iff_eq_take.1 (List.takeWhile_prefix _)).symm
  rw [textOf, String.toList_ofList, hrun]
  refine verbatim_of_solid fun x hx => isSolid_of_isNamePart ?_
  rw [hrun] at hx
  exact List.all_eq_true.1 List.all_takeWhile x hx

/-- A closing brace that is next is seen. -/
theorem seen_of_brace {cs : List Char} (hrest : c.rest = '}' :: cs) :
    c.Seen gaps .command overLines := by
  have hgap : extrasLength c.rest = 0 := by rw [hrest]; rfl
  have hskip : c.skipExtras = c := by rw [skipExtras, hgap, advance_zero]
  have hlexeme : ofMode .command ('}' :: cs) = .token .rightBrace 1 := rfl
  exact seen_of_sign (fun hne => absurd hgap hne) (by rw [hskip, hrest]) rfl hlexeme (by simp)

/-! ## Changes of mode -/

/-- What is seen past newlines is seen when the newlines are not passed. -/
theorem Seen.inLine (h : c.Seen gaps mode true) : c.Seen gaps mode false := by
  cases h with
  | token hnext hclear hverbatim _ => exact .token hnext hclear hverbatim (by simp)
  | line hnext hclear _ hline _ =>
      have hreads := reads_of_nextToken hnext
      exact .token hnext hclear (hreads.verbatim_of_fixed
        (fixed_of_lexed hreads.lexed (by rw [hline]; rfl) (by simp [hline]))) (by simp)

/-- What is seen is seen past newlines, if what is behind a newline is. -/
theorem Seen.over (h : c.Seen gaps mode false)
    (hline : (c.lookahead mode false).token.kind = .newline →
      (c.lookahead mode false).after.Seen gaps mode true) : c.Seen gaps mode true := by
  cases h with
  | @token _ after token hnext hclear hverbatim hstop =>
      rw [lookahead, lookaheadFrom_token hnext hstop] at hline
      by_cases hkind : token.kind = .newline
      · exact .line hnext hclear rfl hkind (hline hkind)
      · exact .token hnext hclear hverbatim fun _ => hkind
  | line _ _ hover _ _ => cases hover

/-- What is seen stands behind a gap. -/
theorem Seen.front (h : c.Seen gaps mode false) : c.Clear gaps ∧
    c.Reads mode (c.lookahead mode false).token (c.lookahead mode false).after := by
  cases h with
  | token hnext hclear _ hstop =>
      rw [lookahead, lookaheadFrom_token hnext hstop]
      exact ⟨hclear, reads_of_nextToken hnext⟩
  | line _ _ hover _ _ => cases hover

/-- A sign that is seen is read. -/
theorem Seen.spelled (h : c.Seen gaps mode false)
    (hkind : (c.lookahead mode false).token.kind.isSpelled = true) : c.Clear gaps ∧
      ∃ cs, c.skipExtras.rest = (c.lookahead mode false).token.kind.spelling.toList ++ cs := by
  rcases h.front with ⟨hclear, hreads⟩
  refine ⟨hclear, (c.lookahead mode false).after.rest, ?_⟩
  rw [hreads.front, spelling_of_lexed hreads.lexed hkind]

/-- Where the arguments of a command end, an expression ends as well. -/
theorem Seen.inExpression (h : c.Seen gaps .command false)
    (hends : (c.lookahead .command false).token.kind.endsArguments = true) :
    c.Seen gaps .expression false := by
  have hspelled := h.spelled
  rcases h.front with ⟨hclear, hreads⟩
  have hlexed := hreads.lexed
  have hfront := hreads.front
  generalize (c.lookahead .command false).token = token at hends hspelled hlexed hfront
  generalize hkind : token.kind = kind at hends hspelled hlexed
  cases kind with
  | endOfInput =>
      rw [hlexed.endOfInput.1, hlexed.endOfInput.2] at hfront
      have hlexeme : ofMode .expression c.skipExtras.rest = .token .endOfInput 0 := by
        rw [hfront]
        rfl
      refine .token (nextToken_of_lexeme hlexeme) hclear ?_ (by simp)
      rw [textOf, List.take_zero]
      exact fun i hi => absurd hi (Nat.not_lt_zero i)
  | newline =>
      have hhead := head?_of_newline hlexed.lexeme
      rw [← hfront] at hhead
      rcases List.head?_eq_some_iff.1 hhead with ⟨cs, hrest⟩
      exact seen_of_sign hclear hrest rfl (by rfl) (by simp)
  | semicolon | doubleSemicolon | ampersand | pipe | leftParen | rightParen | leftBrace
  | rightBrace =>
      rcases hspelled rfl with ⟨-, cs, hrest⟩
      exact seen_of_sign hclear hrest rfl (by rfl) (by simp)
  | _ => cases hends

/-- A parenthesis opens the arguments of a call in either mode. -/
theorem Seen.inCommand (h : c.Seen gaps .expression false)
    (hkind : (c.lookahead .expression false).token.kind = .leftParen) :
    c.Seen gaps .command false := by
  rcases h.spelled (by rw [hkind]; rfl) with ⟨hclear, cs, hrest⟩
  rw [hkind] at hrest
  exact seen_of_sign hclear hrest rfl (by rfl) (by simp)

/-- A word that starts as a name is seen as a name. -/
theorem Seen.inName (h : c.Seen gaps .command false)
    (htext : (c.lookahead .command false).token.text = "in") : c.Seen gaps .expression false := by
  rcases h.front with ⟨hclear, hreads⟩
  have hfront := hreads.front
  rw [htext] at hfront
  exact seen_of_name hclear hfront rfl

/-! ## Raw text -/

theorem rest_of_verbatim {n : Nat} (h : c.Verbatim gaps n) (hd : d.rest = c.squeezed gaps) :
    d.rest = c.rest.take n ++ (c.advance n).squeezed gaps := by
  rw [hd, squeezed_of_verbatim h]

theorem advance_of_verbatim {n : Nat} (h : c.Verbatim gaps n) (hn : n ≤ c.rest.length)
    (hd : d.rest = c.squeezed gaps) : (d.advance n).rest = (c.advance n).squeezed gaps := by
  have hlength : (c.rest.take n).length = n := by
    rw [List.length_take]
    exact Nat.min_eq_left hn
  change d.rest.drop n = _
  rw [rest_of_verbatim h hd, List.drop_left' hlength]

/-- A sign at a place stands at the squeezed place as well. -/
theorem sign_squeezed {sign : List Char} (hsolid : ∀ x ∈ sign, Character.isSolid x = true)
    (hd : d.rest = c.squeezed gaps) : sign.isPrefixOf d.rest = sign.isPrefixOf c.rest ∧
      (sign.isPrefixOf c.rest = true →
        (d.advance sign.length).rest = (c.advance sign.length).squeezed gaps) := by
  refine ⟨?_, fun hsign => ?_⟩
  · rw [hd, ((c.spaced_squeezed gaps).isPrefixOf hsolid)]
  · rcases List.isPrefixOf_iff_prefix.1 hsign with ⟨t, ht⟩
    refine advance_of_verbatim (verbatim_of_solid ?_) ?_ hd
    · rw [← ht, List.take_left]
      exact hsolid
    · rw [← ht, List.length_append]
      exact Nat.le_add_right _ _

theorem defaultMark_eq (c : Cursor) : c.defaultMark
    = if [':', '-'].isPrefixOf c.rest then (true, c.advance 2) else (false, c) := by
  unfold defaultMark
  split
  · next hrest => rw [hrest]; rfl
  · next hrest =>
      rw [if_neg]
      intro hsign
      rcases List.isPrefixOf_iff_prefix.1 hsign with ⟨t, ht⟩
      exact hrest t ht.symm

theorem closingBrace?_eq (c : Cursor) : (c.closingBrace?.1.isSome, c.closingBrace?.2)
    = if ['}'].isPrefixOf c.rest then (true, c.advance 1) else (false, c) := by
  unfold closingBrace?
  split
  · next hrest => rw [hrest]; rfl
  · next hrest =>
      rw [if_neg]
      · rfl
      · intro hsign
        rcases List.isPrefixOf_iff_prefix.1 hsign with ⟨t, ht⟩
        exact hrest t ht.symm

theorem defaultMark_squeezed (hd : d.rest = c.squeezed gaps) :
    d.defaultMark.1 = c.defaultMark.1 ∧ d.defaultMark.2.rest = c.defaultMark.2.squeezed gaps := by
  rcases @sign_squeezed gaps c d [':', '-'] (List.all_eq_true.1 rfl) hd with ⟨hsame, hafter⟩
  rw [defaultMark_eq, defaultMark_eq, hsame]
  split
  · next hsign => exact ⟨rfl, hafter hsign⟩
  · exact ⟨rfl, hd⟩

theorem closingBrace?_squeezed (hd : d.rest = c.squeezed gaps) :
    d.closingBrace?.1.isSome = c.closingBrace?.1.isSome ∧
      d.closingBrace?.2.rest = c.closingBrace?.2.squeezed gaps := by
  rcases @sign_squeezed gaps c d ['}'] (List.all_eq_true.1 rfl) hd with ⟨hsame, hafter⟩
  have hc := closingBrace?_eq c
  have hd' := closingBrace?_eq d
  rw [hsame] at hd'
  split at hc
  · next hsign =>
      rw [if_pos hsign] at hd'
      rw [(Prod.mk.inj hc).1, (Prod.mk.inj hc).2, (Prod.mk.inj hd').1, (Prod.mk.inj hd').2]
      exact ⟨rfl, hafter hsign⟩
  · next hsign =>
      rw [if_neg hsign] at hd'
      rw [(Prod.mk.inj hc).1, (Prod.mk.inj hc).2, (Prod.mk.inj hd').1, (Prod.mk.inj hd').2]
      exact ⟨rfl, hd⟩

theorem bracedName_length {x : Char} {xs ds : List Char} (h : Spaced xs ds) :
    BracedName.length? (x :: xs) = BracedName.length? (x :: ds) := by
  simp only [BracedName.length?]
  rw [h.runLength fun _ => isSolid_of_isNamePart,
    h.runLength fun _ hx => isSolid_of_isNamePart (isNamePart_of_isDigit hx)]

/-- A name between braces is the text that is read. -/
theorem bracedName?_some {name : String} {span : Span}
    (h : c.bracedName? = (some (name, span), after)) :
    ∃ n, BracedName.length? c.rest = some n ∧ 0 < n ∧ n ≤ c.rest.length ∧
      name = c.textOf n ∧ span = c.spanOf n ∧ after = c.advance n ∧ name.toList.length = n := by
  unfold bracedName? at h
  split at h
  · next n hlength =>
      cases h
      have hwithin : 0 < n ∧ n ≤ c.rest.length := by
        rcases hrest : c.rest with _ | ⟨x, xs⟩
        · rw [hrest] at hlength
          cases hlength
        · have hrun := runLength_le Character.isNamePart xs
          have hrun' := runLength_le Char.isDigit xs
          rw [hrest] at hlength
          simp only [BracedName.length?] at hlength
          rw [List.length_cons]
          repeat' split at hlength
          all_goals cases hlength
          all_goals omega
      refine ⟨n, hlength, hwithin.1, hwithin.2, rfl, rfl, rfl, ?_⟩
      rw [textOf, String.toList_ofList, List.length_take]
      exact Nat.min_eq_left hwithin.2
  · cases h

/-- The name between braces is the same in the squeezed source. -/
theorem bracedName?_squeezed {name : String} {span : Span} (hd : d.rest = c.squeezed gaps)
    (hname : c.bracedName? = (some (name, span), after))
    (hverbatim : c.Verbatim gaps name.toList.length) :
    ∃ span' after', d.bracedName? = (some (name, span'), after') ∧
      after'.rest = after.squeezed gaps := by
  rcases bracedName?_some hname with ⟨n, hlength, hpos, hle, rfl, -, rfl, htext⟩
  rw [htext] at hverbatim
  have hlength' : BracedName.length? d.rest = some n := by
    rcases hrest : c.rest with _ | ⟨x, xs⟩
    · rw [hrest] at hlength
      cases hlength
    · have hone := rest_of_verbatim (hverbatim.mono hpos) hd
      have hspaced := (c.advance 1).spaced_squeezed gaps
      change Spaced (c.rest.drop 1) _ at hspaced
      rw [hrest, List.drop_succ_cons, List.drop_zero] at hspaced
      rw [hone, hrest, List.take_succ_cons, List.take_zero, List.singleton_append,
        ← bracedName_length hspaced, ← hrest, hlength]
  have hsame : d.textOf n = c.textOf n := by
    rw [textOf, textOf, rest_of_verbatim hverbatim hd, List.take_left']
    rw [List.length_take]
    exact Nat.min_eq_left hle
  refine ⟨d.spanOf n, d.advance n, ?_, advance_of_verbatim hverbatim hle hd⟩
  rw [bracedName?, hlength', ← hsame]

/-- A closed pattern is the same in the squeezed source. -/
theorem eggexBody_squeezed {pattern : String} (hd : d.rest = c.squeezed gaps)
    (hbody : c.eggexBody = ((pattern, true), after))
    (hverbatim : c.Verbatim gaps ((Eggex.bodyLength c.rest).1 + 1)) :
    ∃ after', d.eggexBody = ((pattern, true), after') ∧ after'.rest = after.squeezed gaps := by
  have hclosed : (Eggex.bodyLength c.rest).2 = true := congrArg (·.1.2) hbody
  have hpattern : String.ofList (Eggex.trim (c.rest.take (Eggex.bodyLength c.rest).1)) = pattern :=
    congrArg (·.1.1) hbody
  have hafter : c.advance ((Eggex.bodyLength c.rest).1 + 1) = after := by
    have hafter := congrArg (·.2) hbody
    dsimp only [eggexBody] at hafter
    rwa [hclosed, if_pos rfl] at hafter
  rcases Eggex.isBody_of_closed c.rest hclosed with ⟨b, r, hrest, hb, hlength⟩
  rw [hlength] at hpattern hafter hverbatim
  have hsplit : d.rest = b ++ '/' :: after.squeezed gaps := by
    rw [rest_of_verbatim hverbatim hd, hafter, hrest, List.take_append,
      List.take_of_length_le (Nat.le_succ _)]
    simp
  have hbody' := Eggex.bodyLength_of_isBody b (after.squeezed gaps) hb
  rw [← hsplit] at hbody'
  refine ⟨d.advance (b.length + 1), ?_, ?_⟩
  · unfold eggexBody
    dsimp only
    rw [hbody', if_pos rfl, ← hpattern, hsplit, hrest, List.take_left, List.take_left]
  · rw [← hafter]
    refine advance_of_verbatim hverbatim ?_ hd
    rw [hrest, List.length_append, List.length_cons]
    omega

end Cursor

/-! ## Pieces of strings -/

theorem Quoted.form_escape {style : StringStyle} {triple : Bool} {cs : List Char} {n : Nat}
    (h : form style triple cs = (.escape, n)) : 2 ≤ n := by
  unfold form at h
  dsimp only at h
  split at h
  · cases h
  · cases style with
    | singleQuoted | raw => cases h
    | doubleQuoted =>
        dsimp only [doubleQuotedForm] at h
        split at h
        · cases h
          exact Nat.le_refl 2
        · repeat' split at h
          all_goals cases h
    | unicode | byte =>
        dsimp only at h
        split at h
        · exact backslashForm_escape h
        · cases h

namespace Cursor

variable {gaps : Gaps} {c d : Cursor}

/-- The next piece of a string body is there, and is read alike in the squeezed source. -/
structure Piece (gaps : Gaps) (style : StringStyle) (triple : Bool) (c : Cursor) :
    Prop where
  more : c.rest ≠ []
  good : (Quoted.form style triple c.rest).1 ≠ .badEscape ∧
    (Quoted.form style triple c.rest).1 ≠ .badByteEscape
  verbatim : c.Verbatim gaps (Quoted.form style triple c.rest).2
  /-- No text is the last piece. -/
  goesOn : (Quoted.form style triple c.rest).1 = .text →
    c.rest.drop (Quoted.form style triple c.rest).2 ≠ []

variable {style : StringStyle} {triple : Bool} {opening opening' : Span}

/-- What is behind a run of text starts alike. -/
theorem Piece.front {x : List Char} (h : c.Piece gaps style triple) (hx : x ≠ [])
    (htext : Quoted.form style triple (x ++ c.rest) = (.text, x.length)) :
    ∃ front t t', Quoted.IsFront style triple front ∧ c.rest = front ++ t ∧
      c.squeezed gaps = front ++ t' := by
  rcases Quoted.isFront_frontOf hx h.more htext h.good h.goesOn with ⟨hfront, t, ht⟩
  have hwithin := @Quoted.form_within style triple _ h.more
  have hverbatim := h.verbatim
  rcases hform : Quoted.form style triple c.rest with ⟨kind, n⟩
  rw [hform] at hfront ht hwithin hverbatim
  have hle : (Quoted.frontOf style triple kind c.rest).length ≤ n := by
    cases kind with
    | close => exact Nat.le_of_eq (Quoted.form_close_iff.1 hform).2.symm
    | escape => exact Nat.le_trans (List.length_take_le 2 c.rest) (Quoted.form_escape hform)
    | _ => exact Nat.le_trans (List.length_take_le 1 c.rest) hwithin.1
  generalize Quoted.frontOf style triple kind c.rest = front at hfront ht hle
  refine ⟨front, t, (c.advance front.length).squeezed gaps, hfront, ht.symm, ?_⟩
  rw [squeezed_of_verbatim (hverbatim.mono hle), ← ht, List.take_left]

/-- The form of a piece is the same in the squeezed source. -/
theorem Piece.form (h : c.Piece gaps style triple) (hd : d.rest = c.squeezed gaps)
    (hnext : (Quoted.form style triple c.rest).1 = .text →
      (c.advance (Quoted.form style triple c.rest).2).Piece gaps style triple) :
    Quoted.form style triple d.rest = Quoted.form style triple c.rest := by
  have hwithin := @Quoted.form_within style triple _ h.more
  have hsplit := rest_of_verbatim h.verbatim hd
  have hgood := h.good
  have hspaced := (c.advance (Quoted.form style triple c.rest).2).spaced_squeezed gaps
  have hrest : c.rest.take (Quoted.form style triple c.rest).2
      ++ (c.advance (Quoted.form style triple c.rest).2).rest = c.rest :=
    List.take_append_drop _ c.rest
  have hlength : (c.rest.take (Quoted.form style triple c.rest).2).length
      = (Quoted.form style triple c.rest).2 := by
    rw [List.length_take]
    exact Nat.min_eq_left hwithin.2
  rcases hform : Quoted.form style triple c.rest with ⟨kind, n⟩
  rw [hform] at hnext hwithin hsplit hgood hspaced hrest hlength
  dsimp only at hnext hwithin hsplit hspaced hrest hlength
  generalize c.rest.take n = x at hsplit hrest hlength
  generalize c.advance n = e at hnext hsplit hspaced hrest
  subst hlength
  rw [hsplit]
  rw [← hrest] at hform
  cases kind with
  | text =>
      have hne : x ≠ [] := List.ne_nil_of_length_pos hwithin.1
      rcases (hnext rfl).front hne hform with ⟨front, t, t', hfront, ht, ht'⟩
      rw [ht] at hform
      rw [ht']
      exact Quoted.form_text_of_front hfront hne hform t'
  | escape => exact Quoted.form_escape_append hform _
  | badEscape => exact absurd rfl hgood.1
  | badByteEscape => exact absurd rfl hgood.2
  | expansion opener =>
      rcases Quoted.form_expansion_iff.1 hform with ⟨hstyle, hdollar⟩
      refine Quoted.form_expansion_iff.2 ⟨hstyle, ?_⟩
      rcases x with _ | ⟨a, x⟩
      · cases hwithin.1
      · rcases dollar?_head hdollar with ⟨t, ht⟩
        cases ht
        have hopens : Lexed .command ('$' :: x) (.opener opener) e.rest :=
          ⟨rfl, ofMode_dollar.2 hdollar⟩
        exact ofMode_dollar.1 (hopens.of_spaced hspaced).lexeme
  | close =>
      rcases Quoted.form_close_iff.1 hform with ⟨hclose, hlength⟩
      refine Quoted.form_close_iff.2 ⟨?_, hlength⟩
      rw [List.prefix_of_prefix_length_le hclose (List.prefix_append x e.rest)
        (Nat.le_of_eq hlength.symm) |>.eq_of_length hlength.symm]
      exact List.prefix_append x _

end Cursor

/-- The same piece of a string body, standing elsewhere. -/
inductive Quoted.Alike : Piece → Piece → Prop
  | text (value : String) (span span' : Span) : Alike (.text value span) (.text value span')
  | escape (raw : String) (span span' : Span) : Alike (.escape raw span) (.escape raw span')
  | expansion (opener : Opener) {token token' : Token} (h : token'.erase = token.erase) :
      Alike (.expansion opener token) (.expansion opener token')
  | close (span span' : Span) : Alike (.close span) (.close span')

namespace Cursor

variable {gaps : Gaps} {c d after : Cursor} {style : StringStyle} {triple : Bool}

/-- A piece is read alike in the squeezed source. -/
theorem Piece.squeezed (opening opening' : Span) (h : c.Piece gaps style triple)
    (hd : d.rest = c.squeezed gaps)
    (hnext : (Quoted.form style triple c.rest).1 = .text →
      (c.advance (Quoted.form style triple c.rest).2).Piece gaps style triple) :
    ∃ p p', c.piece style triple opening = (.ok p, c.advance (Quoted.form style triple c.rest).2) ∧
      d.piece style triple opening'
        = (.ok p', d.advance (Quoted.form style triple c.rest).2) ∧ Quoted.Alike p p' ∧
      (d.advance (Quoted.form style triple c.rest).2).rest
        = (c.advance (Quoted.form style triple c.rest).2).squeezed gaps := by
  have hform := h.form hd hnext
  have hwithin := @Quoted.form_within style triple _ h.more
  have hgood := h.good
  have hafter := advance_of_verbatim h.verbatim hwithin.2 hd
  have htext : d.textOf (Quoted.form style triple c.rest).2
      = c.textOf (Quoted.form style triple c.rest).2 := by
    rw [textOf, textOf, rest_of_verbatim h.verbatim hd, List.take_left']
    rw [List.length_take]
    exact Nat.min_eq_left hwithin.2
  have hmore : d.rest ≠ [] := by
    rw [rest_of_verbatim h.verbatim hd]
    refine List.append_ne_nil_of_left_ne_nil (List.ne_nil_of_length_pos ?_) _
    rw [List.length_take]
    omega
  rw [piece, if_neg (by simpa using h.more), piece, if_neg (by simpa using hmore), hform]
  dsimp only
  rcases hf : Quoted.form style triple c.rest with ⟨kind, n⟩
  rw [hf] at hafter hgood htext
  cases kind with
  | text => exact ⟨_, _, rfl, rfl, htext ▸ .text _ _ _, hafter⟩
  | escape => exact ⟨_, _, rfl, rfl, htext ▸ .escape _ _ _, hafter⟩
  | badEscape => exact absurd rfl hgood.1
  | badByteEscape => exact absurd rfl hgood.2
  | expansion opener => exact ⟨_, _, rfl, rfl, .expansion _ (by rw [htext]; rfl), hafter⟩
  | close => exact ⟨_, _, rfl, rfl, .close _ _, hafter⟩

end Cursor

end Ysh
