import Ysh.Proofs.Coverage.Basic
import Ysh.Proofs.Success

/-!
# Readers that Lose Nothing

What a reader consumes is covered by the leaves of what it gives, in a parse that
stays quiet. A token is consumed together with what stands in front of it, which is
filler. So whatever a production consumes is accounted for token by token: a token is
fixed, or is a leaf of the node that the production makes.

## Main definitions

* `Token.Kind.isFixed`: A kind of token that is no leaf.
* `Token.Kind.isSpelled`: A kind of token that is spelled as messages call it.
* `Token.Read`: A token stands between two places.
* `Cursor.Offers`: A token is the next one at a place.
* `Lossless`: What a reader consumes is covered by the leaves of its result.

## Theorems

* `fixed_of_lexed`: A token of a fixed kind is a word or sign of the language.
* `ensures_next`: A token is consumed with the fillers in front of it.
* `lossless_collect`, `lossless_commaSeparated`: Lists of items.
-/

namespace Ysh

open Lexeme

/-! ## Tokens with a fixed spelling -/

/-- A kind of token that is a word or sign of the language, and so is no leaf. -/
def Token.Kind.isFixed : Token.Kind → Bool
  | word | identifier | number | character | trueKeyword | falseKeyword | nullKeyword
  | opener .name | opener .splice => false
  | _ => true

/-- A kind of token that is spelled as messages call it. -/
def Token.Kind.isSpelled : Token.Kind → Bool
  | endOfInput | newline | word | identifier | number | character | quote _ _ | opener _ => false
  | _ => true

/-- The operator that a text starts with is an entry of the table. -/
theorem OperatorTable.match?_text {table : OperatorTable} {text rest : List Char}
    {kind : Token.Kind} (h : table.match? (text ++ rest) = some (.token kind text.length)) :
    (text, kind) ∈ table := by
  rcases Option.map_eq_some_iff.1 h with ⟨entry, hentry, heq⟩
  have hkind : entry.2 = kind := Except.ok.inj (congrArg Lexeme.verdict heq)
  have hlength : entry.1.length = text.length := congrArg Lexeme.length heq
  have hstarts := List.find?_some hentry
  rcases List.isPrefixOf_iff_prefix.1 hstarts with ⟨t, ht⟩
  have htext : entry.1 = text := (List.append_inj ht hlength).1
  rw [← htext, ← hkind]
  exact List.mem_of_find?_eq_some hentry

/-- The words of an expression that are no names are spelled as messages call them. -/
theorem keyword?_spelling {text : List Char} {kind : Token.Kind} (h : keyword? text = some kind) :
    text = kind.spelling.toList ∧ (kind.isFixed = true → kind.spelling ∈ keywords) := by
  unfold keyword? at h
  rcases List.lookup_eq_some_iff.1 h with ⟨before, after, htable, -⟩
  have hmem : (text, kind) ∈ before ++ (text, kind) :: after := by simp
  rw [← htable] at hmem
  simp only [List.mem_cons, Prod.mk.injEq, List.not_mem_nil, or_false] at hmem
  rcases hmem with ⟨rfl, rfl⟩ | ⟨rfl, rfl⟩ | ⟨rfl, rfl⟩ | ⟨rfl, rfl⟩ | ⟨rfl, rfl⟩ | ⟨rfl, rfl⟩
  all_goals exact ⟨by decide, by decide⟩

theorem keyword?_of_name {text rest : List Char} {kind : Token.Kind}
    (h : Lexeme.name (text ++ rest) = .token kind text.length) (hkind : kind ≠ .identifier) :
    keyword? text = some kind := by
  rcases name_kind (text ++ rest) with ⟨kind', hname, heq, -⟩
  rw [hname] at h
  have hlength : runLength Character.isNamePart (text ++ rest) = text.length :=
    congrArg Lexeme.length h
  have htext : (text ++ rest).takeWhile Character.isNamePart = text :=
    (List.prefix_of_prefix_length_le (List.takeWhile_prefix _) (List.prefix_append text rest)
      (Nat.le_of_eq hlength)).eq_of_length hlength
  have hkind' : kind' = kind := Except.ok.inj (congrArg Lexeme.verdict h)
  rw [htext, hkind'] at heq
  rcases hkeyword : keyword? text with _ | k
  · rw [hkeyword] at heq
    exact absurd heq hkind
  · rw [hkeyword] at heq
    exact congrArg some heq.symm

/-- An operator or keyword is spelled as messages call it. -/
theorem spelling_of_lexed {mode : Mode} {text rest : List Char} {kind : Token.Kind}
    (h : Lexed mode text kind rest) (hkind : kind.isSpelled = true) :
    text = kind.spelling.toList := by
  have harises := arises_ofMode mode (text ++ rest)
  rw [h.lexeme] at harises
  generalize hl : Lexeme.token kind text.length = l at harises
  have hverdict := congrArg Lexeme.verdict hl
  have hcommand : ∀ entry ∈ commandOperators, entry.1 = entry.2.spelling.toList := by decide
  have hexpression : ∀ entry ∈ expressionOperators, entry.1 = entry.2.spelling.toList := by decide
  cases harises with
  | quote hq =>
      rcases quote?_kind hq with ⟨style, triple, n, rfl⟩
      rw [Except.ok.inj hverdict] at hkind
      cases hkind
  | fault => cases hverdict
  | commandOperator hm =>
      subst hl
      exact hcommand _ (OperatorTable.match?_text hm)
  | expressionOperator hm =>
      subst hl
      exact hexpression _ (OperatorTable.match?_text hm)
  | number => cases number_kind hl.symm; cases hkind
  | character => cases character_kind hl.symm; cases hkind
  | name =>
      refine (keyword?_spelling (keyword?_of_name hl.symm ?_)).1
      rintro rfl
      cases hkind
  | endOfInput | newline | lone | word | dollar | sigil =>
      rw [Except.ok.inj hverdict] at hkind
      cases hkind

/-- A token of a fixed kind is a word or sign of the language. -/
theorem fixed_of_lexed {mode : Mode} {text rest : List Char} {kind : Token.Kind}
    (h : Lexed mode text kind rest) (hkind : kind.isFixed = true) (hend : kind ≠ .endOfInput) :
    Fixed text := by
  have harises := arises_ofMode mode (text ++ rest)
  rw [h.lexeme] at harises
  generalize hl : Lexeme.token kind text.length = l at harises
  have hverdict := congrArg Lexeme.verdict hl
  cases harises with
  | endOfInput => exact absurd (Except.ok.inj hverdict) hend
  | newline hhead =>
      have hlength : text.length = 1 := congrArg Lexeme.length hl
      rcases text with _ | ⟨c, _ | ⟨d, t⟩⟩
      · simp at hlength
      · cases hhead
        exact .newline
      · simp at hlength
  | quote hq =>
      rcases quote?_kind hq with ⟨style, triple, n, rfl⟩
      cases hl
      rw [(Lexed.quote_iff.1 h).1]
      exact .openQuote style triple
  | @dollar _ p hd =>
      rcases p with ⟨o, n⟩
      cases hl
      have hshape := (Lexed.opener_iff.1 h).shape
      cases o with
      | name | splice => cases hkind
      | brace => exact hshape ▸ .brace
      | bracket sigil => exact hshape ▸ .bracket sigil
      | paren sigil => exact hshape ▸ .paren sigil
  | @sigil _ p hs =>
      rcases p with ⟨o, n⟩
      cases hl
      have hshape := (Lexed.opener_iff.1 h).shape
      cases o with
      | name | splice => cases hkind
      | brace => exact hshape ▸ .brace
      | bracket sigil => exact hshape ▸ .bracket sigil
      | paren sigil => exact hshape ▸ .paren sigil
  | fault => cases hl
  | commandOperator hm =>
      subst hl
      exact .commandOperator (OperatorTable.match?_text hm)
  | expressionOperator hm =>
      subst hl
      exact .expressionOperator (OperatorTable.match?_text hm)
  | lone | word =>
      rw [Except.ok.inj hverdict] at hkind
      cases hkind
  | number => cases number_kind hl.symm; cases hkind
  | character => cases character_kind hl.symm; cases hkind
  | name =>
      have hidentifier : kind ≠ .identifier := by
        rintro rfl
        cases hkind
      rcases keyword?_spelling (keyword?_of_name hl.symm hidentifier) with ⟨rfl, hkeyword⟩
      exact .keyword (hkeyword hkind)

/-! ## Tokens between places -/

/-- The token stands between the two places. -/
structure Token.Read (mode : Mode) (token : Token) (front : Cursor) (text : List Char)
    (after : Cursor) : Prop where
  passes : front.Passes text after
  shown : token.text = .ofList text
  lexed : Lexed mode text token.kind after.rest
  start : token.span.start = front.offset
  stop : token.span.stop = after.offset

/-- The token is the next one at the place, behind fillers. In a command a token with
    nothing in front of it is marked. -/
def Cursor.Offers (mode : Mode) (c : Cursor) (token : Token) (after : Cursor) : Prop :=
  ∃ front text, Covers c [] front ∧ token.Read mode front text after ∧
    (mode = .command → token.immediate = true → front = c)

namespace Cursor

theorem offers_of_nextToken {mode : Mode} {c after : Cursor} {token : Token}
    (h : c.nextToken mode = (.ok token, after)) : c.Offers mode token after := by
  unfold nextToken at h
  dsimp only at h
  have hskip : Covers c [] (c.advance (extrasLength c.rest)) := by
    refine .ofFiller (.advance c _) (.extras ?_)
    change extrasLength (c.rest.take (extrasLength c.rest) ++ c.rest.drop (extrasLength c.rest)) = _
    rw [List.take_append_drop, List.length_take, Nat.min_eq_left (extrasLength_le c.rest)]
  have hplain := extrasLength_drop c.rest
  have himmediate : (extrasLength c.rest == 0) = true → c.advance (extrasLength c.rest) = c := by
    intro hzero
    rw [beq_iff_eq.1 hzero, advance_zero]
  change extrasLength (c.advance (extrasLength c.rest)).rest = 0 at hplain
  generalize c.advance (extrasLength c.rest) = front at h hskip hplain himmediate
  have hwithin := Lexeme.within_ofMode mode front.rest
  rcases hl : Lexeme.ofMode mode front.rest with ⟨verdict | kind, n⟩
  · rw [hl] at h
    cases h
  · rw [hl] at h hwithin
    cases h
    have hlength : (front.rest.take n).length = n := by
      rw [List.length_take]
      exact Nat.min_eq_left hwithin.1
    have hsplit : front.rest.take n ++ (front.advance n).rest = front.rest :=
      List.take_append_drop n front.rest
    refine ⟨front, front.rest.take n, hskip, ⟨.advance front n, rfl, ⟨?_, ?_⟩, rfl, rfl⟩,
      fun _ => himmediate⟩
    · rwa [hsplit]
    · rw [hsplit, hl, hlength]
      rfl

theorem offers_of_lookaheadFrom {mode : Mode} {overLines : Bool}
    (hover : mode = .command → overLines = false) (clock : List Char) :
    ∀ c : Cursor, (lookaheadFrom mode overLines clock c).errors = [] →
      c.Offers mode (lookaheadFrom mode overLines clock c).token
        (lookaheadFrom mode overLines clock c).after := by
  induction clock with
  | nil =>
      intro c h
      rw [lookaheadFrom] at h ⊢
      rcases hnext : c.nextToken mode with ⟨e | token, after⟩
      · rw [hnext] at h
        cases h
      · exact offers_of_nextToken hnext
  | cons x clock ih =>
      intro c h
      rw [lookaheadFrom] at h ⊢
      rcases hnext : c.nextToken mode with ⟨e | token, after⟩
      · rw [hnext] at h
        cases h
      · rw [hnext] at h
        dsimp only at h ⊢
        rcases offers_of_nextToken hnext with ⟨front, text, hfront, hread, himmediate⟩
        split at h
        · next hline =>
            rw [if_pos hline]
            rcases ih after h with ⟨front', text', hfront', hread', -⟩
            rw [Bool.and_eq_true, beq_iff_eq] at hline
            have hfixed := fixed_of_lexed hread.lexed (by rw [hline.2]; rfl)
              (by rw [hline.2]; simp)
            have hline' : Covers c [] after := hfront.upTo (.ofFixed hread.passes hfixed)
            refine ⟨front', text', hline'.upTo hfront', hread', fun hmode => ?_⟩
            rw [hover hmode] at hline
            cases hline.1
        · next hline =>
            rw [if_neg hline]
            exact ⟨front, text, hfront, hread, himmediate⟩

namespace Offers

variable {mode : Mode} {c after : Cursor} {token : Token} (h : c.Offers mode token after)
include h

/-- A token with a fixed spelling is filler, and so is the end of input. -/
theorem fixed (hkind : token.kind.isFixed = true) : Covers c [] after := by
  rcases h with ⟨front, text, hfront, hread, -⟩
  by_cases hend : token.kind = .endOfInput
  · have hlexed := hread.lexed
    rw [hend] at hlexed
    have hpasses := hread.passes
    rw [hlexed.endOfInput.1] at hpasses
    rwa [← hpasses.eq_of_nil]
  · exact hfront.upTo (.ofFixed hread.passes (fixed_of_lexed hread.lexed hkind hend))

/-- A keyword is filler. -/
theorem keyword (hkeyword : token.text ∈ keywords) : Covers c [] after := by
  rcases h with ⟨front, text, hfront, hread, -⟩
  rw [hread.shown] at hkeyword
  refine hfront.upTo (.ofFixed hread.passes ?_)
  rw [← String.toList_ofList (l := text)]
  exact .keyword hkeyword

/-- The text of an operator or keyword is its spelling. -/
theorem spelling (hkind : token.kind.isSpelled = true) : token.text = token.kind.spelling := by
  rcases h with ⟨front, text, -, hread, -⟩
  rw [hread.shown, spelling_of_lexed hread.lexed hkind, String.ofList_toList]

/-- Any other token is a leaf. -/
theorem leaf : Covers c [⟨.plain, token.text, token.span⟩] after := by
  rcases h with ⟨front, text, hfront, hread, -⟩
  refine hfront.after (.ofLeaf hread.passes hread.start hread.stop ?_)
  change text = token.text.toList
  rw [hread.shown, String.toList_ofList]

end Offers

end Cursor

/-! ## Consuming and reporting -/

section

variable {α : Type} {mode : Mode} {ctx : Context} {s : State} {D : List Diagnostic}
  {Q : α → State → Prop} (hq : Quiet ctx.limits D)
include hq

/-- In a quiet parse nothing stands in front of a token but fillers. -/
theorem ensures_offers : Ensures D (advance mode) ctx s fun token s' =>
    token = s.next mode ctx ∧ s.cursor.Offers mode (s.next mode ctx) s'.cursor := by
  intro token s' h hD
  rcases yields_advance hq h hD with ⟨htoken, hcursor, -, herrors⟩
  refine ⟨htoken, ?_⟩
  rw [hcursor]
  refine Cursor.offers_of_lookaheadFrom (fun hmode => ?_) _ _ herrors
  subst hmode
  rfl

/-- A token is consumed with the fillers in front of it. -/
theorem ensures_next {f : Token → Parse α} [∀ token, Moving (f token)]
    (h : ∀ s1, s.cursor.Offers mode (s.next mode ctx) s1.cursor →
      Ensures D (f (s.next mode ctx)) ctx s1 Q) :
    Ensures D (liftM (advance mode) >>= f) ctx s Q := by
  refine ensures_seq (ensures_lift (ensures_offers hq)) ?_
  rintro token s1 ⟨rfl, hoffers⟩
  exact h s1 hoffers

theorem ensures_fixed {f : Token → Parse α} [∀ token, Moving (f token)]
    (hkind : (s.next mode ctx).kind.isFixed = true)
    (h : ∀ s1, Covers s.cursor [] s1.cursor → Ensures D (f (s.next mode ctx)) ctx s1 Q) :
    Ensures D (liftM (advance mode) >>= f) ctx s Q :=
  ensures_next hq fun s1 hoffers => h s1 (hoffers.fixed hkind)

theorem ensures_expectAs {kind : Token.Kind} {expected : Expectation} {f : Token → Parse α}
    [∀ token, Moving (f token)] (hkind : kind.isFixed = true)
    (h : ∀ s1, Covers s.cursor [] s1.cursor → Ensures D (f (s.next mode ctx)) ctx s1 Q) :
    Ensures D (expectAs mode kind expected >>= f) ctx s Q := by
  refine ensures_seq (P := fun token s1 => token = s.next mode ctx ∧
    Covers s.cursor [] s1.cursor) ?_ ?_
  · refine ensures_peekKind (ensures_ite (fun heq => ?_) fun _ => ensures_unexpected)
    refine ensures_lift ((ensures_offers hq).mono ?_)
    rintro token s1 ⟨rfl, hoffers⟩
    exact ⟨rfl, hoffers.fixed (heq ▸ hkind)⟩
  · rintro token s1 ⟨rfl, hcovers⟩
    exact h s1 hcovers

/-- An error is reported only where the parse does not stay quiet. -/
theorem ensures_blame {d : Diagnostic} {f : Unit → Scan α} [∀ u, Moving (f u)]
    (hd : d.isError = true) : Ensures D (report d >>= f) ctx s Q :=
  ensures_seq (ensures_report hd) fun _ _ h => absurd hq h

omit hq in
theorem ensures_stays {d : Diagnostic} :
    Ensures D (report d) ctx s fun _ s' => s'.cursor = s.cursor := by
  intro u s' h _
  have hs' : (report d ctx s).2 = s' := congrArg Prod.snd h
  rw [← hs']
  exact report_cursor d ctx s

end

/-! ## Readers -/

section

variable {m : Type → Type} [Monad m] [MonadStateOf State m] [Reads m] {α : Type}
  {D : List Diagnostic} {leaves : α → List Leaf}

/-- In a parse that stays quiet, what the reader consumes is covered by the leaves of
    its result. -/
def Lossless (D : List Diagnostic) (x : m α) (leaves : α → List Leaf) : Prop :=
  ∀ ctx s, Quiet ctx.limits D → Ensures D x ctx s fun a s' => Covers s.cursor (leaves a) s'.cursor

theorem lossless_collect {item : m (Option α)} [Stepwise item]
    (h : Lossless D item fun o => o.toList.flatMap leaves) :
    Lossless D (collect item) fun as => as.flatMap leaves := by
  intro ctx s hq
  refine ensures_seq (ensures_loop_state
    (I := fun as s' => Covers s.cursor (as.toList.flatMap leaves) s'.cursor) (.nil _) ?_)
    fun as s1 hcovers => ensures_pure.2 fun _ => hcovers
  intro as s1 hcovers
  refine Moving.ensures_seq (fun r => by cases r <;> exact moving_pure _) (h ctx s1 hq)
    fun r s2 hr => ?_
  cases r with
  | none => exact ensures_pure.2 fun _ => hcovers.upTo hr
  | some a =>
      refine ensures_pure.2 fun _ => ?_
      change Covers s.cursor ((as.push a).toList.flatMap leaves) s2.cursor
      rw [Array.toList_push, List.flatMap_append]
      exact hcovers.append hr

end

section

variable {α : Type} {D : List Diagnostic} {leaves : α → List Leaf}

theorem lossless_commaSeparated {ends : Token.Kind → Bool} {item : Parse α} [Stepwise item]
    (h : Lossless D item leaves) :
    Lossless D (commaSeparated ends item) fun as => as.flatMap leaves := by
  intro ctx s hq
  refine ensures_seq (ensures_loop_state
    (I := fun as s' => Covers s.cursor (as.toList.flatMap leaves) s'.cursor) (.nil _) ?_)
    fun as s1 hcovers => ensures_pure.2 fun _ => hcovers
  intro as s1 hcovers
  refine ensures_peekKind (ensures_ite (fun _ => ensures_pure.2 fun _ => hcovers) fun _ => ?_)
  refine ensures_seq (h ctx s1 hq) fun a s2 ha => ensures_peekKind ?_
  have hpush : Covers s.cursor ((as.push a).toList.flatMap leaves) s2.cursor := by
    rw [Array.toList_push, List.flatMap_append, List.flatMap_singleton]
    exact hcovers.append ha
  refine ensures_ite (fun hcomma => ?_) fun _ => ensures_pure.2 fun _ => hpush
  refine ensures_fixed hq (by rw [hcomma]; rfl) fun s3 hs3 => ensures_pure.2 fun _ => ?_
  exact hpush.upTo hs3

theorem lossless_expectClosing {mode : Mode} {closer : Token.Kind} {opening : Span}
    (hcloser : closer.isFixed = true) :
    Lossless D (expectClosing mode closer opening) fun _ => [] := by
  intro ctx s hq
  refine ensures_peek (ensures_ite (fun heq => ?_) fun _ => ensures_ite (fun _ => ensures_throw)
    fun _ => ensures_throw)
  refine ensures_lift ((ensures_offers hq).mono ?_)
  rintro token s1 ⟨rfl, hoffers⟩
  exact hoffers.fixed (heq ▸ hcloser)

theorem lossless_skipWhile {mode : Mode} {skips : Token.Kind → Bool}
    (hskips : ∀ kind, skips kind = true → kind.isFixed = true) :
    Lossless D (Scan.skipWhile mode skips) fun _ => [] := by
  intro ctx s hq
  refine ensures_loop_state (I := fun _ s' => Covers s.cursor [] s'.cursor) (.nil _) ?_
  intro _ s1 hcovers
  refine Scan.ensures_peekKind (ensures_ite (fun hkind => ?_) fun _ => ensures_pure.2 fun _ => hcovers)
  refine ensures_seq (ensures_offers hq) ?_
  rintro token s2 ⟨rfl, hoffers⟩
  exact ensures_pure.2 fun _ => hcovers.upTo (hoffers.fixed (hskips _ hkind))

end

end Ysh
