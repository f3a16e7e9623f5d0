import Ysh.Proofs.Coverage.Basic

/-!
# Tokens Tile a Source

What is read of a source when it is cut into tokens and nothing else. The tokens and
the errors come apart: they are two lists, and neither of them says what stands between
its members. Merged by position they are one list of items, and that list has no holes:
each item starts where the one before it stopped, but for a gap that has no meaning.

`Tiling` is that fact as a relation, with one step for an item and its gap. What a user
of the list asks for is read off the relation: the items are in order, they do not
overlap, only the end is empty, and the text under a token is the one that it carries.

## Main definitions

* `Gap`: What may stand in front of a token without a meaning.
* `Item`: A token or an error.
* `Cursor.Tokens.items`: The tokens and the errors, merged by position.
* `Tile`: One item with the gap in front of it.
* `Tiling`: Items that take up all the rest of a source.

## Theorems

* `gap_extrasLength`: What is skipped is a gap.
* `tile_nextToken`: Reading an item advances by exactly what the item reports.
* `tiling_tokensFrom`: Enough rounds tile the source.
* `tokens_tile_source`: The tokens and errors of a source tile it.
-/

namespace Ysh

/-! ## Gaps -/

/-- A text without a meaning, in front of the rest of a source: blanks, escaped blanks,
    line continuations, and at last a comment, which goes on to the end of its line. -/
inductive Gap (rest : List Char) : List Char → Prop where
  | nil : Gap rest []
  | blank {c : Char} {text : List Char} (hc : c = ' ' ∨ c = '\t' ∨ c = '\r')
      (tail : Gap rest text) : Gap rest (c :: text)
  | escaped {c : Char} {text : List Char} (hc : c = '\n' ∨ c = ' ' ∨ c = '\t')
      (tail : Gap rest text) : Gap rest ('\\' :: c :: text)
  | comment {line : List Char} (hline : ∀ c ∈ line, c ≠ '\n')
      (hends : ∀ c ∈ rest.head?, c = '\n') : Gap rest ('#' :: line)

/-- Inside a comment everything is skipped that is no newline. -/
theorem comment_extrasLengthFrom (cs : List Char) :
    (∀ c ∈ cs.take (extrasLengthFrom .comment cs), c ≠ '\n') ∧
      ∀ c ∈ (cs.drop (extrasLengthFrom .comment cs)).head?, c = '\n' := by
  induction cs with
  | nil => simp [extrasLengthFrom]
  | cons c cs ih =>
      rw [extrasLengthFrom]
      by_cases hc : c = '\n'
      · simp [hc]
      · rw [if_neg hc, List.take_succ_cons, List.drop_succ_cons]
        exact ⟨by simpa [hc] using ih.1, ih.2⟩

/-- What is skipped is a gap. -/
theorem gap_extrasLength (cs : List Char) :
    Gap (cs.drop (extrasLength cs)) (cs.take (extrasLength cs)) := by
  -- The two states of the reader are told apart here, because a comment is one
  -- constructor of `Gap` and many rounds of the reader.
  suffices h : ∀ (extras : Extras) (cs : List Char), extras = .between →
      Gap (cs.drop (extrasLengthFrom extras cs)) (cs.take (extrasLengthFrom extras cs)) from
    h .between cs rfl
  intro extras cs hextras
  fun_induction extrasLengthFrom extras cs with
  | case1 => exact .nil
  | case2 | case3 => cases hextras
  | case4 c cs hc ih => exact .escaped hc (ih rfl)
  | case5 => exact .nil
  | case6 c cs _ hc ih => exact .blank hc (ih rfl)
  | case7 cs _ _ _ =>
      have hcomment := comment_extrasLengthFrom cs
      exact .comment hcomment.1 hcomment.2
  | case8 => exact .nil

/-! ## Items -/

/-- What one reading gives: a token, or an error in its place. -/
abbrev Item := Except LexicalError Token

namespace Item

/-- Where the item stands. -/
def span : Item → Span
  | .ok token => token.span
  | .error error => error.span

/-- The item is the end of the source. -/
def IsEnd (item : Item) : Prop :=
  ∃ token, item = .ok token ∧ token.kind = .endOfInput

end Item

namespace Cursor.Tokens

/-- The tokens and the errors in one list, merged by position. -/
def items (read : Tokens) : List Item :=
  List.merge (read.tokens.map .ok) (read.errors.map .error)
    fun a b => a.span.start ≤ b.span.start

theorem mem_items {read : Tokens} {item : Item} :
    item ∈ read.items ↔
      (∃ token ∈ read.tokens, .ok token = item) ∨ ∃ error ∈ read.errors, .error error = item := by
  rw [items, List.mem_merge, List.mem_map, List.mem_map]

/-- The merged list has the tokens in their order. -/
theorem tokens_items (read : Tokens) : read.items.filterMap Except.toOption = read.tokens := by
  rcases read with ⟨tokens, errors⟩
  unfold items
  dsimp only
  induction tokens generalizing errors with
  | nil =>
      rw [List.map_nil, List.nil_merge, List.filterMap_map]
      exact List.filterMap_eq_nil_iff.2 fun _ _ => rfl
  | cons token tokens ih =>
      induction errors with
      | nil =>
          rw [List.map_nil, List.merge_right, List.filterMap_map]
          exact List.filterMap_some
      | cons error errors ihe =>
          rw [List.map_cons, List.map_cons, List.cons_merge_cons]
          split
          · exact congrArg (token :: ·) (ih (error :: errors))
          · exact ihe

/-- A token in front of everything else stays in front. -/
theorem items_ok {token : Token} {more : Tokens}
    (h : ∀ item ∈ more.items, token.span.start ≤ item.span.start) :
    items { more with tokens := token :: more.tokens } = .ok token :: more.items := by
  rcases more with ⟨tokens, errors⟩
  rcases errors with _ | ⟨error, errors⟩
  · simp [items]
  · have hle : token.span.start ≤ error.span.start :=
      h (.error error) (mem_items.2 (.inr ⟨error, List.mem_cons_self, rfl⟩))
    simp only [items, List.map_cons]
    rw [List.cons_merge_cons, if_pos]
    exact decide_eq_true hle

theorem items_end (token : Token) : items ⟨[token], []⟩ = [.ok token] := by
  simp [items]

/-- An error in front of everything else stays in front. Where a token and an error
    start together the token goes first, so the error has to start before. -/
theorem items_error {error : LexicalError} {more : Tokens}
    (h : ∀ item ∈ more.items, error.span.start < item.span.start) :
    items { more with errors := error :: more.errors } = .error error :: more.items := by
  rcases more with ⟨tokens, errors⟩
  rcases tokens with _ | ⟨token, tokens⟩
  · simp [items]
  · have hlt : error.span.start < token.span.start :=
      h (.ok token) (mem_items.2 (.inl ⟨token, List.mem_cons_self, rfl⟩))
    simp only [items, List.map_cons]
    rw [List.cons_merge_cons, if_neg]
    intro hle
    exact absurd (of_decide_eq_true hle) (Nat.not_le_of_lt hlt)

end Cursor.Tokens

/-! ## Tiles -/

/-- The item carries the text that it was read from. -/
def Item.Shows (text : List Char) : Item → Prop
  | .ok token => token.text = .ofList text
  | .error error => ∃ fault : Lexeme.Fault, error = fault.toError (.ofList text) error.span

/-- One item takes a reader from one place to another: first a gap, then the text of
    the item, and a token is marked if the gap is empty. -/
structure Tile (c : Cursor) (gap text : List Char) (item : Item) (after : Cursor) : Prop where
  passes : c.Passes (gap ++ text) after
  skipped : Gap (text ++ after.rest) gap
  start : item.span.start = c.offset + byteLength gap
  stop : item.span.stop = after.offset
  shows : item.Shows text
  immediate : ∀ token, item = .ok token → (token.immediate = true ↔ gap = [])

/-- The items take up the rest of a source, and the end of the source is the last of
    them. All others take a character, and none of them is the end. -/
inductive Tiling : Cursor → List Item → Prop where
  | last {c after : Cursor} {gap : List Char} {token : Token}
      (tile : Tile c gap [] (.ok token) after) (hkind : token.kind = .endOfInput)
      (hrest : after.rest = []) : Tiling c [.ok token]
  | cons {c after : Cursor} {gap text : List Char} {item : Item} {items : List Item}
      (tile : Tile c gap text item after) (htext : text ≠ []) (hmore : ¬ item.IsEnd)
      (tail : Tiling after items) : Tiling c (item :: items)

theorem Lexeme.Fault.span_toError (fault : Fault) (text : String) (span : Span) :
    (fault.toError text span).span = span := by
  cases fault <;> rfl

namespace Tile

variable {c after : Cursor} {gap text : List Char} {item : Item}

theorem stop_eq (h : Tile c gap text item after) :
    item.span.stop = item.span.start + byteLength text := by
  rw [h.stop, h.start, h.passes.offset, byteLength_append, Nat.add_assoc]

theorem offset_le_start (h : Tile c gap text item after) : c.offset ≤ item.span.start := by
  rw [h.start]
  exact Nat.le_add_right _ _

/-- An item that takes a character has a span with something under it. -/
theorem start_lt_stop (h : Tile c gap text item after) (htext : text ≠ []) :
    item.span.start < item.span.stop := by
  rcases text with _ | ⟨a, text⟩
  · exact absurd rfl htext
  · have hpos := a.utf8Size_pos
    rw [h.stop_eq, byteLength_cons]
    omega

end Tile

/-- A lexeme has characters and is not the end, or stands behind the last character. -/
theorem Lexeme.takes_or_ends (mode : Mode) (cs : List Char) :
    (cs.take (ofMode mode cs).length ≠ [] ∧ (ofMode mode cs).verdict ≠ .ok .endOfInput) ∨
      (cs = [] ∧ (ofMode mode cs).verdict = .ok .endOfInput) := by
  rcases within_ofMode mode cs with ⟨hle, hpos⟩
  by_cases hend : (ofMode mode cs).verdict = .ok .endOfInput
  · exact .inr ⟨eq_nil_of_endOfInput (congrArg (Lexeme.mk · (ofMode mode cs).length) hend), hend⟩
  · refine .inl ⟨fun hnil => ?_, hend⟩
    have hlength := congrArg List.length hnil
    rw [List.length_take, Nat.min_eq_left hle, List.length_nil] at hlength
    rw [hlength] at hpos
    exact hend (hpos.resolve_left (Nat.lt_irrefl 0))

namespace Cursor

/-- Reading an item advances by exactly what the item reports, and only the end of the
    source takes no character. -/
theorem tile_nextToken (mode : Mode) (c : Cursor) :
    ∃ gap text, Tile c gap text (c.nextToken mode).1 (c.nextToken mode).2 ∧
      (text ≠ [] ∧ ¬ Item.IsEnd (c.nextToken mode).1 ∨
        text = [] ∧ Item.IsEnd (c.nextToken mode).1 ∧ (c.nextToken mode).2.rest = []) := by
  have hgap := gap_extrasLength c.rest
  have hskipped := Passes.advance c (extrasLength c.rest)
  have hempty : (extrasLength c.rest == 0) = true ↔ c.rest.take (extrasLength c.rest) = [] := by
    have hle := extrasLength_le c.rest
    rw [beq_iff_eq, ← List.length_eq_zero_iff, List.length_take, Nat.min_eq_left hle]
  unfold nextToken
  dsimp only
  generalize hfront : c.advance (extrasLength c.rest) = front at hskipped ⊢
  have hrest : c.rest.drop (extrasLength c.rest) = front.rest := by rw [← hfront]; rfl
  have htakes := Lexeme.takes_or_ends mode front.rest
  rcases hl : Lexeme.ofMode mode front.rest with ⟨verdict, n⟩
  rw [hl] at htakes
  dsimp only at htakes ⊢
  have hpasses := hskipped.trans (Passes.advance front n)
  have hskip : Gap (front.rest.take n ++ (front.advance n).rest)
      (c.rest.take (extrasLength c.rest)) := by
    rw [hrest] at hgap
    rwa [show front.rest.take n ++ (front.advance n).rest = front.rest from
      List.take_append_drop n front.rest]
  refine ⟨c.rest.take (extrasLength c.rest), front.rest.take n, ?_, ?_⟩
  · -- Whatever the verdict is, the span and the place behind it are the same.
    cases verdict with
    | ok kind =>
        refine ⟨hpasses, hskip, hskipped.offset, rfl, rfl, ?_⟩
        rintro token ⟨⟩
        exact hempty
    | error fault =>
        have hspan := fault.span_toError (front.textOf n) (front.spanOf n)
        refine ⟨hpasses, hskip, ?_, congrArg Span.stop hspan, ⟨fault, ?_⟩, nofun⟩
        · exact (congrArg Span.start hspan).trans hskipped.offset
        · rw [hspan]
          rfl
  · rcases htakes with ⟨htext, hmore⟩ | ⟨hnil, rfl⟩
    · refine .inl ⟨htext, ?_⟩
      rintro ⟨token, htoken, hkind⟩
      cases verdict with
      | error fault => cases htoken
      | ok kind =>
          cases htoken
          exact hmore (congrArg Except.ok hkind)
    · refine .inr ⟨by rw [hnil, List.take_nil], ⟨_, rfl, rfl⟩, ?_⟩
      change front.rest.drop n = []
      rw [hnil, List.drop_nil]

end Cursor

/-! ## Tilings -/

namespace Tiling

variable {c : Cursor} {items : List Item}

theorem offset_le_start (h : Tiling c items) : ∀ item ∈ items, c.offset ≤ item.span.start := by
  induction h with
  | last tile =>
      intro item hitem
      rw [List.mem_singleton.1 hitem]
      exact tile.offset_le_start
  | cons tile _ _ _ ih =>
      intro item hitem
      rcases List.mem_cons.1 hitem with rfl | hitem
      · exact tile.offset_le_start
      · have hle := ih item hitem
        have hafter := tile.passes.offset
        omega

/-- The items are disjoint and in order. -/
theorem ordered (h : Tiling c items) : items.Pairwise fun a b => a.span.stop ≤ b.span.start := by
  induction h with
  | last => exact List.pairwise_singleton _ _
  | cons tile _ _ tail ih =>
      refine .cons (fun item hitem => ?_) ih
      rw [tile.stop]
      exact tail.offset_le_start item hitem

/-- There is something under every item but the end. -/
theorem start_lt_stop (h : Tiling c items) :
    ∀ item ∈ items, item.IsEnd ∨ item.span.start < item.span.stop := by
  induction h with
  | last _ hkind =>
      intro item hitem
      rw [List.mem_singleton.1 hitem]
      exact .inl ⟨_, rfl, hkind⟩
  | cons tile htext _ _ ih =>
      intro item hitem
      rcases List.mem_cons.1 hitem with rfl | hitem
      · exact .inr (tile.start_lt_stop htext)
      · exact ih item hitem

/-- The end is the last item and no other, and it stands at the end of the source. -/
theorem ends (h : Tiling c items) : ∃ front token, items = front ++ [.ok token] ∧
    token.kind = .endOfInput ∧ token.span = .emptyAt c.stop ∧ ∀ item ∈ front, ¬ item.IsEnd := by
  induction h with
  | @last c after gap token tile hkind hrest =>
      have hstop : token.span.stop = c.stop := by
        change (Item.span (.ok token)).stop = _
        rw [tile.stop, tile.passes.offset, Cursor.stop, tile.passes.rest, hrest]
        simp
      have hstart : token.span.start = token.span.stop := tile.stop_eq.symm
      refine ⟨[], token, rfl, hkind, ?_, by simp⟩
      rcases hspan : token.span with ⟨start, stop, hle⟩
      rw [hspan] at hstart hstop
      cases hstart
      cases hstop
      rfl
  | @cons c after gap text item items tile _ hmore _ ih =>
      rcases ih with ⟨front, token, rfl, hkind, hspan, hfront⟩
      have hstop : after.stop = c.stop := by
        rw [Cursor.stop, Cursor.stop, tile.passes.offset, tile.passes.rest,
          byteLength_append _ after.rest, Nat.add_assoc]
      rw [hstop] at hspan
      refine ⟨item :: front, token, rfl, hkind, hspan, fun other hother => ?_⟩
      rcases List.mem_cons.1 hother with rfl | hother
      · exact hmore
      · exact hfront other hother

/-- A token carries the text under its span. -/
theorem text? {source : String} (front : List Char) (hsource : source.toList = front ++ c.rest)
    (hoffset : c.offset = byteLength front) (h : Tiling c items) :
    ∀ token, .ok token ∈ items → token.span.text? source = some token.text := by
  have htile : ∀ {c after : Cursor} {gap text : List Char} {token : Token} (front : List Char),
      source.toList = front ++ c.rest → c.offset = byteLength front →
        Tile c gap text (.ok token) after → token.span.text? source = some token.text := by
    intro c after gap text token front hsource hoffset tile
    rcases tile.passes.split with ⟨d, hgap, htext⟩
    rw [show token.text = .ofList text from tile.shows]
    refine htext.text? (front ++ gap) ?_ ?_ ?_ tile.stop
    · rw [hsource, hgap.rest, List.append_assoc]
    · rw [hgap.offset, hoffset, byteLength_append]
    · rw [hgap.offset]
      exact tile.start
  induction h generalizing front with
  | last tile =>
      intro token htoken
      rw [List.mem_singleton] at htoken
      cases htoken
      exact htile front hsource hoffset tile
  | @cons c after gap text item items tile _ _ _ ih =>
      intro token htoken
      rcases List.mem_cons.1 htoken with rfl | htoken
      · exact htile front hsource hoffset tile
      · refine ih (front ++ (gap ++ text)) ?_ ?_ token htoken
        · rw [hsource, tile.passes.rest, List.append_assoc front]
        · rw [tile.passes.offset, hoffset, byteLength_append front]

end Tiling

namespace Cursor

/-- Whatever the clock is, a reader stops at the end. -/
theorem tiling_end {mode : Mode} {c : Cursor} {gap : List Char}
    (htile : Tile c gap [] (c.nextToken mode).1 (c.nextToken mode).2)
    (hend : Item.IsEnd (c.nextToken mode).1) (hrest : (c.nextToken mode).2.rest = [])
    (clock : List Char) : Tiling c (tokensFrom mode clock c).1.items := by
  rcases hnext : c.nextToken mode with ⟨item, after⟩
  rw [hnext] at htile hend hrest
  rcases hend with ⟨token, rfl, hkind⟩
  have hread : tokensFrom mode clock c = (⟨[token], []⟩, after) := by
    unfold tokensFrom
    rw [hnext]
    exact if_pos hkind
  rw [hread]
  exact Tokens.items_end token ▸ .last htile hkind hrest

/-- Enough rounds tile the rest of a source. Every round but the last takes a character,
    so a clock as long as the text does not run out. -/
theorem tiling_tokensFrom (mode : Mode) (clock : List Char) (c : Cursor)
    (hclock : c.rest.length ≤ clock.length) : Tiling c (tokensFrom mode clock c).1.items := by
  induction clock generalizing c with
  | nil =>
      rcases tile_nextToken mode c with ⟨gap, text, htile, ⟨htext, -⟩ | ⟨rfl, hend, hrest⟩⟩
      · -- Without a character left there is no text to take.
        have hlength := congrArg List.length htile.passes.rest
        have hpos := List.length_pos_iff.2 htext
        simp only [List.length_append, List.length_nil] at hlength hclock
        omega
      · exact tiling_end htile hend hrest []
  | cons x clock ih =>
      rcases tile_nextToken mode c with ⟨gap, text, htile, ⟨htext, hmore⟩ | ⟨rfl, hend, hrest⟩⟩
      · rcases hnext : c.nextToken mode with ⟨item, after⟩
        rw [hnext] at htile hmore
        have hshorter : after.rest.length ≤ clock.length := by
          have hlength := congrArg List.length htile.passes.rest
          have hpos := List.length_pos_iff.2 htext
          simp only [List.length_append, List.length_cons] at hlength hclock
          omega
        have htail := ih after hshorter
        have hlt : ∀ other ∈ (tokensFrom mode clock after).1.items,
            (Item.span item).start < other.span.start := by
          intro other hother
          have hle := htail.offset_le_start other hother
          have hstop := htile.stop
          have hlt := htile.start_lt_stop htext
          dsimp only at hstop hlt
          omega
        have hitems : (tokensFrom mode (x :: clock) c).1.items
            = item :: (tokensFrom mode clock after).1.items := by
          rw [tokensFrom, hnext]
          cases item with
          | ok token =>
              dsimp only
              rw [if_neg fun hkind => hmore ⟨token, rfl, hkind⟩]
              exact Tokens.items_ok fun other hother => Nat.le_of_lt (hlt other hother)
          | error error => exact Tokens.items_error hlt
        rw [hitems]
        exact .cons htile htext hmore htail
      · exact tiling_end htile hend hrest (x :: clock)

end Cursor

/-- The tokens and the errors of a source, merged by position, tile it: item after item
    with nothing but a gap in between, in order and disjoint, and none of them empty but
    the one end of input, which is the last token and stands at the end of the source. A
    token carries exactly the text under its span. -/
theorem tokens_tile_source (source : String) (mode : Mode) :
    let read := ((Cursor.ofSource source).tokens mode).1
    Tiling (.ofSource source) read.items ∧
      (∃ front token, read.tokens = front ++ [token] ∧ token.kind = .endOfInput ∧
        token.span = .emptyAt source.utf8ByteSize ∧ ∀ other ∈ front, other.kind ≠ .endOfInput) ∧
      read.items.Pairwise (fun a b => a.span.stop ≤ b.span.start) ∧
      (∀ item ∈ read.items, item.IsEnd ∨ item.span.start < item.span.stop) ∧
      ∀ token ∈ read.tokens, token.span.text? source = some token.text := by
  intro read
  have htiling : Tiling (.ofSource source) read.items :=
    Cursor.tiling_tokensFrom mode _ _ (Nat.le_refl _)
  refine ⟨htiling, ?_, htiling.ordered, htiling.start_lt_stop, ?_⟩
  · rcases htiling.ends with ⟨front, token, hitems, hkind, hspan, hfront⟩
    have htokens := read.tokens_items
    rw [hitems, List.filterMap_append] at htokens
    refine ⟨front.filterMap Except.toOption, token, htokens.symm, hkind, ?_, ?_⟩
    · rw [hspan, utf8ByteSize_eq]
      exact congrArg Span.emptyAt (Nat.zero_add _)
    · intro other hother hend
      rcases List.mem_filterMap.1 hother with ⟨item, hitem, htoken⟩
      cases item with
      | error error => cases htoken
      | ok other' =>
          cases htoken
          exact hfront _ hitem ⟨other, rfl, hend⟩
  · intro token htoken
    exact htiling.text? [] rfl rfl token (Cursor.Tokens.mem_items.2 (.inl ⟨token, htoken, rfl⟩))

end Ysh
