import Ysh.Proofs.Erase
import Ysh.Proofs.Progress.Loops
import Ysh.Proofs.Spacing.Place

/-!
# What Leaves Take Up

The leaves of a program say which of its text is copied. To know that of the text in front
of one token, it is enough to know which leaves stand there, and a production knows that of
what it has read. So the leaves of a result are followed with the stretch they belong to:
they stay inside it, `Within`, and nothing else of the program is there, `Owns`. Both speak
of the offsets that leaves take up and not of the leaves, since a word is made of parts
that grow: it does not matter how a stretch of text is cut.

From the leaves comes what may be looked at. A token that is a leaf, or is made of solid
characters, is copied, and what is in front of it is a gap.

## Main definitions

* `covered`: The offsets that leaves take up.
* `Within`, `Owns`: The leaves of a stretch are inside it, and they are all there are.
* `Cursor.Sees`: The next token is the same in the squeezed source.

## Theorems

* `Owns.split`: What is owned together is owned apart.
* `Cursor.sees_of_lookahead`: A token that is owned is seen.
-/

namespace Ysh

open Lexeme

/-! ## Leaves -/

/-- Some leaf takes up the offset. -/
def covered (leaves : List Leaf) (offset : Nat) : Bool :=
  leaves.any fun leaf => leaf.span.start ≤ offset && offset < leaf.span.stop

@[simp] theorem covered_nil (p : Nat) : covered [] p = false := rfl

@[simp] theorem covered_append (leaves leaves' : List Leaf) (p : Nat) :
    covered (leaves ++ leaves') p = (covered leaves p || covered leaves' p) :=
  List.any_append

@[simp] theorem covered_cons (leaf : Leaf) (leaves : List Leaf) (p : Nat) :
    covered (leaf :: leaves) p
      = ((leaf.span.start ≤ p && p < leaf.span.stop) || covered leaves p) :=
  rfl

/-- The leaves take up offsets between the two only. -/
structure Within (leaves : List Leaf) (start stop : Nat) : Prop where
  le : start ≤ stop
  bounds : ∀ p, covered leaves p = true → start ≤ p ∧ p < stop

/-- What is inside a leaf, between the two offsets, is inside one of these. -/
def Owns (gaps : Gaps) (leaves : List Leaf) (start stop : Nat) : Prop :=
  ∀ p, start ≤ p → p < stop → gaps.inside p = covered leaves p

section

variable {gaps : Gaps} {leaves leaves' : List Leaf} {start mid stop : Nat}

theorem Within.nil (h : start ≤ stop) : Within [] start stop :=
  ⟨h, fun _ hp => by cases hp⟩

theorem Within.append (h : Within leaves start mid) (h' : Within leaves' mid stop) :
    Within (leaves ++ leaves') start stop := by
  have hle := h.le
  have hle' := h'.le
  refine ⟨Nat.le_trans hle hle', fun p hp => ?_⟩
  rw [covered_append, Bool.or_eq_true] at hp
  rcases hp with hp | hp
  · have hbounds := h.bounds p hp
    omega
  · have hbounds := h'.bounds p hp
    omega

theorem Within.congr (h : Within leaves start stop)
    (hsame : ∀ p, covered leaves' p = covered leaves p) : Within leaves' start stop :=
  ⟨h.le, fun p hp => h.bounds p (by rwa [← hsame])⟩

theorem Owns.congr (h : Owns gaps leaves start stop)
    (hsame : ∀ p, covered leaves' p = covered leaves p) : Owns gaps leaves' start stop :=
  fun p hstart hstop => (h p hstart hstop).trans (hsame p).symm

/-- What is owned together is owned apart. -/
theorem Owns.split (h : Owns gaps (leaves ++ leaves') start stop)
    (hfirst : Within leaves start mid) (hsecond : Within leaves' mid stop) :
    Owns gaps leaves start mid ∧ Owns gaps leaves' mid stop := by
  have hle := hfirst.le
  have hle' := hsecond.le
  constructor
  · intro p hstart hmid
    have hother : covered leaves' p = false := by
      cases hp : covered leaves' p with
      | false => rfl
      | true =>
          have hbounds := hsecond.bounds p hp
          omega
    rw [h p hstart (by omega), covered_append, hother, Bool.or_false]
  · intro p hmid hstop
    have hother : covered leaves p = false := by
      cases hp : covered leaves p with
      | false => rfl
      | true =>
          have hbounds := hfirst.bounds p hp
          omega
    rw [h p (by omega) hstop, covered_append, hother, Bool.false_or]

end

/-! ## Tokens that are owned -/

/-- Every character of the token is inside a leaf, or solid. -/
def Token.Copied (gaps : Gaps) (token : Token) : Prop :=
  ∀ front x rest, token.text.toList = front ++ x :: rest →
    gaps.inside (token.span.start + byteLength front) = true ∨ Character.isSolid x = true

theorem Token.copied_of_solid {gaps : Gaps} {token : Token}
    (h : ∀ x ∈ token.text.toList, Character.isSolid x = true) : token.Copied gaps :=
  fun front x rest htext => .inr (h x (by simp [htext]))

namespace Cursor

variable {gaps : Gaps} {mode : Mode} {overLines : Bool} {c : Cursor}

/-- The next token in a mode is the same in the squeezed source. -/
def Sees (gaps : Gaps) (mode : Mode) (ctx : Context) (c : Cursor) : Prop :=
  c.Seen gaps mode (mode == .expression && ctx.inBrackets)

/-- A command that comes next is seen, and so is what follows its first word. -/
structure Opening (gaps : Gaps) (c : Cursor) : Prop where
  seen : c.Seen gaps .command false
  second : (c.lookahead .command false).token.kind = .word →
    (c.lookahead .command false).after.Seen gaps .command false

theorem offset_le_skipExtras (c : Cursor) : c.offset ≤ c.skipExtras.offset :=
  Nat.le_add_right _ _

theorem offset_lt_skipExtras (h : extrasLength c.rest ≠ 0) : c.offset < c.skipExtras.offset := by
  have hle := extrasLength_le c.rest
  rcases hrest : c.rest with _ | ⟨x, xs⟩
  · rw [hrest] at h
    exact absurd rfl h
  · rcases Nat.exists_eq_succ_of_ne_zero h with ⟨n, hn⟩
    have hpos := x.utf8Size_pos
    rw [skipExtras, hn, advance, hrest, List.take_succ_cons, byteLength_cons]
    exact Nat.lt_add_of_pos_right (Nat.lt_of_lt_of_le hpos (Nat.le_add_right _ _))

/-- The places of a token that is read. -/
theorem Reads.bounds {token : Token} {after : Cursor} (h : c.Reads mode token after) :
    c.skipExtras.offset = token.span.start ∧ token.span.stop = after.offset ∧
      token.span.stop = token.span.start + byteLength token.text.toList := by
  have hspan := h.span
  have hafter := h.after
  have htake : c.skipExtras.rest.take token.text.toList.length = token.text.toList := by
    rw [h.front, List.take_left]
  have hstart : token.span.start = c.skipExtras.offset := by rw [hspan]; rfl
  have hstop : token.span.stop = c.skipExtras.offset + byteLength token.text.toList := by
    rw [hspan]
    change c.skipExtras.offset + byteLength (c.skipExtras.rest.take _) = _
    rw [htake]
  have hoffset : after.offset = c.skipExtras.offset + byteLength token.text.toList := by
    rw [hafter, advance, htake]
  exact ⟨hstart.symm, hstop.trans hoffset.symm, by rw [hstart, hstop]⟩

theorem offset_advance_lt {i n : Nat} (hi : i < n) (hn : n ≤ c.rest.length) :
    (c.advance i).offset < (c.advance n).offset := by
  rcases Nat.exists_eq_add_of_lt hi with ⟨k, rfl⟩
  have hsplit := c.advance_advance i (k + 1)
  rw [← Nat.add_assoc] at hsplit
  rw [← hsplit]
  rcases hdrop : (c.advance i).rest with _ | ⟨x, xs⟩
  · have hlength : c.rest.length ≤ i := List.drop_eq_nil_iff.1 hdrop
    omega
  · have hpos := x.utf8Size_pos
    have htake : (c.advance i).rest.take (k + 1) = x :: xs.take k := by rw [hdrop]; rfl
    change _ < (c.advance i).offset + byteLength ((c.advance i).rest.take (k + 1))
    rw [htake, byteLength_cons]
    omega

/-- Text inside leaves is copied. -/
theorem verbatim_of_inside {n : Nat} (hn : n ≤ c.rest.length)
    (h : ∀ p, c.offset ≤ p → p < (c.advance n).offset → gaps.inside p = true) :
    c.Verbatim gaps n :=
  fun _ hi => .inl (h _ (Nat.le_add_right _ _) (offset_advance_lt hi hn))

/-- A token is copied where its characters are. -/
theorem Reads.verbatim_of_copied {token : Token} {after : Cursor} (h : c.Reads mode token after)
    (hcopied : token.Copied gaps) :
    c.skipExtras.Verbatim gaps token.text.toList.length := by
  intro i hi
  have hrest : (c.skipExtras.advance i).rest = token.text.toList.drop i ++ after.rest := by
    change c.skipExtras.rest.drop i = _
    rw [h.front, List.drop_append_of_le_length (Nat.le_of_lt hi)]
  have hoffset : (c.skipExtras.advance i).offset
      = token.span.start + byteLength (token.text.toList.take i) := by
    rw [← h.bounds.1]
    change c.skipExtras.offset + byteLength (c.skipExtras.rest.take i) = _
    rw [h.front, List.take_append_of_le_length (Nat.le_of_lt hi)]
  have hsplit := List.take_append_drop i token.text.toList
  rcases hdrop : token.text.toList.drop i with _ | ⟨x, xs⟩
  · rw [List.drop_eq_nil_iff] at hdrop
    omega
  · rw [hdrop] at hsplit hrest
    rw [hoffset, hrest]
    rcases hcopied _ x xs hsplit.symm with hinside | hsolid
    · exact .inl hinside
    · refine .inr (Decidable.byContradiction fun hgap => ?_)
      rw [not_isSolid_of_extras hgap] at hsolid
      cases hsolid

/-- What is in front of a token is no part of a leaf, if nothing there is. -/
theorem clear_of_gap (h : ∀ p, c.offset ≤ p → p < c.skipExtras.offset → gaps.inside p = false) :
    c.Clear gaps :=
  fun hgap => h c.offset (Nat.le_refl _) (offset_lt_skipExtras hgap)

/-- What is known of the next token of a place: where it is, and when it is seen. -/
structure Next (gaps : Gaps) (mode : Mode) (overLines : Bool) (c : Cursor) (token : Token)
    (after : Cursor) : Prop where
  front : c.offset ≤ token.span.start
  stop : token.span.stop = after.offset
  length : token.span.stop = token.span.start + byteLength token.text.toList
  immediate : overLines = false → token.immediate = true → token.span.start = c.offset
  lexed : Lexed mode token.text.toList token.kind after.rest
  seen : (∀ p, c.offset ≤ p → p < token.span.start → gaps.inside p = false) → token.Copied gaps →
    c.Seen gaps mode overLines

theorem next_of_nextToken {token : Token} {after : Cursor}
    (h : c.nextToken mode = (.ok token, after))
    (hstop : overLines = true → token.kind ≠ .newline) :
    Next gaps mode overLines c token after := by
  have hreads := reads_of_nextToken h
  rcases hreads.bounds with ⟨hstart, hstop', hlength⟩
  refine ⟨hstart ▸ c.offset_le_skipExtras, hstop', hlength, fun _ himmediate => ?_, hreads.lexed,
    fun hgap hcopied => ?_⟩
  · rw [hreads.immediate, beq_iff_eq] at himmediate
    rw [← hstart, skipExtras, himmediate, advance_zero]
  · exact .token h (clear_of_gap (hstart ▸ hgap)) (hreads.verbatim_of_copied hcopied) hstop

/-- A token without errors in front of it is seen if nothing in front of it is inside a
    leaf, and if it is itself copied. -/
theorem next_of_lookaheadFrom {token : Token} {after : Cursor} (clock : List Char)
    (hclock : c.rest.length ≤ clock.length)
    (h : lookaheadFrom mode overLines clock c = ⟨token, [], after⟩) :
    Next gaps mode overLines c token after := by
  induction clock generalizing c with
  | nil =>
      rw [lookaheadFrom] at h
      rcases hnext : c.nextToken mode with ⟨e | found, after'⟩
      · rw [hnext] at h
        cases h
      · rw [hnext] at h
        cases h
        refine next_of_nextToken hnext fun _ hline => ?_
        -- A newline is a character, and none is left.
        have hreads := reads_of_nextToken hnext
        have hpos : 0 < token.text.toList.length :=
          hreads.lexed.advances.resolve_right (by rw [hline]; simp)
        have hlength : c.skipExtras.rest.length ≤ c.rest.length := by
          simp [skipExtras, advance]
        rw [hreads.front, List.length_append] at hlength
        rw [List.length_nil] at hclock
        omega
  | cons x clock ih =>
      rw [lookaheadFrom] at h
      rcases hnext : c.nextToken mode with ⟨e | found, after'⟩
      · rw [hnext] at h
        cases h
      · rw [hnext] at h
        dsimp only at h
        split at h
        · next hover =>
            rw [Bool.and_eq_true, beq_iff_eq] at hover
            have hreads := reads_of_nextToken hnext
            rcases hreads.bounds with ⟨hstart, hstop, hbytes⟩
            have hpos : 0 < found.text.toList.length :=
              hreads.lexed.advances.resolve_right (by rw [hover.2]; simp)
            have hlength : c.skipExtras.rest.length ≤ c.rest.length := by
              simp [skipExtras, advance]
            rw [hreads.front, List.length_append] at hlength
            have hrest := ih (c := after') (by rw [List.length_cons] at hclock; omega) h
            have hle := c.offset_le_skipExtras
            have hfront := hrest.front
            refine ⟨by omega, hrest.stop, hrest.length, fun hlines => ?_, hrest.lexed,
              fun hgap hcopied => ?_⟩
            · rw [hover.1] at hlines
              cases hlines
            · refine .line hnext (clear_of_gap fun p hp hlt => hgap p hp (by omega)) hover.1
                hover.2 ?_
              exact hrest.seen (fun p hp hlt => hgap p (by omega) hlt) hcopied
        · next hover =>
            cases h
            refine next_of_nextToken hnext fun hlines hline => hover ?_
            rw [hlines, hline]
            rfl

theorem next_of_lookahead (h : (c.lookahead mode overLines).errors = []) :
    Next gaps mode overLines c (c.lookahead mode overLines).token
      (c.lookahead mode overLines).after := by
  refine next_of_lookaheadFrom c.rest (Nat.le_refl _) ?_
  rcases hl : c.lookahead mode overLines with ⟨token, errors, after⟩
  rw [hl] at h
  cases h
  exact hl

/-- A token without errors in front of it stands behind fillers. -/
theorem offers_of_lookahead {ctx : Context}
    (h : (c.lookahead mode (mode == .expression && ctx.inBrackets)).errors = []) :
    c.Offers mode (c.lookahead mode (mode == .expression && ctx.inBrackets)).token
      (c.lookahead mode (mode == .expression && ctx.inBrackets)).after := by
  refine offers_of_lookaheadFrom (fun hmode => ?_) _ _ h
  subst hmode
  rfl

/-- A token that is taken ends where it was taken to. -/
theorem Offers.bounds {c after : Cursor} {token : Token} (h : c.Offers mode token after) :
    token.span.stop = after.offset ∧
      after.offset = token.span.start + byteLength token.text.toList := by
  rcases h with ⟨front, text, -, hread, -⟩
  rw [hread.stop, hread.start, hread.shown, String.toList_ofList]
  exact ⟨rfl, hread.passes.offset⟩

/-- A token with nothing in front of it starts where it was taken from. -/
theorem Offers.start {c after : Cursor} {token : Token} (h : c.Offers .command token after)
    (himmediate : token.immediate = true) : token.span.start = c.offset := by
  rcases h with ⟨front, text, -, hread, htouches⟩
  rw [hread.start, htouches rfl himmediate]

end Cursor

end Ysh
