import Ysh.Proofs.Lexing.Word

/-!
# Squeezed Text

A source in which every gap between two tokens is made a single blank. Which of its
blanks and comments are gaps is not seen from the characters: a blank inside a string is
text. What a tree stores is under the spans of its leaves, so a gap is where no leaf is.
A gap may also stay as it is, and so any of them can be squeezed without the others.

What follows some place of a source has more or less to do with what follows the place
in the squeezed source. The two start alike, up to where the one has a gap that the other
has a blank for, and `Spaced` says so. No lexical rule looks past a gap, which is why a
token that is copied is the same token again, whatever becomes of the text behind it.

## Main definitions

* `Gaps`: The offsets inside leaves, and the offsets where a gap stays.
* `squeezeFrom`: A text with a blank for every gap that does not stay.
* `Cursor.squeezed`: What stands behind a place in the squeezed source.
* `Cursor.Verbatim`: The next characters are copied.
* `Spaced`: Two texts that start alike, up to a gap and its blank.

## Theorems

* `Cursor.squeezed_of_verbatim`, `Cursor.squeezed_skipExtras`: What is copied, and what
  is squeezed.
* `Cursor.spaced_squeezed`: Squeezing leaves the start of a text alone, up to a gap.
-/

namespace Ysh

open Lexeme

/-! ## Squeezing -/

/-- Where the gaps of a source are, and what becomes of them. -/
structure Gaps where
  /-- The offset is inside a leaf, so that no gap is there. -/
  inside : Nat → Bool
  /-- The gap that starts at the offset stays as it is. -/
  stays : Nat → Bool

/-- The text that stands at an offset, with a single blank for every run of extras that
    is not inside a leaf and does not stay. The first `copies` characters belong to a run
    that stays, or the first `skips` characters to a run that already has its blank. -/
def squeezeFrom (gaps : Gaps) : (copies skips offset : Nat) → List Char → List Char
  | _, _, _, [] => []
  | copies + 1, skips, offset, c :: cs =>
      c :: squeezeFrom gaps copies skips (offset + c.utf8Size) cs
  | 0, skips + 1, offset, c :: cs => squeezeFrom gaps 0 skips (offset + c.utf8Size) cs
  | 0, 0, offset, c :: cs =>
      if gaps.inside offset then c :: squeezeFrom gaps 0 0 (offset + c.utf8Size) cs
      else match extrasLength (c :: cs) with
        | 0 => c :: squeezeFrom gaps 0 0 (offset + c.utf8Size) cs
        | further + 1 =>
            if gaps.stays offset then c :: squeezeFrom gaps further 0 (offset + c.utf8Size) cs
            else ' ' :: squeezeFrom gaps 0 further (offset + c.utf8Size) cs

section

variable (gaps : Gaps) (cs : List Char) (offset : Nat)

theorem squeezeFrom_copies (copies : Nat) : squeezeFrom gaps copies 0 offset cs
    = cs.take copies
      ++ squeezeFrom gaps 0 0 (offset + byteLength (cs.take copies)) (cs.drop copies) := by
  induction cs generalizing copies offset with
  | nil => simp [squeezeFrom]
  | cons c cs ih =>
      cases copies with
      | zero => simp
      | succ copies =>
          rw [squeezeFrom, ih, List.take_succ_cons, byteLength_cons, List.drop_succ_cons,
            List.cons_append, Nat.add_assoc]

theorem squeezeFrom_skips (skips : Nat) : squeezeFrom gaps 0 skips offset cs
    = squeezeFrom gaps 0 0 (offset + byteLength (cs.take skips)) (cs.drop skips) := by
  induction cs generalizing skips offset with
  | nil => simp [squeezeFrom]
  | cons c cs ih =>
      cases skips with
      | zero => simp
      | succ skips =>
          rw [squeezeFrom, ih, List.take_succ_cons, byteLength_cons, List.drop_succ_cons,
            Nat.add_assoc]

/-- A squeezed text is not longer. -/
theorem length_squeezeFrom (copies skips : Nat) :
    (squeezeFrom gaps copies skips offset cs).length ≤ cs.length := by
  fun_induction squeezeFrom gaps copies skips offset cs with
  | case1 => exact Nat.le_refl _
  | case3 _ _ _ _ ih => exact Nat.le_succ_of_le ih
  | case2 | case4 | case5 | case6 | case7 =>
      rename_i ih
      exact Nat.succ_le_succ ih

/-- A squeezed text takes no more bytes: a blank takes one, and a gap one at least. -/
theorem byteLength_squeezeFrom (copies skips : Nat) :
    byteLength (squeezeFrom gaps copies skips offset cs) ≤ byteLength cs := by
  fun_induction squeezeFrom gaps copies skips offset cs with
  | case1 => exact Nat.le_refl _
  | case3 _ _ c _ ih =>
      rw [byteLength_cons]
      exact Nat.le_add_left_of_le ih
  | case2 | case4 | case5 | case6 =>
      rename_i ih
      rw [byteLength_cons, byteLength_cons]
      exact Nat.add_le_add_left ih _
  | case7 _ c _ _ _ _ _ ih =>
      rw [byteLength_cons, byteLength_cons]
      exact Nat.add_le_add c.utf8Size_pos ih

end

namespace Cursor

variable {gaps : Gaps} {c : Cursor}

/-- What stands behind the place in the squeezed source. -/
def squeezed (gaps : Gaps) (c : Cursor) : List Char :=
  squeezeFrom gaps 0 0 c.offset c.rest

/-- The next `n` characters are copied: each is inside a leaf or starts no gap. -/
def Verbatim (gaps : Gaps) (c : Cursor) (n : Nat) : Prop :=
  ∀ i < n, gaps.inside (c.advance i).offset = true ∨ extrasLength (c.advance i).rest = 0

theorem squeezed_of_nil (h : c.rest = []) : c.squeezed gaps = [] := by
  rw [squeezed, h, squeezeFrom]

theorem squeezed_cons {x : Char} {xs : List Char} (hrest : c.rest = x :: xs)
    (h : gaps.inside c.offset = true ∨ extrasLength c.rest = 0) :
    c.squeezed gaps = x :: (c.advance 1).squeezed gaps := by
  have hafter : (c.advance 1).squeezed gaps
      = squeezeFrom gaps 0 0 (c.offset + x.utf8Size) xs := by
    simp [squeezed, advance, hrest]
  rw [squeezed, hrest, squeezeFrom, hafter]
  rcases h with h | h
  · rw [if_pos h]
  · rw [← hrest, h]
    simp

/-- A gap becomes a blank, or stays as it is. -/
theorem squeezed_skipExtras (h : gaps.inside c.offset = false) (hgap : extrasLength c.rest ≠ 0) :
    c.squeezed gaps = (if gaps.stays c.offset then c.rest.take (extrasLength c.rest) else [' '])
      ++ c.skipExtras.squeezed gaps := by
  rcases hrest : c.rest with _ | ⟨x, xs⟩
  · rw [hrest] at hgap
    exact absurd rfl hgap
  · rcases Nat.exists_eq_succ_of_ne_zero hgap with ⟨n, hn⟩
    have hafter : c.skipExtras.squeezed gaps
        = squeezeFrom gaps 0 0 (c.offset + x.utf8Size + byteLength (xs.take n)) (xs.drop n) := by
      rw [skipExtras, hn]
      simp [squeezed, advance, hrest, Nat.add_assoc]
    rw [hafter, squeezed, hrest, squeezeFrom, h, if_neg (by decide), ← hrest, hn]
    dsimp only
    split
    · rw [squeezeFrom_copies, hrest, List.take_succ_cons]
      rfl
    · rw [squeezeFrom_skips]
      rfl

theorem Verbatim.mono {m n : Nat} (h : c.Verbatim gaps n) (hle : m ≤ n) :
    c.Verbatim gaps m :=
  fun i hi => h i (Nat.lt_of_lt_of_le hi hle)

theorem Verbatim.advance {m n : Nat} (h : c.Verbatim gaps (m + n)) :
    (c.advance m).Verbatim gaps n := by
  intro i hi
  rw [advance_advance]
  exact h (m + i) (Nat.add_lt_add_left hi m)

/-- What is copied stands in the squeezed source as it stood. -/
theorem squeezed_of_verbatim {n : Nat} (h : c.Verbatim gaps n) :
    c.squeezed gaps = c.rest.take n ++ (c.advance n).squeezed gaps := by
  induction n generalizing c with
  | zero => simp
  | succ n ih =>
      rcases hrest : c.rest with _ | ⟨x, xs⟩
      · rw [squeezed_of_nil hrest, squeezed_of_nil (by simp [Cursor.advance, hrest])]
        rfl
      · have hfirst := h 0 (Nat.succ_pos n)
        rw [advance_zero] at hfirst
        rw [Nat.add_comm] at h
        have hxs : (c.advance 1).rest = xs := by simp [Cursor.advance, hrest]
        rw [squeezed_cons hrest hfirst, ih h.advance, advance_advance, hxs, Nat.add_comm 1 n]
        rfl

end Cursor

/-! ## Texts that start alike -/

/-- The second text starts as the first, up to where it has a blank and the first a gap. -/
inductive Spaced : List Char → List Char → Prop
  | nil : Spaced [] []
  | gap {cs : List Char} (ds : List Char) (h : extrasLength cs ≠ 0) : Spaced cs (' ' :: ds)
  | cons (c : Char) {cs ds : List Char} (h : Spaced cs ds) : Spaced (c :: cs) (c :: ds)

theorem spaced_squeezeFrom (gaps : Gaps) (copies offset : Nat) (cs : List Char) :
    Spaced cs (squeezeFrom gaps copies 0 offset cs) := by
  induction cs generalizing copies offset with
  | nil => exact .nil
  | cons c cs ih =>
      cases copies with
      | succ copies => exact .cons c (ih copies _)
      | zero =>
          rw [squeezeFrom]
          split
          · exact .cons c (ih 0 _)
          · split
            · exact .cons c (ih 0 _)
            · next further heq =>
                split
                · exact .cons c (ih further _)
                · exact .gap _ (by rw [heq]; exact Nat.succ_ne_zero _)

/-- Squeezing leaves the start of a text alone, up to a gap. -/
theorem Cursor.spaced_squeezed (gaps : Gaps) (c : Cursor) :
    Spaced c.rest (c.squeezed gaps) :=
  spaced_squeezeFrom gaps 0 c.offset c.rest

/-- A character that no gap starts with. -/
def Character.isSolid (c : Char) : Bool :=
  !([' ', '\t', '\r', '#', '\\'].contains c)

theorem not_isSolid_iff {c : Char} : Character.isSolid c = false ↔
    c = ' ' ∨ c = '\t' ∨ c = '\r' ∨ c = '#' ∨ c = '\\' := by
  rw [Character.isSolid, Bool.not_eq_false', List.contains_iff_mem]
  simp

theorem not_isSolid_of_extras {c : Char} {cs : List Char} (h : extrasLength (c :: cs) ≠ 0) :
    Character.isSolid c = false := by
  cases hc : Character.isSolid c with
  | false => rfl
  | true =>
      refine absurd (extrasLength_eq_zero.2 ⟨⟨?_, ?_, ?_, ?_⟩, ?_⟩) h
      all_goals
        rintro rfl
        cases hc

/-- The characters of names and numbers are solid. -/
theorem isSolid_of_isNamePart {c : Char} (h : Character.isNamePart c = true) :
    Character.isSolid c = true := by
  cases hc : Character.isSolid c with
  | true => rfl
  | false =>
      rcases not_isSolid_iff.1 hc with rfl | rfl | rfl | rfl | rfl <;> cases h

/-- Solid characters are copied. -/
theorem Cursor.verbatim_of_solid {gaps : Gaps} {c : Cursor} {n : Nat}
    (h : ∀ x ∈ c.rest.take n, Character.isSolid x = true) : c.Verbatim gaps n := by
  intro i hi
  refine .inr ?_
  change extrasLength (c.rest.drop i) = 0
  rcases hrest : c.rest.drop i with _ | ⟨x, xs⟩
  · rfl
  · refine Decidable.byContradiction fun hgap => ?_
    have hx : x ∈ c.rest.take n := by
      have hget : c.rest[i]? = some x := by
        rw [← List.head?_drop, hrest]
        rfl
      exact List.mem_of_getElem? (by rw [List.getElem?_take_of_lt hi, hget])
    have hsolid := h x hx
    rw [not_isSolid_of_extras hgap] at hsolid
    cases hsolid

/-- A class of solid characters is false of the start of a gap and of its blank. -/
theorem eq_false_of_not_isSolid {p : Char → Bool}
    (hp : ∀ c, p c = true → Character.isSolid c = true) {c : Char}
    (hc : Character.isSolid c = false) : p c = false := by
  cases h : p c with
  | false => rfl
  | true => rw [hp c h] at hc; cases hc

namespace Spaced

variable {cs ds : List Char}

/-- Both texts are at their end, or a gap has its blank, or they start alike. -/
theorem front (h : Spaced cs ds) : (cs = [] ∧ ds = []) ∨
    (∃ d cs' ds', cs = d :: cs' ∧ ds = ' ' :: ds' ∧ Character.isSolid d = false) ∨
      ∃ c cs' ds', cs = c :: cs' ∧ ds = c :: ds' ∧ Spaced cs' ds' := by
  cases h with
  | nil => exact .inl ⟨rfl, rfl⟩
  | gap ds h =>
      cases cs with
      | nil => exact absurd rfl h
      | cons d cs => exact .inr (.inl ⟨d, cs, ds, rfl, rfl, not_isSolid_of_extras h⟩)
  | cons c h => exact .inr (.inr ⟨c, _, _, rfl, rfl, h⟩)

theorem append (h : Spaced cs ds) (x : List Char) : Spaced (x ++ cs) (x ++ ds) := by
  induction x with
  | nil => exact h
  | cons c x ih => exact .cons c ih

/-- A solid character stands at the front of both texts or of none. -/
theorem head?_eq_some_iff {c : Char} (h : Spaced cs ds) (hc : Character.isSolid c = true) :
    ds.head? = some c ↔ cs.head? = some c := by
  rcases h.front with ⟨rfl, rfl⟩ | ⟨d, cs, ds, rfl, rfl, hd⟩ | ⟨d, cs, ds, rfl, rfl, h⟩
  · rfl
  · constructor
    all_goals rintro ⟨⟩
    · cases hc
    · rw [hc] at hd
      cases hd
  · rfl

theorem any_head? {p : Char → Bool} (h : Spaced cs ds)
    (hp : ∀ c, p c = true → Character.isSolid c = true) : cs.head?.any p = ds.head?.any p := by
  rcases h.front with ⟨rfl, rfl⟩ | ⟨d, cs, ds, rfl, rfl, hd⟩ | ⟨d, cs, ds, rfl, rfl, h⟩
  · rfl
  · exact (eq_false_of_not_isSolid hp hd).trans (eq_false_of_not_isSolid hp (by rfl)).symm
  · rfl

/-- A run of solid characters is the same in both texts. -/
theorem takeWhile {p : Char → Bool} (h : Spaced cs ds)
    (hp : ∀ c, p c = true → Character.isSolid c = true) : cs.takeWhile p = ds.takeWhile p := by
  induction cs generalizing ds with
  | nil =>
      rcases h.front with ⟨-, rfl⟩ | ⟨_, _, _, ⟨⟩, _⟩ | ⟨_, _, _, ⟨⟩, _⟩
      rfl
  | cons c cs ih =>
      rcases h.front with ⟨⟨⟩, _⟩ | ⟨d, cs, ds, ⟨⟩, rfl, hd⟩ | ⟨d, cs, ds, ⟨⟩, rfl, htail⟩
      · have hc : p c = false := eq_false_of_not_isSolid hp hd
        have hblank : p ' ' = false := eq_false_of_not_isSolid hp (by rfl)
        rw [List.takeWhile_cons_of_neg (by simp [hc]),
          List.takeWhile_cons_of_neg (by simp [hblank])]
      · rw [List.takeWhile_cons, List.takeWhile_cons, ih htail]

/-- Behind solid characters both texts go on alike. -/
theorem drop {n : Nat} (h : Spaced cs ds)
    (hn : ∀ c ∈ cs.take n, Character.isSolid c = true) : Spaced (cs.drop n) (ds.drop n) := by
  induction n generalizing cs ds with
  | zero => exact h
  | succ n ih =>
      rcases h.front with ⟨rfl, rfl⟩ | ⟨d, cs, ds, rfl, rfl, hd⟩ | ⟨c, cs, ds, rfl, rfl, htail⟩
      · exact .nil
      · rw [hn d (by simp)] at hd
        cases hd
      · exact ih htail fun d hd => hn d (by simp [hd])

theorem drop_takeWhile {p : Char → Bool} (h : Spaced cs ds)
    (hp : ∀ c, p c = true → Character.isSolid c = true) :
    Spaced (cs.drop (cs.takeWhile p).length) (ds.drop (cs.takeWhile p).length) := by
  refine h.drop fun c hc => hp c ?_
  rw [← List.prefix_iff_eq_take.1 (List.takeWhile_prefix p)] at hc
  exact List.all_eq_true.1 List.all_takeWhile c hc

/-- A prefix of solid characters is a prefix of both texts or of none. -/
theorem isPrefixOf {x : List Char} (h : Spaced cs ds)
    (hx : ∀ c ∈ x, Character.isSolid c = true) : x.isPrefixOf cs = x.isPrefixOf ds := by
  induction x generalizing cs ds with
  | nil => simp
  | cons a x ih =>
      have ha := hx a (by simp)
      have hne : ∀ d, Character.isSolid d = false → (a == d) = false := by
        intro d hd
        rw [beq_eq_false_iff_ne]
        rintro rfl
        rw [ha] at hd
        cases hd
      rcases h.front with ⟨rfl, rfl⟩ | ⟨d, cs, ds, rfl, rfl, hd⟩ | ⟨c, cs, ds, rfl, rfl, htail⟩
      · rfl
      · simp [List.isPrefixOf, hne d hd, hne ' ' rfl]
      · change (a == c && x.isPrefixOf cs) = (a == c && x.isPrefixOf ds)
        rw [ih htail fun b hb => hx b (by simp [hb])]

end Spaced

end Ysh
