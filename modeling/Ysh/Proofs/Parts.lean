import Ysh.Grammar.Word

/-!
# Parts of Words

How the text of a token becomes parts of a word. Every character of bare text either
extends the bare part that ends where it stands, or starts one of its own, and a
backslash makes an escaped part with what is behind it. What holds of the parts in
front of a token and is kept by both holds of the parts behind it.

## Theorems

* `Tree.pushBare_eq`: The two ways of adding a character.
* `Tree.pushText_induction`: What adding a text comes to, character by character.
-/

namespace Ysh

namespace Tree

/-- A character extends the last part, or becomes a part of its own. -/
theorem pushBare_eq (x : Char) (offset : Nat) (parts : List WordPart) :
    (∃ front run span, parts = front ++ [bare run span] ∧ span.stop = offset ∧
      pushBare x offset parts =
        front ++ [bare (run.push x) (span.upTo (offset + x.utf8Size))]) ∨
    pushBare x offset parts =
      parts ++ [bare x.toString (.between offset (offset + x.utf8Size))] := by
  fun_induction pushBare x offset parts with
  | case1 => exact .inr rfl
  | case2 run span stop hstop => exact .inl ⟨[], run, span, rfl, hstop, rfl⟩
  | case3 => exact .inr rfl
  | case4 part parts _ ih =>
      rcases ih with ⟨front, run, span, rfl, hstop, heq⟩ | heq
      · exact .inl ⟨part :: front, run, span, rfl, hstop, by rw [heq]; rfl⟩
      · exact .inr (by rw [heq]; rfl)

/-- What is kept by every character that is added, and by every backslash with the
    character behind it, is kept by a text. -/
theorem pushText_induction {I : List Char → Nat → List WordPart → Prop}
    (bare : ∀ x xs offset parts, I (x :: xs) offset parts →
      I xs (offset + x.utf8Size) (pushBare x offset parts))
    (escaped : ∀ x xs offset parts, I ('\\' :: x :: xs) offset parts →
      I xs (offset + '\\'.utf8Size + x.utf8Size) (parts ++ [escaped x.toString
        (.between offset (offset + '\\'.utf8Size + x.utf8Size))]))
    {text : List Char} {offset : Nat} {parts : List WordPart} :
    I text offset parts → I [] (offset + byteLength text) (pushText parts text offset) := by
  fun_induction pushText parts text offset with
  | case1 => exact id
  | case2 parts x xs offset stop ih =>
      intro h
      have hrest := ih (escaped x xs offset parts h)
      rwa [byteLength_cons, byteLength_cons, ← Nat.add_assoc, ← Nat.add_assoc]
  | case3 parts x xs offset _ ih =>
      intro h
      have hrest := ih (bare x xs offset parts h)
      rwa [byteLength_cons, ← Nat.add_assoc]

/-- The bare part at the end of the parts, if there is one, ends at the offset. -/
def Touches (parts : List WordPart) (offset : Nat) : Prop :=
  ∀ front run span, parts = front ++ [bare run span] → span.stop = offset

theorem touches_nil (offset : Nat) : Touches [] offset := by
  intro front run span h
  simp at h

theorem touches_append {parts : List WordPart} {part : WordPart} {offset : Nat}
    (h : ∀ run span, part = bare run span → span.stop = offset) :
    Touches (parts ++ [part]) offset := by
  intro front run span heq
  exact h run span (List.singleton_inj.1 (List.append_inj_right' heq rfl))

/-- Where bare text touches the parts, a character extends the last one if it is bare, and
    is a part of its own if it is not. -/
theorem pushBare_touching (c : Char) (offset : Nat) (parts : List WordPart)
    (h : Touches parts offset) :
    (∃ front run span, parts = front ++ [bare run span] ∧
      pushBare c offset parts = front ++ [bare (run.push c) (span.upTo (offset + c.utf8Size))]) ∨
    ((∀ front run span, parts ≠ front ++ [bare run span]) ∧
      pushBare c offset parts
        = parts ++ [bare c.toString (.between offset (offset + c.utf8Size))]) := by
  fun_induction pushBare c offset parts with
  | case1 => exact .inr ⟨by simp, rfl⟩
  | case2 run span stop hstop => exact .inl ⟨[], run, span, rfl, rfl⟩
  | case3 run span stop hstop => exact absurd (h [] run span rfl) hstop
  | case4 part parts hbare ih =>
      have htail : Touches parts offset := by
        rintro front run span rfl
        exact h (part :: front) run span rfl
      rcases ih htail with ⟨front, run, span, rfl, heq⟩ | ⟨hlast, heq⟩
      · exact .inl ⟨part :: front, run, span, rfl, by rw [heq]; rfl⟩
      · refine .inr ⟨fun front run span hparts => ?_, by rw [heq]; rfl⟩
        cases front with
        | nil =>
            cases hparts
            exact hbare run span rfl rfl
        | cons first front =>
            cases hparts
            exact hlast front run span rfl

theorem touches_pushBare (c : Char) {offset : Nat} {parts : List WordPart}
    (h : Touches parts offset) : Touches (pushBare c offset parts) (offset + c.utf8Size) := by
  have hbetween : ∀ start, start ≤ offset + c.utf8Size →
      (Span.between start (offset + c.utf8Size)).stop = offset + c.utf8Size :=
    fun start hstart => Nat.max_eq_right hstart
  rcases pushBare_touching c offset parts h with ⟨front, run, span, rfl, heq⟩ | ⟨-, heq⟩
  · have hstop := h front run span rfl
    have hle := span.start_le_stop
    rw [heq]
    refine touches_append fun run' span' hbare => ?_
    cases hbare
    exact hbetween _ (by omega)
  · rw [heq]
    refine touches_append fun run' span' hbare => ?_
    cases hbare
    exact hbetween _ (Nat.le_add_right _ _)

theorem touches_pushText (text : List Char) {offset : Nat} {parts : List WordPart}
    (h : Touches parts offset) : Touches (pushText parts text offset) (offset + byteLength text) :=
  pushText_induction (I := fun _ offset parts => Touches parts offset)
    (fun x _ _ _ h => touches_pushBare x h)
    (fun _ _ _ _ _ => touches_append fun _ _ hbare => by cases hbare) h

end Tree

end Ysh
