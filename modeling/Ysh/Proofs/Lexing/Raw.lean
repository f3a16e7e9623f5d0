import Ysh.BracedName
import Ysh.Eggex
import Ysh.Proofs.Lexing.Atom
import Ysh.Tree.Printer

/-!
# Raw Text

The two readers that look at characters without tokens, in front of one rest and of
another. The name between braces ends where no character of a name follows. The body
of a pattern ends at the first slash that no backslash takes along; the printed body
has a blank at both ends, and if the pattern ends in a backslash it takes the blank
along, as it took the blank that was trimmed.

## Main definitions

* `Eggex.isBody`: The text is read as a body up to its end.
* `Eggex.printedBody`: A pattern as it is printed.

## Theorems

* `BracedName.length?_append`: A name in front of what is no part of one.
* `Eggex.isBody_of_closed`: What stands in front of the closing slash is a body.
* `Eggex.isBody_printed`, `Eggex.trim_printed`: The printed body is one, and it is
  the body of the same pattern.
* `Cursor.eggexBody_printed`: A printed pattern is read again.
-/

namespace Ysh

/-! ## Braced names -/

theorem BracedName.length?_append {x rest rest' : List Char}
    (h : length? (x ++ rest) = some x.length) (hrest : ∀ c, rest'.head? = some c →
      Character.isNamePart c = false) : length? (x ++ rest') = some x.length := by
  rcases x with _ | ⟨c, x⟩
  · rcases rest with _ | ⟨d, rest⟩
    · cases h
    · simp only [List.nil_append, length?] at h
      repeat' split at h
      all_goals simp at h
  · simp only [List.cons_append, length?, List.length_cons] at h ⊢
    split at h
    · next hstart =>
        rw [if_pos hstart]
        have hrun : Lexeme.runLength Character.isNamePart (x ++ rest) = x.length := by
          have := Option.some.inj h
          omega
        have hrun' := (runLength_append _ _).2 ⟨((runLength_append _ _).1 hrun).1, hrest⟩
        rw [hrun']
        exact congrArg some (Nat.add_comm _ _)
    · next hstart =>
        rw [if_neg hstart]
        split at h
        · next hdigit =>
            rw [if_pos hdigit]
            have hrun : Lexeme.runLength Char.isDigit (x ++ rest) = x.length := by
              have := Option.some.inj h
              omega
            have hend : ∀ c, rest'.head? = some c → Char.isDigit c = false := fun c hc =>
              Bool.eq_false_iff.2 fun hdigit =>
                Bool.eq_false_iff.1 (hrest c hc) (isNamePart_of_isDigit hdigit)
            have hrun' := (runLength_append _ _).2 ⟨((runLength_append _ _).1 hrun).1, hend⟩
            rw [hrun']
            exact congrArg some (Nat.add_comm _ _)
        · next hdigit =>
            rw [if_neg hdigit]
            exact h

/-! ## Patterns -/

namespace Eggex

/-- The text is read as a body up to its end: no slash closes it before, and no
    backslash takes along what stands behind it. -/
def isBody : List Char → Bool
  | [] => true
  | '/' :: _ => false
  | ['\\'] => false
  | '\\' :: _ :: cs => isBody cs
  | _ :: cs => isBody cs

theorem bodyLength_of_isBody (b r : List Char) (h : isBody b = true) :
    bodyLength (b ++ '/' :: r) = (b.length, true) := by
  fun_induction isBody b with
  | case1 => rfl
  | case2 => cases h
  | case3 => cases h
  | case4 c cs ih =>
      rw [List.cons_append, List.cons_append, bodyLength, ih h]
      rfl
  | case5 c cs hslash hlone hback ih =>
      rcases cs with _ | ⟨d, cs⟩
      · rw [List.cons_append, List.nil_append, bodyLength]
        · rfl
        · exact hslash
        · rintro d ds rfl -
          exact hlone rfl rfl
      · rw [List.cons_append, bodyLength, ih h]
        · rfl
        · exact hslash
        · rintro e es rfl -
          exact hback d cs rfl rfl

theorem isBody_of_closed (cs : List Char) (h : (bodyLength cs).2 = true) :
    ∃ b r, cs = b ++ '/' :: r ∧ isBody b = true ∧ (bodyLength cs).1 = b.length := by
  fun_induction bodyLength cs with
  | case1 => cases h
  | case2 r => exact ⟨[], r, rfl, rfl, rfl⟩
  | case3 c cs n closed hlength ih =>
      rw [hlength] at ih
      rcases ih h with ⟨b, r, rfl, hbody, hn⟩
      exact ⟨'\\' :: c :: b, r, rfl, hbody, by simpa using hn⟩
  | case4 c cs hslash hback n closed hlength ih =>
      rw [hlength] at ih
      rcases ih h with ⟨b, r, rfl, hbody, hn⟩
      refine ⟨c :: b, r, rfl, ?_, by simpa using hn⟩
      rw [isBody]
      · exact hbody
      · exact hslash
      · rintro rfl rfl
        exact hback '/' r rfl rfl
      · rintro d ds rfl rfl
        exact hback d (ds ++ '/' :: r) rfl rfl

theorem isBlank_not {c : Char} (h : Character.isBlank c = true) : c ≠ '/' ∧ c ≠ '\\' := by
  constructor <;> rintro rfl <;> exact absurd h (by decide)

theorem isBody_cons_blank {c : Char} {cs : List Char} (h : Character.isBlank c = true) :
    isBody (c :: cs) = isBody cs := by
  rw [isBody]
  · exact (isBlank_not h).1
  · rintro rfl
    exact absurd rfl (isBlank_not h).2
  · rintro _ _ rfl
    exact absurd rfl (isBlank_not h).2

theorem isBody_dropWhile (b : List Char) :
    isBody (b.dropWhile Character.isBlank) = isBody b := by
  induction b with
  | nil => rfl
  | cons c b ih =>
      rw [List.dropWhile_cons]
      split
      · next hblank => rw [ih, isBody_cons_blank hblank]
      · rfl

/-- Behind the front of a body there may stand a blank. -/
theorem isBody_append_blank (u bs : List Char) (h : isBody (u ++ bs) = true) : isBody (u ++ [' ']) = true := by
  fun_induction isBody u with
  | case1 => rfl
  | case2 => exact h
  | case3 => rfl
  | case4 c cs ih => exact ih h
  | case5 c cs hslash hlone hback ih =>
      have hcons : ∀ bs : List Char, isBody (c :: (cs ++ bs)) = isBody (cs ++ bs) ∨
          (c = '\\' ∧ cs = []) := by
        intro bs
        by_cases hc : c = '\\' ∧ cs = []
        · exact .inr hc
        · refine .inl ?_
          rw [isBody]
          · exact hslash
          · intro hc' hnil
            exact hc ⟨hc', (List.append_eq_nil_iff.1 hnil).1⟩
          · intro d ds hc' hcs
            rcases cs with _ | ⟨e, cs⟩
            · exact hc ⟨hc', rfl⟩
            · exact hback e cs hc' rfl
      rcases hcons bs with hcs | ⟨rfl, rfl⟩
      · rcases hcons [' '] with hcs' | ⟨rfl, rfl⟩
        · rw [List.cons_append, hcs']
          rw [List.cons_append, hcs] at h
          exact ih h
        · exact absurd rfl (hlone rfl)
      · exact absurd rfl (hlone rfl)

theorem trim_append (b : List Char) : ∃ bs, b.dropWhile Character.isBlank = trim b ++ bs := by
  unfold trim
  generalize b.dropWhile Character.isBlank = d
  refine ⟨(d.reverse.takeWhile Character.isBlank).reverse, ?_⟩
  rw [← List.reverse_append, List.takeWhile_append_dropWhile, List.reverse_reverse]

/-- The printed body is a body. -/
theorem isBody_printed {b : List Char} (h : isBody b = true) :
    isBody (' ' :: (trim b ++ [' '])) = true := by
  rcases trim_append b with ⟨bs, hb⟩
  rw [isBody_cons_blank (by decide)]
  rw [← isBody_dropWhile, hb] at h
  exact isBody_append_blank _ bs h

theorem dropWhile_of_head {p : Char → Bool} {cs : List Char}
    (h : ∀ c, cs.head? = some c → p c = false) : cs.dropWhile p = cs := by
  rcases cs with _ | ⟨c, cs⟩
  · rfl
  · rw [List.dropWhile_cons, h c rfl]
    rfl

theorem head?_dropWhile {p : Char → Bool} {cs : List Char} {c : Char}
    (h : (cs.dropWhile p).head? = some c) : p c = false := by
  induction cs with
  | nil => cases h
  | cons d cs ih =>
      rw [List.dropWhile_cons] at h
      split at h
      · exact ih h
      · next hd =>
          cases h
          exact Bool.eq_false_iff.2 hd

/-- The printed body is a body of the same pattern. -/
theorem trim_printed (b : List Char) : trim (' ' :: (trim b ++ [' '])) = trim b := by
  have hlast : ∀ c, (trim b).reverse.head? = some c → Character.isBlank c = false := by
    intro c hc
    unfold trim at hc
    rw [List.reverse_reverse] at hc
    exact head?_dropWhile hc
  have hfirst : ∀ c, (trim b).head? = some c → Character.isBlank c = false := by
    intro c hc
    rcases trim_append b with ⟨bs, hb⟩
    refine @head?_dropWhile _ b _ ?_
    rw [hb, List.head?_append, hc]
    rfl
  generalize trim b = p at hlast hfirst
  unfold trim
  rw [List.dropWhile_cons_of_pos (by decide)]
  rcases p with _ | ⟨c, p⟩
  · rfl
  · have hstart : ∀ d, (c :: p ++ [' ']).head? = some d → Character.isBlank d = false := hfirst
    rw [dropWhile_of_head hstart, List.reverse_append, List.reverse_singleton,
      List.singleton_append, List.dropWhile_cons_of_pos (by decide), dropWhile_of_head hlast,
      List.reverse_reverse]

/-- What is printed of a pattern behind the opening slash. -/
def printedBody (pattern : String) : List Char :=
  ' ' :: (pattern.toList ++ [' ', '/'])

/-- A text that is left of a body when the blanks around it are gone. -/
def IsPattern (pattern : String) : Prop :=
  ∃ b, isBody b = true ∧ pattern = .ofList (trim b)

end Eggex

namespace Cursor

/-- A body in front of a slash is read up to the slash. -/
theorem eggexBody_of_isBody {b : List Char} (h : Eggex.isBody b = true) (rest : List Char)
    (offset : Nat) : eggexBody ⟨b ++ '/' :: rest, offset⟩ =
      ((.ofList (Eggex.trim b), true), ⟨rest, offset + byteLength (b ++ ['/'])⟩) := by
  have htake : (b ++ '/' :: rest).take (b.length + 1) = b ++ ['/'] := by
    rw [List.take_length_add_append]
    rfl
  have hdrop : (b ++ '/' :: rest).drop (b.length + 1) = rest := by
    rw [List.drop_length_add_append]
    rfl
  unfold eggexBody
  rw [Eggex.bodyLength_of_isBody b rest h]
  simp only [if_true, List.take_left' rfl, advance, htake, hdrop]

/-- A closed body is a body in front of its slash. -/
theorem exists_isBody {c : Cursor} (h : c.eggexBody.1.2 = true) :
    ∃ b r, Eggex.isBody b = true ∧ c = ⟨b ++ '/' :: r, c.offset⟩ := by
  rcases Eggex.isBody_of_closed c.rest h with ⟨b, r, hrest, hbody, -⟩
  exact ⟨b, r, hbody, by rw [← hrest]⟩

/-- A pattern that is read is what is left of its body. -/
theorem isPattern_of_eggexBody {c : Cursor} {pattern : String}
    (h : c.eggexBody.1 = (pattern, true)) : Eggex.IsPattern pattern := by
  rcases exists_isBody (congrArg Prod.snd h) with ⟨b, r, hbody, hc⟩
  rw [hc, eggexBody_of_isBody hbody] at h
  exact ⟨b, hbody, (congrArg Prod.fst h).symm⟩

/-- A printed pattern is read up to its slash. -/
theorem eggexBody_of_isPattern {pattern : String} (h : Eggex.IsPattern pattern) (rest : List Char)
    (offset : Nat) : eggexBody ⟨Eggex.printedBody pattern ++ rest, offset⟩ =
      ((pattern, true), ⟨rest, offset + byteLength (Eggex.printedBody pattern)⟩) := by
  rcases h with ⟨b, hbody, rfl⟩
  have hread := eggexBody_of_isBody (Eggex.isBody_printed hbody) rest offset
  rw [Eggex.trim_printed] at hread
  have hfront : ∀ tail : List Char, ' ' :: (Eggex.trim b ++ [' ']) ++ '/' :: tail =
      Eggex.printedBody (.ofList (Eggex.trim b)) ++ tail := fun tail => by
    rw [Eggex.printedBody, String.toList_ofList, List.cons_append, List.cons_append,
      List.append_assoc, List.append_assoc]
    rfl
  rwa [hfront rest, hfront [], List.append_nil] at hread

/-- A pattern is printed behind a slash. -/
theorem toList_writeEggex (e : Eggex) :
    (Tree.writeEggex e).toList = '/' :: Eggex.printedBody e.pattern := by
  unfold Tree.writeEggex
  rw [String.toList_append, String.toList_append, List.append_assoc]
  rfl

/-- A pattern that was read from any body is read again from its printed form, whatever
    follows that. The pattern may end in a backslash, if a blank that it took along was
    trimmed: then it takes along the blank that is printed, which is trimmed again. -/
theorem eggexBody_printed {c : Cursor} {pattern : String} (h : c.eggexBody.1 = (pattern, true))
    (span : Span) :
    (Tree.writeEggex ⟨pattern, span⟩).toList = '/' :: Eggex.printedBody pattern ∧
      ∀ rest offset, eggexBody ⟨Eggex.printedBody pattern ++ rest, offset⟩ =
        ((pattern, true), ⟨rest, offset + byteLength (Eggex.printedBody pattern)⟩) :=
  ⟨toList_writeEggex _, eggexBody_of_isPattern (isPattern_of_eggexBody h)⟩

/-- The blank of the body `a\ ` is trimmed, though a backslash takes it along. -/
theorem eggexBody_printed_of_trimmed_pair :
    (Cursor.ofSource "a\\ /").eggexBody.1 = ("a\\", true) ∧
      eggexBody ⟨[' ', 'a', '\\', ' ', '/', 'x'], 1⟩ = (("a\\", true), ⟨['x'], 6⟩) := by
  have h : (Cursor.ofSource "a\\ /").eggexBody.1 = ("a\\", true) := by decide
  exact ⟨h, (eggexBody_printed h default).2 ['x'] 1⟩

end Cursor

end Ysh
