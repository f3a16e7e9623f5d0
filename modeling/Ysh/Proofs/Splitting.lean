import Mathlib.Data.List.Chain
import Ysh.Proofs.Parts
import Ysh.Tree.Printer

/-!
# Splitting Text into Parts

What the text of a word is split into, and why it does not matter where one token of it
ends and the next one begins.

`Splits` says what the parts have to be: printed one behind the other they are the text
again, each of them stands exactly where its own text does, none is empty, and no two
neighbours are bare. Adding a character keeps this, and so does adding a backslash with
the character behind it, so it holds of every text by the induction that follows how
texts are added.

A text may be cut in two and added in two steps, as long as the cut does not separate a
backslash from the character that it takes along. Backslashes pair up from the left, so
the one in front of a cut is unpaired just if an odd number of them stands there.

## Main definitions

* `Tree.isBare`: A part of bare text.
* `Tree.Abut`: Parts one behind the other, each as long as its printed text.
* `Tree.Splits`: What the parts of a text are.
* `Tree.HoldsNoPair`: Parts whose bare text holds no backslash with something behind it.
* `trailingBackslashes`, `SparesPairs`: A cut that goes through no pair.

## Theorems

* `Tree.Splits.pushBare`, `Tree.Splits.pushEscaped`: What one step of a split keeps.
* `Tree.splits_pushText`, `Tree.holdsNoPair_pushText`: What a whole text is split into.
* `Tree.pushText_append`: Two texts, one after the other, are added as one.
* `Tree.pushText_lossless`: The parts of a text, however it is cut.
-/

namespace Ysh

/-! ## Cuts -/

/-- The number of backslashes at the end of a text. -/
def trailingBackslashes (text : List Char) : Nat :=
  (text.reverse.takeWhile (· == '\\')).length

/-- The cut between two texts goes through no pair of a backslash and a character: the
    backslashes in front of it are pairs among themselves, or nothing stands behind it. -/
def SparesPairs (u v : List Char) : Prop :=
  trailingBackslashes u % 2 = 0 ∨ v = []

instance (u v : List Char) : Decidable (SparesPairs u v) :=
  inferInstanceAs (Decidable (_ ∨ _))

theorem trailingBackslashes_le (text : List Char) : trailingBackslashes text ≤ text.length := by
  rw [← List.length_reverse]
  exact (List.takeWhile_sublist _).length_le

/-- A character in front counts if it is a backslash and nothing but backslashes follow. -/
theorem trailingBackslashes_cons (c : Char) (cs : List Char) :
    trailingBackslashes (c :: cs) = trailingBackslashes cs +
      if trailingBackslashes cs = cs.length ∧ c = '\\' then 1 else 0 := by
  unfold trailingBackslashes
  rw [List.reverse_cons, List.takeWhile_append, List.length_reverse]
  by_cases hall : (cs.reverse.takeWhile (· == '\\')).length = cs.length
  · by_cases hc : c = '\\'
    · subst hc
      rw [if_pos hall, if_pos ⟨hall, rfl⟩, List.length_append, List.length_reverse, hall]
      rfl
    · rw [if_pos hall, if_neg fun h => hc h.2, List.takeWhile_cons_of_neg (by simpa using hc),
        List.append_nil, List.length_reverse, hall, Nat.add_zero]
  · rw [if_neg hall, if_neg fun h => hall h.1, Nat.add_zero]

namespace SparesPairs

variable {c : Char} {u v : List Char}

/-- A pair in front of a text pairs nothing in it otherwise. -/
theorem behind_pair (h : SparesPairs ('\\' :: c :: u) v) : SparesPairs u v := by
  refine h.imp_left fun heven => ?_
  have hle := trailingBackslashes_le u
  have hpair := trailingBackslashes_cons '\\' (c :: u)
  have hrest := trailingBackslashes_cons c u
  rw [List.length_cons] at hpair
  by_cases hall : trailingBackslashes u = u.length ∧ c = '\\'
  · rw [if_pos hall] at hrest
    rw [if_pos ⟨by omega, rfl⟩] at hpair
    omega
  · rw [if_neg hall] at hrest
    rw [if_neg fun h => by omega] at hpair
    omega

theorem behind_bare (hc : c ≠ '\\') (h : SparesPairs (c :: u) v) : SparesPairs u v := by
  refine h.imp_left fun heven => ?_
  rwa [trailingBackslashes_cons, if_neg fun hall => hc hall.2, Nat.add_zero] at heven

/-- Behind a backslash alone there is nothing. -/
theorem behind_lone (h : SparesPairs ['\\'] v) : v = [] :=
  h.resolve_left (by decide)

end SparesPairs

namespace Tree

variable {text : List Char} {offset : Nat} {parts : List WordPart}

/-- Texts one after the other are added as one, if the cut between them spares the
    pairs. -/
theorem pushText_append (u v : List Char) (offset : Nat) (parts : List WordPart)
    (hcut : SparesPairs u v) :
    pushText parts (u ++ v) offset = pushText (pushText parts u offset) v (offset + byteLength u) := by
  fun_induction pushText parts u offset with
  | case1 parts offset => rfl
  | case2 parts c cs offset stop ih =>
      rw [List.cons_append, List.cons_append, pushText, ih hcut.behind_pair, byteLength_cons,
        byteLength_cons, ← Nat.add_assoc, ← Nat.add_assoc]
  | case3 parts c cs offset hlone ih =>
      by_cases hc : c = '\\'
      · -- The backslash has nothing behind it in the first text, so the second one is empty.
        subst hc
        cases cs with
        | nil =>
            rw [hcut.behind_lone]
            rfl
        | cons d ds => exact absurd rfl (hlone d ds rfl)
      · rw [List.cons_append, pushText, ih (hcut.behind_bare hc), byteLength_cons,
          ← Nat.add_assoc]
        exact fun _ _ hback _ => hc hback

/-! ## Parts of a text -/

/-- A part of bare text. -/
def isBare : {c : Category} → Tree c → Bool
  | _, bare _ _ => true
  | _, _ => false

/-- From one offset to another the parts stand one behind the other, each as long as its
    printed text. -/
def Abut (start : Nat) : List WordPart → Nat → Prop
  | [], stop => start = stop
  | part :: parts, stop => part.span.start = start ∧
      part.span.stop = start + byteLength part.print.toList ∧ Abut part.span.stop parts stop

/-- The parts are what the text at an offset is split into. -/
structure Splits (text : List Char) (offset : Nat) (parts : List WordPart) : Prop where
  printed : (ofParts parts).print = String.ofList text
  abut : Abut offset parts (offset + byteLength text)
  /-- There is no bare part without text, and an escaped part is one character. -/
  filled : ∀ part ∈ parts, (∃ run span, part = bare run span ∧ run ≠ "") ∨
    ∃ x span, part = escaped (Char.toString x) span
  apart : parts.IsChain fun part next => ¬(part.isBare = true ∧ next.isBare = true)

/-- No bare text of the parts has a backslash with something behind it: a backslash in
    it is the last character of the last part. -/
def HoldsNoPair (parts : List WordPart) : Prop :=
  ∀ run span, bare run span ∈ parts → '\\' ∈ run.toList →
    parts.getLast? = .some (bare run span) ∧ ∃ cs, run.toList = cs ++ ['\\'] ∧ '\\' ∉ cs

theorem abut_append {start stop : Nat} {front back : List WordPart} :
    Abut start (front ++ back) stop ↔ ∃ mid, Abut start front mid ∧ Abut mid back stop := by
  induction front generalizing start with
  | nil => exact ⟨fun h => ⟨start, rfl, h⟩, fun ⟨_, hstart, h⟩ => hstart ▸ h⟩
  | cons part front ih =>
      simp only [List.cons_append, Abut, ih]
      exact ⟨fun ⟨hstart, hstop, mid, hfront, hback⟩ => ⟨mid, ⟨hstart, hstop, hfront⟩, hback⟩,
        fun ⟨mid, ⟨hstart, hstop, hfront⟩, hback⟩ => ⟨hstart, hstop, mid, hfront, hback⟩⟩

theorem abut_singleton {start stop : Nat} {part : WordPart} :
    Abut start [part] stop ↔ part.span.start = start ∧
      part.span.stop = start + byteLength part.print.toList ∧ part.span.stop = stop :=
  Iff.rfl

theorem Abut.touches {start stop : Nat} (h : Abut start parts stop) : Touches parts stop := by
  rintro front run span rfl
  rcases abut_append.1 h with ⟨mid, -, hlast⟩
  exact (abut_singleton.1 hlast).2.2

/-- The text of a word is that of its parts. -/
theorem print_ofParts (parts : List WordPart) :
    (ofParts parts).print.toList = parts.flatMap (·.print.toList) := by
  change ((ofList parts).write 0 "").toList = _
  induction parts with
  | nil => rfl
  | cons part parts ih =>
      have hcons : (ofList (part :: parts)).write 0 "" = part.print ++ (ofList parts).write 0 "" := by
        cases parts with
        | nil => exact String.append_empty.symm
        | cons next parts =>
            change part.print ++ "" ++ _ = _
            rw [String.append_empty]
      rw [hcons, String.toList_append, ih, List.flatMap_cons]

namespace Splits

theorem print_eq (h : Splits text offset parts) : parts.flatMap (·.print.toList) = text := by
  rw [← print_ofParts, h.printed, String.toList_ofList]

theorem nil (offset : Nat) : Splits [] offset [] where
  printed := rfl
  abut := rfl
  filled := fun _ h => absurd h List.not_mem_nil
  apart := .nil

/-- A part more, right behind the others. -/
theorem append {part : WordPart} {more : List Char} (h : Splits text offset parts)
    (hprint : part.print.toList = more)
    (hspan : part.span = .between (offset + byteLength text)
      (offset + byteLength text + byteLength more))
    (hfilled : (∃ run span, part = bare run span ∧ run ≠ "") ∨
      ∃ x span, part = escaped (Char.toString x) span)
    (hapart : ∀ last ∈ parts.getLast?, ¬(last.isBare = true ∧ part.isBare = true)) :
    Splits (text ++ more) offset (parts ++ [part]) where
  printed := by
    rw [← String.toList_inj, print_ofParts, List.flatMap_append, h.print_eq, String.toList_ofList,
      List.flatMap_singleton, hprint]
  abut := by
    refine abut_append.2 ⟨_, h.abut, abut_singleton.2 ?_⟩
    rw [hspan, hprint, byteLength_append, ← Nat.add_assoc]
    exact ⟨Nat.min_eq_left (Nat.le_add_right _ _), Nat.max_eq_right (Nat.le_add_right _ _),
      Nat.max_eq_right (Nat.le_add_right _ _)⟩
  filled := by
    intro p hp
    rcases List.mem_append.1 hp with hp | hp
    · exact h.filled p hp
    · exact List.mem_singleton.1 hp ▸ hfilled
  apart := by
    refine List.isChain_append.2 ⟨h.apart, .singleton part, fun last hlast next hnext => ?_⟩
    cases hnext
    exact hapart last hlast

/-- The last part may grow by a character, if it is bare. -/
theorem extend {front : List WordPart} {run : String} {span : Span} (x : Char)
    (h : Splits text offset (front ++ [bare run span])) :
    Splits (text ++ [x]) offset
      (front ++ [bare (run.push x) (span.upTo (offset + byteLength text + x.utf8Size))]) := by
  rcases abut_append.1 h.abut with ⟨mid, hfront, hrun⟩
  rcases abut_singleton.1 hrun with ⟨hstart, hlength, hstop⟩
  have hprint := h.print_eq
  have hapart := List.isChain_append.1 h.apart
  have hle := span.start_le_stop
  refine ⟨?_, ?_, fun part hpart => ?_, ?_⟩
  · rw [← String.toList_inj, print_ofParts, String.toList_ofList, ← hprint, List.flatMap_append,
      List.flatMap_append, List.append_assoc, List.flatMap_singleton, List.flatMap_singleton]
    exact congrArg _ (String.toList_push x)
  · change span.start = mid at hstart
    change span.stop = mid + byteLength run.toList at hlength
    change span.stop = offset + byteLength text at hstop
    have hstart' : (span.upTo (offset + byteLength text + x.utf8Size)).start = mid :=
      hstart ▸ Nat.min_eq_left (by omega)
    have hstop' : (span.upTo (offset + byteLength text + x.utf8Size)).stop
        = offset + byteLength text + x.utf8Size := Nat.max_eq_right (by omega)
    have hrun' : byteLength (run.push x).toList = byteLength run.toList + x.utf8Size := by
      rw [String.toList_push, byteLength_append, byteLength_cons, byteLength_nil, Nat.add_zero]
    refine abut_append.2 ⟨mid, hfront, abut_singleton.2 ⟨hstart', ?_, ?_⟩⟩
    · change (span.upTo _).stop = mid + byteLength (run.push x).toList
      omega
    · change (span.upTo _).stop = _
      rw [hstop', byteLength_append, byteLength_cons, byteLength_nil, Nat.add_zero, Nat.add_assoc]
  · rcases List.mem_append.1 hpart with hpart | hpart
    · exact h.filled part (List.mem_append_left _ hpart)
    · cases List.mem_singleton.1 hpart
      exact .inl ⟨_, _, rfl, fun hnil => by simpa using congrArg String.toList hnil⟩
  · exact List.isChain_append.2 ⟨hapart.1, .singleton _, fun last hlast next hnext => by
      cases hnext
      exact hapart.2.2 last hlast (bare run span) rfl⟩

/-- A character more of bare text. -/
theorem pushBare (x : Char) (h : Splits text offset parts) :
    Splits (text ++ [x]) offset (pushBare x (offset + byteLength text) parts) := by
  rcases pushBare_touching x _ parts h.abut.touches with ⟨front, run, span, rfl, heq⟩ | ⟨hlast, heq⟩
  · rw [heq]
    exact h.extend x
  · rw [heq]
    refine h.append (by simp [print, write, Char.toString]) (by simp [span]) ?_ ?_
    · exact .inl ⟨_, _, rfl, by simp [Char.toString]⟩
    · rintro last hmem ⟨hbare, -⟩
      rcases List.getLast?_eq_some_iff.1 hmem with ⟨front, rfl⟩
      cases last with
      | bare run span => exact hlast front run span rfl
      | _ => cases hbare

/-- A backslash more with the character behind it. -/
theorem pushEscaped (x : Char) (h : Splits text offset parts) :
    Splits (text ++ ['\\', x]) offset (parts ++ [escaped x.toString
      (.between (offset + byteLength text) (offset + byteLength text + '\\'.utf8Size + x.utf8Size))]) := by
  refine h.append (by simp [print, write, Char.toString]) ?_ (.inr ⟨x, _, rfl⟩) ?_
  · simp [span, Nat.add_assoc]
  · exact fun last _ hbare => by cases hbare.2

end Splits

/-- A whole text is split as every step splits it. -/
theorem splits_pushText (text : List Char) (offset : Nat) :
    Splits text offset (pushText [] text offset) := by
  have hsteps : ∃ front, text = front ++ [] ∧ offset + byteLength text = offset + byteLength front ∧
      Splits front offset (pushText [] text offset) := by
    refine pushText_induction (I := fun rest stop parts => ∃ front, text = front ++ rest ∧
      stop = offset + byteLength front ∧ Splits front offset parts) ?_ ?_ ⟨[], rfl, rfl, .nil offset⟩
    · rintro x xs stop parts ⟨front, htext, rfl, hfront⟩
      refine ⟨front ++ [x], by rw [htext, List.append_assoc]; rfl, ?_, hfront.pushBare x⟩
      simp [Nat.add_assoc]
    · rintro x xs stop parts ⟨front, htext, rfl, hfront⟩
      refine ⟨front ++ ['\\', x], by rw [htext, List.append_assoc]; rfl, ?_, hfront.pushEscaped x⟩
      simp [Nat.add_assoc]
  rcases hsteps with ⟨front, htext, -, hsplits⟩
  rwa [htext, List.append_nil] at hsplits ⊢

/-- A character of bare text comes into the last part alone. -/
theorem bare_mem_pushBare {x : Char} {run : String} {span : Span}
    (h : bare run span ∈ pushBare x offset parts) : bare run span ∈ parts ∨
      (pushBare x offset parts).getLast? = .some (bare run span) ∧ (run.toList = [x] ∨
        ∃ run' span', bare run' span' ∈ parts ∧ run.toList = run'.toList ++ [x]) := by
  rcases pushBare_eq x offset parts with ⟨front, run', span', rfl, -, heq⟩ | heq
  · rw [heq] at h ⊢
    rcases List.mem_append.1 h with h | h
    · exact .inl (List.mem_append_left _ h)
    · cases List.mem_singleton.1 h
      exact .inr ⟨List.getLast?_concat, .inr ⟨run', span', by simp, String.toList_push x⟩⟩
  · rw [heq] at h ⊢
    rcases List.mem_append.1 h with h | h
    · exact .inl h
    · cases List.mem_singleton.1 h
      exact .inr ⟨List.getLast?_concat, .inl (by simp [Char.toString])⟩

/-- Where a text is added behind bare text without backslashes, the pairs become parts of
    their own. -/
theorem holdsNoPair_pushText (text : List Char) (offset : Nat) (parts : List WordPart)
    (hclean : ∀ run span, bare run span ∈ parts → '\\' ∉ run.toList) :
    HoldsNoPair (pushText parts text offset) := by
  fun_induction pushText parts text offset with
  | case1 parts offset => exact fun run span hmem hback => absurd hback (hclean run span hmem)
  | case2 parts c cs offset stop ih =>
      refine ih fun run span hmem => ?_
      rcases List.mem_append.1 hmem with hmem | hmem
      · exact hclean run span hmem
      · cases List.mem_singleton.1 hmem
  | case3 parts c cs offset hlone ih =>
      by_cases hc : c = '\\'
      · -- The backslash is the last character of all.
        subst hc
        cases cs with
        | cons d ds => exact absurd rfl (hlone d ds rfl)
        | nil =>
            intro run span hmem hback
            rcases bare_mem_pushBare hmem with hmem | ⟨hlast, hrun | ⟨run', span', hmem', hrun⟩⟩
            · exact absurd hback (hclean run span hmem)
            · exact ⟨hlast, [], hrun, List.not_mem_nil⟩
            · exact ⟨hlast, run'.toList, hrun, hclean run' span' hmem'⟩
      · refine ih fun run span hmem => ?_
        rcases bare_mem_pushBare hmem with hmem | ⟨-, hrun | ⟨run', span', hmem', hrun⟩⟩
        · exact hclean run span hmem
        · rw [hrun]
          exact fun hback => hc (List.mem_singleton.1 hback).symm
        · rw [hrun]
          intro hback
          rcases List.mem_append.1 hback with hback | hback
          · exact hclean run' span' hmem' hback
          · exact hc (List.mem_singleton.1 hback).symm

/-- A text is split into parts that are the text when they are printed, stand one behind the
    other in its place, and have bare text between the pairs of a backslash and a
    character. Cutting the text anywhere but inside of a pair, as tokens do, makes no
    difference. -/
theorem pushText_lossless (text : List Char) (offset : Nat) :
    Splits text offset (pushText [] text offset) ∧ HoldsNoPair (pushText [] text offset) ∧
      ∀ u v, text = u ++ v → SparesPairs u v →
        pushText (pushText [] u offset) v (offset + byteLength u) = pushText [] text offset := by
  refine ⟨splits_pushText text offset, holdsNoPair_pushText text offset [] ?_, ?_⟩
  · exact fun _ _ hmem => absurd hmem List.not_mem_nil
  · rintro u v rfl hcut
    exact (pushText_append u v offset [] hcut).symm

/-- The text `a\\b\ c\`, cut behind the pair of backslashes. -/
theorem pushText_lossless_behind_pair :
    SparesPairs ['a', '\\', '\\'] ['b', '\\', ' ', 'c', '\\'] ∧
      pushText (pushText [] ['a', '\\', '\\'] 5) ['b', '\\', ' ', 'c', '\\'] 8 =
        pushText [] ['a', '\\', '\\', 'b', '\\', ' ', 'c', '\\'] 5 :=
  ⟨by decide, (pushText_lossless _ 5).2.2 _ _ rfl (by decide)⟩

/-- Between a backslash and its character a cut does make a difference. -/
example : ¬SparesPairs ['\\'] ['a'] ∧
    (ofParts (pushText (pushText [] ['\\'] 0) ['a'] 1)).bareText? = .some "\\a" ∧
    (ofParts (pushText [] ['\\', 'a'] 0)).bareText? = .none := by
  decide

end Tree

end Ysh
