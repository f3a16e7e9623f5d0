import Mathlib.Data.Nat.Digits.Defs
import Mathlib.Tactic.Ring
import Ysh.Proofs.Growth
import Ysh.Proofs.Lexing.Number

/-!
# What Integers Stand For

An integer is worth what its digits say by their places, each a power of the base. Behind
the radix mark there are digits of the radix and underscores, so once the underscores are
gone, no digit is too large for the base, and no sign is in front. That a digit is left at
all is another matter: behind a radix mark there may be nothing but underscores. Then the
integer has no value, like one that is too large for 64 bits.

## Main definitions

* `Character.digit`: The value of a digit.
* `Numeral.digits`: The digits of an integer, without underscores and radix mark.
* `Numeral.positional`: The number that digits stand for, in the base.
* `Numeral.StandsForInteger`: An integer is worth what its digits say.

## Theorems

* `Numeral.Spelled.standsForInteger`: A number of which the text says that it is an
  integer has the value of its digits.
* `parse_integers_valued`: So has every integer of a program.
-/

namespace Ysh

/-! ## Digits -/

/-- The value of a digit, by its place among the sixteen. A letter is the same digit in
    upper case. -/
def Character.digit (c : Char) : Nat :=
  "0123456789abcdef".toList.idxOf c.toLower

namespace Character

theorem mem_of_isHexDigit {c : Char} (h : isHexDigit c = true) :
    c ∈ "0123456789abcdefABCDEF".toList := by
  have hmem : ∀ n < 128, (48 ≤ n ∧ n ≤ 57) ∨ (97 ≤ n ∧ n ≤ 102) ∨ (65 ≤ n ∧ n ≤ 70) →
      Char.ofNat n ∈ "0123456789abcdefABCDEF".toList := by decide
  have hrange := isHexDigit_iff.1 h
  have hc := hmem c.toNat (by omega) hrange
  rwa [Char.ofNat_toNat] at hc

theorem isHexDigit_of_isDigit {radix : Radix} {c : Char} (h : radix.isDigit c = true) :
    isHexDigit c = true := by
  cases radix with
  | decimal => exact isHexDigit_iff.2 (.inl (isDigit_iff.1 h))
  | hex => exact h
  | octal =>
      have hrange := isOctalDigit_iff.1 h
      exact isHexDigit_iff.2 (.inl (by omega))
  | binary =>
      simp only [Radix.isDigit, isBinaryDigit, Bool.or_eq_true, beq_iff_eq] at h
      rcases h with rfl | rfl <;> rfl

/-- A digit of a radix is less than its base, and counts for what it is. -/
theorem digit_of_isDigit {radix : Radix} {c : Char} (h : radix.isDigit c = true) :
    digit c < radix.base ∧ Numeral.digitValue? radix.base c = some (digit c) := by
  have hall : ("0123456789abcdefABCDEF".toList.all fun c => !radix.isDigit c ||
      (digit c < radix.base && Numeral.digitValue? radix.base c == some (digit c))) = true := by
    cases radix <;> decide
  have hc := List.all_eq_true.1 hall c (mem_of_isHexDigit (isHexDigit_of_isDigit h))
  simpa [h] using hc

end Character

namespace Numeral

/-- The number that digits stand for, each worth a power of the base by its place. -/
def positional (base : Nat) (ds : List Char) : Nat :=
  Nat.ofDigits base (ds.reverse.map Character.digit)

theorem positional_cons (base : Nat) (c : Char) (cs : List Char) :
    positional base (c :: cs) = Character.digit c * base ^ cs.length + positional base cs := by
  unfold positional
  rw [List.reverse_cons, List.map_append, Nat.ofDigits_append, List.length_map,
    List.length_reverse, List.map_singleton, Nat.ofDigits_singleton]
  ring

section

variable {radix : Radix} {ds : List Char}

theorem digitsValueFrom?_eq (h : ∀ c ∈ ds, radix.isDigit c = true) (value : Nat) :
    digitsValueFrom? radix.base value ds
      = some (value * radix.base ^ ds.length + positional radix.base ds) := by
  induction ds generalizing value with
  | nil => simp [digitsValueFrom?, positional]
  | cons c cs ih =>
      rcases List.forall_mem_cons.1 h with ⟨hc, hcs⟩
      rw [digitsValueFrom?, (Character.digit_of_isDigit hc).2]
      change digitsValueFrom? radix.base (value * radix.base + Character.digit c) cs = _
      rw [ih hcs, positional_cons, List.length_cons]
      congr 1
      ring

/-- Digits have no sign in front, so their value is theirs. It has to fit. -/
theorem integer?_eq (h : ∀ c ∈ ds, radix.isDigit c = true) :
    integer? radix.base ds = if ds ≠ [] ∧ positional radix.base ds ≤ 2 ^ 63 - 1
      then some (positional radix.base ds : Int) else none := by
  have hvalue := digitsValueFrom?_eq h 0
  rw [Nat.zero_mul, Nat.zero_add] at hvalue
  have hfits : ∀ v : Nat, fitsWord v = true ↔ v ≤ 2 ^ 63 - 1 := by
    intro v
    have hmin : Int64.minValue.toInt = -(2 ^ 63) := by decide
    have hmax : Int64.maxValue.toInt = 2 ^ 63 - 1 := by decide
    rw [fitsWord, Bool.and_eq_true, decide_eq_true_eq, decide_eq_true_eq, hmin, hmax]
    omega
  have hsign : ∀ s, s = '-' ∨ s = '+' → ∀ cs, ds ≠ s :: cs := by
    rintro s hs cs rfl
    have hhex := Character.isHexDigit_of_isDigit (h s List.mem_cons_self)
    rcases hs with rfl | rfl <;> exact absurd hhex (by decide)
  unfold integer?
  split
  · exact absurd rfl (hsign _ (.inl rfl) _)
  · exact absurd rfl (hsign _ (.inr rfl) _)
  · unfold digitsValue?
    rcases ds with _ | ⟨c, cs⟩
    · simp
    · rw [List.isEmpty_cons, if_neg (by decide), hvalue]
      by_cases hle : positional radix.base (c :: cs) ≤ 2 ^ 63 - 1
      · rw [if_pos ⟨List.cons_ne_nil _ _, hle⟩]
        exact Option.filter_some_pos ((hfits _).2 hle)
      · rw [if_neg fun hand => hle hand.2]
        exact Option.filter_some_neg (Bool.eq_false_iff.2 fun hfit => hle ((hfits _).1 hfit))

end

/-! ## The value of an integer -/

/-- The digits of an integer: its text without the radix mark and the underscores. -/
def digits (n : Numeral) : List Char :=
  (if n.radix = .decimal then n.raw.toList else n.raw.toList.drop 2).filter (· != '_')

/-- An integer is worth what its digits say, if there are any and the number fits in 64
    bits. -/
structure StandsForInteger (n : Numeral) : Prop where
  digits_lt : ∀ c ∈ n.digits, Character.digit c < n.radix.base
  value : n.value? = if n.digits ≠ [] ∧ positional n.radix.base n.digits ≤ 2 ^ 63 - 1
    then some (positional n.radix.base n.digits : Int) else none
  /-- Without digits there is a radix mark, and only underscores stand behind it. -/
  bare : n.digits = [] → n.radix ≠ .decimal ∧
    n.raw.toList.drop 2 ≠ [] ∧ ∀ c ∈ n.raw.toList.drop 2, c = '_'

theorem isDigit_of_mem_filter {radix : Radix} {cs : List Char}
    (h : ∀ c ∈ cs, radix.isDigit c = true ∨ c = '_') :
    ∀ c ∈ cs.filter (· != '_'), radix.isDigit c = true := by
  intro c hc
  rcases List.mem_filter.1 hc with ⟨hmem, hne⟩
  exact (h c hmem).resolve_right (by simpa using hne)

section

variable {n : Numeral} {mark ds : List Char}

theorem value?_of_decimal (hint : n.isFloat = false) (hradix : n.radix = .decimal) :
    n.value? = integer? n.radix.base (n.raw.toList.filter (· != '_')) := by
  unfold value?
  rw [hint, hradix]
  rfl

theorem value?_of_mark (hint : n.isFloat = false) (hradix : n.radix ≠ .decimal)
    (hsplit : splitAtByte? 2 (n.raw.toList.filter (· != '_')) = some (mark, ds)) :
    n.value? = integer? n.radix.base ds := by
  unfold value?
  dsimp only
  rw [hint, hsplit]
  cases hr : n.radix with
  | decimal => exact absurd hr hradix
  | _ => rfl

end

theorem Spelled.standsForInteger {n : Numeral} (h : n.Spelled) (hint : n.isFloat = false) :
    n.StandsForInteger := by
  rcases h.integer_cases hint with
    ⟨hradix, ⟨c, cs, hraw, hc⟩, hchars⟩ | ⟨hradix, letter, rest, hletter, hraw, hrest, hchars⟩
  · have hdigits : n.digits = n.raw.toList.filter (· != '_') := by
      rw [digits, if_pos hradix]
    have hall := isDigit_of_mem_filter hchars
    rw [← hdigits] at hall
    refine ⟨fun c hc => (Character.digit_of_isDigit (hall c hc)).1, ?_, fun hnil => ?_⟩
    · rw [← integer?_eq hall, value?_of_decimal hint hradix, hdigits]
    · rw [hdigits, hraw, List.filter_cons_of_pos] at hnil
      · cases hnil
      · rw [bne_iff_ne]
        rintro rfl
        cases hc
  · have hdigits : n.digits = rest.filter (· != '_') := by
      rw [digits, if_neg hradix, hraw]
      rfl
    have hall := isDigit_of_mem_filter hchars
    rw [← hdigits] at hall
    have hsplit : splitAtByte? 2 (n.raw.toList.filter (· != '_'))
        = some (['0', letter], n.digits) := by
      rw [hraw, hdigits]
      have hall : (['x', 'X', 'o', 'O', 'b', 'B'].all fun mark =>
          mark != '_' && mark.utf8Size == 1) = true := by decide
      have hmark := List.all_eq_true.1 hall letter hletter
      rw [Bool.and_eq_true, beq_iff_eq] at hmark
      have hzero : '0'.utf8Size = 1 := rfl
      rw [List.filter_cons_of_pos rfl, List.filter_cons_of_pos (p := (· != '_')) hmark.1]
      simp [splitAtByte?, hzero, hmark.2]
    refine ⟨fun c hc => (Character.digit_of_isDigit (hall c hc)).1, ?_, fun hnil => ?_⟩
    · rw [← integer?_eq hall, value?_of_mark hint hradix hsplit]
    · rw [hraw]
      refine ⟨hradix, hrest, fun c hc => ?_⟩
      rw [hdigits, List.filter_eq_nil_iff] at hnil
      simpa using hnil c hc

end Numeral

/-! ## The integers of a program -/

/-- The number that a node is. -/
def Tree.numeral? : {c : Category} → Tree c → Option Numeral
  | _, number n => Option.some n
  | _, _ => Option.none

/-- The numbers of a program, wherever they stand. -/
def Program.numerals (program : Program) : List Numeral :=
  program.nodes.filterMap fun node => node.tree.numeral?

theorem Grown.numerals_spelled {soil : Soil} {n : Nat} {d : Option Definition} {c : Category}
    {t : Tree c} (h : Grown soil n d t) :
    ∀ node ∈ t.nodes, ∀ numeral ∈ node.tree.numeral?, numeral.Spelled := by
  induction h with
  | number hspelled =>
      refine List.forall_mem_singleton.2 fun numeral hnumeral => ?_
      cases hnumeral
      exact hspelled
  | _ =>
      repeat' first
        | assumption
        | exact List.forall_mem_nil _
        | refine List.forall_mem_cons.2 ⟨nofun, ?_⟩
        | refine List.forall_mem_append.2 ⟨?_, ?_⟩

/-- Every integer of a program is worth what its digits say, in trees with errors as well.
    It has no value if it is too large, or if it has no digits. -/
theorem parse_integers_valued (limits : Limits) (source : String) :
    ∀ n ∈ (parse limits source).program.numerals, n.isFloat = false → n.StandsForInteger := by
  rcases grown_parse limits source with ⟨faulty, hgrown⟩
  intro n hn hint
  rcases List.mem_filterMap.1 hn with ⟨node, hnode, hnumeral⟩
  exact (hgrown.numerals_spelled node hnode n hnumeral).standsForInteger hint

/-- Letters in either case are digits, and behind a radix mark an `e` is one of them. -/
theorem integers_valued_of_hex :
    ∃ n ∈ (parse {} "echo 007; var x = 0X1e_F\n").program.numerals, n.raw = "0X1e_F" ∧
      n.isFloat = false ∧ n.StandsForInteger ∧ n.value? = some 495 := by
  have hfound : ((parse {} "echo 007; var x = 0X1e_F\n").program.numerals.any
      fun n => n.raw == "0X1e_F" && !n.isFloat && n.value? == some 495) = true := by
    decide +kernel
  rcases List.any_eq_true.1 hfound with ⟨n, hn, h⟩
  simp only [Bool.and_eq_true, beq_iff_eq, Bool.not_eq_true'] at h
  exact ⟨n, hn, h.1.1, h.1.2, parse_integers_valued {} _ n hn h.1.2, h.2⟩

/-- Behind a radix mark an underscore will do. -/
example : (parse {} "var x = 0x_\n").program.numerals.map Numeral.value? = [none] := by
  decide +kernel

end Ysh
