import Ysh.Proofs.Lexing.Opener
import Ysh.Quoted

/-!
# Pieces of Strings

The pieces of a string body, in front of one rest and of another. A run of text
ends where the closing delimiter, an escape or an expansion starts, and so it looks
at the front of the next piece and no further: at the whole delimiter, at both
characters of an escape, at the `$` of an expansion. When the string is printed
again the next piece has the same front. An escape is complete in itself.

## Main definitions

* `Quoted.IsFront`: The front of what may stand behind a run of text.
* `Quoted.Form.piece`: The piece of a form.

## Theorems

* `Quoted.form_text_of_front`: A run of text stays one in front of a rest with the
  same front.
* `Quoted.form_escape_append`: An escape stays one in front of every rest.
* `Quoted.form_expansion`: An expansion in a double-quoted string is the opener.
* `Cursor.piece_eq`: The next piece is that of the form in front.
-/

namespace Ysh

namespace Quoted

/-- The front of what may stand behind a run of text: the closing delimiter, the
    start of an expansion or a lone `$`, or an escape. -/
def IsFront (style : StringStyle) (triple : Bool) (front : List Char) : Prop :=
  front = style.delimiter triple ∨ front = ['$'] ∨ ∃ c, front = ['\\', c]

section

variable {style : StringStyle} {triple : Bool} {front : List Char}

theorem IsFront.exists_cons (h : IsFront style triple front) : ∃ c cs, front = c :: cs := by
  rcases h with rfl | rfl | ⟨c, rfl⟩
  · cases triple <;> exact ⟨_, _, rfl⟩
  · exact ⟨_, _, rfl⟩
  · exact ⟨_, _, rfl⟩

theorem quote_beq (style : StringStyle) :
    (style.quote == '$') = false ∧ (style.quote == '\\') = false := by
  cases style <;> decide

/-- Whether the delimiter stands in front is a matter of the first characters. -/
theorem isPrefixOf_front (h : IsFront style triple front) (y t t' : List Char) :
    (style.delimiter triple).isPrefixOf (y ++ (front ++ t))
      = (style.delimiter triple).isPrefixOf (y ++ (front ++ t')) := by
  have hbeq := quote_beq style
  rcases h with rfl | rfl | ⟨c, rfl⟩
  · cases triple with
    | false => cases y <;> simp [StringStyle.delimiter, List.isPrefixOf]
    | true =>
        rcases y with _ | ⟨a, _ | ⟨b, _ | ⟨c, y⟩⟩⟩ <;>
          simp [StringStyle.delimiter, List.isPrefixOf]
  · cases triple with
    | false => cases y <;> simp [StringStyle.delimiter, List.isPrefixOf]
    | true =>
        rcases y with _ | ⟨a, _ | ⟨b, _ | ⟨c, y⟩⟩⟩ <;>
          simp [StringStyle.delimiter, List.isPrefixOf, hbeq.1]
  · cases triple with
    | false => cases y <;> simp [StringStyle.delimiter, List.isPrefixOf]
    | true =>
        rcases y with _ | ⟨a, _ | ⟨b, _ | ⟨c, y⟩⟩⟩ <;>
          simp [StringStyle.delimiter, List.isPrefixOf, hbeq.2]

theorem head?_front (h : IsFront style triple front) (y t t' : List Char) :
    (y ++ (front ++ t)).head? = (y ++ (front ++ t')).head? := by
  rcases h.exists_cons with ⟨c, cs, rfl⟩
  cases y <;> rfl

theorem startsEscape_front (h : IsFront style triple front) (y t t' : List Char) :
    startsEscape (y ++ (front ++ t)) = startsEscape (y ++ (front ++ t')) := by
  have hfront : startsEscape (front ++ t) = startsEscape (front ++ t') := by
    rcases h with rfl | rfl | ⟨c, rfl⟩
    · cases style <;> cases triple <;> rfl
    · rfl
    · rfl
  rcases h.exists_cons with ⟨c, cs, rfl⟩
  match y with
  | [] => exact hfront
  | [a] =>
      by_cases ha : a = '\\'
      · subst ha
        rfl
      · unfold startsEscape
        simp [ha]
  | a :: b :: y =>
      by_cases ha : a = '\\'
      · subst ha
        rfl
      · unfold startsEscape
        simp [ha]

/-- A run of text ends where the front of the next piece is, whatever follows that. -/
theorem textLength_front (h : IsFront style triple front) {ends : List Char → Bool}
    {t t' : List Char} (hends : ∀ y, ends (y ++ (front ++ t)) = ends (y ++ (front ++ t')))
    {x : List Char} (hx : textLength (style.delimiter triple) ends (x ++ (front ++ t)) = x.length) :
    textLength (style.delimiter triple) ends (x ++ (front ++ t')) = x.length := by
  induction x with
  | nil =>
      have hstarts := isPrefixOf_front h [] t t'
      have hend := hends []
      rcases h.exists_cons with ⟨c, cs, rfl⟩
      simp only [List.nil_append, List.cons_append, textLength, List.length_nil] at *
      rw [← hstarts, ← hend]
      split at hx
      · next hstop => rw [if_pos hstop]
      · omega
  | cons c x ih =>
      have hstarts := isPrefixOf_front h (c :: x) t t'
      have hend := hends (c :: x)
      simp only [List.cons_append, textLength, List.length_cons] at *
      rw [← hstarts, ← hend]
      split at hx
      · omega
      · next hgo =>
          rw [if_neg hgo, ih (by omega)]

theorem endsDoubleQuoted_front (h : IsFront style triple front) (y t t' : List Char) :
    endsDoubleQuoted (y ++ (front ++ t)) = endsDoubleQuoted (y ++ (front ++ t')) := by
  unfold endsDoubleQuoted
  rw [head?_front h y t t', startsEscape_front h y t t']

theorem startsBackslash_front (h : IsFront style triple front) (y t t' : List Char) :
    startsBackslash (y ++ (front ++ t)) = startsBackslash (y ++ (front ++ t')) := by
  unfold startsBackslash
  rw [head?_front h y t t']

theorem doubleQuotedLength_front (h : IsFront style triple front) {x t t' : List Char}
    (hx : doubleQuotedLength (style.delimiter triple) (x ++ (front ++ t)) = x.length) :
    doubleQuotedLength (style.delimiter triple) (x ++ (front ++ t')) = x.length := by
  cases x with
  | nil =>
      have hstarts := isPrefixOf_front h [] t t'
      rcases h.exists_cons with ⟨c, cs, rfl⟩
      simp only [List.nil_append, List.cons_append, doubleQuotedLength, List.length_nil] at *
      rw [← hstarts]
      split at hx
      · next hstop => rw [if_pos hstop]
      · omega
  | cons c x =>
      have hstarts := isPrefixOf_front h (c :: x) t t'
      simp only [List.cons_append, doubleQuotedLength, List.length_cons] at *
      rw [← hstarts]
      split at hx
      · omega
      · next hgo =>
          rw [if_neg hgo, textLength_front h (fun y => endsDoubleQuoted_front h y t t')
            (t := t) (by omega)]

/-- A backslash with something behind it is no text in a unicode or byte body. -/
theorem backslashForm_ne_text {c d : Char} {cs : List Char} {n : Nat} :
    backslashForm style (c :: d :: cs) ≠ (.text, n) := by
  intro h
  unfold backslashForm unicodeForm escapeForm at h
  dsimp only at h
  repeat' split at h
  all_goals cases h

/-- A run of text stays one in front of a rest with the same front. -/
theorem form_text_of_front (h : IsFront style triple front) {x t : List Char} (hne : x ≠ [])
    (hx : form style triple (x ++ (front ++ t)) = (.text, x.length)) (t' : List Char) :
    form style triple (x ++ (front ++ t')) = (.text, x.length) := by
  rcases List.exists_cons_of_ne_nil hne with ⟨c, x, rfl⟩
  unfold form at hx ⊢
  dsimp only at hx ⊢
  rw [isPrefixOf_front h (c :: x) t t'] at hx
  split at hx
  · cases hx
  · next hclose =>
      rw [if_neg hclose]
      cases style with
      | singleQuoted | raw =>
          simp only [Prod.mk.injEq, true_and] at hx ⊢
          refine textLength_front h (t := t) ?_ hx
          exact fun y => rfl
      | unicode | byte =>
          simp only at hx ⊢
          rw [startsBackslash_front h (c :: x) t t'] at hx
          split at hx
          · exfalso
            rcases h.exists_cons with ⟨d, ds, rfl⟩
            cases x with
            | nil => exact backslashForm_ne_text hx
            | cons e x => exact backslashForm_ne_text hx
          · next hback =>
              rw [if_neg hback]
              simp only [Prod.mk.injEq, true_and] at hx ⊢
              exact textLength_front h (fun y => startsBackslash_front h y t t') hx
      | doubleQuoted =>
          simp only at hx ⊢
          unfold doubleQuotedForm at hx ⊢
          rw [startsEscape_front h (c :: x) t t', head?_front h (c :: x) t t'] at hx
          split at hx
          · cases hx
          · next hescape =>
              rw [if_neg hescape]
              split at hx
              · next hdollar =>
                  rw [if_pos hdollar]
                  cases hdollar
                  have hhead := head?_front h x t t'
                  simp only [List.cons_append, List.drop_succ_cons, List.drop_zero,
                    List.length_cons] at hx ⊢
                  rcases hnone : Lexeme.dollar? ('$' :: (x ++ (front ++ t))) with _ | ⟨o, n⟩
                  · rw [hnone] at hx
                    have hnone' := Lexeme.dollar?_eq_none.1 hnone
                    rw [hhead] at hnone'
                    rw [Lexeme.dollar?_eq_none.2 hnone']
                    simp only [Prod.mk.injEq, true_and] at hx ⊢
                    have hlength :
                        doubleQuotedLength (StringStyle.doubleQuoted.delimiter triple)
                          (x ++ (front ++ t')) = x.length :=
                      doubleQuotedLength_front h (t := t) (by omega)
                    omega
                  · rw [hnone] at hx
                    cases hx
              · next hdollar =>
                  rw [if_neg hdollar]
                  simp only [Prod.mk.injEq, true_and] at hx ⊢
                  exact doubleQuotedLength_front h hx

/-! ## Escapes -/

theorem startsEscape_cons {c : Char} {cs : List Char} (h : startsEscape (c :: cs) = true) :
    c = '\\' ∧ ∃ d ds, cs = d :: ds := by
  unfold startsEscape at h
  split at h
  · next heq =>
      cases heq
      exact ⟨rfl, _, _, rfl⟩
  · cases h

theorem hexLength_eq_of_length {n : Nat} {x t : List Char} (h : x.length = n) (t' : List Char) :
    Lexeme.hexLength n (x ++ t) = Lexeme.hexLength n (x ++ t') := by
  unfold Lexeme.hexLength
  rw [List.take_left' h, List.take_left' h]

/-- Braced digits carry their own end. -/
theorem hexLength_braced {n : Nat} {ds t : List Char}
    (h : Lexeme.hexLength n (ds ++ '}' :: t) = ds.length) (t' : List Char) :
    Lexeme.hexLength n (ds ++ '}' :: t') = ds.length := by
  have hle : ds.length ≤ n := by
    have hle := Lexeme.runLength_le Character.isHexDigit ((ds ++ '}' :: t).take n)
    rw [List.length_take] at hle
    unfold Lexeme.hexLength at h
    omega
  unfold Lexeme.hexLength at h ⊢
  rw [List.take_append, List.take_of_length_le hle, runLength_append] at h ⊢
  refine ⟨h.1, fun c hc => ?_⟩
  rw [List.head?_take] at hc
  split at hc
  · cases hc
  · cases hc
    rfl

theorem escapeForm_eq {good : Bool} {n m : Nat} {bad : Form} (hbad : bad ≠ .escape) :
    escapeForm good n bad = (.escape, m) ↔ good = true ∧ n = m := by
  unfold escapeForm
  cases good <;> simp [hbad]

theorem unicodeForm_escape_append {x t : List Char}
    (h : unicodeForm (x ++ t) = (.escape, x.length + 2)) (t' : List Char) :
    unicodeForm (x ++ t') = (.escape, x.length + 2) := by
  by_cases hbrace : x.head? = some '{'
  · rcases List.head?_eq_some_iff.1 hbrace with ⟨x, rfl⟩
    simp only [List.cons_append, unicodeForm, List.length_cons] at h ⊢
    split at h
    · next hgood =>
        generalize hdigits : Lexeme.hexLength 6 (x ++ t) = digits at h hgood
        simp only [Prod.mk.injEq, true_and] at h
        rcases List.head?_eq_some_iff.1 hgood.2 with ⟨u, hu⟩
        have hx : x = (x ++ t).take digits ++ ['}'] := by
          have htake : (x ++ t).take (digits + 1) = x := List.take_left' (by omega)
          rw [List.take_add, hu] at htake
          exact htake.symm
        have hlength : ((x ++ t).take digits).length = digits := by
          have hx' := congrArg List.length hx
          rw [List.length_append] at hx'
          simp only [List.length_cons, List.length_nil] at hx'
          omega
        generalize (x ++ t).take digits = ds at hx hlength
        subst hx
        rw [List.append_assoc, ← hlength] at hdigits
        have hdigits' : Lexeme.hexLength 6 (ds ++ (['}'] ++ t')) = digits := by
          rw [← hlength]
          exact hexLength_braced hdigits t'
        have hgood' : 0 < Lexeme.hexLength 6 (ds ++ (['}'] ++ t')) ∧
            ((ds ++ (['}'] ++ t')).drop (Lexeme.hexLength 6 (ds ++ (['}'] ++ t')))).head?
              = some '}' := by
          rw [hdigits', List.drop_left' hlength]
          exact ⟨hgood.1, rfl⟩
        rw [List.append_assoc, if_pos hgood', hdigits', h]
    · cases h
  · have hform : ∀ u, x ≠ [] → unicodeForm (x ++ u)
        = escapeForm (Lexeme.hexLength 4 (x ++ u) == 4) (2 + Lexeme.hexLength 4 (x ++ u))
            .badEscape := by
      intro u hne
      rcases List.exists_cons_of_ne_nil hne with ⟨c, cs, rfl⟩
      rw [List.cons_append, unicodeForm]
      rintro d hd
      cases hd
      exact hbrace rfl
    have hne : x ≠ [] := by
      rintro rfl
      rw [List.nil_append] at h
      unfold unicodeForm at h
      dsimp only at h
      split at h
      · split at h
        · simp only [Prod.mk.injEq, List.length_nil, true_and] at h
          omega
        · cases h
      · rw [escapeForm_eq (by decide), beq_iff_eq, List.length_nil] at h
        omega
    rw [hform t hne, escapeForm_eq (by decide), beq_iff_eq] at h
    rw [hform t' hne, escapeForm_eq (by decide), beq_iff_eq,
      hexLength_eq_of_length (t := t') (by omega) t]
    exact h

/-- A simple escape or one with enough digits needs nothing behind it. -/
theorem backslashForm_escape_append {b c : Char} {x t : List Char}
    (h : backslashForm style (b :: c :: (x ++ t)) = (.escape, x.length + 2)) (t' : List Char) :
    backslashForm style (b :: c :: (x ++ t')) = (.escape, x.length + 2) := by
  unfold backslashForm at h ⊢
  dsimp only at h ⊢
  split at h
  · next hsimple =>
      rw [if_pos hsimple]
      exact h
  · next hsimple =>
      rw [if_neg hsimple]
      split at h
      · next hx =>
          rw [if_pos hx]
          rw [escapeForm_eq (by decide), beq_iff_eq] at h ⊢
          rw [hexLength_eq_of_length (t := t') (by omega) t]
          exact h
      · next hx =>
          rw [if_neg hx]
          split at h
          · next hu =>
              rw [if_pos hu]
              exact unicodeForm_escape_append h t'
          · next hu =>
              rw [if_neg hu]
              split at h
              · next hy =>
                  rw [if_pos hy]
                  rw [escapeForm_eq (by decide), beq_iff_eq] at h ⊢
                  rw [hexLength_eq_of_length (t := t') (by omega) t]
                  exact h
              · cases h

theorem backslashForm_escape {cs : List Char} {n : Nat}
    (h : backslashForm style cs = (.escape, n)) : 2 ≤ n := by
  unfold backslashForm unicodeForm escapeForm at h
  dsimp only at h
  repeat' split at h
  all_goals first | cases h; omega | cases h

theorem not_close_of_backslash (cs : List Char) :
    (style.delimiter triple).isPrefixOf ('\\' :: cs) = false := by
  have hbeq := (quote_beq style).2
  cases triple <;> simp [StringStyle.delimiter, List.isPrefixOf, hbeq]

theorem not_close_of_dollar (cs : List Char) :
    (style.delimiter triple).isPrefixOf ('$' :: cs) = false := by
  have hbeq := (quote_beq style).1
  cases triple <;> simp [StringStyle.delimiter, List.isPrefixOf, hbeq]

/-- An escape stays one in front of every rest. -/
theorem form_escape_append {x t : List Char}
    (h : form style triple (x ++ t) = (.escape, x.length)) (t' : List Char) :
    form style triple (x ++ t') = (.escape, x.length) := by
  unfold form at h ⊢
  dsimp only at h ⊢
  split at h
  · cases h
  · cases style with
    | singleQuoted | raw => cases h
    | doubleQuoted =>
        simp only at h ⊢
        unfold doubleQuotedForm at h ⊢
        split at h
        · next hescape =>
            match x, h, hescape with
            | [b, c], h, hescape =>
                rcases startsEscape_cons hescape with ⟨rfl, -⟩
                rw [List.cons_append, not_close_of_backslash, if_neg Bool.false_ne_true]
                exact if_pos hescape
        · repeat' split at h
          all_goals cases h
    | unicode | byte =>
        simp only at h ⊢
        split at h
        · next hback =>
            match x, h, hback, backslashForm_escape h with
            | b :: c :: x, h, hback, _ =>
                cases beq_iff_eq.1 hback
                rw [List.cons_append, not_close_of_backslash, if_neg Bool.false_ne_true]
                rw [if_pos (by rfl)]
                exact backslashForm_escape_append h t'
        · cases h

/-! ## Delimiters and expansions -/

theorem backslashForm_kind {cs : List Char} :
    (backslashForm style cs).1 ≠ .close ∧ ∀ o, (backslashForm style cs).1 ≠ .expansion o := by
  unfold backslashForm unicodeForm escapeForm
  dsimp only
  repeat' split
  all_goals exact ⟨(nomatch ·), fun _ => (nomatch ·)⟩

theorem form_close_iff {cs : List Char} {n : Nat} :
    form style triple cs = (.close, n) ↔
      style.delimiter triple <+: cs ∧ n = (style.delimiter triple).length := by
  unfold form
  dsimp only
  split
  · next hclose =>
      rw [List.isPrefixOf_iff_prefix] at hclose
      simp only [Prod.mk.injEq, true_and, hclose, eq_comm]
  · next hclose =>
      rw [List.isPrefixOf_iff_prefix] at hclose
      simp only [hclose, false_and, iff_false]
      cases style with
      | singleQuoted | raw => simp
      | doubleQuoted =>
          simp only [doubleQuotedForm]
          repeat' split
          all_goals simp
      | unicode | byte =>
          simp only
          split
          · exact fun h => backslashForm_kind.1 (congrArg Prod.fst h)
          · simp

theorem form_expansion_iff {cs : List Char} {o : Opener} {n : Nat} :
    form style triple cs = (.expansion o, n) ↔
      style = .doubleQuoted ∧ Lexeme.dollar? cs = some (o, n) := by
  constructor
  · intro h
    unfold form at h
    dsimp only at h
    split at h
    · cases h
    · cases style with
      | singleQuoted | raw => cases h
      | doubleQuoted =>
          simp only [doubleQuotedForm] at h
          repeat' split at h
          all_goals first | cases h; exact ⟨rfl, by assumption⟩ | cases h
      | unicode | byte =>
          simp only at h
          split at h
          · exact absurd (congrArg Prod.fst h) (backslashForm_kind.2 o)
          · cases h
  · rintro ⟨rfl, h⟩
    rcases dollar?_head h with ⟨t, rfl⟩
    unfold form
    dsimp only
    rw [not_close_of_dollar, if_neg Bool.false_ne_true]
    unfold doubleQuotedForm
    rw [if_neg (by simp [startsEscape]), if_pos (show ('$' :: t).head? = some '$' from rfl), h]

end

/-! ## Pieces of a source -/

theorem textLength_le (close : List Char) (ends : List Char → Bool) (cs : List Char) :
    textLength close ends cs ≤ cs.length := by
  induction cs with
  | nil => exact Nat.le_refl _
  | cons c cs ih =>
      unfold textLength
      split
      · exact Nat.zero_le _
      · exact Nat.succ_le_succ ih

theorem textLength_pos {close : List Char} {ends : List Char → Bool} {c : Char} {cs : List Char}
    (hclose : close.isPrefixOf (c :: cs) = false) (hends : ends (c :: cs) = false) :
    0 < textLength close ends (c :: cs) := by
  unfold textLength
  rw [hclose, hends, if_neg (by decide)]
  exact Nat.succ_pos _

theorem doubleQuotedLength_le (close : List Char) (cs : List Char) :
    doubleQuotedLength close cs ≤ cs.length := by
  cases cs with
  | nil => exact Nat.le_refl _
  | cons c cs =>
      simp only [doubleQuotedLength]
      split
      · exact Nat.zero_le _
      · exact Nat.succ_le_succ (textLength_le _ _ _)

theorem hexLength_le (n : Nat) (cs : List Char) : Lexeme.hexLength n cs ≤ cs.length := by
  have hle := Lexeme.runLength_le Character.isHexDigit (cs.take n)
  rw [List.length_take] at hle
  unfold Lexeme.hexLength
  omega

theorem backslashForm_within (style : StringStyle) (c : Char) (cs : List Char) :
    0 < (backslashForm style (c :: cs)).2 ∧
      (backslashForm style (c :: cs)).2 ≤ (c :: cs).length := by
  rcases cs with _ | ⟨d, cs⟩
  · exact ⟨Nat.one_pos, Nat.le_refl _⟩
  · have htwo := hexLength_le 2 cs
    have hfour := hexLength_le 4 cs
    have hunicode : 2 ≤ (unicodeForm cs).2 ∧ (unicodeForm cs).2 ≤ cs.length + 2 := by
      unfold unicodeForm escapeForm
      split
      · next inner =>
          have hsix := hexLength_le 6 inner
          dsimp only
          split
          · next hgood =>
              have hlt : Lexeme.hexLength 6 inner < inner.length := by
                refine Nat.lt_of_not_le fun hge => ?_
                rw [List.drop_of_length_le hge] at hgood
                cases hgood.2
              simp only [List.length_cons]
              omega
          · simp only [List.length_cons]
            omega
      · dsimp only
        omega
    unfold backslashForm escapeForm
    simp only [List.length_cons]
    repeat' split
    all_goals omega

/-- A piece takes a part of the text, and at least one character. -/
theorem form_within {style : StringStyle} {triple : Bool} {cs : List Char} (hne : cs ≠ []) :
    0 < (form style triple cs).2 ∧ (form style triple cs).2 ≤ cs.length := by
  rcases List.exists_cons_of_ne_nil hne with ⟨c, cs, rfl⟩
  unfold form
  dsimp only
  split
  · next hclose =>
      refine ⟨?_, (List.isPrefixOf_iff_prefix.1 hclose).length_le⟩
      cases triple <;> exact Nat.succ_pos _
  · next hclose =>
      have hclose' := Bool.eq_false_iff.2 hclose
      cases style with
      | singleQuoted | raw =>
          simp only
          exact ⟨textLength_pos hclose' rfl, textLength_le _ _ _⟩
      | doubleQuoted =>
          simp only [doubleQuotedForm]
          split
          · next hescape =>
              rcases startsEscape_cons hescape with ⟨rfl, d, ds, rfl⟩
              exact ⟨by decide, by simp⟩
          · split
            · next hdollar =>
                rcases h : Lexeme.dollar? (c :: cs) with _ | ⟨o, n⟩
                · have hle := doubleQuotedLength_le (StringStyle.doubleQuoted.delimiter triple) cs
                  simp only [List.drop_succ_cons, List.drop_zero, List.length_cons]
                  omega
                · have hwithin := Lexeme.within_dollar? h
                  exact ⟨hwithin.2.resolve_right (by simp [Lexeme.ofOpener, Lexeme.token]), hwithin.1⟩
            · next hdollar =>
                refine ⟨?_, show doubleQuotedLength _ (c :: cs) ≤ _ from doubleQuotedLength_le _ _⟩
                have hc : (c == '$') = false := by simpa using hdollar
                simp only [doubleQuotedLength]
                rw [hclose', hc, if_neg (by decide)]
                exact Nat.succ_pos _
      | unicode | byte =>
          simp only
          split
          · exact backslashForm_within _ _ _
          · next hback =>
              exact ⟨textLength_pos hclose' (Bool.eq_false_iff.2 hback), textLength_le _ _ _⟩

/-- The front of a piece, of which another piece may stand in front. -/
def frontOf (style : StringStyle) (triple : Bool) : Form → List Char → List Char
  | .close, _ => style.delimiter triple
  | .escape, cs => cs.take 2
  | _, cs => cs.take 1

theorem textLength_stop {close : List Char} {ends : List Char → Bool} {x cs : List Char}
    (h : textLength close ends (x ++ cs) = x.length) (hcs : cs ≠ []) :
    close.isPrefixOf cs = true ∨ ends cs = true := by
  induction x with
  | nil =>
      rcases List.exists_cons_of_ne_nil hcs with ⟨c, cs, rfl⟩
      simp only [List.nil_append, textLength, List.length_nil] at h
      split at h
      · next hstop => exact Bool.or_eq_true_iff.1 hstop
      · omega
  | cons c x ih =>
      simp only [List.cons_append, textLength, List.length_cons] at h
      split at h
      · omega
      · exact ih (by omega)

theorem doubleQuotedLength_stop {close x cs : List Char}
    (h : doubleQuotedLength close (x ++ cs) = x.length) (hcs : cs ≠ []) :
    close.isPrefixOf cs = true ∨ endsDoubleQuoted cs = true := by
  cases x with
  | nil =>
      rcases List.exists_cons_of_ne_nil hcs with ⟨c, cs, rfl⟩
      simp only [List.nil_append, doubleQuotedLength, List.length_nil] at h
      split at h
      · next hstop =>
          refine (Bool.or_eq_true_iff.1 hstop).imp id fun hc => ?_
          simp only [endsDoubleQuoted, List.head?_cons, Bool.or_eq_true, beq_iff_eq,
            Option.some.injEq]
          exact .inl (beq_iff_eq.1 hc)
      · omega
  | cons c x =>
      simp only [List.cons_append, doubleQuotedLength, List.length_cons] at h
      split at h
      · omega
      · exact textLength_stop (x := x) (by omega) hcs

/-- Where a run of text ends there is the delimiter or what the style gives a
    meaning. -/
theorem stop_of_form_text {style : StringStyle} {triple : Bool} {x cs : List Char} (hx : x ≠ [])
    (hcs : cs ≠ []) (h : form style triple (x ++ cs) = (.text, x.length)) :
    (style.delimiter triple).isPrefixOf cs = true ∨
      (style = .doubleQuoted ∧ endsDoubleQuoted cs = true) ∨
        ((style = .unicode ∨ style = .byte) ∧ startsBackslash cs = true) := by
  unfold form at h
  dsimp only at h
  split at h
  · cases h
  · cases style with
    | singleQuoted | raw =>
        exact .inl ((textLength_stop (congrArg Prod.snd h) hcs).resolve_right Bool.false_ne_true)
    | doubleQuoted =>
        simp only [doubleQuotedForm] at h
        split at h
        · cases h
        · split at h
          · split at h
            · cases h
            · rcases x with _ | ⟨d, x⟩
              · exact absurd rfl hx
              · simp only [List.cons_append, List.drop_succ_cons, List.drop_zero, Prod.mk.injEq,
                  List.length_cons, true_and] at h
                have hlength : doubleQuotedLength (StringStyle.doubleQuoted.delimiter triple) (x ++ cs)
                    = x.length := by omega
                have hstop := doubleQuotedLength_stop hlength hcs
                exact hstop.imp id fun hends => .inl ⟨rfl, hends⟩
          · exact (doubleQuotedLength_stop (congrArg Prod.snd h) hcs).imp id
              fun hends => .inl ⟨rfl, hends⟩
    | unicode | byte =>
        simp only at h
        split at h
        · next hback =>
            rcases x with _ | ⟨d, x⟩
            · exact absurd rfl hx
            · rcases hrest : x ++ cs with _ | ⟨e, rest⟩
              · exact absurd (List.append_eq_nil_iff.1 hrest).2 hcs
              · rw [List.cons_append, hrest] at h
                exact absurd h backslashForm_ne_text
        · exact (textLength_stop (congrArg Prod.snd h) hcs).imp id
            fun hends => .inr ⟨by decide, hends⟩

/-- Behind a run of text stands a front, unless the body ends there without its
    delimiter. -/
theorem isFront_frontOf {style : StringStyle} {triple : Bool} {x cs : List Char} (hx : x ≠ [])
    (hcs : cs ≠ []) (h : form style triple (x ++ cs) = (.text, x.length))
    (hbad : (form style triple cs).1 ≠ .badEscape ∧ (form style triple cs).1 ≠ .badByteEscape)
    (hmore : (form style triple cs).1 = .text → cs.drop (form style triple cs).2 ≠ []) :
    IsFront style triple (frontOf style triple (form style triple cs).1 cs) ∧
      frontOf style triple (form style triple cs).1 cs <+: cs := by
  rcases stop_of_form_text hx hcs h with hclose | ⟨rfl, hends⟩ | ⟨hstyle, hback⟩
  · have hform : form style triple cs = (.close, (style.delimiter triple).length) :=
      form_close_iff.2 ⟨List.isPrefixOf_iff_prefix.1 hclose, rfl⟩
    rw [hform]
    exact ⟨.inl rfl, List.isPrefixOf_iff_prefix.1 hclose⟩
  · rcases hform : form .doubleQuoted triple cs with ⟨kind, n⟩
    cases kind with
    | close => exact ⟨.inl rfl, (form_close_iff.1 hform).1⟩
    | badEscape | badByteEscape => simp [hform] at hbad
    | escape | text | expansion =>
        refine ⟨.inr ?_, List.take_prefix _ _⟩
        unfold form at hform
        dsimp only at hform
        split at hform
        · cases hform
        · simp only [doubleQuotedForm] at hform
          rcases Bool.or_eq_true_iff.1 hends with hdollar | hescape
          · rcases cs with _ | ⟨c, cs⟩
            · exact absurd rfl hcs
            · cases Option.some.inj (beq_iff_eq.1 hdollar)
              first
              | exact .inl rfl
              | simp [startsEscape] at hform
                split at hform <;> cases hform
          · rcases cs with _ | ⟨c, cs⟩
            · exact absurd rfl hcs
            · rcases startsEscape_cons hescape with ⟨rfl, d, ds, rfl⟩
              rw [if_pos hescape] at hform
              first
              | exact .inr ⟨d, rfl⟩
              | cases hform
  · rcases hform : form style triple cs with ⟨kind, n⟩
    rcases cs with _ | ⟨c, cs⟩
    · exact absurd rfl hcs
    · cases Option.some.inj (beq_iff_eq.1 hback)
      have hclose : (style.delimiter triple).isPrefixOf ('\\' :: cs) = false :=
        not_close_of_backslash cs
      have hback' : form style triple ('\\' :: cs) = backslashForm style ('\\' :: cs) := by
        unfold form
        dsimp only
        rw [hclose, if_neg Bool.false_ne_true]
        rcases hstyle with rfl | rfl <;> rfl
      have hkind := @backslashForm_kind style ('\\' :: cs)
      rw [← hback', hform] at hkind
      cases kind with
      | close => exact absurd rfl hkind.1
      | expansion o => exact absurd rfl (hkind.2 o)
      | badEscape | badByteEscape => simp [hform] at hbad
      | escape =>
          rcases cs with _ | ⟨d, cs⟩
          · rw [hback'] at hform
            cases hform
          · exact ⟨.inr (.inr ⟨d, rfl⟩), List.take_prefix _ _⟩
      | text =>
          rcases cs with _ | ⟨d, cs⟩
          · rw [hback'] at hform hmore
            exact absurd rfl (hmore rfl)
          · rw [hback'] at hform
            exact absurd hform backslashForm_ne_text

/-- The piece of a form that so many characters of a place are. -/
def Form.piece (form : Form) (c : Cursor) (k : Nat) : Piece :=
  match form with
  | .text => .text (c.textOf k) (c.spanOf k)
  | .escape => .escape (c.textOf k) (c.spanOf k)
  | .badEscape => .badEscape (.invalidEscape (c.textOf k) (c.spanOf k)) (c.textOf k) (c.spanOf k)
  | .badByteEscape =>
      .badEscape (.invalidByteEscape (c.textOf k) (c.spanOf k)) (c.textOf k) (c.spanOf k)
  | .expansion opener => .expansion opener ⟨.opener opener, c.textOf k, c.spanOf k, true⟩
  | .close => .close (c.spanOf k)

end Quoted

theorem Cursor.piece_eq {style : StringStyle} {triple : Bool} {opening : Span} {c : Cursor}
    {form : Quoted.Form} {k : Nat} (hrest : c.rest ≠ [])
    (hform : Quoted.form style triple c.rest = (form, k)) :
    c.piece style triple opening = (.ok (form.piece c k), c.advance k) := by
  rw [piece, if_neg (by simpa using hrest), hform]
  cases form <;> rfl

end Ysh
