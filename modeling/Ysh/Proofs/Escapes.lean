import Ysh.Proofs.Lexing.Quoted

/-!
# Escapes

The pieces of a unicode or byte body, pulled one after the other. Two things are said
about them that do not mention how a piece is found. The escapes of the style are given
as a set of texts, and a piece is an escape exactly where one of these texts stands.
The body is what stands in front of the first closing delimiter that no backslash
escapes, and the pieces are a partition of it.

A piece that starts with a backslash takes the character behind it along, and what else
it takes are digits and braces. So no closing delimiter starts inside a piece, and
behind a piece nothing is escaped: each piece can be passed over, and the body of the
text is the piece and the body of the rest.

## Main definitions

* `Quoted.IsEscape`: The texts that are escapes of a style.
* `Quoted.escapesNext`: A text ends in a backslash that is not escaped itself.
* `Quoted.EndsBody`, `Quoted.Endless`: Where a body ends, and that it does not.
* `Quoted.Follows`: What a piece has to be in front of a text.
* `Cursor.Pulls`: Pieces pulled one after the other, up to the end of the body.
* `Cursor.Ends`: What pulling comes to behind the pieces.

## Theorems

* `Quoted.IsEscape.backslashForm`: An escape of the style is taken as one.
* `Quoted.Passes.endsBody`, `Quoted.Passes.endless`: A piece is passed over.
* `Quoted.form_cases`: A body has a piece in front that is passed over.
* `Cursor.Pulls.unique`: Pieces are pulled in one way only.
* `Cursor.pulls_body`: The pieces are a partition of the body.
-/

namespace Ysh

namespace Quoted

/-! ## The escapes of a style -/

/-- Every character is a hexadecimal digit. -/
def AllHex (ds : List Char) : Prop :=
  ∀ d ∈ ds, Character.isHexDigit d = true

/-- An escape of a unicode or byte body. -/
inductive IsEscape (style : StringStyle) : List Char → Prop
  | simple {c : Char} : c ∈ ['\\', '\'', '"', '/', 'b', 'f', 'n', 'r', 't'] →
      IsEscape style ['\\', c]
  | hex {ds : List Char} : AllHex ds → ds.length = 2 → IsEscape style ('\\' :: 'x' :: ds)
  | unicode {ds : List Char} : AllHex ds → ds.length = 4 → IsEscape style ('\\' :: 'u' :: ds)
  | braced {ds : List Char} : AllHex ds → 1 ≤ ds.length → ds.length ≤ 6 →
      IsEscape style ('\\' :: 'u' :: '{' :: (ds ++ ['}']))
  | byte {ds : List Char} : style = .byte → AllHex ds → ds.length = 2 →
      IsEscape style ('\\' :: 'y' :: ds)

section

variable {style : StringStyle} {ds more : List Char} {n : Nat}

/-- Digits are counted up to the limit or up to what is no digit. -/
theorem AllHex.hexLength (h : AllHex ds) (hle : ds.length ≤ n)
    (hends : ds.length = n ∨ ∀ c, more.head? = some c → Character.isHexDigit c = false) :
    Lexeme.hexLength n (ds ++ more) = ds.length := by
  unfold Lexeme.hexLength
  rw [List.take_append, List.take_of_length_le hle, runLength_append]
  refine ⟨h, fun c hc => ?_⟩
  rw [List.head?_take] at hc
  split at hc
  · cases hc
  · next hroom => exact hends.resolve_left (by omega) c hc

/-- What is counted is digits. -/
theorem allHex_take (n : Nat) (cs : List Char) : AllHex (cs.take (Lexeme.hexLength n cs)) := by
  intro d hd
  have htake : cs.take (Lexeme.hexLength n cs) = (cs.take n).takeWhile Character.isHexDigit := by
    have hfront := (List.takeWhile_prefix Character.isHexDigit (l := cs.take n)).trans
      (List.take_prefix n cs)
    exact (List.prefix_iff_eq_take.1 hfront).symm
  rw [htake] at hd
  exact List.all_eq_true.1 List.all_takeWhile d hd

theorem length_take_hexLength (n : Nat) (cs : List Char) :
    (cs.take (Lexeme.hexLength n cs)).length = Lexeme.hexLength n cs := by
  rw [List.length_take, Nat.min_eq_left (hexLength_le n cs)]

/-- With all of its digits an escape is good. -/
theorem AllHex.escapeForm (h : AllHex ds) (hlen : ds.length = n) (bad : Form) :
    escapeForm (Lexeme.hexLength n (ds ++ more) == n) (2 + Lexeme.hexLength n (ds ++ more)) bad
      = (.escape, ds.length + 2) := by
  have hcount : Lexeme.hexLength n (ds ++ more) = n :=
    (h.hexLength (Nat.le_of_eq hlen) (.inl hlen)).trans hlen
  rw [hcount, hlen, Nat.add_comm]
  simp [Quoted.escapeForm]

/-- An escape of the style is taken as one, whatever stands behind it. -/
theorem IsEscape.backslashForm {e : List Char} (h : IsEscape style e) (more : List Char) :
    backslashForm style (e ++ more) = (.escape, e.length) := by
  cases h with
  | simple hc => exact if_pos (List.contains_iff_mem.2 hc)
  | hex hds hlen => exact hds.escapeForm hlen _
  | @unicode ds hds hlen =>
      rcases ds with _ | ⟨d, ds⟩
      · cases hlen
      · have hd : d ≠ '{' := by
          rintro rfl
          exact absurd (hds '{' List.mem_cons_self) (by decide)
        change unicodeForm (d :: (ds ++ more)) = _
        rw [unicodeForm]
        · exact hds.escapeForm hlen _
        · rintro cs ⟨⟩
          exact hd rfl
  | @braced ds hds hpos hle =>
      have hdigits : Lexeme.hexLength 6 (ds ++ '}' :: more) = ds.length := by
        refine hds.hexLength hle (.inr fun c hc => ?_)
        cases hc
        decide
      have hgood : 0 < Lexeme.hexLength 6 (ds ++ '}' :: more) ∧
          ((ds ++ '}' :: more).drop (Lexeme.hexLength 6 (ds ++ '}' :: more))).head? = some '}' := by
        rw [hdigits, List.drop_left' rfl]
        exact ⟨hpos, rfl⟩
      change unicodeForm ('{' :: ((ds ++ ['}']) ++ more)) = _
      rw [List.append_assoc, List.singleton_append, unicodeForm, if_pos hgood, hdigits]
      simp
      omega
  | byte hstyle hds hlen =>
      subst hstyle
      exact hds.escapeForm hlen _

/-- What an escape may take behind its first two characters. -/
def Plain (ds : List Char) : Prop :=
  ∀ d ∈ ds, d ≠ '\'' ∧ d ≠ '\\'

theorem AllHex.plain (h : AllHex ds) : Plain ds := by
  intro d hd
  constructor <;> rintro rfl <;> exact absurd (h _ hd) (by decide)

theorem Plain.append {es : List Char} (h : Plain ds) (h' : Plain es) : Plain (ds ++ es) :=
  fun d hd => (List.mem_append.1 hd).elim (h d) (h' d)

/-- What a bad escape is, by the character behind its backslash. -/
def badForm (style : StringStyle) (c : Char) : Form :=
  if style = .byte ∧ c = 'y' then .badByteEscape else .badEscape

/-- Digits up to a limit are an escape if they reach it. -/
theorem escapeForm_cases (n : Nat) (bad : Form) (cs : List Char) :
    ∃ f ds more, cs = ds ++ more ∧ AllHex ds ∧
      escapeForm (Lexeme.hexLength n cs == n) (2 + Lexeme.hexLength n cs) bad = (f, ds.length + 2) ∧
      (f = .escape ∧ ds.length = n ∨ f = bad) := by
  have hlength := length_take_hexLength n cs
  have hsplit := (List.take_append_drop (Lexeme.hexLength n cs) cs).symm
  by_cases hn : Lexeme.hexLength n cs = n
  · refine ⟨.escape, _, _, hsplit, allHex_take n cs, ?_, .inl ⟨rfl, hlength.trans hn⟩⟩
    rw [hlength, hn, Nat.add_comm]
    simp [escapeForm]
  · refine ⟨bad, _, _, hsplit, allHex_take n cs, ?_, .inr rfl⟩
    rw [hlength, Nat.add_comm]
    simp [escapeForm, hn]

theorem unicodeForm_cases (style : StringStyle) (cs : List Char) :
    ∃ f ds more, cs = ds ++ more ∧ Plain ds ∧ unicodeForm cs = (f, ds.length + 2) ∧
      (f = .escape ∧ IsEscape style ('\\' :: 'u' :: ds) ∨ f = .badEscape) := by
  unfold unicodeForm
  split
  · next inner =>
      have hdigits := allHex_take 6 inner
      have hlength := length_take_hexLength 6 inner
      have hsplit := List.take_append_drop (Lexeme.hexLength 6 inner) inner
      have hbrace : Plain ['{'] ∧ Plain ['}'] := by
        constructor <;> (intro d hd; rw [List.mem_singleton.1 hd]; decide)
      dsimp only
      by_cases hgood : 0 < Lexeme.hexLength 6 inner ∧
          (inner.drop (Lexeme.hexLength 6 inner)).head? = some '}'
      · rcases List.head?_eq_some_iff.1 hgood.2 with ⟨more, hmore⟩
        have hmost : Lexeme.hexLength 6 inner ≤ 6 := by
          have hle := Lexeme.runLength_le Character.isHexDigit (inner.take 6)
          rw [List.length_take] at hle
          exact Nat.le_trans hle (Nat.min_le_left _ _)
        refine ⟨.escape, '{' :: (inner.take (Lexeme.hexLength 6 inner) ++ ['}']), more, ?_,
          hbrace.1.append (hdigits.plain.append hbrace.2), ?_, .inl ⟨rfl, .braced hdigits ?_ ?_⟩⟩
        · rw [List.cons_append, List.append_assoc, List.singleton_append, ← hmore, hsplit]
        · rw [if_pos hgood]
          simp only [List.length_cons, List.length_append, List.length_nil, hlength]
          congr 1
          omega
        · omega
        · omega
      · refine ⟨.badEscape, '{' :: inner.take (Lexeme.hexLength 6 inner),
          inner.drop (Lexeme.hexLength 6 inner), ?_, hbrace.1.append hdigits.plain, ?_, .inr rfl⟩
        · rw [List.cons_append, hsplit]
        · rw [if_neg hgood, List.length_cons, hlength]
          congr 1
          omega
  · rcases escapeForm_cases 4 .badEscape cs with ⟨f, ds, more, hsplit, hds, hform, hf⟩
    exact ⟨f, ds, more, hsplit, hds.plain, hform, hf.imp (fun hf => ⟨hf.1, .unicode hds hf.2⟩) id⟩

/-- A backslash with something behind it starts an escape of the style or a bad one. In
    both cases it takes the character behind it along, and then plain characters. -/
theorem backslashForm_cases (style : StringStyle) (c : Char) (cs : List Char) :
    ∃ f ds more, cs = ds ++ more ∧ Plain ds ∧
      Quoted.backslashForm style ('\\' :: c :: cs) = (f, ds.length + 2) ∧
      (f = .escape ∧ IsEscape style ('\\' :: c :: ds) ∨
        f = badForm style c ∧ c ≠ '\'' ∧ c ≠ '\\') := by
  unfold Quoted.backslashForm
  dsimp only
  split
  · next hsimple =>
      exact ⟨.escape, [], cs, rfl, fun d hd => absurd hd List.not_mem_nil, rfl,
        .inl ⟨rfl, .simple (List.contains_iff_mem.1 hsimple)⟩⟩
  · next hsimple =>
      have hc : c ≠ '\'' ∧ c ≠ '\\' := by
        constructor <;> (rintro rfl; exact hsimple rfl)
      split
      · next hx =>
          subst hx
          rcases escapeForm_cases 2 .badEscape cs with ⟨f, ds, more, hsplit, hds, hform, hf⟩
          exact ⟨f, ds, more, hsplit, hds.plain, hform,
            hf.imp (fun hf => ⟨hf.1, .hex hds hf.2⟩) fun hf => ⟨hf.trans (by simp [badForm]), hc⟩⟩
      · split
        · next hu =>
            subst hu
            rcases unicodeForm_cases style cs with ⟨f, ds, more, hsplit, hds, hform, hf⟩
            exact ⟨f, ds, more, hsplit, hds, hform,
              hf.imp id fun hf => ⟨hf.trans (by simp [badForm]), hc⟩⟩
        · split
          · next hy =>
              rcases hy with ⟨rfl, rfl⟩
              rcases escapeForm_cases 2 .badByteEscape cs with ⟨f, ds, more, hsplit, hds, hform, hf⟩
              exact ⟨f, ds, more, hsplit, hds.plain, hform,
                hf.imp (fun hf => ⟨hf.1, .byte rfl hds hf.2⟩) fun hf => ⟨hf, hc⟩⟩
          · next hy =>
              refine ⟨.badEscape, [], cs, rfl, fun d hd => absurd hd List.not_mem_nil, rfl,
                .inr ⟨?_, hc⟩⟩
              rw [badForm, if_neg fun h => hy h.symm]

end

/-! ## Where a body ends -/

/-- The text ends in a backslash that escapes what stands behind the text. A backslash
    does so unless it is escaped itself. -/
def escapesNext (text : List Char) : Bool :=
  text.foldl (fun escaped c => !escaped && c == '\\') false

/-- The body stands in front of the first closing delimiter that is not escaped. -/
structure EndsBody (close cs body : List Char) : Prop where
  closes : body ++ close <+: cs
  unescaped : escapesNext body = false
  first : ∀ x, x ++ close <+: cs → escapesNext x = false → body.length ≤ x.length

/-- There is no closing delimiter but escaped ones. -/
def Endless (close cs : List Char) : Prop :=
  ∀ x, x ++ close <+: cs → escapesNext x = true

/-- A piece of a text, in front of the rest: no unescaped delimiter starts inside it,
    and it escapes nothing behind it. -/
structure Passes (close own more : List Char) : Prop where
  inside : ∀ x, x ++ close <+: own ++ more → x.length < own.length → escapesNext x = true
  behind : more ≠ [] → escapesNext own = false

section

variable {close own more body x y ds : List Char} {c : Char}

theorem escapesNext_append (h : escapesNext x = false) : escapesNext (x ++ y) = escapesNext y := by
  unfold escapesNext at h ⊢
  rw [List.foldl_append, h]

theorem escapesNext_of_not_mem (h : '\\' ∉ x) : escapesNext x = false := by
  induction x with
  | nil => rfl
  | cons c x ih =>
      rw [List.mem_cons, not_or] at h
      have hc : escapesNext [c] = false := by
        simp [escapesNext, Ne.symm h.1]
      rw [← List.singleton_append, escapesNext_append hc]
      exact ih h.2

/-- A delimiter that does not start in a piece starts behind it. -/
theorem exists_append_of_prefix (h : x ++ close <+: own ++ more) (hle : own.length ≤ x.length) :
    ∃ y, x = own ++ y ∧ y ++ close <+: more := by
  have hown : own <+: x :=
    List.prefix_of_prefix_length_le (List.prefix_append own more)
      ((List.prefix_append x close).trans h) hle
  rcases hown with ⟨y, rfl⟩
  rw [List.append_assoc, List.prefix_append_right_inj] at h
  exact ⟨y, rfl, h⟩

/-- The body of a text is its first piece and the body of the rest. -/
theorem Passes.endsBody (h : Passes close own more) (hclose : close ≠ [])
    (hbody : EndsBody close more body) : EndsBody close (own ++ more) (own ++ body) := by
  have hmore : more ≠ [] := by
    rintro rfl
    have hnil := List.prefix_nil.1 hbody.closes
    exact hclose (List.append_eq_nil_iff.1 hnil).2
  have hown : escapesNext own = false := h.behind hmore
  refine ⟨?_, ?_, fun x hx hfree => ?_⟩
  · rw [List.append_assoc, List.prefix_append_right_inj]
    exact hbody.closes
  · rw [escapesNext_append hown]
    exact hbody.unescaped
  · rcases Nat.lt_or_ge x.length own.length with hlt | hge
    · rw [h.inside x hx hlt] at hfree
      cases hfree
    · rcases exists_append_of_prefix hx hge with ⟨y, rfl, hy⟩
      rw [escapesNext_append hown] at hfree
      have hle := hbody.first y hy hfree
      rw [List.length_append, List.length_append]
      omega

/-- A text has no end if there is none behind its first piece. -/
theorem Passes.endless (h : Passes close own more) (hclose : close ≠ [])
    (hmore : Endless close more) : Endless close (own ++ more) := by
  intro x hx
  rcases Nat.lt_or_ge x.length own.length with hlt | hge
  · exact h.inside x hx hlt
  · rcases exists_append_of_prefix hx hge with ⟨y, rfl, hy⟩
    have hne : more ≠ [] := by
      rintro rfl
      exact hclose (List.append_eq_nil_iff.1 (List.prefix_nil.1 hy)).2
    rw [escapesNext_append (h.behind hne)]
    exact hmore y hy

/-! ## The pieces of a style with escapes -/

/-- A backslash and the character behind it, with plain characters behind them. -/
theorem passes_backslash (hhead : close.head? = some '\'') (hds : Plain ds) :
    Passes close ('\\' :: c :: ds) more := by
  have hpair : ∀ y, '\\' ∉ y → escapesNext ('\\' :: c :: y) = false := by
    intro y hy
    change escapesNext (['\\', c] ++ y) = false
    rw [escapesNext_append rfl]
    exact escapesNext_of_not_mem hy
  have hplain : '\\' ∉ ds := fun hmem => (hds _ hmem).2 rfl
  refine ⟨fun x hx hlt => ?_, fun _ => hpair ds hplain⟩
  rcases List.head?_eq_some_iff.1 hhead with ⟨quotes, rfl⟩
  rcases x with _ | ⟨a, _ | ⟨b, x⟩⟩
  · exact absurd (List.cons_prefix_cons.1 hx).1 (by decide)
  · cases (List.cons_prefix_cons.1 hx).1
    rfl
  · -- The delimiter would start with one of the plain characters.
    exfalso
    have hx : x ++ '\'' :: quotes <+: ds ++ more :=
      (List.cons_prefix_cons.1 (List.cons_prefix_cons.1 hx).2).2
    have hlt : x.length < ds.length := by
      simp only [List.length_cons] at hlt
      omega
    have hquote : ds[x.length]? = some '\'' := by
      rcases hx with ⟨t, ht⟩
      have hget : (ds ++ more)[x.length]? = ds[x.length]? := List.getElem?_append_left hlt
      rw [← hget, ← ht]
      simp
    exact (hds _ (List.mem_of_getElem? hquote)).1 rfl

theorem textLength_inside {ends : List Char → Bool} {cs : List Char} {n : Nat}
    (h : n < textLength close ends cs) :
    close.isPrefixOf (cs.drop n) = false ∧ ends (cs.drop n) = false := by
  induction cs generalizing n with
  | nil => cases h
  | cons c cs ih =>
      unfold textLength at h
      split at h
      · cases h
      · next hgo =>
          rcases n with _ | n
          · exact Bool.or_eq_false_iff.1 (Bool.eq_false_iff.2 hgo)
          · exact ih (Nat.lt_of_succ_lt_succ h)

/-- A run of text goes on as long as neither the delimiter nor a backslash comes. -/
theorem passes_text {cs : List Char} (hsplit : cs = own ++ more)
    (hlength : own.length = textLength close startsBackslash cs) :
    '\\' ∉ own ∧ Passes close own more := by
  have hbackslash : '\\' ∉ own := by
    intro hmem
    rcases List.mem_iff_getElem.1 hmem with ⟨n, hn, hget⟩
    have hends := (textLength_inside (hlength ▸ hn : n < textLength close startsBackslash cs)).2
    rw [hsplit, List.drop_append_of_le_length (Nat.le_of_lt hn), List.drop_eq_getElem_cons hn,
      hget] at hends
    cases hends
  refine ⟨hbackslash, fun x hx hlt => ?_, fun _ => escapesNext_of_not_mem hbackslash⟩
  exfalso
  have hinside : x.length < textLength close startsBackslash cs := hlength ▸ hlt
  have hnot := (textLength_inside hinside).1
  rcases hx with ⟨t, ht⟩
  rw [hsplit, ← ht, List.append_assoc, List.drop_left' rfl, Bool.eq_false_iff, ne_eq,
    List.isPrefixOf_iff_prefix] at hnot
  exact hnot (List.prefix_append _ _)

end

end Quoted

theorem Cursor.toList_textOf (c : Cursor) (own : List Char) {more : List Char}
    (h : c.rest = own ++ more) :
    (c.textOf own.length).toList = own := by
  rw [textOf, h, List.take_left' rfl, String.toList_ofList]

namespace Quoted

/-! ## What a piece has to be -/

/-- What a piece has to be in front of a text. -/
structure Follows (style : StringStyle) (cs : List Char) (p : Piece) : Prop where
  /-- The piece is an escape just if an escape of the style stands there. -/
  escape_iff : (∃ raw span, p = .escape raw span) ↔ ∃ e, IsEscape style e ∧ e <+: cs
  /-- Then it is an escape of the style, no more and no less. -/
  escape_raw : ∀ raw span, p = .escape raw span → IsEscape style raw.toList
  /-- Any other backslash is a bad escape, unless it is the last character there is. -/
  bad_iff : (∃ error raw span, p = .badEscape error raw span) ↔
    startsBackslash cs = true ∧ cs ≠ ['\\'] ∧ ¬ ∃ e, IsEscape style e ∧ e <+: cs
  /-- A bad escape is a matter of bytes just if it is a `\y` of a byte body. -/
  bad_error : ∀ error raw span, p = .badEscape error raw span → error =
    if style = .byte ∧ cs[1]? = some 'y' then .invalidByteEscape raw span
    else .invalidEscape raw span
  /-- No part of a closing delimiter is in it. -/
  bad_quote : ∀ error raw span, p = .badEscape error raw span → '\'' ∉ raw.toList
  /-- No other backslash is in it. -/
  bad_count : ∀ error raw span, p = .badEscape error raw span → raw.toList.count '\\' = 1
  /-- The last character there is may be a backslash, and is text. -/
  last : cs = ['\\'] → ∃ span, p = .text "\\" span
  /-- No other text has a backslash in it. -/
  text_backslash : ∀ value span, p = .text value span → '\\' ∈ value.toList → cs = ['\\']
  /-- Nothing is expanded. -/
  not_expansion : ∀ opener token, p ≠ .expansion opener token

/-- The text of a piece and where it stands. -/
def Piece.source : Piece → String × Span
  | .text value span => (value, span)
  | .escape raw span | .badEscape _ raw span => (raw, span)
  | .expansion _ token => (token.text, token.span)
  | .close span => ("", span)

/-- An escape has a backslash and something behind it. -/
theorem IsEscape.exists_cons {style : StringStyle} {e : List Char} (h : IsEscape style e) :
    ∃ c ds, e = '\\' :: c :: ds := by
  cases h <;> exact ⟨_, _, rfl⟩

namespace Follows

variable {style : StringStyle} {cs : List Char} {c : Char} {value : String} {span : Span}

theorem of_text (hstart : startsBackslash cs = false) (hvalue : '\\' ∉ value.toList) :
    Follows style cs (.text value span) where
  escape_iff := by
    refine ⟨fun ⟨_, _, h⟩ => (nomatch h), fun ⟨e, he, hfront⟩ => ?_⟩
    rcases he.exists_cons with ⟨c, ds, rfl⟩
    rcases hfront with ⟨t, rfl⟩
    cases hstart
  escape_raw _ _ h := nomatch h
  bad_iff := ⟨fun ⟨_, _, _, h⟩ => (nomatch h), fun h => by rw [hstart] at h; cases h.1⟩
  bad_error _ _ _ h := nomatch h
  bad_quote _ _ _ h := nomatch h
  bad_count _ _ _ h := nomatch h
  last h := by rw [h] at hstart; cases hstart
  text_backslash _ _ h hmem := by cases h; exact absurd hmem hvalue
  not_expansion _ _ h := nomatch h

theorem of_last : Follows style ['\\'] (.text "\\" span) where
  escape_iff := by
    refine ⟨fun ⟨_, _, h⟩ => (nomatch h), fun ⟨e, he, hfront⟩ => ?_⟩
    rcases he.exists_cons with ⟨c, ds, rfl⟩
    have hle := hfront.length_le
    simp at hle
  escape_raw _ _ h := nomatch h
  bad_iff := ⟨fun ⟨_, _, _, h⟩ => (nomatch h), fun h => absurd rfl h.2.1⟩
  bad_error _ _ _ h := nomatch h
  bad_quote _ _ _ h := nomatch h
  bad_count _ _ _ h := nomatch h
  last _ := ⟨span, rfl⟩
  text_backslash _ _ _ _ := rfl
  not_expansion _ _ h := nomatch h

theorem of_escape {raw : String} (h : IsEscape style raw.toList) (hfront : raw.toList <+: cs) :
    Follows style cs (.escape raw span) where
  escape_iff := ⟨fun _ => ⟨_, h, hfront⟩, fun _ => ⟨_, _, rfl⟩⟩
  escape_raw _ _ heq := by cases heq; exact h
  bad_iff := ⟨fun ⟨_, _, _, h⟩ => (nomatch h), fun hnone => absurd ⟨_, h, hfront⟩ hnone.2.2⟩
  bad_error _ _ _ h := nomatch h
  bad_quote _ _ _ h := nomatch h
  bad_count _ _ _ h := nomatch h
  last hlast := by
    rcases h.exists_cons with ⟨c, ds, hraw⟩
    have hle := hfront.length_le
    simp [hraw, hlast] at hle
  text_backslash _ _ h := nomatch h
  not_expansion _ _ h := nomatch h

theorem of_bad {error : LexicalError} {raw : String}
    (hnone : ¬ ∃ e, IsEscape style e ∧ e <+: '\\' :: c :: cs) (hquote : '\'' ∉ raw.toList)
    (hcount : raw.toList.count '\\' = 1)
    (herror : error = if style = .byte ∧ c = 'y' then .invalidByteEscape raw span
      else .invalidEscape raw span) :
    Follows style ('\\' :: c :: cs) (.badEscape error raw span) where
  escape_iff := ⟨fun ⟨_, _, h⟩ => (nomatch h), fun h => absurd h hnone⟩
  escape_raw _ _ h := nomatch h
  bad_iff := ⟨fun _ => ⟨rfl, by simp, hnone⟩, fun _ => ⟨_, _, _, rfl⟩⟩
  bad_error _ _ _ h := by cases h; simpa using herror
  bad_quote _ _ _ h := by cases h; exact hquote
  bad_count _ _ _ h := by cases h; exact hcount
  last h := by simp at h
  text_backslash _ _ h := nomatch h
  not_expansion _ _ h := nomatch h

end Follows

theorem Form.source_piece {f : Form} (h : f ≠ .close) (c : Cursor) (k : Nat) :
    (f.piece c k).source = (c.textOf k, c.spanOf k) := by
  cases f <;> first | rfl | exact absurd rfl h

theorem Form.piece_ne_close {f : Form} (h : f ≠ .close) (c : Cursor) (k : Nat) (span : Span) :
    f.piece c k ≠ .close span := by
  rintro heq
  cases f <;> first | exact h rfl | cases heq

theorem piece_badForm (style : StringStyle) (d : Char) (c : Cursor) (k : Nat) :
    (badForm style d).piece c k = .badEscape
      (if style = .byte ∧ d = 'y' then .invalidByteEscape (c.textOf k) (c.spanOf k)
        else .invalidEscape (c.textOf k) (c.spanOf k)) (c.textOf k) (c.spanOf k) := by
  unfold badForm
  by_cases h : style = .byte ∧ d = 'y'
  · rw [if_pos h, if_pos h]
    rfl
  · rw [if_neg h, if_neg h]
    rfl

section

variable {style : StringStyle} {triple : Bool} {cs : List Char}

theorem form_of_not_close (hstyle : style = .unicode ∨ style = .byte)
    (hclose : ¬ style.delimiter triple <+: cs) :
    form style triple cs = if startsBackslash cs then backslashForm style cs
      else (.text, textLength (style.delimiter triple) startsBackslash cs) := by
  unfold form
  dsimp only
  rw [if_neg (by rwa [List.isPrefixOf_iff_prefix])]
  rcases hstyle with rfl | rfl <;> rfl

/-- A backslash in front of a character is a piece that follows the rules of the style. -/
theorem follows_backslash (style : StringStyle) (d : Char) (cs : List Char) :
    ∃ f ds more, cs = ds ++ more ∧ Plain ds ∧ f ≠ .close ∧
      backslashForm style ('\\' :: d :: cs) = (f, ds.length + 2) ∧
      ∀ c : Cursor, c.rest = '\\' :: d :: cs →
        Follows style ('\\' :: d :: cs) (f.piece c (ds.length + 2)) := by
  rcases backslashForm_cases style d cs with ⟨f, ds, more, rfl, hds, hbackslash, hf⟩
  have htext : ∀ c : Cursor, c.rest = '\\' :: d :: (ds ++ more) →
      (c.textOf (ds.length + 2)).toList = '\\' :: d :: ds := fun c hc =>
    c.toList_textOf ('\\' :: d :: ds) hc
  rcases hf with ⟨rfl, hescape⟩ | ⟨rfl, hd⟩
  · refine ⟨.escape, ds, more, rfl, hds, nofun, hbackslash, fun c hc => .of_escape ?_ ?_⟩
    · rw [htext c hc]
      exact hescape
    · rw [htext c hc]
      exact List.prefix_append _ more
  · have hnone : ¬ ∃ e, IsEscape style e ∧ e <+: '\\' :: d :: (ds ++ more) := by
      rintro ⟨e, he, t, ht⟩
      have hgood := he.backslashForm t
      rw [ht, hbackslash] at hgood
      have hbad := congrArg Prod.fst hgood
      simp only [badForm] at hbad
      split at hbad <;> cases hbad
    have hplain : Plain (d :: ds) := List.forall_mem_cons.2 ⟨hd, hds⟩
    refine ⟨_, ds, more, rfl, hds, ?_, hbackslash, fun c hc => ?_⟩
    · unfold badForm
      split <;> exact nofun
    · rw [piece_badForm]
      refine .of_bad hnone ?_ ?_ rfl
      · rw [htext c hc, List.mem_cons, not_or]
        exact ⟨by decide, fun h => (hplain _ h).1 rfl⟩
      · rw [htext c hc, List.count_cons_self, List.count_eq_zero.2 fun h => (hplain _ h).2 rfl]

/-- In front of its closing delimiter a body of a style with escapes has a piece that
    follows the rules of the style and is passed over. -/
theorem form_cases (hstyle : style = .unicode ∨ style = .byte) (hne : cs ≠ [])
    (hclose : ¬ style.delimiter triple <+: cs) :
    ∃ f own more, cs = own ++ more ∧ own ≠ [] ∧ f ≠ .close ∧
      form style triple cs = (f, own.length) ∧ Passes (style.delimiter triple) own more ∧
      ∀ c : Cursor, c.rest = cs → Follows style cs (f.piece c own.length) := by
  have hhead : (style.delimiter triple).head? = some '\'' := by
    rcases hstyle with rfl | rfl <;> cases triple <;> rfl
  rw [form_of_not_close hstyle hclose]
  rcases hback : startsBackslash cs with _ | _
  · -- A run of text: it is not empty, because neither delimiter nor backslash stands in front.
    have hpos : 0 < textLength (style.delimiter triple) startsBackslash cs := by
      rcases cs with _ | ⟨d, cs⟩
      · exact absurd rfl hne
      · exact textLength_pos (by rwa [Bool.eq_false_iff, ne_eq, List.isPrefixOf_iff_prefix]) hback
    have hlength : (cs.take (textLength (style.delimiter triple) startsBackslash cs)).length
        = textLength (style.delimiter triple) startsBackslash cs := by
      rw [List.length_take, Nat.min_eq_left (textLength_le _ _ _)]
    have hsplit := (List.take_append_drop
      (textLength (style.delimiter triple) startsBackslash cs) cs).symm
    rcases passes_text hsplit hlength with ⟨hplain, hpasses⟩
    refine ⟨.text, _, _, hsplit, ?_, nofun, by rw [hlength]; rfl, hpasses, fun c hc =>
      .of_text hback ?_⟩
    · rwa [← List.length_pos_iff, hlength]
    · rwa [c.toList_textOf _ (hc.trans hsplit)]
  · rcases List.head?_eq_some_iff.1 (beq_iff_eq.1 hback) with ⟨cs, rfl⟩
    rcases cs with _ | ⟨d, cs⟩
    · -- The last character there is.
      refine ⟨.text, ['\\'], [], rfl, by simp, nofun, rfl,
        ⟨fun x hx hlt => ?_, fun h => absurd rfl h⟩, fun c hc => ?_⟩
      · rcases List.head?_eq_some_iff.1 hhead with ⟨quotes, hquotes⟩
        cases List.length_eq_zero_iff.1 (Nat.lt_one_iff.1 hlt)
        rw [hquotes] at hx
        exact absurd (List.cons_prefix_cons.1 hx).1 (by decide)
      · have htext : c.textOf 1 = "\\" :=
          String.toList_injective (c.toList_textOf ['\\'] hc)
        change Follows style ['\\'] (.text (c.textOf 1) (c.spanOf 1))
        rw [htext]
        exact .of_last
    · rcases follows_backslash style d cs with ⟨f, ds, more, rfl, hds, hf, hform, hfollows⟩
      rw [if_pos rfl, hform]
      exact ⟨f, '\\' :: d :: ds, more, rfl, by simp, hf, rfl, passes_backslash hhead hds, hfollows⟩

end

end Quoted

/-! ## Pulling pieces -/

namespace Cursor

open Quoted

/-- Pieces pulled one after the other, each with the place in front of it, up to the
    closing delimiter or an error. -/
inductive Pulls (style : StringStyle) (triple : Bool) (opening : Span) :
    Cursor → List (Cursor × Piece) → Except LexicalError Span → Cursor → Prop
  | close {c after : Cursor} {span : Span} :
      c.piece style triple opening = (.ok (.close span), after) →
      Pulls style triple opening c [] (.ok span) after
  | error {c after : Cursor} {e : LexicalError} :
      c.piece style triple opening = (.error e, after) →
      Pulls style triple opening c [] (.error e) after
  | piece {c next after : Cursor} {p : Piece} {pieces : List (Cursor × Piece)}
      {result : Except LexicalError Span} :
      c.piece style triple opening = (.ok p, next) → (∀ span, p ≠ .close span) →
      Pulls style triple opening next pieces result after →
      Pulls style triple opening c ((c, p) :: pieces) result after

/-- What pulling comes to behind the pieces, which together are the text. The text is the
    body, and the literal is closed behind it. Or it is all there is, and then the literal
    is unterminated at its opener. -/
inductive Ends (style : StringStyle) (triple : Bool) (opening : Span) (c : Cursor) :
    List Char → Except LexicalError Span → Cursor → Prop
  | closed {body : List Char} : EndsBody (style.delimiter triple) c.rest body →
      Ends style triple opening c body
        (.ok ((c.advance body.length).spanOf (style.delimiter triple).length))
        (c.advance (body.length + (style.delimiter triple).length))
  | endless : Endless (style.delimiter triple) c.rest →
      Ends style triple opening c c.rest (.error (.unterminatedString style triple opening))
        (c.advance c.rest.length)

section

variable {style : StringStyle} {triple : Bool} {opening : Span} {c after after' : Cursor}
  {pieces pieces' : List (Cursor × Piece)} {result result' : Except LexicalError Span}
  {text own more : List Char}

/-- Pieces are pulled in one way only. -/
theorem Pulls.unique (h : c.Pulls style triple opening pieces result after)
    (h' : c.Pulls style triple opening pieces' result' after') :
    pieces = pieces' ∧ result = result' ∧ after = after' := by
  induction h generalizing pieces' with
  | close hpiece | error hpiece =>
      cases h' with
      | close hpiece' | error hpiece' =>
          rw [hpiece] at hpiece'
          cases hpiece'
          try exact ⟨rfl, rfl, rfl⟩
      | piece hpiece' hne _ =>
          rw [hpiece] at hpiece'
          cases hpiece'
          try exact absurd rfl (hne _)
  | piece hpiece hne _ ih =>
      cases h' with
      | close hpiece' | error hpiece' =>
          rw [hpiece] at hpiece'
          cases hpiece'
          try exact absurd rfl (hne _)
      | piece hpiece' _ hrest' =>
          rw [hpiece] at hpiece'
          cases hpiece'
          rcases ih hrest' with ⟨rfl, hsame⟩
          exact ⟨rfl, hsame⟩

/-- In front of the closing delimiter the body is empty. -/
theorem ends_close (h : style.delimiter triple <+: c.rest) :
    c.Ends style triple opening [] (.ok (c.spanOf (style.delimiter triple).length))
      (c.advance (style.delimiter triple).length) := by
  have hbody : EndsBody (style.delimiter triple) c.rest [] :=
    ⟨h, rfl, fun x _ _ => Nat.zero_le _⟩
  have hends : c.Ends style triple opening [] _ _ := .closed hbody
  rwa [List.length_nil, c.advance_zero, Nat.zero_add] at hends

/-- At the end of the text there is no delimiter. -/
theorem ends_nil (h : c.rest = []) (hdelimiter : style.delimiter triple ≠ []) :
    c.Ends style triple opening [] (.error (.unterminatedString style triple opening)) c := by
  have hendless : Endless (style.delimiter triple) c.rest := by
    intro x hx
    rw [h] at hx
    exact absurd (List.append_eq_nil_iff.1 (List.prefix_nil.1 hx)).2 hdelimiter
  have hends : c.Ends style triple opening c.rest _ _ := .endless hendless
  rwa [h, List.length_nil, c.advance_zero] at hends

/-- A piece in front of the others is a part of the body. -/
theorem Ends.piece (hsplit : c.rest = own ++ more)
    (hpasses : Passes (style.delimiter triple) own more) (hdelimiter : style.delimiter triple ≠ [])
    (h : (c.advance own.length).Ends style triple opening text result after) :
    c.Ends style triple opening (own ++ text) result after := by
  have hrest : (c.advance own.length).rest = more := by
    change c.rest.drop own.length = more
    rw [hsplit, List.drop_left' rfl]
  cases h with
  | closed hbody =>
      rw [hrest] at hbody
      rw [advance_advance, advance_advance, ← Nat.add_assoc, ← List.length_append]
      exact .closed (hsplit ▸ hpasses.endsBody hdelimiter hbody)
  | endless hendless =>
      rw [hrest] at hendless
      rw [hrest, advance_advance, ← List.length_append, ← hsplit]
      exact .endless (hsplit ▸ hpasses.endless hdelimiter hendless)

/-- The pieces of a unicode or byte body, pulled one after the other, are parts of the
    text that follow the rules of the style. Together they are the body, which ends in
    front of the first closing delimiter that is not escaped. If there is none, they are
    all that is left, and the literal is unterminated at its opener. -/
theorem pulls_body (hstyle : style = .unicode ∨ style = .byte) (triple : Bool) (opening : Span)
    (c : Cursor) :
    ∃ pieces result after, c.Pulls style triple opening pieces result after ∧
      (∀ x ∈ pieces, (∃ n, x.2.source = (x.1.textOf n, x.1.spanOf n)) ∧
        Follows style x.1.rest x.2) ∧
      c.Ends style triple opening (pieces.flatMap (·.2.source.1.toList)) result after := by
  have hdelimiter : style.delimiter triple ≠ [] := by
    cases triple <;> exact (nomatch ·)
  obtain ⟨n, hn⟩ : ∃ n, c.rest.length = n := ⟨_, rfl⟩
  induction n using Nat.strongRecOn generalizing c with
  | ind n ih =>
      by_cases hne : c.rest = []
      · have hpiece : c.piece style triple opening
            = (.error (.unterminatedString style triple opening), c) := by
          unfold Cursor.piece
          rw [hne]
          rfl
        exact ⟨[], _, c, .error hpiece, List.forall_mem_nil _, ends_nil hne hdelimiter⟩
      · by_cases hclose : style.delimiter triple <+: c.rest
        · exact ⟨[], _, _, .close (piece_eq hne (form_close_iff.2 ⟨hclose, rfl⟩)),
            List.forall_mem_nil _, ends_close hclose⟩
        · rcases form_cases hstyle hne hclose with
            ⟨f, own, more, hsplit, hown, hf, hform, hpasses, hfollows⟩
          have hlt : (c.advance own.length).rest.length < n := by
            have hpos : 0 < own.length := List.length_pos_iff.2 hown
            change (c.rest.drop own.length).length < n
            rw [List.length_drop, hn]
            have hlength := congrArg List.length hsplit
            rw [hn, List.length_append] at hlength
            omega
          rcases ih _ hlt (c.advance own.length) rfl with
            ⟨pieces, result, after, hpulls, hpieces, hends⟩
          have hsource := Form.source_piece hf c own.length
          refine ⟨_, _, _, .piece (piece_eq hne hform) (Form.piece_ne_close hf c _) hpulls,
            List.forall_mem_cons.2 ⟨⟨⟨_, hsource⟩, hfollows c rfl⟩, hpieces⟩, ?_⟩
          rw [List.flatMap_cons, hsource, c.toList_textOf own hsplit]
          exact hends.piece hsplit hpasses hdelimiter

end

/-- A good escape, a bad one, an escaped quote and a run of text, with the closing quote
    right behind them. -/
theorem pulls_body_of_bytes :
    (StringStyle.byte = .unicode ∨ StringStyle.byte = .byte) ∧
      ∃ pieces span after,
        (ofSource "\\yff\\yf\\'a' b").Pulls .byte false default pieces (.ok span) after ∧
          (∀ x ∈ pieces, Follows .byte x.1.rest x.2) ∧
          pieces.flatMap (·.2.source.1.toList) = "\\yff\\yf\\'a".toList ∧
          after.rest = " b".toList := by
  refine ⟨.inr rfl, ?_⟩
  let text : String := "\\yff\\yf\\'a' b"
  rcases pulls_body (.inr rfl) false default (ofSource "\\yff\\yf\\'a' b") with
    ⟨pieces, result, after, hpulls, hpieces, hends⟩
  generalize hflat : pieces.flatMap (·.2.source.1.toList) = body at hends
  cases hends with
  | closed hbody =>
      have hlength : ∀ n < 11, text.toList.take n ++ ['\''] <+: text.toList →
          escapesNext (text.toList.take n) = false → n = 10 := by decide
      have hle : body.length ≤ 10 := hbody.first "\\yff\\yf\\'a".toList (by decide) (by decide)
      have htake := List.prefix_iff_eq_take.1 ((List.prefix_append body _).trans hbody.closes)
      have hbodyEq : body = "\\yff\\yf\\'a".toList := by
        rw [htake, hlength body.length (Nat.lt_succ_of_le hle) (htake ▸ hbody.closes)
          (htake ▸ hbody.unescaped)]
        rfl
      subst hbodyEq
      exact ⟨pieces, _, _, hpulls, fun x hx => (hpieces x hx).2, hflat, rfl⟩
  | endless hendless =>
      exact absurd (hendless "\\yff\\yf\\'a".toList (by decide)) (by decide)

end Cursor

end Ysh
