import Ysh.Proofs.Coverage.Word
import Ysh.Proofs.Progress.Loops
import Ysh.Proofs.Reread.Expansion
import Ysh.Proofs.Reread.Literal

/-!
# Reading Printed Strings

A string is printed as it was written, but for what stands inside its expansions. So
the pieces of the printed string are those of the source, as long as each of them ends
where it did. A run of text ends in front of the next piece, and of that the front is
enough; an escape ends by itself; an expansion goes on with the same character behind
it. The closing delimiter is a front like any other.

Fragments are followed through the loop that reads them. What has been read between two
places of the source is read again in front of every text that goes on as the source
did, and one more fragment keeps it so.

## Main definitions

* `Continues`: A text that goes on as a place of a string did.
* `RereadsFragment`, `RereadsFragments`: What stands between two places of a string.
* `RereadsString`: A string is read again behind its opening quote.
* `Grammar.KeepsExpansions`: The expansions that a grammar reads are read again.

## Theorems

* `rereads_text`, `rereads_escape`, `rereads_expansionFragment`: The kinds of fragment.
* `RereadsFragments.string`: Fragments up to the closing quote are a string.
* `Grammar.keeps_stringBody`: The strings of a source are read again.
-/

namespace Ysh

open Grammar

variable {d : Option Definition} {style : StringStyle} {triple : Bool}

/-! ## Pieces -/

namespace Quoted

theorem frontOf_head? {cs : List Char} {n : Nat} {f : Form}
    (h : form style triple cs = (f, n)) : (frontOf style triple f cs).head? = cs.head? := by
  cases f with
  | close =>
      rcases (form_close_iff.1 h).1 with ⟨t, rfl⟩
      cases triple <;> rfl
  | _ => cases cs <;> rfl

/-- An escape is a backslash and something behind it. -/
theorem two_le_of_form_escape {cs : List Char} {n : Nat}
    (h : form style triple cs = (.escape, n)) : 2 ≤ n := by
  unfold form doubleQuotedForm at h
  dsimp only at h
  repeat' split at h
  all_goals first
    | exact backslashForm_escape h
    | (cases h; done)
    | (cases h; exact Nat.le_refl 2)

end Quoted

open Quoted

/-- The text goes on as a place of a string does at which nothing is wrong: the piece
    that stands at the place has its front there. -/
structure Continues (style : StringStyle) (triple : Bool) (after rest : List Char) : Prop where
  more : after ≠ []
  good : (form style triple after).1 ≠ .badEscape ∧ (form style triple after).1 ≠ .badByteEscape
  unfinished : (form style triple after).1 = .text → after.drop (form style triple after).2 ≠ []
  front : frontOf style triple (form style triple after).1 after <+: rest

theorem Continues.head? {after rest : List Char} (h : Continues style triple after rest) :
    rest.head? = after.head? := by
  have hhead : (frontOf style triple (form style triple after).1 after).head? = after.head? :=
    frontOf_head? (n := (form style triple after).2) rfl
  rcases List.exists_cons_of_ne_nil h.more with ⟨c, cs, hc⟩
  have hsome : (frontOf style triple (form style triple after).1 after).head? = some c := by
    rw [hhead, hc]
    rfl
  rcases List.head?_eq_some_iff.1 hsome with ⟨t, ht⟩
  rcases h.front with ⟨r, hr⟩
  rw [← hr, ht, hc]
  rfl

/-- The closing delimiter goes on as itself. -/
theorem continues_close (after rest : List Char) :
    Continues style triple (style.delimiter triple ++ after) (style.delimiter triple ++ rest) := by
  have hform : form style triple (style.delimiter triple ++ after)
      = (.close, (style.delimiter triple).length) :=
    form_close_iff.2 ⟨List.prefix_append _ _, rfl⟩
  refine ⟨?_, ?_, ?_, ?_⟩
  · cases triple <;> exact nofun
  · rw [hform]
    exact ⟨nofun, nofun⟩
  · rw [hform]
    exact nofun
  · rw [hform]
    exact List.prefix_append _ _

/-! ## Fragments -/

/-- The fragment between two places of a string is read again by one round. -/
structure RereadsFragment (d : Option Definition) (style : StringStyle) (triple : Bool)
    (start after : List Char) (f : Fragment) : Prop where
  opens : (form style triple start).1 ≠ .close
  nonempty : ∀ indent, 0 < (f.chars indent "").length
  reads : ∀ indent rest, Continues style triple after rest →
    Continues style triple start (f.chars indent "" ++ rest) ∧
      ∀ n ctx s opening fragments, Room d n ctx s → s.cursor.rest = f.chars indent "" ++ rest →
        Attains ((turns n).stringRound style triple opening fragments) ctx s fun r t =>
          (∃ f', r = .again (fragments.push f') ∧ f'.erase = f.erase) ∧ t.cursor.rest = rest

section

variable {after x : List Char} {span : Span}

/-- A run of text is read again. -/
theorem rereads_text (hne : x ≠ [])
    (hform : form style triple (x ++ after) = (.text, x.length)) :
    RereadsFragment d style triple (x ++ after) after (.text (.ofList x) span) where
  opens := by rw [hform]; exact nofun
  nonempty indent := by
    change 0 < (String.ofList x).toList.length
    rw [String.toList_ofList]
    exact List.length_pos_iff.2 hne
  reads indent rest hrest := by
    have htext : (Tree.text (.ofList x) span).chars indent "" = x := String.toList_ofList
    have hfront := isFront_frontOf hne hrest.more hform hrest.good hrest.unfinished
    rcases hfront.2 with ⟨t, ht⟩
    rcases hrest.front with ⟨t', ht'⟩
    have hform' : form style triple (x ++ rest) = (.text, x.length) := by
      rw [← ht']
      refine form_text_of_front hfront.1 hne (t := t) ?_ t'
      rwa [ht]
    rw [htext]
    refine ⟨⟨by simp [hne], ?_, fun _ => ?_, ?_⟩, fun n ctx s opening fragments hroom hs => ?_⟩
    · rw [hform]
      exact ⟨nofun, nofun⟩
    · rw [hform, List.drop_left' rfl]
      exact hrest.more
    · rw [hform]
      rcases List.exists_cons_of_ne_nil hne with ⟨c, x, rfl⟩
      exact List.prefix_append [c] _
    · refine (attains_textRound hne hs hform').mono ?_
      rintro r t ⟨⟨span', rfl⟩, ht⟩
      exact ⟨⟨_, rfl, rfl⟩, ht⟩

/-- An escape is read again. -/
theorem rereads_escape (hform : form style triple (x ++ after) = (.escape, x.length)) :
    RereadsFragment d style triple (x ++ after) after (.escape (.ofList x) span) := by
  have htwo := two_le_of_form_escape hform
  have hne : x ≠ [] := by
    rintro rfl
    cases htwo
  refine ⟨by rw [hform]; exact nofun, fun indent => ?_, fun indent rest hrest => ?_⟩
  · change 0 < (String.ofList x).toList.length
    rw [String.toList_ofList]
    exact List.length_pos_iff.2 hne
  · have htext : (Tree.escape (.ofList x) span).chars indent "" = x := String.toList_ofList
    have hform' := form_escape_append hform rest
    rw [htext]
    refine ⟨⟨by simp [hne], ?_, fun h => ?_, ?_⟩, fun n ctx s opening fragments hroom hs => ?_⟩
    · rw [hform]
      exact ⟨nofun, nofun⟩
    · rw [hform] at h
      cases h
    · rw [hform]
      change (x ++ after).take 2 <+: x ++ rest
      rw [List.take_append_of_le_length htwo]
      exact (List.take_prefix 2 x).trans (List.prefix_append _ _)
    · refine attains_pieceRound hne hs hform' fun t ht => attains_pure ⟨⟨_, rfl, ?_⟩, ht⟩
      rw [Cursor.textOf, hs, List.take_left' rfl]
      rfl

/-- An expansion in a string is read again. -/
theorem rereads_expansionFragment {o : Opener} {start : List Char} {e : Expansion}
    (hform : form style triple (x ++ start) = (.expansion o, x.length))
    (h : RereadsExpansion d o x after e) :
    RereadsFragment d style triple (x ++ start) after (.expansionFragment e) := by
  rcases h with ⟨tail, htext, hreads⟩
  have hdollar := form_expansion_iff.1 hform
  rcases dollar?_head hdollar.2 with ⟨u, hu⟩
  have hx : ∃ y, x = '$' :: y := by
    cases x with
    | nil =>
        have hne : [] ++ start ≠ [] := by
          rw [hu]
          exact nofun
        have hpos : 0 < (form style triple ([] ++ start)).2 := (form_within hne).1
        rw [hform] at hpos
        cases hpos
    | cons c y =>
        rw [List.cons_append] at hu
        exact ⟨y, by rw [(List.cons.inj hu).1]⟩
  rcases hx with ⟨y, rfl⟩
  refine ⟨by rw [hform]; exact nofun, fun indent => ?_, fun indent rest hrest => ?_⟩
  · change 0 < (e.chars indent "").length
    rw [htext]
    exact Nat.succ_pos _
  · have htext : (Tree.expansionFragment e).chars indent "" = '$' :: y ++ tail indent :=
      htext indent
    rcases hreads indent rest (.inl hrest.head?) with ⟨hopens, hread⟩
    rw [htext, List.append_assoc]
    refine ⟨⟨nofun, ?_, fun h => ?_, ?_⟩, fun n ctx s opening fragments hroom hs => ?_⟩
    · rw [hform]
      exact ⟨nofun, nofun⟩
    · rw [hform] at h
      cases h
    · rw [hform]
      exact List.prefix_append ['$'] _
    · have hform' : form style triple ('$' :: y ++ (tail indent ++ rest))
          = (.expansion o, ('$' :: y).length) := by
        refine form_expansion_iff.2 ⟨hdollar.1, hopens.resolve_right fun hsigil => ?_⟩
        rcases sigil?_head hsigil with ⟨t, ht | ht⟩ <;> cases ht
      refine attains_pieceRound (List.cons_ne_nil _ _) hs hform' fun t ht => ?_
      refine attains_seq (attains_attempt (hread n ctx t _ (hroom.behind ?_) ?_ ht)) ?_
      · rw [hs, ht]
        simp only [List.length_append, List.length_cons]
        omega
      · change s.cursor.textOf _ = _
        rw [Cursor.textOf, hs, List.take_left' rfl]
      · rintro r u ⟨a, rfl, ha, hu⟩
        refine attains_pure ⟨⟨_, rfl, ?_⟩, hu⟩
        rw [Tree.erase, Tree.erase, ha]

end

/-- The fragments between two places of a string are read again, round by round. -/
structure RereadsFragments (d : Option Definition) (style : StringStyle) (triple : Bool)
    (start after : List Char) (fragments : List Fragment) : Prop where
  opens : (start = after ∧ fragments = []) ∨ (form style triple start).1 ≠ .close
  reads : ∀ indent rest, Continues style triple after rest →
    Continues style triple start (fragments.flatMap (·.chars indent "") ++ rest) ∧
      ∀ n ctx s opening, Room d n ctx s →
        s.cursor.rest = fragments.flatMap (·.chars indent "") ++ rest →
          ∃ fragments' t, Runs ((turns n).stringRound style triple opening) ctx #[] s fragments' t ∧
            fragments'.toList.map Tree.erase = fragments.map Tree.erase ∧ t.cursor.rest = rest

theorem rereadsFragments_nil (start : List Char) :
    RereadsFragments d style triple start start [] where
  opens := .inl ⟨rfl, rfl⟩
  reads _ _ hrest := ⟨hrest, fun _ _ s _ _ hs => ⟨#[], s, .refl _ _, rfl, hs⟩⟩

/-- One more fragment. -/
theorem RereadsFragments.snoc {start mid after : List Char} {fragments : List Fragment}
    {f : Fragment} (h : RereadsFragments d style triple start mid fragments)
    (hf : RereadsFragment d style triple mid after f) :
    RereadsFragments d style triple start after (fragments ++ [f]) where
  opens := by
    rcases h.opens with ⟨rfl, -⟩ | h
    · exact .inr hf.opens
    · exact .inr h
  reads indent rest hrest := by
    rcases hf.reads indent rest hrest with ⟨hmid, hround⟩
    rcases h.reads indent _ hmid with ⟨hstart, hruns⟩
    rw [List.flatMap_append, List.flatMap_singleton, List.append_assoc]
    refine ⟨hstart, fun n ctx s opening hroom hs => ?_⟩
    rcases hruns n ctx s opening hroom hs with ⟨fragments', t, hruns, hsame, ht⟩
    have hle : t.cursor.rest.length ≤ s.cursor.rest.length := by
      rw [ht, hs]
      simp
    rcases hround n ctx t opening fragments' (hroom.shorter hle) ht with
      ⟨r, u, hstep, hquiet, ⟨f', rfl, hf'⟩, hu⟩
    refine ⟨_, u, hruns.snoc hstep hquiet ?_, ?_, hu⟩
    · have hpos := hf.nonempty indent
      rw [hu, ht, List.length_append]
      omega
    · rw [Array.toList_push, List.map_append, List.map_append, hsame, List.map_singleton,
        List.map_singleton, hf']

/-! ## Strings -/

/-- A string of a style is read again behind its opening quote, where the source went on
    with `after` behind the closing one. -/
def RereadsString (d : Option Definition) (style : StringStyle) (triple : Bool)
    (after : List Char) (str : StringLiteral) : Prop :=
  ∃ tail : Nat → List Char,
    (∀ indent, str.chars indent "" = style.tag.toList ++ style.delimiter triple ++ tail indent) ∧
    ∀ indent rest, Resumes after rest →
      (∀ mode, Lexed mode (style.tag.toList ++ style.delimiter triple) (.quote style triple)
        (tail indent ++ rest)) ∧
      ∀ n ctx s opening, Room d n ctx s → s.cursor.rest = tail indent ++ rest →
        Attains ((turns n).stringBody style triple opening) ctx s fun a t =>
          a.erase = str.erase ∧ t.cursor.rest = rest

/-- Fragments up to the closing quote are a string that is read again. -/
theorem RereadsFragments.string {start after : List Char} {fragments : List Fragment} {span : Span}
    (h : RereadsFragments d style triple start (style.delimiter triple ++ after) fragments)
    (hstart : triple = false → [style.quote, style.quote].isPrefixOf start = false) :
    RereadsString d style triple after (.string style triple (.ofList fragments) span) := by
  refine ⟨fun indent => fragments.flatMap (·.chars indent "") ++ style.delimiter triple,
    fun indent => ?_, fun indent rest hrest => ?_⟩
  · change (style.tag ++ String.ofList (style.delimiter triple)
      ++ (Tree.ofList fragments).write indent ""
        ++ String.ofList (style.delimiter triple)).toList = _
    have hbody : ((Tree.ofList fragments).write indent "").toList = _ :=
      Tree.chars_ofList_flatMap (by simp) (by simp) fragments indent
    simp [hbody]
  · rcases h.reads indent _ (continues_close after rest) with ⟨hcontinues, hruns⟩
    rw [List.append_assoc]
    refine ⟨fun mode => Lexed.quote_iff.2 ⟨rfl, ?_⟩, fun n ctx s opening hroom hs => ?_⟩
    · rintro rfl
      have hsource := hstart rfl
      rcases h.opens with ⟨hnil, rfl⟩ | hopens
      · -- An empty string is followed by no further quote.
        rw [hnil] at hsource
        have hafter : after.head? ≠ some style.quote := by
          intro hc
          rcases List.head?_eq_some_iff.1 hc with ⟨t, rfl⟩
          simp [StringStyle.delimiter, List.isPrefixOf] at hsource
        have hne := hrest.quote_ne hafter
        cases rest with
        | nil => simp [StringStyle.delimiter, List.isPrefixOf]
        | cons c rest =>
            have hc : style.quote ≠ c := fun hc => hne (by rw [hc]; rfl)
            simp [StringStyle.delimiter, List.isPrefixOf, hc]
      · -- The first piece of any other string is not the closing quote.
        have hhead : start.head? ≠ some style.quote := by
          intro hc
          rcases List.head?_eq_some_iff.1 hc with ⟨t, rfl⟩
          refine hopens (congrArg Prod.fst (form_close_iff.2 ⟨⟨t, rfl⟩, rfl⟩))
        have heq := hcontinues.head?
        generalize fragments.flatMap (·.chars indent "") ++ (style.delimiter false ++ rest) = text
          at heq ⊢
        rw [← heq] at hhead
        cases text with
        | nil => rfl
        | cons c text =>
            have hc : style.quote ≠ c := fun hc => hhead (by rw [hc]; rfl)
            simp [List.isPrefixOf, hc]
    · rcases hruns n ctx s opening hroom hs with ⟨fragments', t, hruns, hsame, ht⟩
      refine attains_seq (hruns.attains_loop (Q := fun as u => as = fragments' ∧
        u.cursor.rest = rest) ((attains_closeRound ht).mono fun r u hr =>
          ⟨fragments', hr.1, rfl, hr.2⟩)) ?_
      rintro as u ⟨rfl, hu⟩
      refine attains_look (a := u.cursor.offset) rfl (attains_pure ⟨?_, hu⟩)
      rw [Tree.erase, Tree.erase, Tree.erase_ofList, Tree.erase_ofList, hsame]

/-! ## Strings of a source -/

/-- The expansions that the grammar reads behind their opener are read again. -/
def Grammar.KeepsExpansions (D : List Diagnostic) (g : Grammar) : Prop :=
  ∀ {opener : Opener} {token : Token} {front : Cursor} {text : List Char} {ctx : Context}
    {s : State}, Quiet ctx.limits D → opener.Read token front text s.cursor →
      Ensures D (g.expansion opener token) ctx s fun e s' =>
        RereadsExpansion ctx.definition opener text s'.cursor.rest e

variable {D : List Diagnostic} {g : Grammar} [g.Stepwise]

/-- A piece of a string takes some characters, which have the form of the piece with what is
    left behind them. -/
theorem form_take {cs : List Char} {f : Form} {k : Nat} (hne : cs ≠ [])
    (hform : form style triple cs = (f, k)) :
    cs.take k ≠ [] ∧ form style triple (cs.take k ++ cs.drop k) = (f, (cs.take k).length) := by
  have hwithin : 0 < (form style triple cs).2 ∧ _ := form_within hne
  rw [hform] at hwithin
  have hlength : (cs.take k).length = k := List.length_take_of_le hwithin.2
  constructor
  · rw [← List.length_pos_iff, hlength]
    exact hwithin.1
  · rw [List.take_append_drop, hlength, hform]

/-- The piece that closes a string is its delimiter. -/
theorem take_of_form_close {cs : List Char} {k : Nat} (hform : form style triple cs = (.close, k)) :
    cs.take k = style.delimiter triple := by
  have hclose := form_close_iff.1 hform
  rcases hclose.1 with ⟨t, rfl⟩
  rw [hclose.2, List.take_left' rfl]

/-- One round more of a string of a source, or its end. -/
theorem Grammar.keeps_stringRound (hg : g.KeepsExpansions D) {opening : Span} {start : List Char}
    (fragments : Array Fragment) {ctx : Context} {s : State} (hq : Quiet ctx.limits D)
    (h : RereadsFragments ctx.definition style triple start s.cursor.rest fragments.toList) :
    Ensures D (g.stringRound style triple opening fragments) ctx s
      (Round.Keeps
        (fun fragments s' =>
          RereadsFragments ctx.definition style triple start s'.cursor.rest fragments.toList)
        fun fragments s' => RereadsFragments ctx.definition style triple start
          (style.delimiter triple ++ s'.cursor.rest) fragments.toList) := by
  have hpush : ∀ {f : Fragment} {rest : List Char},
      RereadsFragment ctx.definition style triple s.cursor.rest rest f →
        RereadsFragments ctx.definition style triple start rest (fragments.push f).toList := by
    intro f rest hf
    rw [Array.toList_push]
    exact h.snoc hf
  refine Moving.ensures_seq (fun p => ?_) (ensures_raw (D := D)) ?_
  · rcases p with e | (_ | _ | _ | ⟨opener, token⟩ | _)
    · infer_instance
    · infer_instance
    · infer_instance
    · infer_instance
    · exact Moving.bind inferInstance fun r => by cases r <;> infer_instance
    · infer_instance
  · rintro p s1 ⟨rfl, hcursor⟩
    by_cases hempty : s.cursor.rest = []
    · have hpiece : s.cursor.piece style triple opening
          = (.error (.unterminatedString style triple opening), s.cursor) := by
        rw [Cursor.piece, hempty]
        rfl
      rw [hpiece]
      exact ensures_blame hq rfl
    rcases hform : form style triple s.cursor.rest with ⟨f, k⟩
    have hpiece : s.cursor.piece style triple opening = _ := Cursor.piece_eq hempty hform
    have hcover := s.cursor.cover_piece style triple opening
    rw [hpiece] at hcursor hcover ⊢
    rcases form_take hempty hform with ⟨hne, hform'⟩
    have hsplit : s.cursor.rest.take k ++ s1.cursor.rest = s.cursor.rest := by
      rw [hcursor]
      exact List.take_append_drop k _
    have hrest : s1.cursor.rest = s.cursor.rest.drop k := by
      rw [hcursor]
      rfl
    rw [← hrest] at hform'
    cases f with
    | text =>
        have hf : RereadsFragment ctx.definition style triple _ s1.cursor.rest
            (.text _ (s.cursor.spanOf k)) := rereads_text hne hform'
        rw [hsplit] at hf
        exact ensures_pure.2 fun _ => hpush hf
    | escape =>
        have hf : RereadsFragment ctx.definition style triple _ s1.cursor.rest
            (.escape _ (s.cursor.spanOf k)) := rereads_escape hform'
        rw [hsplit] at hf
        exact ensures_pure.2 fun _ => hpush hf
    | badEscape => exact ensures_blame hq rfl
    | badByteEscape => exact ensures_blame hq rfl
    | expansion opener =>
        rcases hcover with ⟨text, hread⟩
        rw [← hcursor] at hread
        have htext : text = s.cursor.rest.take k := by
          have hshown : String.ofList (s.cursor.rest.take k) = .ofList text := hread.shown
          exact (String.ofList_injective hshown).symm
        subst htext
        refine Moving.ensures_seq (fun r => by cases r <;> infer_instance)
          (ensures_attempt (hg hq hread)) fun r s2 hr => ?_
        cases r with
        | ok e =>
            have hf := rereads_expansionFragment hform' (hr e rfl)
            rw [hsplit] at hf
            exact ensures_pure.2 fun _ => hpush hf
        | error e => exact ensures_blame hq rfl
    | close =>
        refine ensures_pure.2 fun _ => ?_
        rw [take_of_form_close hform] at hsplit
        change RereadsFragments _ _ _ _ (_ ++ s1.cursor.rest) _
        rwa [hsplit]

/-- The strings of a source are read again. -/
theorem Grammar.keeps_stringBody (hg : g.KeepsExpansions D) {opening : Span} {ctx : Context}
    {s : State} (hq : Quiet ctx.limits D)
    (hstart : triple = false → [style.quote, style.quote].isPrefixOf s.cursor.rest = false) :
    Ensures D (g.stringBody style triple opening) ctx s fun str s' =>
      RereadsString ctx.definition style triple s'.cursor.rest str := by
  have hloop : Progresses (g.stringRound style triple opening) ctx :=
    (ScanLoop.string style triple opening).progresses
  refine ensures_seq (hloop.ensures_loop (I := fun fragments s' => RereadsFragments ctx.definition
    style triple s.cursor.rest s'.cursor.rest fragments.toList) (rereadsFragments_nil _)
    fun fragments s1 h => keeps_stringRound hg fragments hq h) fun fragments s1 h => ?_
  exact Scan.ensures_position (ensures_pure.2 fun _ => h.string hstart)

end Ysh
