import Ysh.Grammar.Language
import Ysh.Proofs.Layout.Landing
import Ysh.Proofs.Parts

/-!
# Layout of Words, Strings and Expansions

What the productions of words give is laid where they read it. A production places
its node behind the next token's start, so that the node around it may start with
that token, and the parts of a word are laid one behind the other whichever token
they came from.

## Main definitions

* `Places`: A production lays its node from its next token on.
* `Grammar.Placing`: The three readers of a grammar lay what they read.

## Theorems

* `LaidEach.pushText`: Text added to the parts of a word is laid behind them.
* `Grammar.lands_stringBody`, `Grammar.places_word`, `Grammar.lands_expansionBody`.
-/

namespace Ysh

/-- The production lays its node from its next token on. -/
def Places (source : String) (mode : Mode) {c : Category} (x : Parse (Tree c)) : Prop :=
  ∀ ctx s, Lands source x ctx s fun t s' =>
    Laid source (s.front mode ctx) t s'.cursor.offset

/-- The three readers of the grammar lay what they read. -/
structure Grammar.Placing (source : String) (g : Grammar) : Prop where
  expression : Places source .expression g.expression
  statements (closer : Option Token.Kind) (ctx : Context) (s : State) :
    Lands source (g.statements closer) ctx s fun ts s' =>
      LaidEach source s.cursor.offset ts s'.cursor.offset
  expansion (opener : Opener) (token : Token) (ctx : Context) (s : State)
      (hlies : token.Lies source) (hstop : token.span.stop ≤ s.cursor.offset) :
    Lands source (g.expansion opener token) ctx s fun e s' =>
      Laid source token.span.start e s'.cursor.offset

section

variable {source : String} {c : Category} {mode : Mode}

theorem Places.behind {x : Parse (Tree c)} (h : Places source mode x) (ctx : Context) (s : State) :
    Lands source x ctx s fun t s' => Laid source s.cursor.offset t s'.cursor.offset :=
  lands_of_sound fun hs =>
    (h ctx s).mono fun _ _ _ _ ht => ht.after (hs.offset_le_front mode ctx) hs.boundary

namespace Cursor.Gives

variable {before behind : Cursor} {token : Token} (h : Cursor.Gives source before token behind)
include h

/-- A token starts what is behind it. -/
theorem starts {l : List Span} {b : Nat} (htail : Tiles source behind.offset l b) :
    Tiles source token.span.start l b :=
  htail.after (Nat.le_trans token.span.start_le_stop (Nat.le_of_eq h.stop)) h.lies.text.boundary

theorem tiles : Tiles source token.span.start [token.span] behind.offset :=
  .single (Nat.le_refl _) (Nat.le_of_eq h.stop) h.lies.fits.1 h.lies.fits.1 h.lies.fits.2
    h.on.boundary

/-- Nothing but a token. -/
theorem gap : Tiles source token.span.start [] behind.offset :=
  h.starts (.nil (Nat.le_refl _) h.on.boundary h.on.boundary)

end Cursor.Gives

end

/-! ## Parts of words -/

namespace LaidEach

variable {source : String} {a : Nat}

theorem laid_bare {text : String} {start stop : Nat} (hle : start ≤ stop)
    (hstart : Boundary source start) (hstop : Boundary source stop) :
    Laid source start (Tree.bare text (.between start stop)) stop :=
  .leaf (Tiles.enclose (.nil hle hstart hstop)) rfl rfl

theorem laid_escaped {text : String} {start stop : Nat} (hle : start ≤ stop)
    (hstart : Boundary source start) (hstop : Boundary source stop) :
    Laid source start (Tree.escaped text (.between start stop)) stop :=
  .leaf (Tiles.enclose (.nil hle hstart hstop)) rfl rfl

/-- A character of bare text extends a bare part that touches it, and is laid behind
    any other. -/
theorem pushBare (x : Char) (offset : Nat) {parts : List WordPart}
    (hstop : Boundary source (offset + x.utf8Size)) (h : LaidEach source a parts offset) :
    LaidEach source a (Tree.pushBare x offset parts) (offset + x.utf8Size) := by
  have hle : offset ≤ offset + x.utf8Size := Nat.le_add_right _ _
  rcases Tree.pushBare_eq x offset parts with ⟨front, run, span, rfl, hspan, heq⟩ | heq
  · rw [heq]
    rcases h.unappend with ⟨hfront, hlast⟩
    have hfrom : span.start ≤ offset + x.utf8Size :=
      Nat.le_trans span.start_le_stop (Nat.le_trans (Nat.le_of_eq hspan) hle)
    exact hfront.append (laid_bare hfrom hlast.tiles.tight.boundary hstop)
  · rw [heq]
    exact h.append (laid_bare hle h.tiles.boundary_stop hstop)

/-- The text of a token is laid behind the parts in front of it. -/
theorem pushText (text : List Char) (offset : Nat) {parts : List WordPart}
    (hlies : LiesAt source offset text) (h : LaidEach source a parts offset) :
    LaidEach source a (Tree.pushText parts text offset) (offset + byteLength text) := by
  refine (Tree.pushText_induction (I := fun text offset parts =>
    LiesAt source offset text ∧ LaidEach source a parts offset) ?_ ?_ ⟨hlies, h⟩).2
  · rintro x xs offset parts ⟨hlies, h⟩
    have hfront : LiesAt source offset ([x] ++ xs) := hlies
    have hright := hfront.right
    rw [show byteLength [x] = x.utf8Size by simp] at hright
    exact ⟨hright, h.pushBare x offset hright.boundary⟩
  · rintro x xs offset parts ⟨hlies, h⟩
    have hfront : LiesAt source offset (['\\', x] ++ xs) := hlies
    have hright := hfront.right
    rw [show byteLength ['\\', x] = '\\'.utf8Size + x.utf8Size by simp, ← Nat.add_assoc] at hright
    have hle : offset ≤ offset + '\\'.utf8Size + x.utf8Size := by omega
    exact ⟨hright, h.append (laid_escaped hle h.tiles.boundary_stop hright.boundary)⟩

/-- The word of parts stands where they do. -/
theorem ofParts {b : Nat} {parts : List WordPart} (h : LaidEach source a parts b)
    (hne : parts ≠ []) : Laid source a (Tree.ofParts parts) b := by
  rcases hfirst : parts.head? with _ | first
  · exact absurd (List.head?_eq_none_iff.1 hfirst) hne
  · rcases hlast : parts.getLast? with _ | last
    · exact absurd (List.getLast?_eq_none_iff.1 hlast) hne
    · rcases h.tiles.trim (t := last.span) (by rw [List.getLast?_map, hlast]; rfl) first.span
        (by rw [List.head?_map, hfirst]; rfl) with ⟨htiles, hstart, hstop, hle, hle'⟩
      have hword : Laid source first.span.start (Tree.ofParts parts) last.span.stop := by
        refine .enclose (N := (Tree.ofList parts).nodes) ?_ ?_ rfl (Tree.Neat.ofList h.neat)
        · change Tiles source _ (Tree.ofList parts).children _
          rw [Tree.children_ofList]
          exact htiles
        · unfold Tree.ofParts
          rw [hfirst, hlast]
          exact Span.cover_eq hstart hstop
      exact (hword.after hle h.tiles.boundary).upTo hle' h.tiles.boundary_stop

end LaidEach

/-! ## Pieces of strings -/

/-- What was read of a string body lies between the two offsets, or is an error that
    stands in the source. -/
def Quoted.Lie (source : String) (a b : Nat) : Except LexicalError Quoted.Piece → Prop
  | .ok (.text _ span) | .ok (.escape _ span) | .ok (.close span) => Tiles source a [span] b
  | .ok (.badEscape error _ span) => Tiles source a [span] b ∧ error.span.Fits source
  | .ok (.expansion _ token) => token.Lies source ∧ a ≤ token.span.start ∧ token.span.stop ≤ b
  | .error error => error.span.Fits source

theorem Cursor.On.lie_piece {source : String} {c : Cursor} (h : c.On source)
    (style : StringStyle) (triple : Bool) {opening : Span} (hopening : opening.Fits source) :
    Quoted.Lie source c.offset (c.piece style triple opening).2.offset
      (c.piece style triple opening).1 := by
  unfold Cursor.piece
  split
  · exact hopening
  · rcases Quoted.form style triple c.rest with ⟨form, n⟩
    have hfits := h.fits_spanOf n
    have htiles : Tiles source c.offset [c.spanOf n] (c.advance n).offset :=
      .single (Nat.le_refl _) (Nat.le_refl _) h.boundary h.boundary hfits.2 (h.advance n).boundary
    cases form with
    | text | escape | close => exact htiles
    | badEscape | badByteEscape => exact ⟨htiles, hfits⟩
    | expansion opener =>
        have htext : (c.textOf n).toList = c.rest.take n := String.toList_ofList
        refine ⟨⟨?_, ?_⟩, Nat.le_refl _, Nat.le_refl _⟩
        · rw [htext]
          exact h.liesAt n
        · rw [htext]
          rfl

namespace Grammar

variable {source : String} {g : Grammar} (hg : g.Placing source)
include hg

/-! ## Strings -/

/-- A round of a string lays its fragment behind those in front of it. -/
theorem lands_stringRound {style : StringStyle} {triple : Bool} {opening : Span} {a : Nat}
    (hopening : opening.Fits source) (fragments : Array Fragment) (ctx : Context) (s : State)
    (h : LaidEach source a fragments.toList s.cursor.offset) :
    Lands source (g.stringRound style triple opening fragments) ctx s fun r s' =>
      LaidEach source a r.value.toList s'.cursor.offset := by
  have hpush : ∀ {f : Fragment} {b : Nat}, Laid source s.cursor.offset f b →
      LaidEach source a (fragments.push f).toList b := by
    intro f b hf
    rw [Array.toList_push]
    exact h.append hf
  refine lands_bind (lands_raw (Q := fun p s1 =>
    Quoted.Lie source s.cursor.offset s1.cursor.offset p)
    (Cursor.piece_after style triple opening s.cursor)
    fun hon => hon.lie_piece style triple hopening) fun p s1 hs1 hle hp => ?_
  have hkeep : ∀ {s' : State}, s'.Sound source → s.cursor.offset ≤ s'.cursor.offset →
      LaidEach source a fragments.toList s'.cursor.offset :=
    fun hs' hle' => h.upTo hle' hs'.boundary
  rcases p with error | (_ | _ | _ | ⟨opener, token⟩ | _)
  · exact lands_bind (lands_report fun _ => hp) fun _ s2 hs2 hle2 _ =>
      lands_pure fun _ => hkeep hs2 (Nat.le_trans hle hle2)
  · exact lands_pure fun _ => hpush (.leaf hp rfl rfl)
  · exact lands_pure fun _ => hpush (.leaf hp rfl rfl)
  · refine lands_bind (lands_report fun _ => hp.2) fun _ s2 _ _ hs2 => lands_pure fun _ => ?_
    rw [hs2]
    exact hpush (.leaf hp.1 rfl rfl)
  · have hexpansion := hg.expansion opener token ctx s1 hp.1 hp.2.2
    refine lands_bind (lands_attempt hexpansion) fun r s2 hs2 hle2 hr => ?_
    cases r with
    | error e =>
        refine lands_bind (lands_report fun _ => hr) fun _ s3 hs3 hle3 _ => lands_pure fun _ => ?_
        exact hkeep hs3 (Nat.le_trans hle (Nat.le_trans hle2 hle3))
    | ok e =>
        have hfragment : Laid source token.span.start (Tree.expansionFragment e) s2.cursor.offset :=
          .wrap hr rfl rfl rfl
        exact lands_pure fun _ => hpush (hfragment.after hp.2.1 h.tiles.boundary_stop)
  · exact lands_pure fun _ => hkeep hs1 hle

theorem lands_stringBody {style : StringStyle} {triple : Bool} {opening : Span} (ctx : Context)
    (s : State) (hopening : opening.Fits source) (hstop : opening.stop ≤ s.cursor.offset) :
    Lands source (g.stringBody style triple opening) ctx s fun t s' =>
      Laid source opening.start t s'.cursor.offset := by
  refine lands_of_sound fun hs => ?_
  refine lands_bind (lands_loop (I := fun (fragments : Array Fragment) s' =>
    LaidEach source s.cursor.offset fragments.toList s'.cursor.offset)
    (.nil (Nat.le_refl _) hs.boundary hs.boundary)
    fun fragments s1 h => lands_stringRound hg hopening fragments ctx s1 h) ?_
  intro fragments s1 hs1 hle h
  refine Scan.lands_position (lands_pure fun _ => ?_)
  have hstart := h.after (Nat.le_trans opening.start_le_stop hstop) hopening.1
  exact .enclose hstart.tiles_children rfl rfl hstart.ofList_neat

/-! ## Words -/

theorem lands_pushPiece {token : Token} {parts : List WordPart} {a : Nat} (ctx : Context)
    (s : State) (hlies : token.Lies source) (hstop : token.span.stop = s.cursor.offset)
    (h : LaidEach source a parts token.span.start) :
    Lands source (g.pushPiece token parts) ctx s fun parts s' =>
      LaidEach source a parts s'.cursor.offset := by
  unfold pushPiece
  split
  · refine lands_bind (lands_lift (lands_stringBody hg ctx s hlies.fits (Nat.le_of_eq hstop)))
      fun t s1 _ _ ht => lands_pure fun _ => h.append ?_
    exact Laid.wrap ht rfl rfl rfl
  · refine lands_bind (hg.expansion _ token ctx s hlies (Nat.le_of_eq hstop))
      fun e s1 _ _ he => lands_pure fun _ => h.append ?_
    exact Laid.wrap he rfl rfl rfl
  · refine lands_pure fun _ => ?_
    rw [← hstop, hlies.stop]
    exact h.pushText _ _ hlies.text

/-- The parts of a word are laid behind those that are there. The first piece of a
    new word may start wherever the next token does. -/
theorem lands_wordParts {parts : List WordPart} {continuing : Bool} {a : Nat} (ctx : Context)
    (s : State) (hcontinuing : continuing = true → LaidEach source a parts s.cursor.offset)
    (hnew : continuing = false → parts = [] ∧ a ≤ s.front .command ctx ∧ Boundary source a) :
    Lands source (g.wordParts parts continuing) ctx s fun parts s' =>
      (continuing = true ∨ parts ≠ []) → LaidEach source a parts s'.cursor.offset := by
  refine lands_bind (lands_loop (I := fun (p : List WordPart × Bool) s' =>
    (p.2 = true → LaidEach source a p.1 s'.cursor.offset) ∧ (continuing = true → p.2 = true) ∧
      (p.2 = false → p.1 = [] ∧ a ≤ s'.front .command ctx ∧ Boundary source a))
    ⟨hcontinuing, id, hnew⟩ ?_) ?_
  · rintro ⟨parts, b⟩ s1 ⟨hlaid, hb, hfresh⟩
    refine lands_of_sound fun hs1 => lands_peek (lands_ite (fun _ => ?_) fun _ => ?_)
    · exact lands_pure fun _ => ⟨hlaid, hb, hfresh⟩
    · refine lands_next fun s2 _ hgives => ?_
      have hparts : LaidEach source a parts (s1.next .command ctx).span.start := by
        have hstart := hgives.lies.text.boundary
        rcases b with _ | _
        · rcases hfresh rfl with ⟨rfl, hfront, ha⟩
          exact .nil hfront ha hstart
        · exact (hlaid rfl).upTo hgives.start hstart
      refine lands_bind (lands_pushPiece hg ctx s2 hgives.lies hgives.stop hparts)
        fun parts' s3 _ _ h => lands_pure fun _ => ⟨fun _ => h, fun _ => rfl, nofun⟩
  · rintro ⟨parts', b⟩ s1 _ _ ⟨hlaid, hb, hfresh⟩
    refine lands_pure fun _ => ?_
    rintro (hc | hne)
    · exact hlaid (hb hc)
    · rcases b with _ | _
      · exact absurd (hfresh rfl).1 hne
      · exact hlaid rfl

theorem places_word : Places source .command g.word := by
  intro ctx s
  refine lands_of_sound fun hs => ?_
  refine lands_bind (lands_wordParts hg ctx s nofun
    fun _ => ⟨rfl, Nat.le_refl _, hs.boundary_front .command ctx⟩) fun parts s1 _ _ h => ?_
  refine lands_ite (fun _ => lands_unexpected) fun hne => lands_pure fun _ => ?_
  have hne : parts ≠ [] := by simpa using hne
  exact (h (.inr hne)).ofParts hne

/-! ## Expansions -/

omit hg in
theorem lands_defaultMark (ctx : Context) (s : State) :
    Lands source defaultMark ctx s fun _ _ => True :=
  lands_raw (Cursor.defaultMark_after s.cursor) fun _ => trivial

omit hg in
theorem lands_bracedName (ctx : Context) (s : State) :
    Lands source bracedName ctx s fun _ _ => True :=
  lands_raw (Cursor.bracedName?_after s.cursor) fun _ => trivial

omit hg in
theorem lands_closingBrace (ctx : Context) (s : State) :
    Lands source closingBrace ctx s fun _ _ => True := by
  refine lands_raw ?_ fun _ => trivial
  exact Cursor.closingBrace?_after s.cursor

theorem lands_bracedDefault (ctx : Context) (s : State) :
    Lands source g.bracedDefault ctx s fun o s' =>
      LaidEach source s.cursor.offset o.toList s'.cursor.offset := by
  refine lands_of_sound fun hs => ?_
  refine lands_bind (lands_lift (lands_defaultMark ctx s)) fun found s1 hs1 hle _ => ?_
  refine lands_ite (fun _ => lands_position ?_) fun _ => ?_
  · refine lands_bind (P := fun _ s2 => s2 = s1) (fun hs => ⟨hs, Nat.le_refl _, rfl⟩) ?_
    intro found s2 _ _ hs2
    subst hs2
    refine lands_ite (fun _ => lands_pure fun _ => ?_) fun _ => ?_
    · have hnil : LaidEach source s2.cursor.offset ([] : List WordPart) s2.cursor.offset :=
        .nil (Nat.le_refl _) hs1.boundary hs1.boundary
      have hword : Laid source s2.cursor.offset
          (Tree.word .nil (.emptyAt s2.cursor.offset)) s2.cursor.offset :=
        .enclose hnil.tiles_children ?_ rfl hnil.ofList_neat
      · exact hword.after hle hs.boundary
      · change Span.emptyAt _ = _
        simp [Span.emptyAt, Span.between]
    · refine lands_bind ((places_word hg).behind ctx s2) fun w s3 _ _ hw => lands_pure fun _ => ?_
      exact hw.after hle hs.boundary
  · exact lands_pure fun _ => .nil hle hs.boundary hs1.boundary

omit hg in
theorem lands_expectBrace {opening : Span} (hopening : opening.Fits source) (ctx : Context)
    (s : State) : Lands source (expectBrace opening) ctx s fun _ _ => True := by
  refine lands_bind (lands_lift (lands_closingBrace ctx s)) fun found s1 _ _ _ => ?_
  refine lands_ite (fun _ => lands_pure fun _ => trivial) fun _ => lands_peek (lands_ite (fun _ => ?_)
    fun _ => lands_throw fun hs => (hs.next .command ctx).fits)
  exact lands_lift ((lands_report fun _ => hopening).mono fun _ _ _ _ _ => trivial)

theorem lands_bracedBody {opener : Token} (ctx : Context) (s : State)
    (hlies : opener.Lies source) (hstop : opener.span.stop ≤ s.cursor.offset) :
    Lands source (g.bracedBody opener) ctx s fun e s' =>
      Laid source opener.span.start e s'.cursor.offset := by
  refine lands_bind (lands_lift (lands_bracedName ctx s)) fun name s1 hs1 hle _ => ?_
  rcases name with _ | ⟨name, span⟩
  · exact lands_unexpected
  · refine lands_bind (lands_bracedDefault hg ctx s1) fun default s2 _ _ hdefault => ?_
    refine lands_bind (lands_expectBrace hlies.fits ctx s2) fun _ s3 hs3 hle3 _ => ?_
    refine lands_position (lands_pure fun _ => ?_)
    have hstart : opener.span.start ≤ s1.cursor.offset :=
      Nat.le_trans opener.span.start_le_stop (Nat.le_trans hstop hle)
    have hinside := (hdefault.after hstart hlies.fits.1).upTo hle3 hs3.boundary
    exact .enclose hinside.tiles_option rfl rfl hinside.ofOption_neat

/-- An expression in brackets stands behind the opening one. -/
theorem lands_enclosed {closer : Token.Kind} {opening : Span} (hopening : opening.Fits source)
    (ctx : Context) (s : State) :
    Lands source (g.enclosed closer opening) ctx s fun e s' =>
      Laid source s.cursor.offset e s'.cursor.offset := by
  refine lands_bracketed (lands_bind (hg.expression.behind _ s) fun e s1 _ _ he => ?_)
  refine lands_expectClosing hopening fun s2 hs2 hgives => lands_pure fun _ => ?_
  exact he.upTo hgives.offset_le hs2.boundary

theorem places_parenthesized : Places source .command g.parenthesized := by
  intro ctx s
  refine lands_expectAs fun s1 _ hgives => ?_
  refine (lands_enclosed hg hgives.lies.fits ctx s1).mono fun e s2 _ _ he => ?_
  exact he.after (Nat.le_trans (s.next .command ctx).span.start_le_stop
    (Nat.le_of_eq hgives.stop)) hgives.lies.fits.1

theorem lands_body (closer : Token.Kind) (ctx : Context) (s : State) :
    Lands source (g.body closer) ctx s fun ts s' =>
      LaidEach source s.cursor.offset ts s'.cursor.offset := by
  refine lands_nested (lands_lift (x := unbracketed (g.statements (some closer))) ?_)
  exact fun hs => hg.statements (some closer) _ s hs

theorem lands_expansionBody (opener : Opener) (token : Token) (ctx : Context) (s : State)
    (hlies : token.Lies source) (hstop : token.span.stop ≤ s.cursor.offset) :
    Lands source (g.expansionBody opener token) ctx s fun e s' =>
      Laid source token.span.start e s'.cursor.offset := by
  have hfits := hlies.fits
  have hstart : token.span.start ≤ s.cursor.offset := Nat.le_trans token.span.start_le_stop hstop
  have htoken : s.Sound source → Tiles source token.span.start [token.span] s.cursor.offset :=
    fun hs => .single (Nat.le_refl _) hstop hfits.1 hfits.1 hfits.2 hs.boundary
  cases opener with
  | name => exact lands_pure fun hs => .leaf (htoken hs) rfl rfl
  | splice => exact lands_pure fun hs => .leaf (htoken hs) rfl rfl
  | brace => exact lands_bracedBody hg ctx s hlies hstop
  | bracket sigil =>
      refine lands_bind (lands_enclosed hg hfits ctx s) fun e s1 _ _ he => ?_
      refine lands_position (lands_pure fun _ => ?_)
      have hinside := he.after hstart hfits.1
      exact .enclose hinside.tiles rfl rfl hinside.neat
  | paren sigil =>
      refine lands_bind (lands_body hg _ ctx s) fun statements s1 _ _ h => ?_
      refine lands_expectClosing hfits fun s2 hs2 hgives => lands_position (lands_pure fun _ => ?_)
      have hinside := (h.after hstart hfits.1).upTo hgives.offset_le hs2.boundary
      exact .enclose hinside.tiles_children rfl rfl hinside.ofList_neat

end Grammar

end Ysh
