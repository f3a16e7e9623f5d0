import Ysh.Proofs.Layout.Word

/-!
# Layout of Expressions

Literals and what follows a primary start with the next token. Operators and postfix
steps build a node around one that is already there, so for them the node in front
is given and stays where it is: the new node starts with the old one and ends where
the reader does.

## Theorems

* `Grammar.lands_commaSeparated`: Items with commas are laid one behind the other.
* `Grammar.places_primary`, `Grammar.lands_postfixStep`, `Grammar.places_levels`.
* `Grammar.places_expressionBody`: A whole expression.
-/

namespace Ysh

namespace Grammar

variable {source : String}

/-! ## Names and lists -/

theorem lands_bindingName (ctx : Context) (s : State) :
    Lands source bindingName ctx s fun name s' =>
      Tiles source (s.front .expression ctx) [name.span] s'.cursor.offset := by
  refine lands_peek (lands_ite (fun _ => ?_) fun _ => ?_)
  · have hname : Lands source (do
        let _ ← advance .expression
        return nameOf (s.next .expression ctx) : Parse Identifier) ctx s fun name s' =>
          Tiles source (s.front .expression ctx) [name.span] s'.cursor.offset :=
      lands_next fun s1 _ hgives => lands_pure fun _ => hgives.tiles
    exact lands_ite (fun _ => lands_throw fun hs => (hs.next .expression ctx).fits) fun _ => hname
  · exact lands_throw fun hs => (hs.next .expression ctx).fits

theorem lands_memberName (ctx : Context) (s : State) :
    Lands source memberName ctx s fun name s' =>
      Tiles source (s.front .expression ctx) [name.span] s'.cursor.offset := by
  refine lands_peek (lands_ite (fun _ => ?_) fun _ => ?_)
  · exact lands_next fun s1 _ hgives => lands_pure fun _ => hgives.tiles
  · exact lands_throw fun hs => (hs.next .expression ctx).fits

/-- Items with commas between them are laid one behind the other. -/
theorem lands_commaSeparated {c : Category} {ends : Token.Kind → Bool} {item : Parse (Tree c)}
    (hitem : Places source .expression item) (ctx : Context) (s : State) :
    Lands source (commaSeparated ends item) ctx s fun ts s' =>
      LaidEach source s.cursor.offset ts s'.cursor.offset := by
  refine lands_of_sound fun hs => ?_
  refine lands_bind (lands_loop (I := fun (ts : Array (Tree c)) s' =>
    LaidEach source s.cursor.offset ts.toList s'.cursor.offset)
    (.nil (Nat.le_refl _) hs.boundary hs.boundary) ?_) fun ts s1 _ _ hts => lands_pure fun _ => hts
  intro ts s1 hts
  refine lands_peekKind (lands_ite (fun _ => lands_pure fun _ => hts) fun _ => ?_)
  refine lands_bind (hitem.behind ctx s1) fun t s2 _ _ ht => ?_
  have hpush := hts.append ht
  rw [← Array.toList_push] at hpush
  refine lands_peekKind (lands_ite (fun _ => ?_) fun _ => lands_pure fun _ => hpush)
  exact lands_next fun s3 hs3 hgives => lands_pure fun _ => hpush.upTo hgives.offset_le hs3.boundary

theorem lands_eggexBody {opening : Span} (hopening : opening.Fits source) (ctx : Context)
    (s : State) (hstop : opening.stop ≤ s.cursor.offset) :
    Lands source (eggexBody opening) ctx s fun e s' =>
      Tiles source opening.start [e.span] s'.cursor.offset := by
  refine lands_bind (P := fun _ _ => True)
    (lands_raw (Cursor.eggexBody_after s.cursor) fun _ => trivial) ?_
  rintro ⟨pattern, closed⟩ s1 hs1 hle -
  have hend : ∀ s2 : State, s2.cursor = s1.cursor →
      Tiles source opening.start [opening.upTo s2.cursor.offset] s2.cursor.offset := by
    intro s2 hs2
    rw [hs2]
    refine Tiles.enclose (.nil ?_ hopening.1 hs1.boundary)
    exact Nat.le_trans opening.start_le_stop (Nat.le_trans hstop hle)
  refine lands_ite (fun _ => ?_) fun _ => Scan.lands_position (lands_pure fun _ => hend s1 rfl)
  refine lands_bind (lands_report fun _ => hopening) fun _ s2 _ _ hs2 => ?_
  exact Scan.lands_position (lands_pure fun _ => hend s2 hs2)

variable {g : Grammar} (hg : g.Placing source)
include hg

/-! ## Arguments -/

theorem places_namedArgument : Places source .expression g.namedArgument := by
  intro ctx s
  refine lands_bind (lands_bindingName ctx s) fun name s1 _ _ hname => ?_
  refine lands_expectAs fun s2 hs2 hequals => ?_
  refine lands_bind (hg.expression.behind ctx s2) fun value s3 hs3 _ hvalue => lands_pure fun _ => ?_
  have hinside := (hname.upTo hequals.offset_le hs2.boundary).append hvalue.tiles
  exact .ofEnds hinside rfl rfl rfl rfl hvalue.neat

theorem lands_namedArguments (ctx : Context) (s : State) :
    Lands source g.namedArguments ctx s fun ts s' =>
      LaidEach source s.cursor.offset ts s'.cursor.offset := by
  refine lands_of_sound fun hs => lands_peekKind (lands_ite (fun _ => ?_) fun _ => ?_)
  · refine lands_next fun s1 _ hgives => ?_
    exact (lands_commaSeparated (places_namedArgument hg) ctx s1).mono fun ts s2 _ _ h =>
      h.after hgives.offset_le hs.boundary
  · exact lands_pure fun _ => .nil (Nat.le_refl _) hs.boundary hs.boundary

theorem lands_argumentListBody {opening : Span} (hopening : opening.Fits source) (ctx : Context)
    (s : State) (hstop : opening.stop ≤ s.cursor.offset) :
    Lands source (g.argumentListBody opening) ctx s fun t s' =>
      Laid source opening.start t s'.cursor.offset := by
  refine lands_bracketed ?_
  refine lands_bind (lands_commaSeparated hg.expression _ s) fun positional s1 _ _ hpositional => ?_
  refine lands_bind (lands_namedArguments hg _ s1) fun named s2 _ _ hnamed => ?_
  refine lands_expectClosing hopening fun s3 hs3 hgives => lands_position (lands_pure fun _ => ?_)
  have hstart := hpositional.after (Nat.le_trans opening.start_le_stop hstop) hopening.1
  have hinside := hstart.tiles_children.append
    (hnamed.upTo hgives.offset_le hs3.boundary).tiles_children
  exact .enclose hinside rfl rfl
    (List.forall_mem_append.2 ⟨hpositional.ofList_neat, hnamed.ofList_neat⟩)

theorem places_argumentList : Places source .expression g.argumentList := by
  intro ctx s
  refine lands_expectAs fun s1 _ hgives => ?_
  exact lands_argumentListBody hg hgives.lies.fits ctx s1 (Nat.le_of_eq hgives.stop)

/-! ## Literals -/

theorem lands_listBody {opening : Span} (hopening : opening.Fits source) (ctx : Context)
    (s : State) (hstop : opening.stop ≤ s.cursor.offset) :
    Lands source (g.listBody opening) ctx s fun t s' =>
      Laid source opening.start t s'.cursor.offset := by
  refine lands_bracketed ?_
  refine lands_bind (lands_commaSeparated hg.expression _ s) fun elements s1 _ _ helements => ?_
  refine lands_expectClosing hopening fun s2 hs2 hgives => lands_position (lands_pure fun _ => ?_)
  have hinside := (helements.after (Nat.le_trans opening.start_le_stop hstop) hopening.1).upTo
    hgives.offset_le hs2.boundary
  exact .enclose hinside.tiles_children rfl rfl hinside.ofList_neat

theorem places_dictKey : Places source .expression g.dictKey := by
  intro ctx s
  refine lands_peek ?_
  split
  · refine lands_next fun s1 _ hgives => ?_
    refine lands_bind (lands_lift (lands_stringBody hg ctx s1 hgives.lies.fits
      (Nat.le_of_eq hgives.stop))) fun t s2 _ _ ht => lands_pure fun _ => ?_
    exact .wrap ht rfl rfl rfl
  · refine lands_next fun s1 _ hgives => ?_
    refine lands_bind (hg.expression.behind ctx s1) fun key s2 _ _ hkey => ?_
    refine lands_expectClosing hgives.lies.fits fun s3 hs3 hclosing => lands_pure fun _ => ?_
    have hinside := Laid.of (hgives.starts hkey.tiles) hkey.neat
    exact .wrap (hinside.upTo hclosing.offset_le hs3.boundary) rfl rfl rfl
  · refine lands_bind (lands_memberName ctx s) fun name s1 _ _ hname => lands_pure fun _ => ?_
    exact .name hname rfl rfl rfl

theorem places_dictEntry : Places source .expression g.dictEntry := by
  intro ctx s
  refine lands_peek ?_
  refine lands_bind (places_dictKey hg ctx s) fun key s1 _ _ hkey => ?_
  refine lands_expectAs fun s2 hs2 hgives => ?_
  refine lands_bind (hg.expression.behind ctx s2) fun value s3 _ _ hvalue => lands_pure fun _ => ?_
  have hinside := (hkey.upTo hgives.offset_le hs2.boundary).tiles.append hvalue.tiles
  exact .untilLast hinside rfl rfl rfl (List.forall_mem_append.2 ⟨hkey.neat, hvalue.neat⟩)

theorem lands_dictBody {opening : Span} (hopening : opening.Fits source) (ctx : Context)
    (s : State) (hstop : opening.stop ≤ s.cursor.offset) :
    Lands source (g.dictBody opening) ctx s fun t s' =>
      Laid source opening.start t s'.cursor.offset := by
  refine lands_bracketed ?_
  refine lands_bind (lands_commaSeparated (places_dictEntry hg) _ s) fun entries s1 _ _ hentries => ?_
  refine lands_expectClosing hopening fun s2 hs2 hgives => lands_position (lands_pure fun _ => ?_)
  have hinside := (hentries.after (Nat.le_trans opening.start_le_stop hstop) hopening.1).upTo
    hgives.offset_le hs2.boundary
  exact .enclose hinside.tiles_children rfl rfl hinside.ofList_neat

theorem lands_wordListBody {opening : Span} (hopening : opening.Fits source) (ctx : Context)
    (s : State) (hstop : opening.stop ≤ s.cursor.offset) :
    Lands source (g.wordListBody opening) ctx s fun t s' =>
      Laid source opening.start t s'.cursor.offset := by
  refine lands_of_sound fun hs => ?_
  have hbefore := Nat.le_trans opening.start_le_stop hstop
  refine lands_bind (lands_loop (I := fun (words : Array Word) s' =>
    LaidEach source opening.start words.toList s'.cursor.offset)
    (.nil hbefore hopening.1 hs.boundary) ?_) fun words s1 _ _ hwords =>
      lands_position (lands_pure fun _ => .enclose hwords.tiles_children rfl rfl hwords.ofList_neat)
  intro words s1 hwords
  have hskip : ∀ {s2 : State}, s2.Sound source →
      Cursor.Gives source s1.cursor (s1.next .command ctx) s2.cursor →
        LaidEach source opening.start words.toList s2.cursor.offset :=
    fun hs2 hgives => hwords.upTo hgives.offset_le hs2.boundary
  refine lands_peek (lands_ite (fun _ => ?_) fun _ => lands_ite (fun _ => ?_) fun _ =>
    lands_ite (fun _ => ?_) fun _ => lands_ite (fun _ => ?_) fun _ => lands_unexpected)
  · exact lands_next fun s2 hs2 hgives => lands_pure fun _ => hskip hs2 hgives
  · exact lands_next fun s2 hs2 hgives => lands_pure fun _ => hskip hs2 hgives
  · refine lands_bind (lands_lift (lands_report fun _ => hopening)) fun _ s2 _ _ hs2 =>
      lands_pure fun _ => ?_
    rw [hs2]
    exact hwords
  · refine lands_bind ((places_word hg).behind ctx s1) fun w s2 _ _ hw => lands_pure fun _ => ?_
    have hpush := hwords.append hw
    rw [← Array.toList_push] at hpush
    exact hpush

/-! ## Operands -/

theorem places_primary : Places source .expression g.primary := by
  intro ctx s
  refine lands_peek ?_
  -- A literal that is one token, and one that goes on behind its first.
  have hleaf : ∀ l : Literal, l.span = (s.next .expression ctx).span → l.children = [] →
      l.nodes = [⟨_, l⟩] → Lands source (do
        let _ ← advance .expression
        return .literalExpression l : Parse Expression) ctx s fun e s' =>
          Laid source (s.front .expression ctx) e s'.cursor.offset := by
    intro l hspan hchildren hnodes
    refine lands_next fun s1 _ hgives => lands_pure fun _ => ?_
    exact .wrap (.leaf (hspan ▸ hgives.tiles) hchildren hnodes) rfl rfl rfl
  have hbody : ∀ body : Parse Literal, (∀ s1 : State, s1.Sound source →
      Cursor.Gives source s.cursor (s.next .expression ctx) s1.cursor →
        Lands source body ctx s1 fun l s' =>
          Laid source (s.front .expression ctx) l s'.cursor.offset) →
      Lands source (do
        let _ ← advance .expression
        return .literalExpression (← body) : Parse Expression) ctx s fun e s' =>
          Laid source (s.front .expression ctx) e s'.cursor.offset := by
    intro body h
    refine lands_next fun s1 hs1 hgives => ?_
    exact lands_bind (h s1 hs1 hgives) fun l s2 _ _ hl => lands_pure fun _ => .wrap hl rfl rfl rfl
  split
  · exact hleaf _ rfl rfl rfl
  · exact hleaf _ rfl rfl rfl
  · exact hleaf _ rfl rfl rfl
  · exact hleaf _ rfl rfl rfl
  · refine lands_next fun s1 _ hgives => ?_
    refine lands_bind (lands_lift (lands_stringBody hg ctx s1 hgives.lies.fits
      (Nat.le_of_eq hgives.stop))) fun t s2 _ _ ht => lands_pure fun _ => ?_
    have hliteral : Laid source (s.front .expression ctx) (Tree.stringLiteral t) s2.cursor.offset :=
      .wrap ht rfl rfl rfl
    exact .wrap hliteral rfl rfl rfl
  · exact hleaf _ rfl rfl rfl
  · have hreference : Lands source (do
        let _ ← advance .expression
        return .reference (s.next .expression ctx).text (s.next .expression ctx).span :
          Parse Expression) ctx s fun e s' =>
            Laid source (s.front .expression ctx) e s'.cursor.offset :=
      lands_next fun s1 _ hgives => lands_pure fun _ => .leaf hgives.tiles rfl rfl
    exact lands_ite (fun _ => lands_throw fun hs => (hs.next .expression ctx).fits)
      fun _ => hreference
  · refine lands_next fun s1 _ hgives => ?_
    refine (lands_enclosed hg hgives.lies.fits ctx s1).mono fun e s2 _ _ he => ?_
    exact .of (hgives.starts he.tiles) he.neat
  · exact hbody _ fun s1 _ hgives =>
      lands_listBody hg hgives.lies.fits ctx s1 (Nat.le_of_eq hgives.stop)
  · exact hbody _ fun s1 _ hgives =>
      lands_dictBody hg hgives.lies.fits ctx s1 (Nat.le_of_eq hgives.stop)
  · refine lands_next fun s1 _ hgives => ?_
    refine lands_bind (lands_lift (lands_eggexBody hgives.lies.fits ctx s1
      (Nat.le_of_eq hgives.stop))) fun e s2 _ _ he => lands_pure fun _ => ?_
    have hliteral : Laid source (s.front .expression ctx) (Tree.eggexLiteral e) s2.cursor.offset :=
      .name he rfl rfl rfl
    exact .wrap hliteral rfl rfl rfl
  · exact hbody _ fun s1 _ hgives =>
      lands_wordListBody hg hgives.lies.fits ctx s1 (Nat.le_of_eq hgives.stop)
  · refine lands_next fun s1 _ hgives => ?_
    refine lands_bind (hg.expansion _ _ ctx s1 hgives.lies (Nat.le_of_eq hgives.stop))
      fun e s2 _ _ he => lands_pure fun _ => ?_
    exact .wrap he rfl rfl rfl
  · exact lands_throw fun hs => (hs.next .expression ctx).fits

/-- A step behind a primary goes on where the primary ends. -/
theorem lands_postfixStep {a : Nat} (e : Expression) (ctx : Context) (s : State)
    (h : Laid source a e s.cursor.offset) :
    Lands source (g.postfixStep e) ctx s fun r s' =>
      Laid source a r.value s'.cursor.offset := by
  refine lands_of_sound fun hs => lands_peekKind ?_
  have hmember : ∀ {name : Identifier} {s1 s2 : State},
      Cursor.Gives source s.cursor (s.next .expression ctx) s1.cursor →
      Tiles source s1.cursor.offset [name.span] s2.cursor.offset →
        Tiles source a [e.span, name.span] s2.cursor.offset :=
    fun hgives hname => (h.upTo hgives.offset_le hgives.on.boundary).tiles.append hname
  split
  · refine lands_next fun s1 hs1 hgives => ?_
    refine lands_bind (lands_memberName ctx s1) fun name s2 _ _ hname => ?_
    have hname := hmember hgives (hname.after (hs1.offset_le_front .expression ctx) hs1.boundary)
    refine lands_peekKind (lands_ite (fun _ => ?_) fun _ => ?_)
    · refine lands_bind ((places_argumentList hg).behind ctx s2) fun arguments s3 _ _ hl =>
        lands_pure fun _ => ?_
      exact .ofCover (hname.append hl.tiles) rfl rfl rfl rfl
        (List.forall_mem_append.2 ⟨h.neat, hl.neat⟩)
    · exact lands_pure fun _ => .ofCover hname rfl rfl rfl rfl h.neat
  · refine lands_next fun s1 hs1 hgives => ?_
    refine lands_bind (lands_memberName ctx s1) fun name s2 _ _ hname => ?_
    have hname := hmember hgives (hname.after (hs1.offset_le_front .expression ctx) hs1.boundary)
    refine lands_peekKind (lands_ite (fun _ => lands_unexpected) fun _ => ?_)
    refine lands_bind ((places_argumentList hg).behind ctx s2) fun arguments s3 _ _ hl =>
      lands_pure fun _ => ?_
    exact .ofCover (hname.append hl.tiles) rfl rfl rfl rfl
      (List.forall_mem_append.2 ⟨h.neat, hl.neat⟩)
  · refine lands_next fun s1 hs1 hgives => ?_
    refine lands_bind (lands_enclosed hg hgives.lies.fits ctx s1) fun i s2 _ _ hi => ?_
    refine lands_position (lands_pure fun _ => ?_)
    have hinside := (h.upTo hgives.offset_le hs1.boundary).tiles.append hi.tiles
    exact .fromFirst hinside rfl rfl rfl (List.forall_mem_append.2 ⟨h.neat, hi.neat⟩)
  · split
    · case h_1 name hname =>
        refine lands_bind ((places_argumentList hg).behind ctx s) fun arguments s1 _ _ hl =>
          lands_pure fun _ => ?_
        have hspan : name.span = e.span := by cases e <;> cases hname; rfl
        have hinside := h.tiles.append hl.tiles
        rw [← hspan] at hinside
        exact .ofCover hinside rfl rfl rfl rfl hl.neat
    · exact lands_pure fun _ => h
  · exact lands_pure fun _ => h

theorem places_postfixed : Places source .expression g.postfixed := by
  intro ctx s
  refine lands_bind (places_primary hg ctx s) fun e s1 _ _ he => ?_
  exact lands_loop (I := fun (e : Expression) s' => Laid source (s.front .expression ctx) e s'.cursor.offset)
    he fun e s2 he => lands_postfixStep hg e ctx s2 he

/-! ## Operators -/

theorem places_unary : Places source .expression g.unary := by
  intro ctx s
  refine lands_peekKind ?_
  split
  · refine lands_next fun s1 hs1 hgives => ?_
    refine lands_bind ((places_postfixed hg).behind ctx s1) fun operand s2 _ _ ho =>
      lands_pure fun _ => ?_
    exact .untilLast (hgives.starts ho.tiles) rfl rfl rfl ho.neat
  · exact places_postfixed hg ctx s

theorem places_levels (levels : List (List BinaryOperator)) :
    Places source .expression (g.levels levels) := by
  induction levels with
  | nil => exact places_unary hg
  | cons level tighter ih =>
      intro ctx s
      refine lands_bind (ih ctx s) fun e s1 _ _ he => ?_
      refine lands_loop (I := fun (e : Expression) s' =>
        Laid source (s.front .expression ctx) e s'.cursor.offset) he fun left s2 hleft => ?_
      refine lands_peekKind ?_
      split
      · refine lands_ite (fun _ => ?_) fun _ => lands_pure fun _ => hleft
        refine lands_next fun s3 hs3 hgives => ?_
        refine lands_bind (ih.behind ctx s3) fun right s4 _ _ hright => lands_pure fun _ => ?_
        have hinside := (hleft.upTo hgives.offset_le hs3.boundary).tiles.append hright.tiles
        exact .ofCover hinside rfl rfl rfl rfl
          (List.forall_mem_append.2 ⟨hleft.neat, hright.neat⟩)
      · exact lands_pure fun _ => hleft

/-- A whole expression is laid from its first token on. -/
theorem places_expressionBody : Places source .expression g.expressionBody :=
  fun _ s => lands_nested (places_levels hg precedenceTable _ s)

end Grammar

end Ysh
