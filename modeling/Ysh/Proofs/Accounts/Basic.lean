import Ysh.Proofs.Coverage.Reader
import Ysh.Proofs.Layout.Landing
import Ysh.Tree.Nodes

/-!
# Accounts of Damage

A tree can be damaged in a few ways. Where a statement could not be read there stands
an error, a block may have nothing in it, and what opens may not close. None of this
happens in silence, so the tree and the list of diagnostics keep two accounts of one
parse.

The nodes that have been read so far, and are to be kept, are held against the
diagnostics so far. The wording of every error among the nodes stands in the list, in
the order of the nodes, and in a parse that ends without an error no node is damaged.
What is read and then dropped adds no nodes, and its diagnostics do no harm.

## Main definitions

* `Span.Fenced`: The text under a span stands between an opener and a closer.
* `Tree.Intact`: The node by itself is not damaged.
* `Cursor.Opened`: Something has been opened in front of a place.
* `Accounted`: The diagnostics so far answer for the nodes so far.
* `Accounts`: A reader adds the nodes of its result to those that were there.

## Theorems

* `Accounted.moves`: Diagnostics that are added answer for what was there before.
* `Accounted.fault`: A report answers for an error with its wording.
* `accounts_collect`, `accounts_commaSeparated`: The nodes of a list.
-/

namespace Ysh

/-! ## Damage -/

/-- The text under the span stands between the opener and the closer. -/
def Span.Fenced (source : String) (opener closer : List Char) (s : Span) : Prop :=
  ∃ body, s.text? source = some (.ofList (opener ++ (body ++ closer)))

/-- The opener stands where the span starts, somewhere in front of the place. -/
def Cursor.Opened (source : String) (opening : Span) (opener : List Char) (c : Cursor) : Prop :=
  ∃ (front : Cursor) (body : List Char), front.On source ∧ front.Passes (opener ++ body) c ∧
    opening.start = front.offset

namespace Cursor

variable {source : String} {opening : Span} {opener closer text : List Char} {c d : Cursor}

theorem On.passes (h : c.On source) (hpasses : c.Passes text d) : d.On source := by
  rcases h with ⟨front, hsource, hoffset⟩
  refine ⟨front ++ text, ?_, ?_⟩
  · rw [hsource, hpasses.rest, List.append_assoc]
  · rw [hpasses.offset, hoffset, byteLength_append]

theorem Opened.passes (h : c.Opened source opening opener) (hpasses : c.Passes text d) :
    d.Opened source opening opener := by
  rcases h with ⟨front, body, hon, hbody, hstart⟩
  refine ⟨front, body ++ text, hon, ?_, hstart⟩
  rw [← List.append_assoc]
  exact hbody.trans hpasses

/-- What opens and then closes is fenced. -/
theorem Opened.fenced (h : c.Opened source opening opener)
    (hpasses : c.Passes (text ++ closer) d) :
    (opening.upTo d.offset).Fenced source opener closer := by
  rcases h with ⟨front, body, ⟨before, hsource, hoffset⟩, hbody, hstart⟩
  have hall := hbody.trans hpasses
  have hends : opening.start ≤ d.offset := by
    rw [hstart, hall.offset]
    exact Nat.le_add_right _ _
  refine ⟨body ++ text, ?_⟩
  rw [show opener ++ (body ++ text ++ closer) = opener ++ body ++ (text ++ closer) by simp]
  refine hall.text? before hsource hoffset ?_ ?_
  · exact (Nat.min_eq_left hends).trans hstart
  · exact Nat.max_eq_right hends

theorem Opened.closes (h : c.Opened source opening opener) (hpasses : c.Passes closer d) :
    (opening.upTo d.offset).Fenced source opener closer :=
  h.fenced (show c.Passes ([] ++ closer) d from hpasses)

/-- A token that closes something. -/
theorem Offers.passes {mode : Mode} {token : Token} (h : c.Offers mode token d) :
    (∃ gap, c.Passes (gap ++ token.text.toList) d) ∧ token.span.stop = d.offset := by
  rcases h with ⟨front, text, hfront, hread, -⟩
  rcases hfront.passes with ⟨gap, hgap⟩
  refine ⟨⟨gap, ?_⟩, hread.stop⟩
  rw [hread.shown, String.toList_ofList]
  exact hgap.trans hread.passes

end Cursor

theorem Moves.passes {limits : Limits} {s s' : State} (h : Moves limits s s') :
    ∃ text, s.cursor.Passes text s'.cursor := by
  rcases h.forward with ⟨n, hn⟩
  rw [hn]
  exact ⟨_, .advance s.cursor n⟩

theorem Cursor.Opened.moves {source : String} {opening : Span} {opener : List Char}
    {limits : Limits} {s s' : State} (h : s.cursor.Opened source opening opener)
    (hmoves : Moves limits s s') : s'.cursor.Opened source opening opener := by
  rcases hmoves.passes with ⟨text, hpasses⟩
  exact h.passes hpasses

/-- The node by itself is not damaged: it is no error, it is not empty if it must not be,
    and it closes if it opens. -/
def Tree.Intact (source : String) : {c : Category} → Tree c → Prop
  | _, error _ _ => False
  | _, block statements span =>
      statements.isEmpty = false ∧ span.Fenced source ['{'] ['}']
  | _, string style triple _ span =>
      span.Fenced source (style.tag.toList ++ style.delimiter triple) (style.delimiter triple)
  | _, braced _ _ span => span.Fenced source ['$', '{'] ['}']
  | _, substitution sigil _ span => span.Fenced source [sigil.char, '('] [')']
  | _, eggexPattern e | _, eggexLiteral e => e.span.Fenced source ['/'] ['/']
  | _, _ => True

/-- The wording of an error. -/
def Tree.message? : {c : Category} → Tree c → Option String
  | _, error message _ => Option.some message
  | _, _ => Option.none

/-- The wording of a syntax error. -/
def Diagnostic.syntaxMessage? : Diagnostic → Option String
  | syntactic error => some error.message
  | lexical _ | notice _ => none

namespace Tree

variable {c : Category}

@[simp] theorem nodes_single (t : Tree c) : (cons t nil).nodes = t.nodes :=
  List.append_nil _

@[simp] theorem nodes_none : (none : Tree (.maybe c)).nodes = [] :=
  rfl

end Tree

/-! ## Accounts -/

/-- In a parse that ends with the diagnostics `D`, those so far answer for the nodes so
    far. -/
structure Accounted (D : List Diagnostic) (source : String) (limits : Limits)
    (nodes : List Node) (s : State) : Prop where
  /-- No diagnostic is dropped. -/
  room : D.length < limits.diagnostics
  here : s.cursor.On source
  told : (nodes.filterMap (·.tree.message?)).Sublist
    (s.diagnostics.filterMap Diagnostic.syntaxMessage?)
  intact : Quiet limits D → ∀ node ∈ nodes, node.tree.Intact source

variable {D : List Diagnostic} {source : String} {limits : Limits} {ns ns' : List Node}
  {s s' : State}

namespace Accounted

/-- Diagnostics that are added answer for what was there before. -/
theorem moves (h : Accounted D source limits ns s) (hmoves : Moves limits s s') :
    Accounted D source limits ns s' := by
  refine { h with here := ?_, told := ?_ }
  · rcases hmoves.passes with ⟨text, hpasses⟩
    exact h.here.passes hpasses
  · rcases hmoves.kept with ⟨new, hnew⟩
    rw [← hnew, List.filterMap_append]
    exact h.told.trans (List.sublist_append_left _ _)

/-- Nodes may be dropped. -/
theorem keep (h : Accounted D source limits ns s) (hkeep : ns'.Sublist ns) :
    Accounted D source limits ns' s :=
  { h with
    told := (hkeep.filterMap _).trans h.told
    intact := fun hq node hnode => h.intact hq node (hkeep.subset hnode) }

/-- A node around others that is no error. -/
theorem node {c : Category} {t : Tree c} (h : Accounted D source limits (ns ++ ns') s)
    (hmessage : t.message? = none) (hintact : Quiet limits D → t.Intact source) :
    Accounted D source limits (ns ++ (⟨c, t⟩ :: ns')) s := by
  refine { h with told := ?_, intact := fun hq node hnode => ?_ }
  · have htold := h.told
    rw [List.filterMap_append] at htold ⊢
    rwa [show List.filterMap (·.tree.message?) ((⟨c, t⟩ : Node) :: ns') = _ from
      List.filterMap_cons_none hmessage]
  · rcases List.mem_append.1 hnode with hnode | hnode
    · exact h.intact hq node (List.mem_append_left _ hnode)
    · rcases List.mem_cons.1 hnode with rfl | hnode
      · exact hintact hq
      · exact h.intact hq node (List.mem_append_right _ hnode)

/-- A node without others inside it. -/
theorem single {c : Category} {t : Tree c} (h : Accounted D source limits ns s)
    (hmessage : t.message? = none) (hintact : Quiet limits D → t.Intact source) :
    Accounted D source limits (ns ++ [⟨c, t⟩]) s :=
  node (by rwa [List.append_nil]) hmessage hintact

/-- A report answers for an error with its wording. -/
theorem fault {ctx : Context} (h : Accounted D source ctx.limits ns s) (error : SyntaxError)
    (span : Span) (hD : (report (.syntactic error) ctx s).2.diagnostics <+: D) :
    Accounted D source ctx.limits (ns ++ [⟨_, .error error.message span⟩])
      (report (.syntactic error) ctx s).2 := by
  have hmoves := (moving_report (.syntactic error)).moves ctx s
  change Moves ctx.limits s (report (.syntactic error) ctx s).2 at hmoves
  have hfits : s.diagnostics.length < ctx.limits.diagnostics := by
    have hle := (hmoves.kept.trans hD).length_le
    have hroom := h.room
    omega
  have hreport : (report (.syntactic error) ctx s).2.diagnostics
      = s.diagnostics ++ [.syntactic error] := by
    change State.diagnostics (if s.diagnostics.length < ctx.limits.diagnostics then _ else _) = _
    rw [if_pos hfits]
  refine { h.moves hmoves with told := ?_, intact := fun hq => ?_ }
  · rw [hreport, List.filterMap_append, List.filterMap_append]
    exact h.told.append (List.Sublist.refl _)
  · rw [hreport] at hD
    have hnot := hq.2 _ (hD.subset (List.mem_append_right _ (List.mem_singleton_self _)))
    cases hnot

end Accounted

section

variable {m : Type → Type} [Monad m] [MonadStateOf State m] [Reads m] {α β : Type}
  {ctx : Context} {nodes : α → List Node}

/-- The reader adds the nodes of its result to those that were there. -/
def Accounts (D : List Diagnostic) (source : String) (x : m α) (nodes : α → List Node) : Prop :=
  ∀ ctx ns s, Accounted D source ctx.limits ns s →
    Ensures D x ctx s fun a s' => Accounted D source ctx.limits (ns ++ nodes a) s'

theorem Accounts.plain {x : m α} [hx : Moving x] : Accounts D source x fun _ => [] := by
  intro ctx ns s h a s' hyields _
  rw [List.append_nil]
  exact h.moves (hx.of_yields hyields)

end

section

variable {α : Type} {nodes : α → List Node} {ctx : Context}

/-- A reader that is let fail leaves no nodes where it fails. -/
theorem Accounts.attempt {x : Parse α} [hx : Moving x] (hnodes : Accounts D source x nodes)
    (h : Accounted D source ctx.limits ns s) :
    Ensures D (Ysh.attempt x) ctx s fun r s' =>
      Accounted D source ctx.limits (ns ++ r.toOption.elim [] nodes) s' := by
  intro r s' hyields hD
  have hmoved : Moves ctx.limits s s' := (inferInstance : Moving (Ysh.attempt x)).of_yields hyields
  cases r with
  | ok a => exact ensures_attempt (hnodes ctx ns s h) _ s' hyields hD a rfl
  | error e =>
      change Accounted D source ctx.limits (ns ++ []) s'
      rw [List.append_nil]
      exact h.moves hmoved

end

end Ysh
