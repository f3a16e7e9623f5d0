import Ysh.Program
import Ysh.Tree.Nodes

/-!
# Layout

Where the nodes of a tree stand in a source. What a reader asks of a span is that
the text under it can be cut out, and of a tree that a node keeps to the text of
the node around it and behind its elder siblings. Both are said of a list of spans
between two offsets: they are laid in order, and every end falls between two
characters. Such lists can be put one behind the other, and the span from the
first offset to the last can take the place of the list, which is how a node is
made of its children.

## Main definitions

* `LiesAt`: A text stands at an offset of a source.
* `Tiles`: Spans that are laid in order between two offsets.
* `Tree.children`: The spans of what is immediately inside a node.
* `Span.Holds`: The spans inside a node, as a reader of the tree sees them.
* `Laid`, `LaidEach`: A tree, or each of a list, laid between two offsets.

## Theorems

* `Tiles.holds`: What spans laid in order inside a span amount to.
* `Laid.enclose`: A node that starts and ends where its children may is laid.
-/

namespace Ysh

/-! ## Texts in a source -/

/-- The text stands at the offset of the source. -/
def LiesAt (source : String) (offset : Nat) (text : List Char) : Prop :=
  ∃ front back, source.toList = front ++ (text ++ back) ∧ offset = byteLength front

/-- The offset falls between two characters of the source, or at one of its ends. -/
def Boundary (source : String) (offset : Nat) : Prop :=
  LiesAt source offset []

section

variable {source : String} {offset : Nat} {x y : List Char}

theorem LiesAt.left (h : LiesAt source offset (x ++ y)) : LiesAt source offset x := by
  rcases h with ⟨front, back, hsource, hoffset⟩
  exact ⟨front, y ++ back, by rw [hsource, List.append_assoc], hoffset⟩

theorem LiesAt.right (h : LiesAt source offset (x ++ y)) :
    LiesAt source (offset + byteLength x) y := by
  rcases h with ⟨front, back, hsource, hoffset⟩
  refine ⟨front ++ x, back, ?_, ?_⟩
  · rw [hsource, List.append_assoc, List.append_assoc]
  · rw [hoffset, byteLength_append]

theorem LiesAt.boundary (h : LiesAt source offset x) : Boundary source offset :=
  LiesAt.left (x := []) h

theorem LiesAt.boundary_stop (h : LiesAt source offset x) :
    Boundary source (offset + byteLength x) := by
  rw [← List.append_nil x] at h
  exact h.right

theorem boundary_zero (source : String) : Boundary source 0 :=
  ⟨[], source.toList, rfl, rfl⟩

/-- The end of a source, counted in bytes, is the end of its characters. -/
theorem utf8ByteSize_eq (source : String) : source.utf8ByteSize = byteLength source.toList := by
  have hlist : ∀ cs : List Char, (String.ofList cs).utf8ByteSize = byteLength cs := by
    intro cs
    induction cs with
    | nil => rfl
    | cons c cs ih =>
        rw [String.ofList_cons, String.utf8ByteSize_append, String.utf8ByteSize_singleton, ih,
          byteLength_cons]
  rw [← hlist source.toList, String.ofList_toList]

theorem boundary_size (source : String) : Boundary source source.utf8ByteSize :=
  ⟨source.toList, [], by simp, utf8ByteSize_eq source⟩

end

/-! ## Text under a span -/

/-- Where the characters in front take so many bytes, a cut falls behind them. -/
theorem splitAtByte?_byteLength (x y : List Char) :
    splitAtByte? (byteLength x) (x ++ y) = some (x, y) := by
  induction x with
  | nil => rw [byteLength_nil, List.nil_append, splitAtByte?]
  | cons c x ih =>
      have hpos := c.utf8Size_pos
      rcases hn : byteLength (c :: x) with _ | n
      · rw [byteLength_cons] at hn
        omega
      · rw [byteLength_cons] at hn
        rw [List.cons_append, splitAtByte?, if_pos (by omega),
          show n + 1 - c.utf8Size = byteLength x by omega, ih]
        rfl

/-- Of two fronts of a text, the one with fewer bytes is a front of the other. -/
theorem byteLength_le_iff {x y z : List Char} (hx : x <+: z) (hy : y <+: z) :
    byteLength x ≤ byteLength y ↔ x <+: y := by
  constructor
  · intro h
    rcases List.prefix_or_prefix_of_prefix hx hy with hxy | ⟨w, rfl⟩
    · exact hxy
    · rcases w with _ | ⟨c, w⟩
      · exact ⟨[], by simp⟩
      · have hpos := c.utf8Size_pos
        rw [byteLength_append, byteLength_cons] at h
        omega
  · rintro ⟨w, rfl⟩
    rw [byteLength_append]
    exact Nat.le_add_right _ _

/-- Between two boundaries there is a text. -/
theorem Span.text?_isSome {source : String} {s : Span} (hstart : Boundary source s.start)
    (hstop : Boundary source s.stop) : (s.text? source).isSome = true := by
  rcases hstart with ⟨x, x', hx, hstart⟩
  rcases hstop with ⟨y, y', hy, hstop⟩
  have hle : x <+: y :=
    (byteLength_le_iff ⟨x', hx.symm⟩ ⟨y', hy.symm⟩).1 (by
      rw [← hstart, ← hstop]
      exact s.start_le_stop)
  rcases hle with ⟨w, rfl⟩
  have hrest : x' = w ++ y' := by
    rw [List.nil_append] at hx hy
    rw [hx, List.append_assoc] at hy
    exact List.append_cancel_left hy
  have hlength : s.length = byteLength w := by
    rw [Span.length, hstart, hstop, byteLength_append]
    omega
  rw [Span.text?, hx, hstart, List.nil_append, splitAtByte?_byteLength, hlength]
  simp only [hrest, Option.bind_eq_bind, Option.bind_some, splitAtByte?_byteLength]
  rfl


/-! ## Spans in order -/

/-- Spans that are laid in order between two offsets, every end at a boundary. -/
inductive Tiles (source : String) : Nat → List Span → Nat → Prop where
  | nil {a b : Nat} (le : a ≤ b) (start : Boundary source a) (stop : Boundary source b) :
      Tiles source a [] b
  | cons {a b : Nat} {s : Span} {l : List Span} (le : a ≤ s.start) (before : Boundary source a)
      (start : Boundary source s.start) (tail : Tiles source s.stop l b) : Tiles source a (s :: l) b

namespace Tiles

variable {source : String} {a b c : Nat} {s : Span} {l l' : List Span}

theorem boundary (h : Tiles source a l b) : Boundary source a := by
  cases h with
  | nil _ hstart _ => exact hstart
  | cons _ hbefore _ _ => exact hbefore

theorem boundary_stop (h : Tiles source a l b) : Boundary source b := by
  induction h with
  | nil _ _ hstop => exact hstop
  | cons _ _ _ _ ih => exact ih

theorem le (h : Tiles source a l b) : a ≤ b := by
  induction h with
  | nil hle _ _ => exact hle
  | @cons _ _ s _ hle _ _ _ ih => exact Nat.le_trans hle (Nat.le_trans s.start_le_stop ih)

/-- Spans behind spans. -/
theorem append (h : Tiles source a l b) (h' : Tiles source b l' c) : Tiles source a (l ++ l') c := by
  induction h with
  | @nil a b hle hstart _ =>
      cases h' with
      | nil hle' _ hstop => exact .nil (Nat.le_trans hle hle') hstart hstop
      | cons hle' _ hstart' htail => exact .cons (Nat.le_trans hle hle') hstart hstart' htail
  | cons hle hbefore hstart _ ih => exact .cons hle hbefore hstart (ih h')

/-- Room in front of the spans. -/
theorem after (h : Tiles source b l c) (hle : a ≤ b) (ha : Boundary source a) :
    Tiles source a l c :=
  append (.nil hle ha h.boundary) h

/-- Room behind the spans. -/
theorem upTo (h : Tiles source a l b) (hle : b ≤ c) (hc : Boundary source c) :
    Tiles source a l c := by
  rw [← List.append_nil l]
  exact h.append (.nil hle h.boundary_stop hc)

theorem single (hle : a ≤ s.start) (hle' : s.stop ≤ b) (ha : Boundary source a)
    (hstart : Boundary source s.start) (hstop : Boundary source s.stop) (hb : Boundary source b) :
    Tiles source a [s] b :=
  .cons hle ha hstart (.nil hle' hstop hb)

/-- Where one span is laid, it fills the offsets from its own ends. -/
theorem tight (h : Tiles source a [s] b) : Tiles source s.start [s] s.stop := by
  cases h with
  | cons _ _ hstart htail =>
      exact .single (Nat.le_refl _) (Nat.le_refl _) hstart hstart htail.boundary htail.boundary

theorem ends (h : Tiles source a [s] b) : a ≤ s.start ∧ s.stop ≤ b := by
  cases h with
  | cons hle _ _ htail => exact ⟨hle, htail.le⟩

/-- The span between the offsets in place of the spans. -/
theorem enclose (h : Tiles source a l b) : Tiles source a [.between a b] b := by
  have hle := h.le
  have hstart : (Span.between a b).start = a := Nat.min_eq_left hle
  have hstop : (Span.between a b).stop = b := Nat.max_eq_right hle
  refine .single (Nat.le_of_eq hstart.symm) (Nat.le_of_eq hstop) h.boundary ?_ ?_ h.boundary_stop
  · rw [hstart]
    exact h.boundary
  · rw [hstop]
    exact h.boundary_stop

theorem mem (h : Tiles source a l b) : ∀ t ∈ l, a ≤ t.start ∧ t.stop ≤ b ∧
    Boundary source t.start ∧ Boundary source t.stop := by
  induction h with
  | nil => simp
  | @cons a b s l hle _ hstart htail ih =>
      intro t ht
      rcases List.mem_cons.1 ht with rfl | ht
      · exact ⟨hle, htail.le, hstart, htail.boundary⟩
      · rcases ih t ht with ⟨hle', hstop⟩
        exact ⟨Nat.le_trans hle (Nat.le_trans s.start_le_stop hle'), hstop⟩

theorem pairwise (h : Tiles source a l b) : l.Pairwise fun t u => t.stop ≤ u.start := by
  induction h with
  | nil => exact .nil
  | cons _ _ _ htail ih => exact .cons (fun u hu => (htail.mem u hu).1) ih

/-- The spans are laid between the ends of the first and of the last of them. -/
theorem trim (h : Tiles source a l b) {t : Span} (hlast : l.getLast? = some t) :
    ∀ s, l.head? = some s → Tiles source s.start l t.stop ∧ s.start ≤ t.start ∧ s.stop ≤ t.stop ∧
      a ≤ s.start ∧ t.stop ≤ b := by
  induction h with
  | nil => exact fun s hs => nomatch hs
  | @cons a b s' l hle _ hstart htail ih =>
      rintro s ⟨⟩
      rcases l with _ | ⟨u, l⟩
      · cases hlast
        exact ⟨.single (Nat.le_refl _) (Nat.le_refl _) hstart hstart htail.boundary
          htail.boundary, Nat.le_refl _, Nat.le_refl _, hle, htail.le⟩
      · rcases ih (by rwa [List.getLast?_cons_cons] at hlast) u rfl with
          ⟨hrest, hule, hule', hle', hstop⟩
        have hs := s'.start_le_stop
        have hu := u.start_le_stop
        exact ⟨.cons (Nat.le_refl _) hstart hstart (hrest.after hle' htail.boundary), by omega,
          by omega, hle, hstop⟩

end Tiles

theorem Span.cover_eq {s t : Span} (hstart : s.start ≤ t.start) (hstop : s.stop ≤ t.stop) :
    s.cover t = .between s.start t.stop := by
  have hs := s.start_le_stop
  simp only [cover, between, mk.injEq]
  omega

/-! ## Nodes -/

/-- The span holds the spans inside it: there is a text under each of them, they are
    parts of it, and each stands behind those in front of it. -/
structure Span.Holds (source : String) (s : Span) (inside : List Span) : Prop where
  text : (s.text? source).isSome = true
  texts : ∀ t ∈ inside, (t.text? source).isSome = true
  within : ∀ t ∈ inside, s.start ≤ t.start ∧ t.stop ≤ s.stop
  ordered : inside.Pairwise fun t u => t.stop ≤ u.start

/-- What spans laid in order inside a span amount to. -/
theorem Tiles.holds {source : String} {s : Span} {l : List Span}
    (h : Tiles source s.start l s.stop) : s.Holds source l where
  text := Span.text?_isSome h.boundary h.boundary_stop
  texts t ht := Span.text?_isSome (h.mem t ht).2.2.1 (h.mem t ht).2.2.2
  within t ht := ⟨(h.mem t ht).1, (h.mem t ht).2.1⟩
  ordered := h.pairwise

namespace Tree

/-- The spans of what is immediately inside a node, names included. Inside a list or
    an option are its nodes. -/
def children : {c : Category} → Tree c → List Span
  | _, nil | _, none => []
  | _, cons t ts => t.span :: ts.children
  | _, some t => [t.span]
  -- Statements.
  | _, declaration name value _ => [name.span, value.span]
  | _, assignment _ name accessors _ value _ =>
      name.span :: (accessors.children ++ [value.span])
  | _, constant name value _ _ => [name.span, value.span]
  | _, func name parameters body _ => [name.span, parameters.span, body.span]
  | _, proc name parameters body _ => name.span :: (parameters.children ++ [body.span])
  | _, command call => [call.span]
  | _, forLoop names items body _ => names.map (·.span) ++ [items.span, body.span]
  | _, whileLoop condition body _ => [condition.span, body.span]
  | _, conditional branches otherwise _ => branches.children ++ otherwise.children
  | _, caseOf subject arms _ => subject.span :: arms.children
  | _, piped left right _ => [left.span, right.span]
  | _, returned value _ => value.children
  | _, error _ _ => []
  | _, block statements _ => statements.children
  -- The parts of declarations and definitions.
  | _, memberAccessor name _ => [name.span]
  | _, indexAccessor i _ => [i.span]
  | _, parameter name default _ => name.span :: default.children
  | _, parameterGroup parameters rest _ => parameters.children ++ rest.children
  | _, parameterList positional typed named blockParameter _ =>
      positional.span :: (typed.children ++ (named.children ++ blockParameter.children))
  | _, returnedExpression e => [e.span]
  | _, returnedWord w => [w.span]
  -- Commands.
  | _, commandCall _ bindings name arguments callArguments body redirections _ =>
      bindings.children ++ (name.span :: (arguments.children ++ (callArguments.children
        ++ (body.children ++ redirections.children))))
  | _, envBinding name value _ => [name.span, value.span]
  | _, literalArgument l => [l.span]
  | _, expansionArgument e => [e.span]
  | _, wordArgument w => [w.span]
  | _, redirectionArgument r => [r.span]
  | _, argumentList positional named _ => positional.children ++ named.children
  | _, namedArgument name value _ => [name.span, value.span]
  | _, redirection _ _ target _ => [target.span]
  -- Control flow.
  | _, rangeIterable first last _ => [first.span, last.span]
  | _, expressionIterable e => [e.span]
  | _, wordsIterable words => words.children
  | _, expressionCondition e => [e.span]
  | _, commandCondition call => [call.span]
  | _, branch condition body _ => [condition.span, body.span]
  | _, arm pattern body _ => [pattern.span, body.span]
  | _, globPattern globs _ => globs.children
  | _, expressionPattern e => [e.span]
  | _, eggexPattern e => [e.span]
  | _, elsePattern _ => []
  -- Words.
  | _, word parts _ => parts.children
  | _, bare _ _ | _, escaped _ _ => []
  | _, stringPart s => [s.span]
  | _, expansionPart e => [e.span]
  | _, string _ _ fragments _ => fragments.children
  | _, text _ _ | _, escape _ _ => []
  | _, expansionFragment e => [e.span]
  | _, simple _ _ | _, splice _ _ => []
  | _, braced _ default _ => default.children
  | _, indexed _ e _ => [e.span]
  | _, substitution _ body _ => body.children
  -- Expressions.
  | _, literalExpression l => [l.span]
  | _, reference _ _ => []
  | _, expansionExpression e => [e.span]
  | _, binary _ left right _ => [left.span, right.span]
  | _, unary _ operand _ => [operand.span]
  | _, functionCall name arguments _ => [name.span, arguments.span]
  | _, methodCall receiver _ method arguments _ => [receiver.span, method.span, arguments.span]
  | _, member object name _ => [object.span, name.span]
  | _, index object i _ => [object.span, i.span]
  | _, number _ | _, boolean _ _ | _, null _ | _, character _ _ => []
  | _, stringLiteral s => [s.span]
  | _, list elements _ => elements.children
  | _, dict entries _ => entries.children
  | _, eggexLiteral e => [e.span]
  | _, wordList words _ => words.children
  | _, dictEntry key value _ => [key.span, value.span]
  | _, nameKey name => [name.span]
  | _, stringKey s => [s.span]
  | _, expressionKey e => [e.span]

@[simp] theorem children_ofList {c : Category} (ts : List (Tree c)) :
    (ofList ts).children = ts.map (·.span) := by
  induction ts with
  | nil => rfl
  | cons t ts ih => exact congrArg (t.span :: ·) ih

@[simp] theorem children_ofOption {c : Category} (o : Option (Tree c)) :
    (ofOption o).children = o.toList.map (·.span) := by
  cases o <;> rfl

theorem mem_nodes_ofList {c : Category} {ts : List (Tree c)} {n : Node} :
    n ∈ (ofList ts).nodes ↔ ∃ t ∈ ts, n ∈ t.nodes := by
  induction ts with
  | nil =>
      change n ∈ ([] : List Node) ↔ _
      simp
  | cons t ts ih =>
      change n ∈ t.nodes ++ (ofList ts).nodes ↔ _
      rw [List.mem_append, ih]
      simp

theorem mem_nodes_ofOption {c : Category} {o : Option (Tree c)} {n : Node} :
    n ∈ (ofOption o).nodes ↔ ∃ t ∈ o.toList, n ∈ t.nodes := by
  cases o with
  | none =>
      change n ∈ ([] : List Node) ↔ _
      simp
  | some t =>
      change n ∈ t.nodes ↔ _
      simp

end Tree

/-- The children of the node are laid in order inside it. -/
def Node.Neat (source : String) (n : Node) : Prop :=
  Tiles source n.tree.span.start n.tree.children n.tree.span.stop

/-- Every node of the tree is neat. -/
def Tree.Neat (source : String) {c : Category} (t : Tree c) : Prop :=
  ∀ n ∈ t.nodes, n.Neat source

/-- The trees are laid in order between two offsets, and every node in them is neat. -/
structure LaidEach (source : String) (a : Nat) {c : Category} (ts : List (Tree c)) (b : Nat) :
    Prop where
  tiles : Tiles source a (ts.map (·.span)) b
  neat : ∀ t ∈ ts, t.Neat source

/-- The tree is laid between two offsets, and every node in it is neat. -/
def Laid (source : String) (a : Nat) {c : Category} (t : Tree c) (b : Nat) : Prop :=
  LaidEach source a [t] b

section

variable {source : String} {a b d : Nat} {c : Category} {t : Tree c} {ts us : List (Tree c)}

theorem Tree.Neat.ofList (h : ∀ t ∈ ts, t.Neat source) : (Tree.ofList ts).Neat source := by
  intro n hn
  rcases mem_nodes_ofList.1 hn with ⟨t, ht, hn⟩
  exact h t ht n hn

theorem Tree.Neat.ofOption {o : Option (Tree c)} (h : ∀ t ∈ o.toList, t.Neat source) :
    (Tree.ofOption o).Neat source := by
  intro n hn
  rcases mem_nodes_ofOption.1 hn with ⟨t, ht, hn⟩
  exact h t ht n hn

namespace LaidEach

theorem nil (hle : a ≤ b) (ha : Boundary source a) (hb : Boundary source b) :
    LaidEach source a ([] : List (Tree c)) b :=
  ⟨.nil hle ha hb, by simp⟩

theorem append (h : LaidEach source a ts b) (h' : LaidEach source b us d) :
    LaidEach source a (ts ++ us) d := by
  refine ⟨?_, fun t ht => ?_⟩
  · rw [List.map_append]
    exact h.tiles.append h'.tiles
  · rcases List.mem_append.1 ht with ht | ht
    · exact h.neat t ht
    · exact h'.neat t ht

theorem after (h : LaidEach source b ts d) (hle : a ≤ b) (ha : Boundary source a) :
    LaidEach source a ts d :=
  ⟨h.tiles.after hle ha, h.neat⟩

theorem upTo (h : LaidEach source a ts b) (hle : b ≤ d) (hd : Boundary source d) :
    LaidEach source a ts d :=
  ⟨h.tiles.upTo hle hd, h.neat⟩

/-- One tree in front of others. -/
theorem cons (h : Laid source a t b) (h' : LaidEach source b ts d) :
    LaidEach source a (t :: ts) d :=
  (show LaidEach source a [t] b from h).append h'

theorem uncons (h : LaidEach source a (t :: ts) d) :
    Laid source a t t.span.stop ∧ LaidEach source t.span.stop ts d := by
  rcases h with ⟨htiles, hneat⟩
  cases htiles with
  | cons hle hbefore hstart htail =>
      refine ⟨⟨?_, by simpa using hneat t (by simp)⟩, htail, fun u hu => hneat u (by simp [hu])⟩
      exact .single hle (Nat.le_refl _) hbefore hstart htail.boundary htail.boundary

/-- The last tree is laid behind the others, from where it starts. -/
theorem unappend (h : LaidEach source a (ts ++ [t]) d) :
    LaidEach source a ts t.span.start ∧ Laid source t.span.start t d := by
  induction ts generalizing a with
  | nil =>
      have hends := h.tiles.mem t.span (by simp)
      have hlaid : Laid source t.span.start t d :=
        ⟨.single (Nat.le_refl _) hends.2.1 hends.2.2.1 hends.2.2.1 hends.2.2.2 h.tiles.boundary_stop,
          h.neat⟩
      exact ⟨.nil hends.1 h.tiles.boundary hends.2.2.1, hlaid⟩
  | cons u us ih =>
      rcases h.uncons with ⟨hu, hrest⟩
      exact ⟨LaidEach.cons hu (ih hrest).1, (ih hrest).2⟩

/-- The nodes of the list have room in it. -/
theorem ofList_neat (h : LaidEach source a ts b) : (Tree.ofList ts).Neat source :=
  .ofList h.neat

theorem tiles_children (h : LaidEach source a ts b) :
    Tiles source a (Tree.ofList ts).children b := by
  rw [Tree.children_ofList]
  exact h.tiles

theorem ofOption_neat {o : Option (Tree c)} (h : LaidEach source a o.toList b) :
    (Tree.ofOption o).Neat source :=
  .ofOption h.neat

theorem tiles_option {o : Option (Tree c)} (h : LaidEach source a o.toList b) :
    Tiles source a (Tree.ofOption o).children b := by
  rw [Tree.children_ofOption]
  exact h.tiles

/-- The span of a list of nodes covers them. -/
theorem span_ofList (h : LaidEach source a ts b) (hne : ts ≠ []) :
    Tiles source (Tree.ofList ts).span.start (ts.map (·.span)) (Tree.ofList ts).span.stop ∧
      a ≤ (Tree.ofList ts).span.start ∧ (Tree.ofList ts).span.stop ≤ b := by
  induction ts generalizing a with
  | nil => exact absurd rfl hne
  | cons t ts ih =>
      rcases ts with _ | ⟨u, us⟩
      · exact ⟨h.tiles.tight, h.tiles.ends⟩
      · rcases h.uncons with ⟨ht, hrest⟩
        rcases ih hrest (by simp) with ⟨htiles, hle, hle'⟩
        have hstart := t.span.start_le_stop
        have hcover : (Tree.ofList (t :: u :: us)).span =
            .between t.span.start (Tree.ofList (u :: us)).span.stop := by
          refine Span.cover_eq (by omega) ?_
          exact Nat.le_trans hle (Tree.ofList (u :: us)).span.start_le_stop
        have hfill := (LaidEach.tiles ht).tight.append
          (htiles.after hle (LaidEach.tiles ht).boundary_stop)
        have hends := hfill.le
        rw [hcover, Span.between]
        simp only [Nat.min_eq_left hends, Nat.max_eq_right hends]
        exact ⟨hfill, (LaidEach.tiles ht).ends.1, hle'⟩

end LaidEach

namespace Laid

theorem tiles (h : Laid source a t b) : Tiles source a [t.span] b :=
  LaidEach.tiles h

theorem neat (h : Laid source a t b) : t.Neat source :=
  LaidEach.neat h t (by simp)

theorem of (h : Tiles source a [t.span] b) (hneat : t.Neat source) : Laid source a t b :=
  ⟨h, by simpa using hneat⟩

theorem tight (h : Laid source a t b) : Laid source t.span.start t t.span.stop :=
  .of h.tiles.tight h.neat

theorem ends (h : Laid source a t b) : a ≤ t.span.start ∧ t.span.stop ≤ b :=
  h.tiles.ends

theorem after {a' : Nat} (h : Laid source a t b) (hle : a' ≤ a) (ha : Boundary source a') :
    Laid source a' t b :=
  LaidEach.after h hle ha

theorem upTo {b' : Nat} (h : Laid source a t b) (hle : b ≤ b') (hb : Boundary source b') :
    Laid source a t b' :=
  LaidEach.upTo h hle hb

/-- A node with nothing inside it. -/
theorem leaf (h : Tiles source a [t.span] b) (hchildren : t.children = [])
    (hnodes : t.nodes = [⟨c, t⟩]) : Laid source a t b := by
  refine .of h fun n hn => ?_
  rw [hnodes, List.mem_singleton] at hn
  subst hn
  have hends := h.mem t.span (by simp)
  unfold Node.Neat
  rw [hchildren]
  exact .nil t.span.start_le_stop hends.2.2.1 hends.2.2.2

/-- A node that starts and ends where its children may is laid. -/
theorem enclose {N : List Node} (h : Tiles source a t.children b)
    (hspan : t.span = .between a b) (hnodes : t.nodes = ⟨c, t⟩ :: N)
    (hinside : ∀ n ∈ N, n.Neat source) : Laid source a t b := by
  have htiles : Tiles source a [t.span] b := hspan ▸ h.enclose
  refine .of htiles fun n hn => ?_
  rw [hnodes] at hn
  rcases List.mem_cons.1 hn with rfl | hn
  · have hstart : t.span.start = a := by
      rw [hspan]
      exact Nat.min_eq_left h.le
    have hstop : t.span.stop = b := by
      rw [hspan]
      exact Nat.max_eq_right h.le
    unfold Node.Neat
    rwa [hstart, hstop]
  · exact hinside n hn

/-- A node that ends with the last of its children. -/
theorem untilLast {N : List Node} {u : Span} (h : Tiles source a t.children b)
    (hlast : t.children.getLast? = some u) (hspan : t.span = .between a u.stop)
    (hnodes : t.nodes = ⟨c, t⟩ :: N) (hinside : ∀ n ∈ N, n.Neat source) :
    Laid source a t b := by
  rcases hfirst : t.children.head? with _ | s
  · rw [List.head?_eq_none_iff.1 hfirst] at hlast
    cases hlast
  · rcases h.trim hlast s hfirst with ⟨htiles, -, -, hle, hle'⟩
    exact (enclose (htiles.after hle h.boundary) hspan hnodes hinside).upTo hle' h.boundary_stop

/-- A node that starts with the first of its children. -/
theorem fromFirst {N : List Node} {s : Span} {l : List Span} (h : Tiles source a t.children b)
    (hfirst : t.children = s :: l) (hspan : t.span = .between s.start b)
    (hnodes : t.nodes = ⟨c, t⟩ :: N) (hinside : ∀ n ∈ N, n.Neat source) :
    Laid source a t b := by
  have hbefore := h.boundary
  rw [hfirst] at h
  have hends := h.mem s (by simp)
  have htiles : Tiles source s.start t.children b := by
    rw [hfirst]
    cases h with
    | cons _ _ hstart htail => exact .cons (Nat.le_refl _) hstart hstart htail
  exact (enclose htiles hspan hnodes hinside).after hends.1 hbefore

/-- A node that starts with the first of its children and ends with the last. -/
theorem ofEnds {N : List Node} {s u : Span} (h : Tiles source a t.children b)
    (hfirst : t.children.head? = some s) (hlast : t.children.getLast? = some u)
    (hspan : t.span = .between s.start u.stop) (hnodes : t.nodes = ⟨c, t⟩ :: N)
    (hinside : ∀ n ∈ N, n.Neat source) : Laid source a t b := by
  rcases h.trim hlast s hfirst with ⟨htiles, -, -, hle, hle'⟩
  exact ((enclose htiles hspan hnodes hinside).after hle h.boundary).upTo hle' h.boundary_stop

/-- A node that covers its children. -/
theorem ofCover {N : List Node} {s u : Span} (h : Tiles source a t.children b)
    (hfirst : t.children.head? = some s) (hlast : t.children.getLast? = some u)
    (hspan : t.span = s.cover u) (hnodes : t.nodes = ⟨c, t⟩ :: N)
    (hinside : ∀ n ∈ N, n.Neat source) : Laid source a t b := by
  rcases h.trim hlast s hfirst with ⟨-, hstart, hstop, -⟩
  exact ofEnds h hfirst hlast (hspan.trans (Span.cover_eq hstart hstop)) hnodes hinside

/-- A node that is a name, or text that is no node of the family. -/
theorem name {s : Span} (h : Tiles source a [s] b) (hspan : t.span = s)
    (hchildren : t.children = [s]) (hnodes : t.nodes = [⟨c, t⟩]) : Laid source a t b := by
  refine .of (hspan ▸ h) fun n hn => ?_
  rw [hnodes, List.mem_singleton] at hn
  subst hn
  unfold Node.Neat
  rw [hchildren, hspan]
  exact h.tight

/-- A node that is another one under a different name. -/
theorem wrap {c' : Category} {u : Tree c'} (h : Laid source a u b) (hspan : t.span = u.span)
    (hchildren : t.children = [u.span]) (hnodes : t.nodes = ⟨c, t⟩ :: u.nodes) :
    Laid source a t b := by
  refine .of (hspan ▸ h.tiles) fun n hn => ?_
  rw [hnodes] at hn
  rcases List.mem_cons.1 hn with rfl | hn
  · unfold Node.Neat
    rw [hchildren, hspan]
    exact h.tiles.tight
  · exact h.neat n hn

end Laid

end

end Ysh
