import Ysh.Proofs.Coverage.Word
import Ysh.Proofs.Spacing.Reader

/-!
# Words, Strings and Expansions in the Squeezed Source

Here the absence of a gap counts. A word goes on as long as tokens touch, and its bare text
is gathered from tokens that are no leaves by themselves: a run of it is a single leaf, and
grows with each token. What is known of the leaves is therefore stated by the offsets they
take up, which `covered_pushText` adds one by one. A string is read without tokens, and
an expansion inside of it brings the tokens back.

The grammars of both parses are turned equally often in the end, but not here: the grammar
of the source has as many turns as the source allows, and that of the squeezed source as
many as its shorter text does. `Grammar.Mirrors` relates them up to a bound on that text.

## Main definitions

* `Joins`: What is known of a word that goes on.
* `Grammar.Mirrors`: What one turn of the grammar needs of the turns below.

## Theorems

* `piece_of_owned`: A piece of a string whose leaves are all there are is the same piece.
* `mirrors_stringBody`, `mirrors_word`, `retraces_expansionBody`: The productions.
-/

namespace Ysh

open Lexeme Spanned

/-! ## Parts of words -/

theorem Span.mem_between {a b p : Nat} (h : a ≤ b) :
    ((Span.between a b).start ≤ p && p < (Span.between a b).stop) = (a ≤ p && p < b) := by
  have hstart : (Span.between a b).start = a := Nat.min_eq_left h
  have hstop : (Span.between a b).stop = b := Nat.max_eq_right h
  rw [hstart, hstop]

theorem Span.mem_and_mem {a b c p : Nat} (h : a ≤ b) (h' : b ≤ c) :
    ((a ≤ p && p < b) || (b ≤ p && p < c)) = (decide (a ≤ p) && decide (p < c)) := by
  rw [Bool.eq_iff_iff]
  simp only [Bool.or_eq_true, Bool.and_eq_true, decide_eq_true_eq]
  omega

namespace Tree

/-- A character is added alike to parts that differ in spans alone, if it touches both. -/
theorem erase_pushBare (c : Char) {offset offset' : Nat} {parts parts' : List WordPart}
    (h : Touches parts offset) (h' : Touches parts' offset')
    (hsame : parts'.map Tree.erase = parts.map Tree.erase) :
    (pushBare c offset' parts').map Tree.erase = (pushBare c offset parts).map Tree.erase := by
  have hbare : ∀ {ps qs : List WordPart} {front run span}, ps = front ++ [bare run span] →
      qs.map Tree.erase = ps.map Tree.erase → ∃ front' span', qs = front' ++ [bare run span'] ∧
        front'.map Tree.erase = front.map Tree.erase := by
    rintro ps qs front run span rfl heq
    rw [List.map_append, List.map_singleton] at heq
    rcases List.map_eq_append_iff.1 heq with ⟨front', last, rfl, hfront, hlast⟩
    rcases List.map_eq_singleton_iff.1 hlast with ⟨part, rfl, hpart⟩
    cases part with
    | bare run' span' =>
        cases hpart
        exact ⟨front', span', rfl, hfront⟩
    | _ => cases hpart
  rcases pushBare_touching c offset parts h with ⟨front, run, span, hparts, heq⟩ | ⟨hnone, heq⟩
  · rcases hbare hparts hsame with ⟨front', span', hparts', hfront⟩
    rcases pushBare_touching c offset' parts' h' with ⟨front1, run1, span1, hparts1, heq'⟩ |
      ⟨hnone', heq'⟩
    · rw [hparts'] at hparts1
      rcases List.append_inj' hparts1 rfl with ⟨rfl, hlast⟩
      cases hlast
      rw [heq, heq', List.map_append, List.map_append, hfront]
      rfl
    · exact absurd hparts' (hnone' _ _ _)
  · rcases pushBare_touching c offset' parts' h' with ⟨front1, run1, span1, hparts1, heq'⟩ |
      ⟨hnone', heq'⟩
    · rcases hbare hparts1 hsame.symm with ⟨front', span', hparts, -⟩
      exact absurd hparts (hnone _ _ _)
    · rw [heq, heq', List.map_append, List.map_append, hsame]
      rfl

/-- A text is added alike to parts that differ in spans alone, if it touches both. -/
theorem erase_pushText (text : List Char) {offset offset' : Nat} {parts parts' : List WordPart}
    (h : Touches parts offset) (h' : Touches parts' offset')
    (hsame : parts'.map Tree.erase = parts.map Tree.erase) :
    (pushText parts' text offset').map Tree.erase = (pushText parts text offset).map Tree.erase := by
  fun_induction pushText parts text offset generalizing parts' offset' with
  | case1 => exact hsame
  | case2 parts x xs offset stop =>
      rename_i ih
      rw [pushText]
      refine ih (touches_append fun _ _ hbare => by cases hbare)
        (touches_append fun _ _ hbare => by cases hbare) ?_
      rw [List.map_append, List.map_append, hsame]
      rfl
  | case3 parts x xs offset hlone ih =>
      rw [pushText]
      · exact ih (touches_pushBare x h) (touches_pushBare x h') (erase_pushBare x h h' hsame)
      · exact hlone

/-- The parts that a text adds take up the text. -/
theorem covered_pushText (text : List Char) (offset : Nat) (parts : List WordPart)
    (h : Touches parts offset) (p : Nat) :
    covered ((pushText parts text offset).flatMap Tree.leaves) p
      = (covered (parts.flatMap Tree.leaves) p || (offset ≤ p && p < offset + byteLength text)) := by
  fun_induction pushText parts text offset with
  | case1 parts offset =>
      have hempty : (decide (offset ≤ p) && decide (p < offset + byteLength [])) = false := by
        rw [byteLength_nil, Nat.add_zero, Bool.and_eq_false_iff, decide_eq_false_iff_not,
          decide_eq_false_iff_not]
        omega
      rw [hempty, Bool.or_false]
  | case2 parts x xs offset stop ih =>
      have hsplit := Span.mem_and_mem (p := p) (a := offset) (b := stop)
        (c := stop + byteLength xs) (by omega) (by omega)
      have hleaf : covered ([escaped x.toString (.between offset stop)].flatMap Tree.leaves) p
          = (offset ≤ p && p < stop) := by
        rw [← Span.mem_between (by omega)]
        exact Bool.or_false _
      rw [ih (touches_append fun _ _ hbare => by cases hbare), List.flatMap_append, covered_append,
        hleaf, Bool.or_assoc, hsplit, byteLength_cons, byteLength_cons, ← Nat.add_assoc,
        ← Nat.add_assoc]
  | case3 parts x xs offset hlone ih =>
      have hsplit := Span.mem_and_mem (p := p) (a := offset) (b := offset + x.utf8Size)
        (c := offset + x.utf8Size + byteLength xs) (by omega) (by omega)
      have hbare : covered ((pushBare x offset parts).flatMap Tree.leaves) p
          = (covered (parts.flatMap Tree.leaves) p || (offset ≤ p && p < offset + x.utf8Size)) := by
        rcases pushBare_touching x offset parts h with ⟨front, run, span, hparts, heq⟩ | ⟨-, heq⟩
        · have hstop := h front run span hparts
          have hle := span.start_le_stop
          have hjoin := Span.mem_and_mem (p := p) (a := span.start) (b := offset)
            (c := offset + x.utf8Size) (by omega) (by omega)
          have hold : covered ([bare run span].flatMap Tree.leaves) p
              = (span.start ≤ p && p < offset) := by
            rw [← hstop]
            exact Bool.or_false _
          have hnew : covered ([bare (run.push x) (span.upTo (offset + x.utf8Size))].flatMap
              Tree.leaves) p = (span.start ≤ p && p < offset + x.utf8Size) := by
            rw [← Span.mem_between (by omega)]
            exact Bool.or_false _
          rw [heq, hparts, List.flatMap_append, covered_append, List.flatMap_append, covered_append,
            hold, hnew, Bool.or_assoc, hjoin]
        · have hnew : covered ([bare x.toString (.between offset (offset + x.utf8Size))].flatMap
              Tree.leaves) p = (offset ≤ p && p < offset + x.utf8Size) := by
            rw [← Span.mem_between (Nat.le_add_right _ _)]
            exact Bool.or_false _
          rw [heq, List.flatMap_append, covered_append, hnew]
      rw [ih (touches_pushBare x h), hbare, Bool.or_assoc, hsplit, byteLength_cons, ← Nat.add_assoc]

end Tree

/-! ## Openers -/

/-- A token as a leaf. -/
def Token.leaf (token : Token) : Leaf :=
  ⟨.plain, token.text, token.span⟩

@[simp] theorem Token.leaf_span (token : Token) : token.leaf.span = token.span := rfl

/-- The leaves of an opener. The other openers are signs of the language. -/
def Opener.leaves (opener : Opener) (token : Token) : List Leaf :=
  match opener with
  | .name | .splice | .brace => [token.leaf]
  | .bracket _ | .paren _ => []

theorem covered_leaf (leaf : Leaf) (p : Nat) :
    covered [leaf] p = (leaf.span.start ≤ p && p < leaf.span.stop) :=
  Bool.or_false _

theorem Token.leaves_leaf {token : Token} {leaf : Leaf} (h : leaf.span = token.span) :
    token.Leaves [leaf] :=
  .leaves fun p => by rw [covered_leaf, h]

theorem Token.leaves_self (token : Token) : token.Leaves [token.leaf] :=
  leaves_leaf rfl

theorem Token.leaves_opener {token : Token} {opener : Opener} (h : token.kind = .opener opener) :
    token.Leaves (opener.leaves token) := by
  cases opener with
  | name | splice | brace => exact leaves_leaf rfl
  | bracket | paren => exact .fixed (by rw [h]; rfl)

/-- The leaves of a piece of a word: those that are there when it has been consumed. -/
def Token.pieceLeaves (token : Token) : List Leaf :=
  match token.kind with
  | .quote _ _ => []
  | .opener opener => opener.leaves token
  | _ => [token.leaf]

section

variable {token : Token}

theorem Token.pieceLeaves_quote {style : StringStyle} {triple : Bool}
    (h : token.kind = .quote style triple) : token.pieceLeaves = [] := by
  unfold pieceLeaves
  rw [h]

theorem Token.pieceLeaves_opener {opener : Opener} (h : token.kind = .opener opener) :
    token.pieceLeaves = opener.leaves token := by
  unfold pieceLeaves
  rw [h]

theorem Token.pieceLeaves_text (hquote : ∀ style triple, token.kind ≠ .quote style triple)
    (hopener : ∀ opener, token.kind ≠ .opener opener) :
    token.pieceLeaves = [token.leaf] := by
  unfold pieceLeaves
  split
  · next hkind => exact absurd hkind (hquote _ _)
  · next hkind => exact absurd hkind (hopener _)
  · rfl

theorem Token.leaves_piece (token : Token) : token.Leaves token.pieceLeaves := by
  unfold pieceLeaves
  split
  · next hkind => exact .fixed (by rw [hkind]; rfl)
  · next hkind => exact leaves_opener hkind
  · exact leaves_leaf rfl

end

/-! ## Pieces of strings -/

namespace Quoted

/-- The leaves of a piece that is read. -/
def leaves : Except LexicalError Piece → List Leaf
  | .ok (.text value span) | .ok (.escape value span) => [⟨.plain, value, span⟩]
  | .ok (.expansion opener token) => opener.leaves token
  | .ok (.badEscape _ _ _) | .ok (.close _) | .error _ => []

/-- What a piece asks of the text right behind it: another piece, unless the string is closed
    or an expansion goes on there. What is wrong asks for what nothing has. -/
def Asks (gaps : Gaps) (style : StringStyle) (triple : Bool) (c : Cursor) :
    Except LexicalError Piece → Prop
  | .ok (.text _ _) | .ok (.escape _ _) => c.Piece gaps style triple
  | .ok (.expansion _ _) | .ok (.close _) => True
  | .ok (.badEscape _ _ _) | .error _ => False

/-- The same piece of a string body is read elsewhere, or just the same. -/
inductive Retold : Except LexicalError Piece → Except LexicalError Piece → Prop
  | same (r : Except LexicalError Piece) : Retold r r
  | alike {p p' : Piece} (h : Alike p p') : Retold (.ok p) (.ok p')

end Quoted

namespace Cursor

variable {gaps : Gaps} {c d after : Cursor} {style : StringStyle} {triple : Bool}
  {opening opening' : Span} {p : Quoted.Piece}

theorem covered_spanOf (c : Cursor) (k : Nat) (form : Leaf.Form) (text : String) (p : Nat) :
    covered [⟨form, text, c.spanOf k⟩] p = (c.offset ≤ p && p < (c.advance k).offset) :=
  covered_leaf _ p

/-- The leaves of a piece are where it is. -/
theorem within_piece (c : Cursor) (style : StringStyle) (triple : Bool) (opening : Span) :
    Within (Quoted.leaves (c.piece style triple opening).1) c.offset
      (c.piece style triple opening).2.offset := by
  by_cases hrest : c.rest = []
  · rw [piece, if_pos (by simpa using hrest)]
    exact .nil (Nat.le_refl _)
  · rcases hform : Quoted.form style triple c.rest with ⟨form, k⟩
    rw [piece_eq hrest hform]
    have hle : c.offset ≤ (c.advance k).offset := Nat.le_add_right _ _
    have hleaf : ∀ form text, Within [⟨form, text, c.spanOf k⟩] c.offset (c.advance k).offset := by
      intro form text
      refine ⟨hle, fun p hp => ?_⟩
      rwa [covered_spanOf, Bool.and_eq_true, decide_eq_true_eq, decide_eq_true_eq] at hp
    cases form with
    | text | escape => exact hleaf _ _
    | expansion opener =>
        cases opener with
        | name | splice | brace => exact hleaf _ _
        | bracket | paren => exact .nil hle
    | badEscape | badByteEscape | close => exact .nil hle

/-- A piece that is owned is there in the squeezed source. -/
theorem piece_of_owned (opening opening' : Span)
    (hown : Owns gaps (Quoted.leaves (c.piece style triple opening).1) c.offset
      (c.piece style triple opening).2.offset)
    (hasks : Quoted.Asks gaps style triple (c.piece style triple opening).2
      (c.piece style triple opening).1) :
    c.Piece gaps style triple ∧ ∀ d : Cursor, d.rest = c.squeezed gaps →
      Quoted.Retold (c.piece style triple opening).1 (d.piece style triple opening').1 ∧
        (d.piece style triple opening').2.rest
          = (c.piece style triple opening).2.squeezed gaps := by
  by_cases hrest : c.rest = []
  · rw [piece, if_pos (by simpa using hrest)] at hasks
    exact hasks.elim
  · have hwithin := @Quoted.form_within style triple _ hrest
    have hcover := c.cover_piece style triple opening
    rcases hform : Quoted.form style triple c.rest with ⟨form, k⟩
    rw [hform] at hwithin
    rw [piece_eq hrest hform] at hown hasks hcover
    have hcopied : ∀ leaf : Leaf, leaf.span = c.spanOf k →
        Quoted.leaves (.ok (form.piece c k)) = [leaf] → c.Verbatim gaps k := by
      intro leaf hspan hleaves
      refine verbatim_of_inside hwithin.2 fun q hq hlt => ?_
      rw [hown q hq hlt, hleaves, covered_leaf, hspan, Bool.and_eq_true, decide_eq_true_eq,
        decide_eq_true_eq]
      exact ⟨hq, hlt⟩
    have hpiece : c.Piece gaps style triple ∧
        (form = .text → (c.advance k).Piece gaps style triple) := by
      cases form with
      | text =>
          refine ⟨⟨hrest, by rw [hform]; simp, ?_, fun _ => ?_⟩, fun _ => hasks⟩
          · rw [hform]
            exact hcopied _ rfl rfl
          · rw [hform]
            exact hasks.more
      | escape =>
          refine ⟨⟨hrest, by rw [hform]; simp, ?_, by rw [hform]; simp⟩, by simp⟩
          rw [hform]
          exact hcopied _ rfl rfl
      | badEscape | badByteEscape => exact hasks.elim
      | expansion opener =>
          refine ⟨⟨hrest, by rw [hform]; simp, ?_, by rw [hform]; simp⟩, by simp⟩
          rw [hform]
          cases opener with
          | name | splice | brace => exact hcopied _ rfl rfl
          | bracket sigil | paren sigil =>
              rcases hcover with ⟨text, hread⟩
              have htext : text = c.rest.take k := by
                refine @List.append_cancel_right _ _ (c.rest.drop k) _ ?_
                rw [List.take_append_drop]
                exact hread.passes.rest.symm
              refine verbatim_of_solid ?_
              dsimp only
              rw [← htext, hread.opens.shape]
              exact List.all_eq_true.1 (by cases sigil <;> rfl)
      | close =>
          refine ⟨⟨hrest, by rw [hform]; simp, ?_, by rw [hform]; simp⟩, by simp⟩
          rw [hform]
          rcases Quoted.form_close_iff.1 hform with ⟨⟨t, ht⟩, rfl⟩
          refine verbatim_of_solid ?_
          rw [← ht, List.take_left]
          exact (Fixed.closeQuote style triple).solid
    refine ⟨hpiece.1, fun d hd => ?_⟩
    rcases hpiece.1.squeezed opening opening' hd (by rw [hform]; exact hpiece.2) with
      ⟨p, p', hp, hp', halike, hrest'⟩
    rw [hp, hp']
    exact ⟨.alike halike, hrest'⟩

end Cursor

/-- The three readers of the second grammar do in the squeezed source what those of the
    first do in the source: expressions and statements where less than `k` characters are
    left, and expansions where less than `n` are. -/
structure Grammar.Mirrors (gaps : Gaps) (D : List Diagnostic) (k n : Nat) (g h : Grammar) :
    Prop where
  expression (ctx : Context) : Ysh.Mirrors gaps D k g.expression h.expression ctx Tree.leaves
    (·.Sees gaps .expression ctx) fun _ => (·.Sees gaps .expression ctx)
  statements (closer : Option Token.Kind) {ctx : Context} (hctx : ctx.inBrackets = false) :
    Ysh.Mirrors gaps D k (g.statements closer) (h.statements closer) ctx
      (·.flatMap Tree.leaves) (fun _ => True) fun _ => (·.Sees gaps .command ctx)
  expansion {opener : Opener} {token : Token} {span : Span} {front : Cursor} {text : List Char}
    {ctx : Context} {s : State} {origin : Nat} {seen : List Leaf} {J : State → Prop}
    (hread : opener.Read token front text s.cursor) :
    Retraces gaps D n J (g.expansion opener token)
      (h.expansion opener { token with span }) ctx origin (seen ++ opener.leaves token) s
      (fun e => seen ++ e.leaves) True fun _ _ => True

namespace Grammar

variable {gaps : Gaps} {D : List Diagnostic} {k n : Nat} {g h : Grammar} [g.Stepwise]
  [h.Stepwise] {ctx : Context} {s : State} {origin : Nat} {seen : List Leaf}

/-! ## Strings -/

section

variable (hg : g.Mirrors gaps D k n h)
include hg

omit [h.Stepwise] in
/-- The next piece of a string is read alike. -/
theorem retraces_stringRound {style : StringStyle} {triple : Bool} {opening opening' : Span}
    {a b : Array Fragment} (hab : erase b = erase a) :
    Retraces gaps D n (fun _ => True) (g.stringRound style triple opening a)
      (h.stringRound style triple opening' b) ctx origin (a.toList.flatMap Tree.leaves) s
      (fun r => r.value.toList.flatMap Tree.leaves) (s.cursor.Piece gaps style triple)
      (Round.Asks (fun _ => (·.Piece gaps style triple)) fun _ _ => True) := by
  have hab : b.map erase = a.map erase := hab
  have hpush : ∀ {f f' : Fragment}, f'.erase = f.erase →
      erase (Round.again (b.push f')) = erase (Round.again (a.push f)) := by
    intro f f' hf
    simp [hab, hf]
  have hcover := s.cursor.cover_piece style triple opening
  refine retraces_raw (Quoted.leaves (s.cursor.piece style triple opening).1)
    (Quoted.Retold (s.cursor.piece style triple opening).1)
    (Quoted.Asks gaps style triple · (s.cursor.piece style triple opening).1) (fun r => ?_)
    (Cursor.piece_after style triple opening') (s.cursor.within_piece style triple opening)
    (.same _) (fun s1 r' hs1 hr => ?_) fun hown hasks => Cursor.piece_of_owned _ _ hown hasks
  · rcases r with e | (_ | _ | _ | ⟨opener, token⟩ | _)
    · infer_instance
    · infer_instance
    · infer_instance
    · infer_instance
    · exact Moving.bind inferInstance fun r => by cases r <;> infer_instance
    · infer_instance
  · rw [← hs1] at hcover
    generalize (s.cursor.piece style triple opening).1 = r at hr hcover
    rcases r with e | (⟨value, span⟩ | ⟨value, span⟩ | ⟨e, value, span⟩ | ⟨opener, token⟩ | span)
    · exact retraces_of_ensures fun hq => ensures_blame hq rfl
    · obtain ⟨span', rfl⟩ : ∃ span', r' = .ok (.text value span') := by
        cases hr with
        | same => exact ⟨_, rfl⟩
        | alike halike => cases halike; exact ⟨_, rfl⟩
      exact retraces_pure (hpush rfl) (by simp [Round.value, Quoted.leaves, Tree.leaves])
    · obtain ⟨span', rfl⟩ : ∃ span', r' = .ok (.escape value span') := by
        cases hr with
        | same => exact ⟨_, rfl⟩
        | alike halike => cases halike; exact ⟨_, rfl⟩
      exact retraces_pure (hpush rfl) (by simp [Round.value, Quoted.leaves, Tree.leaves])
    · exact retraces_of_ensures fun hq => ensures_blame hq rfl
    · obtain ⟨span', rfl⟩ : ∃ span, r' = .ok (.expansion opener { token with span }) := by
        cases hr with
        | same => exact ⟨_, rfl⟩
        | alike halike =>
            cases halike with
            | expansion _ h =>
                rcases Token.eq_of_erase h with ⟨span, rfl⟩
                exact ⟨span, rfl⟩
      rcases hcover with ⟨text, hread⟩
      refine retraces_attempt (P := fun _ => (·.Piece gaps style triple))
        (fun r => by cases r <;> infer_instance)
        (hg.expansion hread).loose (fun e e' s2 he => ?_)
        fun e s2 hq => ensures_blame hq rfl
      exact retraces_pure (hpush (congrArg Tree.expansionFragment he))
        (by simp [Round.value, Tree.leaves])
    · obtain ⟨span', rfl⟩ : ∃ span', r' = .ok (.close span') := by
        cases hr with
        | same => exact ⟨_, rfl⟩
        | alike halike => cases halike; exact ⟨_, rfl⟩
      exact retraces_pure (congrArg Round.stop hab) (by simp [Round.value, Quoted.leaves])

/-- A string is read alike behind its opening quote. -/
theorem mirrors_stringBody {style : StringStyle} {triple : Bool} {opening opening' : Span} :
    Ysh.Mirrors gaps D n (g.stringBody style triple opening) (h.stringBody style triple opening')
      ctx Tree.leaves (fun _ => True) fun _ _ => True := by
  intro s
  have hloop : Retraces gaps D n (fun _ => True) (loop (g.stringRound style triple opening) #[])
      (loop (h.stringRound style triple opening') #[]) ctx s.cursor.offset [] s
      (fun as : Array Fragment => as.toList.flatMap Tree.leaves)
      (s.cursor.Piece gaps style triple) fun _ _ => True :=
    retraces_loop (P := fun _ => (·.Piece gaps style triple))
      (ScanLoop.string style triple opening).progresses
      (ScanLoop.string style triple opening').progresses
      (fun a b s hab => retraces_stringRound hg hab) rfl fun _ => rfl
  refine Retraces.free (retraces_bind hloop fun as bs s1 hab => retraces_position fun offset => ?_)
  have hab : bs.map Tree.erase = as.map Tree.erase := hab
  refine retraces_done ?_ (by simp [Tree.leaves])
  have hlist := congrArg Array.toList hab
  rw [Array.toList_map, Array.toList_map] at hlist
  simp [Tree.erase, Tree.erase_ofList, hlist]

/-! ## Words -/

/-- A piece of a word adds parts alike. Where it is bare text, that is all there is to it,
    and so what is asked of the text behind the piece has to be known of the text behind its
    token. -/
theorem retraces_pushPiece {token : Token} {span : Span} {parts parts' : List WordPart}
    {lead : List Leaf} {c : Cursor} {P : Cursor → Prop} {J : State → Prop}
    (hparts : parts'.map Tree.erase = parts.map Tree.erase)
    (hoffers : c.Offers .command token s.cursor) (htouches : Tree.Touches parts token.span.start)
    (hJ : ∀ t, J t → Tree.Touches parts' span.start) :
    Retraces gaps D n J (g.pushPiece token parts) (h.pushPiece { token with span } parts') ctx
      origin (lead ++ parts.flatMap Tree.leaves ++ token.pieceLeaves) s
      (fun parts => lead ++ parts.flatMap Tree.leaves) (token.kind = .word → P s.cursor)
      fun _ => P := by
  have hpush : ∀ {p p' : WordPart}, p'.erase = p.erase →
      erase (parts' ++ [p']) = erase (parts ++ [p]) := by
    intro p p' hp
    simp [hparts, hp]
  unfold pushPiece
  dsimp only
  split
  · next hkind =>
      rw [Token.pieceLeaves_quote hkind, List.append_nil]
      refine Retraces.weaken (retraces_bind (mirrors_stringBody hg).lift.retraces
        fun t t' s1 ht => ?_) fun _ hword => by rw [hkind] at hword; cases hword
      exact retraces_done (hpush (congrArg Tree.stringPart ht)) (by simp [Tree.leaves])
  · next opener hkind =>
      rw [Token.pieceLeaves_opener hkind]
      rcases hoffers.opener hkind with ⟨front, text, -, hread⟩
      refine Retraces.weaken (retraces_bind (hg.expansion hread)
        fun e e' s1 he => ?_) fun _ hword => by rw [hkind] at hword; cases hword
      exact retraces_done (hpush (congrArg Tree.expansionPart he)) (by simp [Tree.leaves])
  · next hquote hopener =>
      rw [Token.pieceLeaves_text hquote hopener]
      refine Retraces.weaken (retraces_pureWith (fun t ht => ?_) fun p => ?_) fun h _ => h
      · have hsame := Tree.erase_pushText token.text.toList htouches (hJ t ht) hparts
        simpa using hsame
      · rcases hoffers.bounds with ⟨hstop, hlength⟩
        rw [covered_append, covered_append, covered_append, Tree.covered_pushText _ _ _ htouches,
          covered_leaf, Token.leaf_span, hstop, hlength, Bool.or_assoc]

/-- The parts of a word may be added to where they are: bare text touches them, and there are
    none if the next piece need not touch. -/
structure Joins (p : List WordPart × Bool) (s : State) : Prop where
  touches : Tree.Touches p.1 s.cursor.offset
  first : p.2 = false → p.1 = []

omit [g.Stepwise] [h.Stepwise] hg in
theorem Joins.piece {parts : List WordPart} {continuing : Bool} {token : Token} {after : Cursor}
    (hjoins : Joins (parts, continuing) s) (hoffers : s.cursor.Offers .command token after)
    (himmediate : continuing = true → token.immediate = true) :
    Tree.Touches parts token.span.start := by
  cases continuing with
  | false =>
      rw [show parts = [] from hjoins.first rfl]
      exact Tree.touches_nil _
  | true =>
      rw [hoffers.start (himmediate rfl)]
      exact hjoins.touches

omit [g.Stepwise] [h.Stepwise] hg in
theorem touches_pushPiece {token : Token} {parts : List WordPart} {c : Cursor}
    (hoffers : c.Offers .command token s.cursor) (htouches : Tree.Touches parts token.span.start) :
    Ensures D (g.pushPiece token parts) ctx s fun parts s' =>
      Tree.Touches parts s'.cursor.offset := by
  unfold pushPiece
  split
  · exact ensures_skip fun t s1 => ensures_pure.2 fun _ =>
      Tree.touches_append fun _ _ hbare => by cases hbare
  · exact ensures_skip fun e s1 => ensures_pure.2 fun _ =>
      Tree.touches_append fun _ _ hbare => by cases hbare
  · refine ensures_pure.2 fun _ => ?_
    rw [hoffers.bounds.2]
    exact Tree.touches_pushText _ htouches

omit [h.Stepwise] hg in
theorem joins_wordRound (hq : Quiet ctx.limits D) (p : List WordPart × Bool) (s : State)
    (hjoins : Joins p s) : Ensures D (g.wordRound p) ctx s (Round.Keeps Joins fun _ _ => True) := by
  rcases p with ⟨parts, continuing⟩
  refine ensures_peek (ensures_ite (fun _ => ensures_pure.2 fun _ => trivial) fun hpiece => ?_)
  refine ensures_next hq fun s1 hoffers => ?_
  have htouches := hjoins.piece hoffers fun h => by simp [h] at hpiece; exact hpiece.2
  refine ensures_seq (touches_pushPiece hoffers htouches) fun parts' s2 h => ensures_pure.2 fun _ => ?_
  exact ⟨h, fun hfirst => by cases hfirst⟩

/-- The next piece of a word is read alike. -/
theorem retraces_wordRound {lead : List Leaf} {p q : List WordPart × Bool}
    (hpq : erase q = erase p) (hjoins : Joins p s) :
    Retraces gaps D (n + 1) (Joins q) (g.wordRound p) (h.wordRound q) ctx origin
      (lead ++ p.1.flatMap Tree.leaves) s (fun r => lead ++ r.value.1.flatMap Tree.leaves)
      (s.cursor.Sees gaps .command ctx ∧ (p.2 = false → s.cursor.Opening gaps))
      (Round.Asks (fun p c => c.Sees gaps .command ctx ∧ (p.2 = false → c.Opening gaps))
        fun _ c => c.Sees gaps .command ctx) := by
  rcases p with ⟨parts, continuing⟩
  rcases q with ⟨parts', continuing'⟩
  have hparts : parts'.map Tree.erase = parts.map Tree.erase := congrArg Prod.fst hpq
  have hsame : continuing' = continuing := congrArg Prod.snd hpq
  subst hsame
  refine retraces_peek And.left fun span => retraces_ite Iff.rfl (fun hstop => ?_) fun hpiece => ?_
  · refine Retraces.weaken (retraces_pure (by simp [hparts]) fun _ => rfl) fun hsees => ?_
    refine ⟨hsees, fun (hfirst : continuing' = false) => ⟨hsees, fun hword => ?_⟩⟩
    rw [hfirst, Bool.false_and, Bool.or_false, State.next_command, hword] at hstop
    cases hstop
  · rw [Bool.or_eq_true, not_or, Bool.not_eq_true', Bool.not_eq_false, Bool.and_eq_true,
      Bool.not_eq_true', not_and, Bool.not_eq_false] at hpiece
    refine Retraces.weaken (retraces_advanceThen (Q := fun c =>
      (s.next .command ctx).kind = .word → c.Sees gaps .command ctx)
      (Token.leaves_piece _) (fun hend => ?_) fun s1 span' _ hoffers => ?_) ?_
    · rw [hend] at hpiece
      cases hpiece.1
    · refine retraces_bind (retraces_pushPiece hg hparts hoffers (hjoins.piece hoffers hpiece.2) ?_)
        fun ps ps' s2 hps => ?_
      · rintro t1 ⟨t, ⟨hjoins', hnext⟩, -, hoffers'⟩
        have htouches := hjoins'.piece hoffers' fun h => by rw [hnext]; exact hpiece.2 h
        rwa [hnext] at htouches
      · have hps : ps'.map Tree.erase = ps.map Tree.erase := hps
        exact Retraces.weaken (retraces_pure (by simp [hps]) fun _ => rfl) And.left
    · exact fun hsees => ⟨hsees.1, fun _ => ⟨hsees.1, hsees.2⟩⟩

/-- The pieces that touch are added alike. -/
theorem retraces_wordParts {lead : List Leaf} {parts parts' : List WordPart} {continuing : Bool}
    (hparts : parts'.map Tree.erase = parts.map Tree.erase) (hjoins : Joins (parts, continuing) s) :
    Retraces gaps D (n + 1) (Joins (parts', continuing)) (g.wordParts parts continuing)
      (h.wordParts parts' continuing) ctx origin (lead ++ parts.flatMap Tree.leaves) s
      (fun parts => lead ++ parts.flatMap Tree.leaves)
      (s.cursor.Sees gaps .command ctx ∧ (continuing = false → s.cursor.Opening gaps))
      fun _ c => c.Sees gaps .command ctx := by
  have hloop : Retraces gaps D (n + 1) (Joins (parts', continuing))
      (loop g.wordRound (parts, continuing)) (loop h.wordRound (parts', continuing)) ctx origin
      (lead ++ parts.flatMap Tree.leaves) s (fun p => lead ++ p.1.flatMap Tree.leaves)
      (s.cursor.Sees gaps .command ctx ∧ (continuing = false → s.cursor.Opening gaps))
      fun _ c => c.Sees gaps .command ctx :=
    retraces_loopWith (I := Joins)
      (P := fun p c => c.Sees gaps .command ctx ∧ (p.2 = false → c.Opening gaps))
      (ParseLoop.word (g := g)).progresses (ParseLoop.word (g := h)).progresses
      (fun D hq p s => joins_wordRound (D := D) hq p s)
      (fun D hq p s => joins_wordRound (D := D) hq p s)
      (fun p q s hpq hp => retraces_wordRound hg hpq hp) (by simp [hparts]) hjoins
  exact retraces_bind hloop fun p q s1 hpq => retraces_pure (congrArg Prod.fst hpq) fun _ => rfl

omit [g.Stepwise] [h.Stepwise] hg in
theorem erase_ofParts (parts : List WordPart) :
    (Tree.ofParts parts).erase = .word (.ofList (parts.map Tree.erase)) default := by
  rw [Tree.ofParts, Tree.erase, Tree.erase_ofList]

/-- A word is read alike. -/
theorem mirrors_word : Ysh.Mirrors gaps D (n + 1) g.word h.word ctx Tree.leaves
    (·.Opening gaps) fun _ c => c.Sees gaps .command ctx := by
  intro s
  have hjoins : ∀ s, Joins ([], false) s := fun s => ⟨Tree.touches_nil _, fun _ => rfl⟩
  have hparts : Retraces gaps D (n + 1) (Joins ([], false)) (g.wordParts [] false)
      (h.wordParts [] false) ctx s.cursor.offset ([] ++ [].flatMap Tree.leaves) s
      (fun parts => [] ++ parts.flatMap Tree.leaves)
      (s.cursor.Sees gaps .command ctx ∧ (false = false → s.cursor.Opening gaps))
      fun _ c => c.Sees gaps .command ctx := retraces_wordParts hg rfl (hjoins s)
  refine retraces_bind ((hparts.weaken fun hsees => hsees.2 rfl).knowing fun t _ => hjoins t)
    fun ps qs s1 hps => ?_
  have hps : qs.map Tree.erase = ps.map Tree.erase := hps
  refine retraces_ite ?_ (fun _ => retraces_unexpected) fun _ => retraces_pure ?_ ?_
  · rw [List.isEmpty_iff, List.isEmpty_iff, ← List.map_eq_nil_iff, hps, List.map_eq_nil_iff]
  · simp [erase_ofParts, hps]
  · simp [Tree.ofParts, Tree.leaves]

/-! ## Braced expansions -/

/-- A default is read alike. -/
theorem mirrors_bracedDefault : Ysh.Mirrors gaps D (n + 1) g.bracedDefault h.bracedDefault ctx
    (fun o => o.toList.flatMap Tree.leaves) (fun _ => True)
    fun _ c => c.Sees gaps .command ctx := by
  intro s
  have hle : s.cursor.offset ≤ s.cursor.defaultMark.2.offset := by
    rcases s.cursor.defaultMark_after with ⟨k, hk⟩
    rw [hk]
    exact Nat.le_add_right _ _
  refine retraces_raw [] (· = s.cursor.defaultMark.1) (fun _ => True) (fun _ => inferInstance)
    Cursor.defaultMark_after (.nil hle) rfl ?_ fun _ _ => ⟨trivial, fun _ => Cursor.defaultMark_squeezed⟩
  rintro s1 _ - rfl
  refine retraces_ite Iff.rfl (fun _ => retraces_position fun start => ?_)
    fun _ => retraces_done rfl fun _ => rfl
  refine retraces_look (R := (· = s1.cursor.closingBrace?.1.isSome)) (K := fun _ _ => True)
    (fun found s2 hlook => ?_) rfl (fun _ t ht => ?_) ?_
  · cases hlook
    exact ⟨rfl, rfl⟩
  · exact ⟨_, (Cursor.closingBrace?_squeezed ht.text).1, trivial, rfl⟩
  rintro _ rfl
  refine retraces_ite Iff.rfl (fun _ => retraces_done (by simp [Tree.erase]) fun _ => rfl) fun _ => ?_
  refine Retraces.free (retraces_bind (mirrors_word hg).retraces fun w w' s2 hw =>
    retraces_pure (congrArg some hw) ?_)
  simp

omit [g.Stepwise] [h.Stepwise] hg in
/-- The closing brace is there, and so it is the next token of a command. -/
theorem mirrors_expectBrace {opening opening' : Span} : Ysh.Mirrors gaps D n
    (expectBrace opening) (expectBrace opening') ctx (fun _ => [])
    (·.Sees gaps .command ctx) fun _ _ => True := by
  intro s
  have hle : s.cursor.offset ≤ s.cursor.closingBrace?.2.offset := by
    rcases s.cursor.closingBrace?_after with ⟨k, hk⟩
    rw [hk]
    exact Nat.le_add_right _ _
  refine retraces_raw [] (· = s.cursor.closingBrace?.1.isSome)
    (fun _ => s.cursor.closingBrace?.1.isSome = true) (fun _ => inferInstance)
    (fun c => c.closingBrace?_after) (.nil hle) rfl ?_
    fun _ hfound => ⟨?_, fun _ => Cursor.closingBrace?_squeezed⟩
  · rintro s1 _ - rfl
    refine retraces_ite Iff.rfl (fun hfound => Retraces.weaken (retraces_done rfl fun _ => rfl)
      fun _ => hfound) fun _ => retraces_of_ensures fun hq => ?_
    refine ensures_peek (ensures_ite (fun _ => ?_) fun _ => ensures_throw)
    exact (ensures_lift (ensures_report rfl)).mono fun _ _ hnot => absurd hq hnot
  · unfold Cursor.closingBrace? at hfound
    split at hfound
    · next hrest => exact Cursor.seen_of_brace hrest
    · cases hfound

omit [g.Stepwise] [h.Stepwise] hg in
/-- The leaf of a braced expansion is its opener and its name. -/
theorem covered_braced {opener : Token} {name : String} {start start' : Nat}
    (hstart : start = opener.span.start) (hstop : opener.span.stop = start')
    (htwo : start' = opener.span.start + 2) (p : Nat) :
    covered [⟨.braced, name, .between start (start + byteLength ('$' :: '{' :: name.toList))⟩] p
      = (covered [opener.leaf] p ||
        (start' ≤ p && p < start' + byteLength name.toList)) := by
  have hbytes : byteLength ('$' :: '{' :: name.toList) = 2 + byteLength name.toList := by
    rw [byteLength_cons, byteLength_cons, ← Nat.add_assoc]
    rfl
  rw [covered_leaf, covered_leaf]
  dsimp only
  rw [Token.leaf_span, Span.mem_between (Nat.le_add_right _ _), hstart, hstop,
    Span.mem_and_mem (by omega) (Nat.le_add_right _ _), hbytes, htwo, Nat.add_assoc]

/-- A braced expansion is read alike behind its opener. -/
theorem retraces_bracedBody {token : Token} {span : Span} {front : Cursor} {text : List Char}
    {J : State → Prop} (hread : Opener.brace.Read token front text s.cursor) :
    Retraces gaps D (n + 1) J (g.bracedBody token) (h.bracedBody { token with span }) ctx origin
      (seen ++ Opener.brace.leaves token) s (fun e => seen ++ e.leaves) True fun _ _ => True := by
  have hopener : s.cursor.offset = token.span.start + 2 := by
    have hshape : text = ['$', '{'] := hread.opens.shape
    rw [hread.passes.offset, hread.start, hshape]
    rfl
  rcases hname : s.cursor.bracedName? with ⟨_ | ⟨name, nspan⟩, after⟩
  · refine retraces_of_ensures fun _ e s' he hD => ?_
    rcases yields_bind.1 he with ⟨r, s1, hr, he⟩
    obtain rfl : r = s.cursor.bracedName?.1 := (Except.ok.inj (congrArg Prod.fst hr)).symm
    rw [hname] at he
    exact ensures_unexpected (Q := fun _ _ => False) e s' he hD
  · rcases Cursor.bracedName?_some hname with ⟨m, -, -, hle, hm, rfl, rfl, hlength⟩
    have hcovered : ∀ p, covered [⟨.plain, name, s.cursor.spanOf m⟩] p
        = (s.cursor.offset ≤ p && p < (s.cursor.advance m).offset) := Cursor.covered_spanOf _ _ _ _
    have hoffset : (s.cursor.advance m).offset = s.cursor.offset + byteLength name.toList := by
      rw [hm, Cursor.textOf, String.toList_ofList]
      rfl
    refine retraces_raw [⟨.plain, name, s.cursor.spanOf m⟩] (fun r => ∃ span, r = some (name, span))
      (fun _ => True) (fun _ => by split <;> infer_instance) Cursor.bracedName?_after ?_ ?_ ?_ ?_
    · rw [hname]
      refine ⟨Nat.le_add_right _ _, fun p hp => ?_⟩
      rwa [hcovered, Bool.and_eq_true, decide_eq_true_eq, decide_eq_true_eq] at hp
    · rw [hname]
      exact ⟨_, rfl⟩
    · rw [hname]
      rintro s1 _ hs1 ⟨nspan, rfl⟩
      refine Retraces.free (retraces_bind (mirrors_bracedDefault hg).retraces fun o o' s2 ho => ?_)
      refine retraces_bind mirrors_expectBrace.retraces fun _ _ s3 _ => ?_
      refine retraces_position fun stop => retraces_within fun hwithin => ?_
      refine retraces_done ?_ fun p => ?_
      · have ho : o'.map Tree.erase = o.map Tree.erase := ho
        simp [Tree.erase, Tree.erase_ofOption, ho]
      · have hstop : token.span.stop = token.span.start + 2 := hread.stop.trans hopener
        have hends := (hwithin.bounds token.span.start (by simp [Opener.leaves, hstop])).2
        have hstart : (token.span.upTo s3.cursor.offset).start = token.span.start :=
          Nat.min_eq_left (Nat.le_of_lt hends)
        have hleaf := @covered_braced token name _ _ hstart hread.stop hopener p
        rw [← hoffset, ← hcovered] at hleaf
        rw [Tree.leaves, Tree.leaves_ofOption, ← List.singleton_append, List.append_nil]
        simp only [covered_append, hleaf, Opener.leaves, Bool.or_assoc]
    · rw [hname]
      refine fun hown _ => ⟨trivial, fun c hc => ?_⟩
      have hverbatim : s.cursor.Verbatim gaps name.toList.length := by
        rw [hlength]
        refine Cursor.verbatim_of_inside hle fun p hp hlt => ?_
        rw [hown p hp hlt, hcovered, decide_eq_true hp, decide_eq_true hlt]
        rfl
      rcases Cursor.bracedName?_squeezed hc hname hverbatim with ⟨span', after', hname', hrest⟩
      rw [hname']
      exact ⟨⟨span', rfl⟩, hrest⟩

/-! ## Brackets and blocks -/

omit [g.Stepwise] [h.Stepwise] in
/-- An expression in brackets is read alike behind the opening one. -/
theorem mirrors_enclosed {closer : Token.Kind} {opening opening' : Span}
    (hcloser : closer.isFixed = true) (hend : closer ≠ .endOfInput) :
    Ysh.Mirrors gaps D k (g.enclosed closer opening) (h.enclosed closer opening') ctx Tree.leaves
      (·.Seen gaps .expression true) fun _ _ => True := by
  intro s
  refine retraces_bracketed (retraces_bind (hg.expression _).retraces fun e e' s1 he => ?_)
  refine Retraces.down (retraces_expectClosing hcloser hend fun s2 span _ => ?_)
  exact retraces_done he fun _ => rfl

omit [h.Stepwise] in
theorem mirrors_parenthesized : Ysh.Mirrors gaps D k g.parenthesized h.parenthesized ctx
    Tree.leaves (·.Sees gaps .command ctx) fun _ _ => True := by
  intro s
  refine Retraces.down (retraces_expectAs rfl (by simp) fun s1 span _ => ?_)
  exact Retraces.free (mirrors_enclosed hg rfl (by simp)).retraces

omit [g.Stepwise] [h.Stepwise] in
/-- Statements up to a closing token are read alike. -/
theorem mirrors_body (closer : Token.Kind) : Ysh.Mirrors gaps D k (g.body closer) (h.body closer)
    ctx (·.flatMap Tree.leaves) (fun _ => True) fun _ c => c.Sees gaps .command ctx := by
  have hlines : { ctx with depth := ctx.depth + 1, inBrackets := false }.inBrackets = false := rfl
  exact fun s => retraces_nested (hg.statements (some closer) hlines s)

/-- An expansion is read alike behind its opener. -/
theorem retraces_expansionBody (hk : k ≤ n + 1) {opener : Opener} {token : Token} {span : Span}
    {front : Cursor} {text : List Char} {J : State → Prop}
    (hread : opener.Read token front text s.cursor) :
    Retraces gaps D k J (g.expansionBody opener token) (h.expansionBody opener { token with span })
      ctx origin (seen ++ opener.leaves token) s (fun e => seen ++ e.leaves) True fun _ _ => True := by
  cases opener with
  | name | splice => exact retraces_done rfl fun p => by rw [covered_append, covered_append]; rfl
  | brace => exact (retraces_bracedBody hg hread).fewer hk
  | bracket sigil =>
      rw [Opener.leaves, List.append_nil]
      refine Retraces.free (retraces_bind (mirrors_enclosed hg rfl (by simp)).retraces
        fun e e' s1 he => retraces_position fun stop => retraces_done ?_ fun p => ?_)
      · have he : e'.erase = e.erase := he
        simp [Tree.erase, he]
      · simp [Tree.leaves]
  | paren sigil =>
      rw [Opener.leaves, List.append_nil]
      refine Retraces.free (retraces_bind (mirrors_body hg .rightParen).retraces
        fun ts us s1 hts => Retraces.down (retraces_expectClosing rfl (by simp) fun s2 span _ =>
          retraces_position fun stop => retraces_done ?_ fun p => ?_))
      · have hts : us.map Tree.erase = ts.map Tree.erase := hts
        simp [Tree.erase, Tree.erase_ofList, hts]
      · simp [Tree.leaves]

end

end Grammar

end Ysh
