import Ysh.Proofs.Lexing.Quoted
import Ysh.Proofs.Reread.Expression

/-!
# Reading Printed Expansions

An expansion is printed with its opener in front, and its reader starts behind the
opener. So it is read again in two steps: the opener must be the opener that it was,
and then the reader must come to the end of the text. A name behind a sigil goes on
as long as it can, and therefore what stands behind an expansion counts. In a word or
a string that is printed text again, which starts as the source went on there, or else
it is something that no name goes on with.

## Main definitions

* `Resumes`: A rest that starts as the source did, or with no part of a name.
* `RoomBehind`: Turns and levels enough behind a text that has been consumed.
* `RereadsExpansion`: An expansion is read again behind its opener.

## Theorems

* `rereads_simple`, `rereads_splice`: Names behind a sigil.
* `rereads_indexed`: An expression between brackets.
-/

namespace Ysh

open Grammar

/-- The rest starts as the source went on, or else with no part of a name and no
    quote. -/
def Resumes (after rest : List Char) : Prop :=
  rest.head? = after.head? ∨
    ∀ c, rest.head? = some c → Character.isNamePart c = false ∧ c ≠ '"' ∧ c ≠ '\''

namespace Resumes

variable {after rest : List Char} (h : Resumes after rest)
include h

theorem endsName : EndsName after rest :=
  h.imp id fun h c hc => (h c hc).1

/-- No quote comes up that was not there. -/
theorem quote_ne {style : StringStyle} (hquote : after.head? ≠ some style.quote) :
    rest.head? ≠ some style.quote := by
  rcases h with h | h
  · rwa [h]
  · intro hc
    have hne := (h _ hc).2
    cases style with
    | doubleQuoted => exact hne.1 rfl
    | _ => exact hne.2 rfl

end Resumes

/-- What stands behind an object goes on with no name and no string. -/
theorem EndsObject.resumes {ctx : Context} {rest : List Char} (h : EndsObject ctx rest)
    (after : List Char) : Resumes after rest := by
  refine .inr fun c hc => ⟨(h.atom c hc).1, ?_, (h.atom c hc).2.1⟩
  rintro rfl
  exact absurd (h.head _ hc) (by decide)

/-- Turns of the grammar and levels of nesting enough for a text that has been consumed
    and for what is left behind it. -/
structure RoomBehind (d : Option Definition) (n : Nat) (ctx : Context) (text : List Char)
    (s : State) : Prop where
  turns : text.length + s.cursor.rest.length ≤ n
  levels : ctx.depth + 2 * (text.length + s.cursor.rest.length) ≤ ctx.limits.depth
  definition : ctx.definition = d

section

variable {d : Option Definition} {n : Nat} {ctx : Context} {s t : State} {text : List Char}

theorem Room.behind (h : Room d n ctx s)
    (hle : text.length + t.cursor.rest.length ≤ s.cursor.rest.length) :
    RoomBehind d n ctx text t :=
  ⟨Nat.le_trans hle h.turns, by have := h.levels; omega, h.definition⟩

namespace RoomBehind

theorem here (h : RoomBehind d n ctx text s) : Room d n ctx s :=
  ⟨by have := h.turns; omega, by have := h.levels; omega, h.definition⟩

theorem bracketed (h : RoomBehind d n ctx text s) (b : Bool) :
    RoomBehind d n { ctx with inBrackets := b } text s :=
  ⟨h.turns, h.levels, h.definition⟩

/-- Behind an opener there are a turn for the expansion and another one, with two levels,
    for what is inside it. -/
theorem inner (h : RoomBehind d n ctx text s) (htext : 2 ≤ text.length) :
    ∃ n', n = n' + 1 ∧ Room d n' ctx s ∧ ∀ b, ctx.depth < ctx.limits.depth ∧
      RoomBelow d n' { ctx with depth := ctx.depth + 1, inBrackets := b } s := by
  have hturns := h.turns
  have hlevels := h.levels
  refine ⟨n - 1, by omega, ⟨by omega, by omega, h.definition⟩, fun b => ⟨by omega, n - 2, by omega,
    by omega, ?_, h.definition⟩⟩
  change ctx.depth + 1 + 1 + 2 * s.cursor.rest.length ≤ ctx.limits.depth
  omega

end RoomBehind

end

/-- An expansion with an opener is read again, where the source went on with `after`
    behind it. -/
def RereadsExpansion (d : Option Definition) (o : Opener) (x after : List Char) (e : Expansion) :
    Prop :=
  ∃ tail : Nat → List Char, (∀ indent, e.chars indent "" = x ++ tail indent) ∧
    ∀ indent rest, Resumes after rest → Opens x o (tail indent ++ rest) ∧
      ∀ n ctx s token, RoomBehind d n ctx x s → token.text = .ofList x →
        s.cursor.rest = tail indent ++ rest →
          Attains ((turns n).expansion o token) ctx s fun a t =>
            a.erase = e.erase ∧ t.cursor.rest = rest

section

variable {d : Option Definition} {after : List Char} {span : Span}

/-- An opener is two characters at least. -/
theorem Opens.two_le {x rest : List Char} {o : Opener} (h : Opens x o rest) : 2 ≤ x.length := by
  have hshape := h.shape
  cases o with
  | name =>
      rcases hshape with ⟨name, rfl, hname⟩
      rcases name with _ | ⟨c, name⟩
      · have hempty : SimpleName [] [] := hname.of_endsName (.inr fun _ h => nomatch h)
        cases hempty
      · simp
  | splice =>
      rcases hshape with ⟨name, rfl, hname⟩
      rcases name with _ | ⟨c, name⟩
      · have hempty : SpliceName [] [] := hname.of_endsName (.inr fun _ h => nomatch h)
        cases hempty
      · simp
  | brace | bracket | paren => rw [hshape]; exact Nat.le_refl 2

/-- A name behind its sigil is all of the expansion. -/
theorem RereadsExpansion.of_name {o : Opener} {x : List Char} {e : Expansion}
    (htext : ∀ indent, e.chars indent "" = x)
    (hopens : ∀ rest, Resumes after rest → Opens x o rest)
    (hread : ∀ (g : Grammar) token ctx s Q, token.text = .ofList x →
      (∀ a, a.erase = e.erase → Q a s) → Attains (g.expansionBody o token) ctx s Q) :
    RereadsExpansion d o x after e := by
  refine ⟨fun _ => [], fun indent => by rw [htext, List.append_nil], fun indent rest hrest =>
    ⟨hopens rest hrest, fun n ctx s token hroom htoken hs => ?_⟩⟩
  rcases hroom.inner (hopens rest hrest).two_le with ⟨n, rfl, -⟩
  exact hread (turns n) token ctx s _ htoken fun a ha => ⟨ha, hs⟩

/-- A variable is read again. -/
theorem rereads_simple {name : List Char} (h : SimpleName name after) :
    RereadsExpansion d .name ('$' :: name) after (.simple (.ofList name) span) := by
  refine .of_name (fun indent => ?_) (fun rest hrest => .inl (h.of_endsName hrest.endsName))
    fun g token ctx s Q htoken hQ => attains_pure (hQ _ ?_)
  · change ("$" ++ String.ofList name).toList = _
    simp
  · rw [htoken, String.toList_ofList]
    rfl

/-- A list spliced in is read again. -/
theorem rereads_splice {name : List Char} (h : SpliceName name after) :
    RereadsExpansion d .splice ('@' :: name) after (.splice (.ofList name) span) := by
  refine .of_name (fun indent => ?_) (fun rest hrest => .inr (h.of_endsName hrest.endsName))
    fun g token ctx s Q htoken hQ => attains_pure (hQ _ ?_)
  · change ("@" ++ String.ofList name).toList = _
    simp
  · rw [htoken, String.toList_ofList]
    rfl

/-- An expression between brackets is read again. -/
theorem rereads_indexed {sigil : Sigil} {e : Expression} (h : RereadsExpression d e) :
    RereadsExpansion d (.bracket sigil) [sigil.char, '['] after (.indexed sigil e span) := by
  refine ⟨fun indent => e.chars indent "" ++ [']'], fun indent => ?_, fun indent rest hrest =>
    ⟨opens_bracket sigil _, fun n ctx s token hroom htoken hs => ?_⟩⟩
  · change (sigil.char.toString ++ "[" ++ e.write indent "" ++ "]").toList = _
    simp [Tree.chars, Char.toString]
  · rcases hroom.inner (by simp) with ⟨n, rfl, -, hbelow⟩
    rw [List.append_assoc] at hs
    refine attains_seq (h.enclosed hbelow (.inr ⟨rfl, rfl⟩) (.of_eq hs)) fun a t ha => ?_
    refine attains_look (a := t.cursor.offset) rfl (attains_pure ⟨?_, ha.2⟩)
    rw [Tree.erase, Tree.erase, ha.1]

end

end Ysh
