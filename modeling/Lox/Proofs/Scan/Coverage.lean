import Mathlib.Tactic
import Lox.Proofs.Scan.Join

set_option autoImplicit false

/-! # A source is its pieces

A source is a row of pieces without gap or overlap, each of them the first piece of the text from
where it starts on (`Piece.Covers`). The stream yields the items of the pieces, in order, on the
line that the source has reached with the end of the piece, and then the end token
(`Token.Stream.covers_source`).
-/

namespace Lox

namespace Piece

/-! ## Texts as pieces -/

/-- `Covers pieces text`: the pieces in a row are the text, and each is the first piece of the text
from where it starts on. -/
inductive Covers : List Piece → List Char → Prop
  | nil : Covers [] []
  | cons {p : Piece} {ps : List Piece} {rest : List Char} (h : IsFirst p rest)
      (hs : Covers ps rest) : Covers (p :: ps) (p.text ++ rest)

theorem Covers.text_eq {ps : List Piece} {text : List Char} (h : Covers ps text) :
    text = ps.flatMap Piece.text := by
  induction h with
  | nil => rfl
  | cons _ _ ih => rw [List.flatMap_cons, ← ih]

/-- Each of the pieces with the text up to its end, if the text `front` comes before them. -/
def ends (front : List Char) : List Piece → List (Piece × List Char)
  | [] => []
  | p :: ps => (p, front ++ p.text) :: ends (front ++ p.text) ps

/-- What a piece yields that ends with the text `front`. -/
def yield? (e : Piece × List Char) : Option Item := e.1.item? (1 + e.2.count '\n')

/-- The items that pieces at the start of a source yield. -/
def itemsOf (pieces : List Piece) : List Item := (ends [] pieces).filterMap yield?

/-- Only what is skipped yields nothing. -/
theorem item?_eq_none_iff {p : Piece} {line : Nat} :
    p.item? line = none ↔ p.form = .blank ∨ p.form = .comment := by
  unfold item?
  cases p.form <;> simp

end Piece

/-! ## The items of a text -/

namespace Token.Stream

open Piece (Covers ends yield? itemsOf)

/-- A text behind the text `front` is covered by pieces, and its items are theirs. -/
theorem exists_covers (cs : List Char) :
    ∃ pieces, Covers pieces cs ∧ ∀ front : List Char,
      items ⟨1 + front.count '\n', some cs⟩ =
        (ends front pieces).filterMap yield? ++ [.ok (.endOn (1 + (front ++ cs).count '\n'))] := by
  induction cs using Piece.text_induction with
  | nil =>
      refine ⟨[], .nil, fun front => ?_⟩
      rw [items_nil, List.append_nil]
      rfl
  | cons c cs ih =>
      obtain ⟨pieces, hcovers, hitems⟩ := ih
      have htext := Piece.text_append_rest c cs
      refine ⟨(Piece.first c cs).1 :: pieces, ?_, fun front => ?_⟩
      · rw [← htext]
        exact .cons (Piece.isFirst_first c cs) hcovers
      · have hline : 1 + front.count '\n' + (Piece.first c cs).1.lineBreaks =
            1 + (front ++ (Piece.first c cs).1.text).count '\n' := by
          rw [List.count_append, Piece.lineBreaks]
          omega
        have hrest : front ++ (Piece.first c cs).1.text ++ (Piece.first c cs).2 =
            front ++ c :: cs := by
          rw [List.append_assoc, htext]
        -- the first piece yields its item, if it has one, in front of those of the rest
        have hhead : (ends front ((Piece.first c cs).1 :: pieces)).filterMap yield? =
            ((Piece.first c cs).1.item?
              (1 + (front ++ (Piece.first c cs).1.text).count '\n')).toList ++
            (ends (front ++ (Piece.first c cs).1.text) pieces).filterMap yield? := by
          rw [ends, List.filterMap_cons, yield?]
          cases (Piece.first c cs).1.item?
            (1 + (front ++ (Piece.first c cs).1.text).count '\n') <;> rfl
        rw [items_cons, hline, hitems, hrest, hhead, List.append_assoc]

/-- The items of a text lie on its lines, from the first to the last. -/
theorem items_sorted (line : Nat) (cs : List Char) :
    (∀ item ∈ items ⟨line, some cs⟩, line ≤ item.line) ∧
      (items ⟨line, some cs⟩).Pairwise (·.line ≤ ·.line) := by
  induction cs using Piece.text_induction generalizing line with
  | nil =>
      rw [items_nil]
      exact ⟨fun item hitem => (List.mem_singleton.mp hitem ▸ Nat.le_refl line),
        List.pairwise_singleton _ _⟩
  | cons c cs ih =>
      obtain ⟨hle, hsorted⟩ := ih (line + (Piece.first c cs).1.lineBreaks)
      have hhead : ∀ item ∈ ((Piece.first c cs).1.item?
          (line + (Piece.first c cs).1.lineBreaks)).toList,
          item.line = line + (Piece.first c cs).1.lineBreaks :=
        fun item hitem => Piece.line_of_item? (Option.mem_toList.mp hitem)
      rw [items_cons]
      constructor
      · intro item hitem
        rcases List.mem_append.mp hitem with hitem | hitem
        · have heq := hhead item hitem
          omega
        · have hge := hle item hitem
          omega
      · refine List.pairwise_append.mpr ⟨?_, hsorted, ?_⟩
        · cases (Piece.first c cs).1.item? (line + (Piece.first c cs).1.lineBreaks) with
          | none => exact .nil
          | some item => exact List.pairwise_singleton _ _
        · intro item hitem later hlater
          rw [hhead item hitem]
          exact hle later hlater

/-- The tokens of a source are on lines that never decrease. -/
theorem tokens_sorted (source : String) :
    (Scan.ofString source).tokens.Pairwise (·.line ≤ ·.line) := by
  refine (items_sorted 1 source.toList).2.filterMap Except.toOption
    fun item item' hlines t ht t' ht' => ?_
  cases item <;> cases ht
  cases item' <;> cases ht'
  exact hlines

/-! ## Calls -/

/-- A call for the next item. A stream that has nothing left stays as it is. -/
def poll (s : Stream) : Option Item × Stream :=
  match s.next? with
  | some (item, t) => (some item, t)
  | none => (none, s)

/-- What comes of the call that is made after `k` others. -/
def answer : Nat → Stream → Option Item
  | 0, s => s.poll.1
  | k + 1, s => answer k s.poll.2

/-- The calls yield the items one by one, and nothing ever after. -/
theorem answer_eq (k : Nat) (s : Stream) : s.answer k = s.items[k]? := by
  induction k generalizing s with
  | zero =>
      rw [answer, poll]
      cases hnext : s.next? with
      | none => rw [items_of_next?_eq_none hnext]; rfl
      | some out => rw [items_of_next? hnext]; rfl
  | succ k ih =>
      rw [answer, poll]
      cases hnext : s.next? with
      | none =>
          have hnone : s.items = [] := items_of_next?_eq_none hnext
          rw [ih, hnone]
          rfl
      | some out =>
          rw [ih, items_of_next? hnext]
          rfl

/-! ## Whole sources -/

/-- **Nothing is lost.** A source is covered by pieces. What the calls yield are the items of the
pieces that are not skipped, each on the line that the source has reached with the end of its piece,
then the only end token, on the last line, and nothing ever after. The tokens and the errors of the
source are these items, on lines that never decrease and that fit a counter of 32 bits unless there
are too many. -/
theorem covers_source (source : String) :
    ∃ pieces, Covers pieces source.toList ∧ source.toList = pieces.flatMap Piece.text ∧
      (∀ p ∈ pieces, ∀ line, p.item? line = none ↔ p.form = .blank ∨ p.form = .comment) ∧
      (∀ token, .ok token ∈ itemsOf pieces → token.kind ≠ .eof) ∧
      (∀ k, (ofString source).answer k =
        (itemsOf pieces ++ [.ok (.endOn (1 + source.toList.count '\n'))])[k]?) ∧
      (Scan.ofString source).tokens =
        (itemsOf pieces).filterMap Except.toOption ++ [.endOn (1 + source.toList.count '\n')] ∧
      (Scan.ofString source).errors = (itemsOf pieces).filterMap Scan.error? ∧
      (Scan.ofString source).tokens.Pairwise (·.line ≤ ·.line) ∧
      (Scan.ofString source).errors.Pairwise (·.line ≤ ·.line) ∧
      (source.toList.count '\n' < 2 ^ 32 - 1 →
        ∀ item ∈ (ofString source).items, item.line < 2 ^ 32) := by
  obtain ⟨pieces, hcovers, hpieces⟩ := exists_covers source.toList
  have hitems : (ofString source).items =
      itemsOf pieces ++ [.ok (.endOn (1 + source.toList.count '\n'))] := hpieces []
  obtain ⟨hle, hsorted⟩ := items_sorted 1 source.toList
  refine ⟨pieces, hcovers, hcovers.text_eq, fun p _ line => Piece.item?_eq_none_iff, ?_, ?_, ?_, ?_,
    ?_, ?_, ?_⟩
  · -- the items in front of the end token are those of `items_join`
    obtain ⟨init, hinit, hend, -⟩ := items_join 1 source.toList
    have hsame : init = itemsOf pieces := (List.append_inj' (hinit.symm.trans hitems) rfl).1
    rwa [← hsame]
  · intro k
    rw [answer_eq, hitems]
  · show (ofString source).items.filterMap Except.toOption = _
    rw [hitems, List.filterMap_append]
    rfl
  · show (ofString source).items.filterMap Scan.error? = _
    rw [hitems, List.filterMap_append]
    exact List.append_nil _
  · refine hsorted.filterMap Except.toOption fun item item' hlines t ht t' ht' => ?_
    cases item <;> cases ht
    cases item' <;> cases ht'
    exact hlines
  · refine hsorted.filterMap Scan.error? fun item item' hlines e he e' he' => ?_
    cases item <;> cases he
    cases item' <;> cases he'
    exact hlines
  · intro hfew item hitem
    have hbound := line_le_of_mem_items hitem
    omega

/-- A string over two lines is on the second of them, and a stray character is on the third. -/
theorem covers_twoLineString :
    ∃ pieces, Covers pieces "\"a\nb\"\n@".toList ∧
      (itemsOf pieces).filterMap Except.toOption ++ [.endOn 3] =
        [⟨.string, "\"a\nb\"", some (.string "a\nb"), 2⟩, .endOn 3] ∧
      (itemsOf pieces).filterMap Scan.error? = [⟨3, .unexpectedCharacter⟩] ∧
      ∀ item ∈ (ofString "\"a\nb\"\n@").items, item.line < 2 ^ 32 := by
  obtain ⟨pieces, hcovers, -, -, -, -, htokens, herrors, -, -, hlines⟩ :=
    covers_source "\"a\nb\"\n@"
  have hfew : "\"a\nb\"\n@".toList.count '\n' < 2 ^ 32 - 1 := by decide +kernel
  have hcount : "\"a\nb\"\n@".toList.count '\n' = 2 := by decide +kernel
  rw [hcount] at htokens
  refine ⟨pieces, hcovers, ?_, ?_, hlines hfew⟩
  · exact htokens.symm.trans (by decide +kernel)
  · exact herrors.symm.trans (by decide +kernel)

end Token.Stream

end Lox
