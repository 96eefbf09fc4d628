import Mathlib.Tactic
import Lox.Proofs.Scan.Yield

set_option autoImplicit false

/-! # Sources one after the other

If no string is left open at the end of a source, then the first piece of it stays the same when a
line break and another text follow (`Piece.first_append_newline`). So the items of both texts are
the items of the first one without its end (`Scan.exists_front`), and then those of the second one,
on later lines (`Scan.ofString_join`).
-/

namespace Lox

namespace Piece

/-! ## Pieces in front of a line break -/

/-- A character outside a class ends the longest front in the class. -/
theorem takeWhile_append_stop {p : Char → Bool} {c : Char} (hc : p c = false)
    (cs ds : List Char) : (cs ++ c :: ds).takeWhile p = cs.takeWhile p ∧
      (cs ++ c :: ds).dropWhile p = cs.dropWhile p ++ c :: ds := by
  induction cs with
  | nil =>
      have hnone : ∀ d ∈ ([] : List Char), p d := by simp
      exact takeWhile_eq hnone hc
  | cons d cs ih =>
      rw [List.cons_append, List.takeWhile_cons, List.takeWhile_cons, List.dropWhile_cons,
        List.dropWhile_cons, ih.1, ih.2]
      split
      · exact ⟨rfl, rfl⟩
      · exact ⟨rfl, rfl⟩

theorem fraction_of_not {cs : List Char}
    (h : ∀ d rest, cs = '.' :: d :: rest → d.isDigit = false) : fraction cs = ([], cs) := by
  rcases fraction_cases cs with ⟨d, rest, heq, hd, -⟩ | hnone
  · simp [h d rest heq] at hd
  · exact hnone

theorem fraction_append_newline (cs ds : List Char) :
    fraction (cs ++ '\n' :: ds) = ((fraction cs).1, (fraction cs).2 ++ '\n' :: ds) := by
  by_cases h : ∃ d rest, cs = '.' :: d :: rest ∧ d.isDigit
  · obtain ⟨d, rest, rfl, hd⟩ := h
    obtain ⟨htake, hdrop⟩ :=
      takeWhile_append_stop (p := Char.isDigit) (c := '\n') (by decide) rest ds
    simp only [List.cons_append, fraction, if_pos hd, htake, hdrop]
  · have hcs : fraction cs = ([], cs) :=
      fraction_of_not fun d rest heq => by simpa using fun hd => h ⟨d, rest, heq, hd⟩
    have happend : fraction (cs ++ '\n' :: ds) = ([], cs ++ '\n' :: ds) := by
      refine fraction_of_not fun d rest heq => ?_
      -- a digit behind a point would have to be in the first text
      cases cs with
      | nil => cases heq
      | cons c cs =>
          cases cs with
          | nil =>
              cases heq
              decide
          | cons e cs =>
              cases heq
              simpa using fun hd => h ⟨d, cs, rfl, hd⟩
    rw [hcs, happend]

theorem quoted_append {c : Char} {cs ds : List Char}
    (h : (quoted c cs).1.form ≠ .unterminated) :
    quoted c (cs ++ ds) = ((quoted c cs).1, (quoted c cs).2 ++ ds) := by
  unfold quoted at h ⊢
  have hsplit := cs.takeWhile_append_dropWhile (p := (· ≠ '"'))
  cases hrest : cs.dropWhile (· ≠ '"') with
  | nil =>
      rw [hrest] at h
      exact absurd rfl h
  | cons close rest =>
      rw [hrest] at hsplit
      have hboth : cs ++ ds = cs.takeWhile (· ≠ '"') ++ close :: (rest ++ ds) := by
        rw [← List.cons_append, ← List.append_assoc, hsplit]
      have hbody : ∀ d ∈ cs.takeWhile (· ≠ '"'), decide (d ≠ '"') := fun d hd =>
        List.mem_takeWhile_imp (p := fun d => decide (d ≠ '"')) hd
      have hclose := eq_false_of_dropWhile hrest
      rw [hboth, (takeWhile_eq hbody hclose).1, (takeWhile_eq hbody hclose).2]

theorem symbol_append_newline (c : Char) (cs ds : List Char) :
    symbol c (cs ++ '\n' :: ds) = ((symbol c cs).1, (symbol c cs).2 ++ '\n' :: ds) := by
  unfold symbol
  cases cs with
  | nil => cases ofSymbolEqual? c <;> cases ofSymbol? c <;> rfl
  | cons d cs =>
      by_cases hd : d = '='
      · subst hd
        cases ofSymbolEqual? c <;> cases ofSymbol? c <;> rfl
      · cases ofSymbolEqual? c <;> cases ofSymbol? c <;> simp [hd]

theorem head?_append_eq_slash {cs ds : List Char} :
    (cs ++ '\n' :: ds).head? = some '/' ↔ cs.head? = some '/' := by
  cases cs with
  | nil => simp
  | cons c cs => rfl

/-- A line break behind a text does not change its first piece, unless a string is open there. -/
theorem first_append_newline {c : Char} {cs : List Char} (h : (first c cs).1.form ≠ .unterminated)
    (ds : List Char) :
    first c (cs ++ '\n' :: ds) = ((first c cs).1, (first c cs).2 ++ '\n' :: ds) := by
  unfold first at h ⊢
  split
  · rfl
  split
  · next hb hq =>
    rw [if_neg hb, if_pos hq] at h
    exact quoted_append h
  split
  · obtain ⟨htake, hdrop⟩ :=
      takeWhile_append_stop (p := Char.isDigit) (c := '\n') (by decide) cs ds
    simp only [number, htake, hdrop, fraction_append_newline]
  split
  · obtain ⟨htake, hdrop⟩ := takeWhile_append_stop (p := isWordPart) (c := '\n') (by decide) cs ds
    simp only [word, htake, hdrop]
  simp only [head?_append_eq_slash]
  split
  · obtain ⟨htake, hdrop⟩ := takeWhile_append_stop (p := (· ≠ '\n')) (c := '\n') (by simp) cs ds
    simp only [comment, htake, hdrop]
  · exact symbol_append_newline c cs ds

end Piece

/-! ## Later lines -/

/-- The token on a line further down. -/
def Token.later (k : Nat) (t : Token) : Token := { t with line := t.line + k }

theorem Token.kind_later (k : Nat) (t : Token) : (t.later k).kind = t.kind := rfl

theorem Token.lexeme_later (k : Nat) (t : Token) : (t.later k).lexeme = t.lexeme := rfl

theorem Token.literal_later (k : Nat) (t : Token) : (t.later k).literal = t.literal := rfl

/-- The error on a line further down. -/
def LexError.later (k : Nat) (e : LexError) : LexError := { e with line := e.line + k }

/-- The item on a line further down. -/
def Item.later (k : Nat) : Item → Item
  | .ok t => .ok (t.later k)
  | .error e => .error (e.later k)

theorem Piece.item?_later (p : Piece) (line k : Nat) :
    p.item? (line + k) = (p.item? line).map (Item.later k) := by
  unfold Piece.item?
  cases p.form <;> rfl

namespace Token.Stream

/-! ## The items of a text -/

theorem items_nil (line : Nat) : items ⟨line, some []⟩ = [.ok (.endOn line)] := by
  have hnext : next? ⟨line, some []⟩ = some (.ok (.endOn line), ⟨line, none⟩) := by
    rw [next?, Option.map_some, read]
  rw [items_of_next? hnext, items_of_next?_eq_none rfl]

/-- The items of a text are the item of its first piece, if it yields one, and those of the rest. -/
theorem items_cons (line : Nat) (c : Char) (cs : List Char) :
    items ⟨line, some (c :: cs)⟩ =
      ((Piece.first c cs).1.item? (line + (Piece.first c cs).1.lineBreaks)).toList ++
        items ⟨line + (Piece.first c cs).1.lineBreaks, some (Piece.first c cs).2⟩ := by
  have hnext : next? ⟨line, some (c :: cs)⟩ = some (read line (c :: cs)) := rfl
  rw [read] at hnext
  split at hnext
  · next item hitem =>
    rw [items_of_next? hnext, hitem]
    rfl
  · next hnone =>
    have hrest : next? ⟨line + (Piece.first c cs).1.lineBreaks, some (Piece.first c cs).2⟩ =
        some (read (line + (Piece.first c cs).1.lineBreaks) (Piece.first c cs).2) := rfl
    rw [hnone, items_of_next? hnext, items_of_next? hrest]
    rfl

/-- A text further down has its items further down. -/
theorem items_later (line k : Nat) (cs : List Char) :
    items ⟨line + k, some cs⟩ = (items ⟨line, some cs⟩).map (Item.later k) := by
  induction cs using Piece.text_induction generalizing line with
  | nil =>
      rw [items_nil, items_nil]
      rfl
  | cons c cs ih =>
      have hline : line + k + (Piece.first c cs).1.lineBreaks =
          line + (Piece.first c cs).1.lineBreaks + k := by omega
      rw [items_cons, items_cons, hline, ih, Piece.item?_later, List.map_append]
      cases (Piece.first c cs).1.item? (line + (Piece.first c cs).1.lineBreaks) <;> rfl

/-- No string is left open at the end of a text. -/
def NoneOpen (items : List Item) : Prop :=
  ∀ e, .error e ∈ items → e.cause ≠ .unterminatedString

/-- The items of a text end with the end token, which is the only one, and behind a line break they
are followed by the items of another text. -/
theorem items_join (line : Nat) (cs : List Char) :
    ∃ init, items ⟨line, some cs⟩ = init ++ [.ok (.endOn (line + cs.count '\n'))] ∧
      (∀ t, .ok t ∈ init → t.kind ≠ .eof) ∧
      (NoneOpen init → ∀ ds, items ⟨line, some (cs ++ '\n' :: ds)⟩ =
        init ++ items ⟨line + cs.count '\n' + 1, some ds⟩) := by
  induction cs using Piece.text_induction generalizing line with
  | nil =>
      refine ⟨[], items_nil line, by simp, fun _ ds => ?_⟩
      show items ⟨line, some ('\n' :: ds)⟩ = _
      rw [items_cons]
      rfl
  | cons c cs ih =>
      have happend := Piece.text_append_rest c cs
      have hfirst := Piece.isFirst_first c cs
      generalize hp : Piece.first c cs = out at ih happend hfirst
      obtain ⟨piece, rest⟩ := out
      obtain ⟨init, hitems, hend, hjoin⟩ := ih (line + piece.lineBreaks)
      have hcount : line + (c :: cs).count '\n' =
          line + piece.lineBreaks + rest.count '\n' := by
        rw [← happend, List.count_append, Piece.lineBreaks, Nat.add_assoc]
      refine ⟨(piece.item? (line + piece.lineBreaks)).toList ++ init, ?_, ?_, ?_⟩
      · rw [items_cons, hp, hitems, List.append_assoc, hcount]
      · intro t ht
        rcases List.mem_append.mp ht with ht | ht
        · have hitem := Option.mem_toList.mp ht
          have hisItem := hfirst.isItem hitem
          intro hkind
          rw [Piece.IsItem, if_pos hkind] at hisItem
          rw [hisItem] at happend
          cases happend
        · exact hend t ht
      · intro hopen ds
        have hform : (Piece.first c cs).1.form ≠ .unterminated := by
          intro hform
          rw [hp] at hform
          have hmem : (piece.item? (line + piece.lineBreaks)) =
              some (.error ⟨line + piece.lineBreaks, .unterminatedString⟩) := by
            rw [Piece.item?, hform]
          exact hopen ⟨line + piece.lineBreaks, .unterminatedString⟩ (by simp [hmem]) rfl
        have hboth := Piece.first_append_newline hform ds
        have hrest : NoneOpen init := fun e he => hopen e (List.mem_append_right _ he)
        rw [hp] at hboth
        rw [List.cons_append, items_cons, hboth, hjoin hrest, List.append_assoc, hcount]

end Token.Stream

/-! ## Whole sources -/

namespace Scan

open Token.Stream (items items_later items_join NoneOpen)

theorem ofItems_append (is is' : List Item) :
    ofItems (is ++ is') =
      ⟨(ofItems is).tokens ++ (ofItems is').tokens,
        (ofItems is).errors ++ (ofItems is').errors⟩ := by
  rw [ofItems, List.filterMap_append, List.filterMap_append]
  rfl

theorem ofItems_later (k : Nat) (is : List Item) :
    ofItems (is.map (Item.later k)) =
      ⟨(ofItems is).tokens.map (Token.later k), (ofItems is).errors.map (LexError.later k)⟩ := by
  induction is with
  | nil => rfl
  | cons item is ih =>
      have hcons : ∀ (i : Item) (is : List Item), ofItems (i :: is) =
          ⟨(ofItems [i]).tokens ++ (ofItems is).tokens,
            (ofItems [i]).errors ++ (ofItems is).errors⟩ :=
        fun i is => ofItems_append [i] is
      rw [List.map_cons, hcons, hcons item, ih]
      cases item <;> rfl

/-- Items that are no end token make no end token. -/
theorem ne_eof_of_mem_tokens {is : List Item} (h : ∀ t, .ok t ∈ is → t.kind ≠ .eof) :
    ∀ t ∈ (ofItems is).tokens, t.kind ≠ .eof := by
  intro t ht
  obtain ⟨item, hmem, hitem⟩ := List.mem_filterMap.mp ht
  cases item with
  | error e => cases hitem
  | ok u =>
      cases hitem
      exact h t hmem

/-- The only end token of a source comes last. -/
theorem exists_tokens_eq (source : String) :
    ∃ ts line, (ofString source).tokens = ts ++ [.endOn line] ∧ ∀ t ∈ ts, t.kind ≠ .eof := by
  obtain ⟨init, hitems, hend, -⟩ := items_join 1 source.toList
  refine ⟨(ofItems init).tokens, 1 + source.toList.count '\n', ?_, ne_eof_of_mem_tokens hend⟩
  rw [ofString, Token.Stream.ofString, hitems, ofItems_append]
  rfl

/-- The items in front of the end of a source are in front of whatever follows behind a line break,
unless a string is left open. -/
theorem exists_front {source : String}
    (h : ∀ e ∈ (ofString source).errors, e.cause ≠ .unterminatedString) :
    ∃ init, (∀ t ∈ (ofItems init).tokens, t.kind ≠ .eof) ∧
      (ofString source).tokens =
        (ofItems init).tokens ++ [.endOn (1 + source.toList.count '\n')] ∧
      (ofString source).errors = (ofItems init).errors ∧
      ∀ ds, items ⟨1, some (source.toList ++ '\n' :: ds)⟩ =
        init ++ items ⟨1 + source.toList.count '\n' + 1, some ds⟩ := by
  obtain ⟨init, hitems, hend, hjoin⟩ := items_join 1 source.toList
  have hsource : ofString source =
      ofItems (init ++ [.ok (.endOn (1 + source.toList.count '\n'))]) := by
    rw [ofString, Token.Stream.ofString, hitems]
  rw [ofItems_append] at hsource
  have herrors : (ofString source).errors = (ofItems init).errors := by
    rw [hsource]
    exact List.append_nil _
  have hopen : NoneOpen init := by
    intro e he
    have hmem : e ∈ (ofItems init).errors := List.mem_filterMap.mpr ⟨_, he, rfl⟩
    rw [← herrors] at hmem
    exact h e hmem
  exact ⟨init, ne_eof_of_mem_tokens hend, by rw [hsource]; rfl, herrors, hjoin hopen⟩

/-- A source without faults, a line break and another source have the tokens of the first source
but for its end, and then everything that the second source has, further down. -/
theorem ofString_join {source : String} (h : (ofString source).errors = []) :
    ∃ ts, (∀ t ∈ ts, t.kind ≠ .eof) ∧
      (ofString source).tokens = ts ++ [.endOn (1 + source.toList.count '\n')] ∧
      ∀ next : String,
        ofString (source ++ "\n" ++ next) =
          ⟨ts ++ (ofString next).tokens.map (Token.later (source.toList.count '\n' + 1)),
            (ofString next).errors.map (LexError.later (source.toList.count '\n' + 1))⟩ := by
  have hclosed : ∀ e ∈ (ofString source).errors, e.cause ≠ .unterminatedString := by simp [h]
  obtain ⟨init, hend, htokens, herrors, hjoin⟩ := exists_front hclosed
  refine ⟨(ofItems init).tokens, hend, htokens, fun next => ?_⟩
  have htext : (source ++ "\n" ++ next).toList = source.toList ++ '\n' :: next.toList := by simp
  have hlater : 1 + source.toList.count '\n' + 1 = 1 + (source.toList.count '\n' + 1) := by omega
  rw [ofString, Token.Stream.ofString, htext, hjoin, hlater, items_later, ofItems_append,
    ofItems_later, ← herrors, h]
  rfl

end Scan

end Lox
