import Mathlib.Data.List.TakeWhile
import Lox.Proofs.Scan.Lexeme

set_option autoImplicit false

/-! # The first piece is the longest

`Piece.first` cuts a lexeme off a text only if no longer front of the text is a lexeme or a
comment, and it calls a character stray or a string unterminated only if no front of the text is
a lexeme, a blank or a comment (`Piece.isFirst_first`).
-/

namespace Lox

open Lexeme (IsBlank IsComment IsDigits IsNumeral IsSymbol)

namespace Piece

/-! ## What is cut off -/

/-- No front of the text `text ++ rest` that is a lexeme or a comment is longer than `text`. -/
structure IsLongest (text rest : List Char) : Prop where
  lexeme : ∀ k front, Lexeme k front → front <+: text ++ rest → front.length ≤ text.length
  comment : ∀ front, IsComment front → front <+: text ++ rest → front.length ≤ text.length

/-- No front of the text means anything, except for the empty one. -/
structure StartsNothing (text : List Char) : Prop where
  lexeme : ∀ k front, front <+: text → ¬Lexeme k front
  blank : ∀ front, front <+: text → ¬IsBlank front
  comment : ∀ front, front <+: text → ¬IsComment front

/-- What it means to be the first piece of a text that goes on with `rest`. -/
inductive IsFirst : Piece → List Char → Prop
  | blank {text rest : List Char} (h : IsBlank text) : IsFirst ⟨.blank, text⟩ rest
  | comment {text rest : List Char} (h : IsComment text) (hend : ∀ c ∈ rest.head?, c = '\n') :
      IsFirst ⟨.comment, text⟩ rest
  | token {kind : Token.Kind} {text rest : List Char} (hk : ∀ k, Lexeme k text ↔ k = kind)
      (hl : IsLongest text rest) : IsFirst ⟨.token kind, text⟩ rest
  | stray {c : Char} {rest : List Char} (hq : c ≠ '"') (h : StartsNothing (c :: rest)) :
      IsFirst ⟨.stray, [c]⟩ rest
  | unterminated {body : List Char} (hb : '"' ∉ body) (h : StartsNothing ('"' :: body)) :
      IsFirst ⟨.unterminated, '"' :: body⟩ []

/-! ## Fronts -/

/-- A front in a class of characters is no longer than the longest front in that class. -/
theorem length_le_takeWhile {p : Char → Bool} {front cs : List Char} (h : ∀ c ∈ front, p c)
    (hfront : front <+: cs) : front.length ≤ (cs.takeWhile p).length := by
  obtain ⟨rest, rfl⟩ := hfront
  rw [List.takeWhile_append_of_pos h, List.length_append]
  omega

/-- The longest front in a class of characters, told by the character behind it. -/
theorem takeWhile_eq {p : Char → Bool} {front rest : List Char} {c : Char}
    (h : ∀ d ∈ front, p d) (hc : p c = false) :
    (front ++ c :: rest).takeWhile p = front ∧ (front ++ c :: rest).dropWhile p = c :: rest := by
  constructor
  · rw [List.takeWhile_append_of_pos h, List.takeWhile_cons_of_neg (by simp [hc]),
      List.append_nil]
  · rw [List.dropWhile_append_of_pos h, List.dropWhile_cons_of_neg (by simp [hc])]

/-- The character behind the longest front in a class is not in the class. -/
theorem eq_false_of_dropWhile {p : Char → Bool} {cs rest : List Char} {c : Char}
    (h : cs.dropWhile p = c :: rest) : p c = false := by
  have hnot := List.head?_dropWhile_not p cs
  rw [h] at hnot
  simpa using hnot

/-- A lexeme at the front of a text starts with the first character. -/
theorem exists_cons_of_prefix {k : Token.Kind} {c : Char} {front cs : List Char}
    (h : Lexeme k front) (hfront : front <+: c :: cs) : ∃ ds, front = c :: ds ∧ ds <+: cs := by
  obtain ⟨d, ds, rfl⟩ := List.exists_cons_of_ne_nil h.ne_nil
  obtain ⟨rfl, hds⟩ := List.cons_prefix_cons.mp hfront
  exact ⟨ds, rfl, hds⟩

/-- A comment at the front of a text takes two slashes there. -/
theorem slashes_of_comment {c : Char} {front cs : List Char} (h : IsComment front)
    (hfront : front <+: c :: cs) : c = '/' ∧ cs.head? = some '/' := by
  cases h with
  | @mk ds hds =>
      obtain ⟨hc, hrest⟩ := List.cons_prefix_cons.mp hfront
      obtain ⟨rest, rfl⟩ := hrest
      exact ⟨hc.symm, rfl⟩

theorem isBlank_iff {c : Char} {cs : List Char} : IsBlank (c :: cs) ↔ isBlank c ∧ cs = [] := by
  simp [IsBlank, isBlank]
  tauto

/-- To be the first piece, a token has to be the longest lexeme, where no comment starts. -/
theorem isFirst_token {kind : Token.Kind} {c : Char} {cs text rest : List Char}
    (happend : text ++ rest = c :: cs) (hc : ¬(c = '/' ∧ cs.head? = some '/'))
    (hk : ∀ k, Lexeme k text ↔ k = kind)
    (hl : ∀ k front, Lexeme k front → front <+: c :: cs → front.length ≤ text.length) :
    IsFirst ⟨.token kind, text⟩ rest := by
  refine .token hk ⟨fun k front h hfront => ?_, fun front h hfront => ?_⟩
  · rw [happend] at hfront
    exact hl k front h hfront
  · rw [happend] at hfront
    exact absurd (slashes_of_comment h hfront) hc

/-- No front of a text is a blank or a comment unless the first characters say so. -/
theorem startsNothing_of_no_lexeme {c : Char} {cs : List Char} (hb : isBlank c = false)
    (hc : ¬(c = '/' ∧ cs.head? = some '/')) (h : ∀ k front, Lexeme k front → ¬front <+: c :: cs) :
    StartsNothing (c :: cs) where
  lexeme k front hfront hlexeme := h k front hlexeme hfront
  blank front hfront hblank := by
    cases front with
    | nil => simp [IsBlank] at hblank
    | cons d front =>
        obtain ⟨rfl, -⟩ := List.cons_prefix_cons.mp hfront
        obtain ⟨hd, -⟩ := isBlank_iff.mp hblank
        simp [hb] at hd
  comment front hfront hcomment := hc (slashes_of_comment hcomment hfront)

/-! ## Strings -/

/-- What stands in front of the first occurrence of a character is determined. -/
theorem append_cons_inj {c : Char} {front front' rest rest' : List Char} (h : c ∉ front)
    (h' : c ∉ front') (heq : front ++ c :: rest = front' ++ c :: rest') : front = front' := by
  have htake : ∀ ds es : List Char, c ∉ ds → (ds ++ c :: es).takeWhile (· ≠ c) = ds := by
    intro ds es hds
    refine (takeWhile_eq (fun d hd => ?_) (by simp)).1
    rw [decide_eq_true_eq]
    rintro rfl
    exact hds hd
  rw [← htake front rest h, heq, htake front' rest' h']

theorem isFirst_quoted (cs : List Char) : IsFirst (quoted '"' cs).1 (quoted '"' cs).2 := by
  have hsplit := cs.takeWhile_append_dropWhile (p := (· ≠ '"'))
  have hbody : '"' ∉ cs.takeWhile (· ≠ '"') := fun hmem => by
    simpa using List.mem_takeWhile_imp hmem
  unfold quoted
  cases hrest : cs.dropWhile (· ≠ '"') with
  | nil =>
      -- there is no second quote, so no front of the text is a string
      refine .unterminated hbody (startsNothing_of_no_lexeme (by decide) (by simp) ?_)
      intro k front h hfront
      obtain ⟨ds, rfl, hds⟩ := exists_cons_of_prefix h hfront
      obtain ⟨-, body, -, rfl⟩ := Lexeme.quote_iff.mp h
      exact hbody (hds.subset (by simp))
  | cons close rest =>
      obtain rfl : close = '"' := by simpa using eq_false_of_dropWhile hrest
      rw [hrest] at hsplit
      have happend : '"' :: (cs.takeWhile (· ≠ '"') ++ ['"']) ++ rest = '"' :: cs := by
        simpa using hsplit
      refine isFirst_token happend (by simp) (fun k => ?_) ?_
      · rw [Lexeme.quote_iff]
        exact ⟨And.left, fun hk => ⟨hk, _, hbody, rfl⟩⟩
      · intro k front h hfront
        obtain ⟨ds, rfl, hds⟩ := exists_cons_of_prefix h hfront
        obtain ⟨-, body, hb, rfl⟩ := Lexeme.quote_iff.mp h
        -- both strings end with the first quote behind the one that opens them
        obtain ⟨tail, htail⟩ := hds
        have hsame : body = cs.takeWhile (· ≠ '"') := by
          have hboth : body ++ '"' :: tail = cs.takeWhile (· ≠ '"') ++ '"' :: rest := by
            rw [hsplit, ← htail, List.append_assoc, List.singleton_append]
          exact append_cons_inj hb hbody hboth
        rw [← hsame]

/-! ## Numbers -/

/-- A point belongs to a number if a digit follows it. -/
theorem fraction_cases (cs : List Char) :
    (∃ d rest, cs = '.' :: d :: rest ∧ d.isDigit ∧
      fraction cs = ('.' :: d :: rest.takeWhile Char.isDigit, rest.dropWhile Char.isDigit)) ∨
    fraction cs = ([], cs) := by
  unfold fraction
  split
  · next d rest =>
    by_cases hd : d.isDigit
    · exact .inl ⟨d, rest, rfl, hd, by rw [if_pos hd]⟩
    · exact .inr (by rw [if_neg hd])
  · exact .inr rfl

/-- A numeral at the front of a text takes no more than the digits there, and no more than the
digits behind a point. -/
theorem length_le_of_isNumeral {cs front : List Char} (h : IsNumeral front)
    (hfront : front <+: cs) : front.length ≤
      (cs.takeWhile Char.isDigit ++ (fraction (cs.dropWhile Char.isDigit)).1).length := by
  rw [List.length_append]
  rcases h with h | ⟨whole, part, hwhole, hpart, rfl⟩
  · have hle := length_le_takeWhile h.2 hfront
    omega
  · obtain ⟨rest, rfl⟩ := hfront
    obtain ⟨d, part, rfl⟩ := List.exists_cons_of_ne_nil hpart.1
    obtain ⟨hd, hds⟩ := List.forall_mem_cons.mp hpart.2
    -- the digits in front of the point are all the digits there are
    have heq : whole ++ '.' :: d :: part ++ rest = whole ++ '.' :: d :: (part ++ rest) := by simp
    have hpoint : ('.' : Char).isDigit = false := by decide
    rw [heq, (takeWhile_eq hwhole.2 hpoint).1, (takeWhile_eq hwhole.2 hpoint).2]
    have hle := length_le_takeWhile hds (List.prefix_append part rest)
    simp only [fraction, if_pos hd, List.length_append, List.length_cons]
    omega

theorem isFirst_number {c : Char} (hc : c.isDigit) (cs : List Char) :
    IsFirst (number c cs).1 (number c cs).2 := by
  have htake : (c :: cs).takeWhile Char.isDigit = c :: cs.takeWhile Char.isDigit :=
    List.takeWhile_cons_of_pos hc
  have hdrop : (c :: cs).dropWhile Char.isDigit = cs.dropWhile Char.isDigit :=
    List.dropWhile_cons_of_pos hc
  have hwhole : IsDigits (c :: cs.takeWhile Char.isDigit) := by
    refine ⟨by simp, fun d hd => ?_⟩
    rw [← htake] at hd
    exact List.mem_takeWhile_imp hd
  have hnumeral : IsNumeral
      (c :: (cs.takeWhile Char.isDigit ++ (fraction (cs.dropWhile Char.isDigit)).1)) := by
    rcases fraction_cases (cs.dropWhile Char.isDigit) with ⟨d, rest, -, hd, heq⟩ | heq
    · refine .inr ⟨_, d :: rest.takeWhile Char.isDigit, hwhole, ⟨by simp, ?_⟩, by rw [heq]; rfl⟩
      exact List.forall_mem_cons.mpr ⟨hd, fun e he => List.mem_takeWhile_imp he⟩
    · rw [heq, List.append_nil]
      exact .inl hwhole
  show IsFirst
    ⟨.token .number, c :: (cs.takeWhile Char.isDigit ++ (fraction (cs.dropWhile Char.isDigit)).1)⟩
    (fraction (cs.dropWhile Char.isDigit)).2
  have happend : c :: (cs.takeWhile Char.isDigit ++ (fraction (cs.dropWhile Char.isDigit)).1) ++
      (fraction (cs.dropWhile Char.isDigit)).2 = c :: cs := by
    rw [List.cons_append, List.append_assoc, fraction_append, List.takeWhile_append_dropWhile]
  refine isFirst_token happend ?_ (fun k => ?_) ?_
  · rintro ⟨rfl, -⟩
    exact absurd hc (by decide)
  · rw [Lexeme.digit_iff hc]
    exact ⟨And.left, fun hk => ⟨hk, hnumeral⟩⟩
  · intro k front h hfront
    obtain ⟨ds, rfl, -⟩ := exists_cons_of_prefix h hfront
    have hle := length_le_of_isNumeral ((Lexeme.digit_iff hc).mp h).2 hfront
    rwa [htake, hdrop] at hle

/-! ## Words -/

theorem isFirst_word {c : Char} (hc : isLetter c) (cs : List Char) :
    IsFirst (word c cs).1 (word c cs).2 := by
  show IsFirst ⟨.token _, _⟩ (cs.dropWhile isWordPart)
  have happend : c :: cs.takeWhile isWordPart ++ cs.dropWhile isWordPart = c :: cs := by simp
  refine isFirst_token happend ?_ (fun k => ?_) ?_
  · rintro ⟨rfl, -⟩
    exact absurd hc (by decide)
  · rw [Lexeme.letter_iff hc]
    exact ⟨And.left, fun hk => ⟨hk, fun d hd => List.mem_takeWhile_imp hd⟩⟩
  · intro k front h hfront
    obtain ⟨ds, rfl, hds⟩ := exists_cons_of_prefix h hfront
    have hle := length_le_takeWhile ((Lexeme.letter_iff hc).mp h).2 hds
    simpa using hle

/-! ## Comments and symbols -/

theorem isFirst_comment {cs : List Char} (hcs : cs.head? = some '/') :
    IsFirst (comment '/' cs).1 (comment '/' cs).2 := by
  obtain ⟨ds, rfl⟩ := List.head?_eq_some_iff.mp hcs
  refine .comment ?_ fun c hc => ?_
  · have htake : ('/' :: ds).takeWhile (· ≠ '\n') = '/' :: ds.takeWhile (· ≠ '\n') :=
      List.takeWhile_cons_of_pos (by decide)
    rw [htake]
    refine .mk fun hmem => ?_
    simpa using List.mem_takeWhile_imp hmem
  · obtain ⟨rest, hrest⟩ := List.head?_eq_some_iff.mp hc
    simpa using eq_false_of_dropWhile hrest

theorem isFirst_symbol {c : Char} {cs : List Char} (hb : isBlank c = false) (hq : c ≠ '"')
    (hd : c.isDigit = false) (hl : isLetter c = false)
    (hs : ¬(c = '/' ∧ cs.head? = some '/')) : IsFirst (symbol c cs).1 (symbol c cs).2 := by
  have hlexeme : ∀ k front, Lexeme k front → front <+: c :: cs →
      (front = [c] ∧ ofSymbol? c = some k) ∨
        (front = [c, '='] ∧ ofSymbolEqual? c = some k ∧ cs.head? = some '=') := by
    intro k front h hfront
    obtain ⟨ds, rfl, hds⟩ := exists_cons_of_prefix h hfront
    have hsymbol := (Lexeme.symbol_iff hq hd hl).mp h
    cases hsymbol with
    | single hkind => exact .inl ⟨rfl, hkind⟩
    | double hkind =>
        obtain ⟨rest, rfl⟩ := hds
        exact .inr ⟨rfl, hkind, rfl⟩
  unfold symbol
  split
  · next kind rest hequal =>
    have happend : [c, '='] ++ rest = c :: '=' :: rest := rfl
    refine isFirst_token happend hs (fun k => ?_) ?_
    · rw [Lexeme.symbol_iff hq hd hl]
      constructor
      · intro h
        cases h with
        | double h => exact Option.some.inj (h.symm.trans hequal)
      · rintro rfl
        exact .double hequal
    · intro k front h hfront
      rcases hlexeme k front h hfront with ⟨rfl, -⟩ | ⟨rfl, -⟩ <;> simp
  · next hne =>
    split
    · next kind hsingle =>
      refine isFirst_token (c := c) rfl hs (fun k => ?_) ?_
      · rw [Lexeme.symbol_iff hq hd hl]
        constructor
        · intro h
          cases h with
          | single h => exact Option.some.inj (h.symm.trans hsingle)
        · rintro rfl
          exact .single hsingle
      · intro k front h hfront
        rcases hlexeme k front h hfront with ⟨rfl, -⟩ | ⟨-, hequal, hhead⟩
        · simp
        · obtain ⟨rest, hrest⟩ := List.head?_eq_some_iff.mp hhead
          exact absurd hrest (hne k rest hequal)
    · next hnone =>
      refine .stray hq (startsNothing_of_no_lexeme hb hs ?_)
      intro k front h hfront
      rcases hlexeme k front h hfront with ⟨-, hsingle⟩ | ⟨-, hequal, -⟩
      · cases hnone.symm.trans hsingle
      · obtain ⟨single, hsingle⟩ := Lexeme.isSome_of_ofSymbolEqual? hequal
        cases hnone.symm.trans hsingle

/-- **Longest match.** The first piece of a text is a blank, a comment up to the end of its line,
the longest lexeme at the front of the text, or a place where no lexeme starts. -/
theorem isFirst_first (c : Char) (cs : List Char) : IsFirst (first c cs).1 (first c cs).2 := by
  unfold first
  split
  · next hb => exact .blank (isBlank_iff.mpr ⟨hb, rfl⟩)
  split
  · next hq =>
    subst hq
    exact isFirst_quoted cs
  split
  · next hd => exact isFirst_number hd cs
  split
  · next hl => exact isFirst_word hl cs
  split
  · next hs =>
    obtain ⟨rfl, hcs⟩ := hs
    exact isFirst_comment hcs
  · next hb hq hd hl hs =>
    rw [Bool.not_eq_true] at hb hd hl
    exact isFirst_symbol hb hq hd hl hs

end Piece

end Lox
