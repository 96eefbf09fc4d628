import Mathlib.Tactic
import Lox.Token.Lexeme

set_option autoImplicit false

/-! # Lexemes by their first character

The first character of a lexeme tells of which class it is: a quote starts strings only, a digit
numbers only, a letter words only, and every other character symbols only. For each class the
lexemes are given here in the terms in which a text is cut into pieces (`Lexeme.quote_iff`,
`Lexeme.digit_iff`, `Lexeme.letter_iff` and `Lexeme.symbol_iff`).
-/

namespace Lox

namespace Lexeme

open Token (Kind)
open Piece (isBlank isLetter isWordPart ofSymbol? ofSymbolEqual?)

/-! ## Symbols -/

/-- The symbols of one character, and those with an equals sign behind it. -/
inductive IsSymbol : Kind → List Char → Prop
  | single {c : Char} {kind : Kind} (h : ofSymbol? c = some kind) : IsSymbol kind [c]
  | double {c : Char} {kind : Kind} (h : ofSymbolEqual? c = some kind) : IsSymbol kind [c, '=']

theorem IsSymbol.ne_nil {kind : Kind} {cs : List Char} (h : IsSymbol kind cs) : cs ≠ [] := by
  cases h <;> simp

theorem isSymbol_of_mem {text : String} {kind : Kind} (h : (text, kind) ∈ symbols) :
    IsSymbol kind text.toList := by
  fin_cases h
  all_goals first | exact .single rfl | exact .double rfl

theorem IsSymbol.lexeme {kind : Kind} {cs : List Char} (h : IsSymbol kind cs) :
    Lexeme kind cs := by
  have hmem : ∃ text : String, text.toList = cs ∧ (text, kind) ∈ symbols := by
    cases h with
    | single h =>
        unfold ofSymbol? at h
        split at h <;> cases h
        all_goals exact ⟨.ofList _, String.toList_ofList, by decide⟩
    | double h =>
        unfold ofSymbolEqual? at h
        split at h <;> cases h
        all_goals exact ⟨.ofList _, String.toList_ofList, by decide⟩
  obtain ⟨text, rfl, hmem⟩ := hmem
  exact .symbol hmem

/-- A character that is a symbol is in none of the other classes. -/
theorem class_of_ofSymbol? {c : Char} {kind : Kind} (h : ofSymbol? c = some kind) :
    isBlank c = false ∧ c ≠ '"' ∧ c.isDigit = false ∧ isLetter c = false := by
  unfold ofSymbol? at h
  split at h <;> first | decide | cases h

/-- A character that is a symbol together with an equals sign is one on its own. -/
theorem isSome_of_ofSymbolEqual? {c : Char} {kind : Kind} (h : ofSymbolEqual? c = some kind) :
    ∃ single, ofSymbol? c = some single := by
  unfold ofSymbolEqual? at h
  split at h <;> first | exact ⟨_, rfl⟩ | cases h

/-! ## Words -/

theorem isWord_cons_iff {c : Char} {cs : List Char} :
    IsWord (c :: cs) ↔ isLetter c ∧ ∀ d ∈ cs, isWordPart d := by
  have hpart : ∀ d : Char, isWordPart d ↔ d.isAlpha ∨ d.isDigit ∨ d = '_' := by
    intro d
    simp [isWordPart, Char.isAlphanum, or_assoc]
  constructor
  · rintro ⟨hc, hcs⟩
    exact ⟨by simpa [isLetter] using hc, fun d hd => (hpart d).mpr (hcs d hd)⟩
  · rintro ⟨hc, hcs⟩
    exact .mk (by simpa [isLetter] using hc) fun d hd => (hpart d).mp (hcs d hd)

/-- The reserved words are words. -/
theorem isWord_of_mem_keywords {word : String} {kind : Kind} (h : (word, kind) ∈ Kind.keywords) :
    IsWord word.toList := by
  have hcheck : ∀ entry ∈ Kind.keywords,
      entry.1.toList.head?.any isLetter ∧ entry.1.toList.tail.all isWordPart := by decide
  obtain ⟨hhead, htail⟩ := hcheck _ h
  cases hw : word.toList with
  | nil => simp [hw] at hhead
  | cons c cs => exact isWord_cons_iff.mpr (by simpa [hw] using And.intro hhead htail)

/-- The reserved words are listed once. -/
theorem lookup_of_mem_keywords {word : String} {kind : Kind} (h : (word, kind) ∈ Kind.keywords) :
    Kind.keywords.lookup word = some kind := by
  have hcheck : ∀ entry ∈ Kind.keywords, Kind.keywords.lookup entry.1 = some entry.2 := by decide
  exact hcheck _ h

/-- A word is of one kind: that of the reserved word that it is, or an identifier. -/
theorem iff_of_isWord {k : Kind} {cs : List Char} (h : IsWord cs) :
    ((∃ word, word.toList = cs ∧ (word, k) ∈ Kind.keywords) ∨
      k = .identifier ∧ ∀ entry ∈ Kind.keywords, entry.1 ≠ .ofList cs) ↔
      k = .ofWord (.ofList cs) := by
  rw [Kind.ofWord]
  constructor
  · rintro (⟨word, rfl, hmem⟩ | ⟨rfl, hnone⟩)
    · rw [String.ofList_toList, lookup_of_mem_keywords hmem, Option.getD_some]
    · have hlookup : Kind.keywords.lookup (.ofList cs) = none :=
        List.lookup_eq_none_iff.mpr fun entry hmem => by simpa using (hnone entry hmem).symm
      rw [hlookup, Option.getD_none]
  · rintro rfl
    cases hlookup : Kind.keywords.lookup (.ofList cs) with
    | none =>
        refine .inr ⟨rfl, fun entry hmem heq => ?_⟩
        have hne := List.lookup_eq_none_iff.mp hlookup entry hmem
        simp [heq] at hne
    | some kind =>
        obtain ⟨before, after, hlist, -⟩ := List.lookup_eq_some_iff.mp hlookup
        exact .inl ⟨.ofList cs, String.toList_ofList, by simp [hlist]⟩

/-! ## Numbers -/

/-- The texts of numbers. -/
def IsNumeral (cs : List Char) : Prop :=
  IsDigits cs ∨ ∃ whole part, IsDigits whole ∧ IsDigits part ∧ cs = whole ++ '.' :: part

/-! ## Classes -/

theorem not_isDigit_of_isLetter {c : Char} (h : isLetter c) : c.isDigit = false := by
  by_contra hd
  have hd : c.isDigit := by simpa using hd
  rw [isLetter, Bool.or_eq_true, decide_eq_true_eq] at h
  rcases h with h | rfl
  · have hdigit := Char.isDigit_iff_toNat.mp hd
    -- the ranges of the capital and the small letters
    have hletter : (decide (c.val ≥ 'A'.val ∧ c.val ≤ 'Z'.val) ||
        (decide (c.val ≥ 'a'.val) && decide (c.val ≤ 'z'.val))) = true := h
    simp only [Bool.or_eq_true, Bool.and_eq_true, decide_eq_true_eq, UInt32.le_iff_toNat_le,
      ge_iff_le, Char.toNat_val] at hletter
    simp only [Char.reduceToNat] at hletter hdigit
    omega
  · exact absurd hd (by decide)

/-- Every lexeme is in the class of its first character. -/
theorem by_first {k : Kind} {c : Char} {cs : List Char} (h : Lexeme k (c :: cs)) :
    (c = '"' ∧ k = .string ∧ ∃ body, '"' ∉ body ∧ cs = body ++ ['"']) ∨
    (c.isDigit ∧ k = .number ∧ IsNumeral (c :: cs)) ∨
    (isLetter c ∧ k = .ofWord (.ofList (c :: cs)) ∧ ∀ d ∈ cs, isWordPart d) ∨
    IsSymbol k (c :: cs) := by
  have hfirst : ∀ {ds es : List Char}, IsDigits ds → c :: cs = ds ++ es → c.isDigit := by
    intro ds es hds heq
    obtain ⟨d, ds, rfl⟩ := List.exists_cons_of_ne_nil hds.1
    rw [List.cons_append, List.cons.injEq] at heq
    exact heq.1 ▸ hds.2 d (by simp)
  generalize htext : c :: cs = text at h
  cases h with
  | symbol h => exact .inr (.inr (.inr (isSymbol_of_mem h)))
  | string hbody =>
      cases htext
      exact .inl ⟨rfl, rfl, _, hbody, rfl⟩
  | whole h => exact .inr (.inl ⟨hfirst h (htext.trans (List.append_nil _).symm), rfl, .inl h⟩)
  | fraction h h' => exact .inr (.inl ⟨hfirst h htext, rfl, .inr ⟨_, _, h, h', rfl⟩⟩)
  | keyword hmem =>
      have hword := isWord_of_mem_keywords hmem
      rw [← htext] at hword ⊢
      have hkind := (iff_of_isWord hword).mp (.inl ⟨_, htext.symm, hmem⟩)
      obtain ⟨hc, hcs⟩ := isWord_cons_iff.mp hword
      exact .inr (.inr (.inl ⟨hc, hkind, hcs⟩))
  | identifier hword hk =>
      have hkind := (iff_of_isWord hword).mp (.inr ⟨rfl, hk⟩)
      subst htext
      obtain ⟨hc, hcs⟩ := isWord_cons_iff.mp hword
      exact .inr (.inr (.inl ⟨hc, hkind, hcs⟩))

theorem ne_nil {k : Kind} {cs : List Char} (h : Lexeme k cs) : cs ≠ [] := by
  cases h with
  | symbol h => exact (isSymbol_of_mem h).ne_nil
  | string => simp
  | whole h => exact h.1
  | fraction => simp
  | keyword h =>
      have hcheck : ∀ entry ∈ Kind.keywords, entry.1.toList ≠ [] := by decide
      exact hcheck _ h
  | identifier h =>
      cases h
      simp

/-- A symbol starts with a character of no other class. -/
theorem IsSymbol.first {k : Kind} {c : Char} {cs : List Char} (h : IsSymbol k (c :: cs)) :
    isBlank c = false ∧ c ≠ '"' ∧ c.isDigit = false ∧ isLetter c = false := by
  cases h with
  | single h => exact class_of_ofSymbol? h
  | double h =>
      obtain ⟨single, h⟩ := isSome_of_ofSymbolEqual? h
      exact class_of_ofSymbol? h

theorem quote_iff {k : Kind} {cs : List Char} :
    Lexeme k ('"' :: cs) ↔ k = .string ∧ ∃ body, '"' ∉ body ∧ cs = body ++ ['"'] := by
  constructor
  · intro h
    rcases h.by_first with ⟨-, h⟩ | ⟨hd, -⟩ | ⟨hl, -⟩ | hs
    · exact h
    · exact absurd hd (by decide)
    · exact absurd hl (by decide)
    · exact absurd rfl hs.first.2.1
  · rintro ⟨rfl, body, hbody, rfl⟩
    exact .string hbody

theorem digit_iff {k : Kind} {c : Char} {cs : List Char} (hc : c.isDigit) :
    Lexeme k (c :: cs) ↔ k = .number ∧ IsNumeral (c :: cs) := by
  constructor
  · intro h
    rcases h.by_first with ⟨rfl, -⟩ | ⟨-, h⟩ | ⟨hl, -⟩ | hs
    · exact absurd hc (by decide)
    · exact h
    · simp [not_isDigit_of_isLetter hl] at hc
    · simp [hs.first.2.2.1] at hc
  · rintro ⟨rfl, h | ⟨whole, part, h, h', heq⟩⟩
    · exact .whole h
    · rw [heq]
      exact .fraction h h'

theorem letter_iff {k : Kind} {c : Char} {cs : List Char} (hc : isLetter c) :
    Lexeme k (c :: cs) ↔ k = .ofWord (.ofList (c :: cs)) ∧ ∀ d ∈ cs, isWordPart d := by
  constructor
  · intro h
    rcases h.by_first with ⟨rfl, -⟩ | ⟨hd, -⟩ | ⟨-, h⟩ | hs
    · exact absurd hc (by decide)
    · simp [not_isDigit_of_isLetter hc] at hd
    · exact h
    · simp [hs.first.2.2.2] at hc
  · rintro ⟨hkind, hcs⟩
    have hword : IsWord (c :: cs) := isWord_cons_iff.mpr ⟨hc, hcs⟩
    rcases (iff_of_isWord hword).mpr hkind with ⟨word, hw, hmem⟩ | ⟨rfl, hk⟩
    · rw [← hw]
      exact .keyword hmem
    · exact .identifier hword hk

theorem symbol_iff {k : Kind} {c : Char} {cs : List Char} (hq : c ≠ '"')
    (hd : c.isDigit = false) (hl : isLetter c = false) :
    Lexeme k (c :: cs) ↔ IsSymbol k (c :: cs) := by
  constructor
  · intro h
    rcases h.by_first with ⟨rfl, -⟩ | ⟨hd', -⟩ | ⟨hl', -⟩ | hs
    · exact absurd rfl hq
    · simp [hd] at hd'
    · simp [hl] at hl'
    · exact hs
  · exact IsSymbol.lexeme

/-- The kind for the end of a source has no lexeme. -/
theorem ne_eof {k : Kind} {cs : List Char} (h : Lexeme k cs) : k ≠ .eof := by
  have hkeyword : ∀ entry ∈ Kind.keywords, entry.2 ≠ .eof := by decide
  have hsymbol : ∀ entry ∈ symbols, entry.2 ≠ .eof := by decide
  cases h with
  | symbol h => exact hsymbol _ h
  | keyword h => exact hkeyword _ h
  | string | whole | fraction | identifier => decide

end Lexeme

end Lox
