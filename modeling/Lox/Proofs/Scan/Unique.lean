import Mathlib.Tactic
import Lox.Proofs.Scan.Coverage

set_option autoImplicit false

/-! # A source has one row of pieces

What it means to be the first piece of a text leaves no choice (`Piece.IsFirst.first_eq`), so a
text is covered by one row of pieces only (`Piece.Covers.unique`), and the items of a source can be
read off any row that covers it (`Piece.Covers.items_eq`).

To be the first piece says something about the text behind the piece too. Only as far as the next
blank, though: blanks stand in strings and comments only, and what is longer than another lexeme is
no string (`Piece.IsLongest.of_prefixes`).
-/

namespace Lox

open Lexeme (IsBlank IsComment IsDigits IsNumeral IsSymbol)

/-! ## Blanks in lexemes -/

namespace Piece

theorem isBlank_cases {c : Char} (h : isBlank c) : c = ' ' ∨ c = '\t' ∨ c = '\r' ∨ c = '\n' := by
  simpa [isBlank, or_assoc] using h

/-- A blank is in no class of characters that lexemes are made of. -/
theorem class_of_isBlank {c : Char} (h : isBlank c) :
    c.isDigit = false ∧ isLetter c = false ∧ isWordPart c = false := by
  rcases isBlank_cases h with rfl | rfl | rfl | rfl <;> decide

theorem exists_of_isBlankText {text : List Char} (h : IsBlank text) :
    ∃ c, text = [c] ∧ isBlank c := by
  cases text with
  | nil => simp [IsBlank] at h
  | cons c cs =>
      obtain ⟨hc, rfl⟩ := isBlank_iff.mp h
      exact ⟨c, rfl, hc⟩

end Piece

namespace Lexeme

open Piece (isBlank class_of_isBlank)

theorem IsNumeral.not_isBlank {cs : List Char} (h : IsNumeral cs) :
    ∀ c ∈ cs, isBlank c = false := by
  have hdigits : ∀ {ds : List Char}, IsDigits ds → ∀ c ∈ ds, isBlank c = false := by
    intro ds hds c hc
    by_contra hb
    have hnot := (class_of_isBlank (by simpa using hb)).1
    simp [hds.2 c hc] at hnot
  rcases h with h | ⟨whole, part, hwhole, hpart, rfl⟩
  · exact hdigits h
  · intro c hc
    rcases List.mem_append.mp hc with hc | hc
    · exact hdigits hwhole c hc
    · rcases List.mem_cons.mp hc with rfl | hc
      · decide
      · exact hdigits hpart c hc

/-- Only strings have blanks in them. -/
theorem eq_string_of_isBlank {k : Token.Kind} {cs : List Char} {b : Char} (h : Lexeme k cs)
    (hb : b ∈ cs) (hblank : isBlank b) : ∃ body, '"' ∉ body ∧ cs = '"' :: (body ++ ['"']) := by
  obtain ⟨c, cs, rfl⟩ := List.exists_cons_of_ne_nil h.ne_nil
  have hother := class_of_isBlank hblank
  rcases h.by_first with ⟨rfl, -, body, hbody, rfl⟩ | ⟨-, -, hn⟩ | ⟨hl, -, hcs⟩ | hs
  · exact ⟨body, hbody, rfl⟩
  · simp [hn.not_isBlank b hb] at hblank
  · rcases List.mem_cons.mp hb with rfl | hb
    · simp [hl] at hother
    · simp [hcs b hb] at hother
  · rcases List.mem_cons.mp hb with rfl | hb
    · simp [hs.first.1] at hblank
    · cases hs with
      | single => cases hb
      | double =>
          obtain rfl := List.mem_singleton.mp hb
          exact absurd hblank (by decide)

/-- A lexeme goes on behind another one without blanks. -/
theorem not_isBlank_of_append {k k' : Token.Kind} {text more : List Char} (h : Lexeme k text)
    (h' : Lexeme k' (text ++ more)) : ∀ c ∈ more, isBlank c = false := by
  intro b hb
  by_contra hblank
  obtain ⟨body, hbody, heq⟩ := h'.eq_string_of_isBlank (List.mem_append_right text hb)
    (by simpa using hblank)
  obtain ⟨c, cs, rfl⟩ := List.exists_cons_of_ne_nil h.ne_nil
  obtain ⟨rfl, heq⟩ := List.cons.inj heq
  obtain ⟨-, body', hbody', rfl⟩ := quote_iff.mp h
  -- the shorter string is closed by the only quote that can close the longer one
  have hboth : body' ++ '"' :: more = body ++ '"' :: [] := by simpa using heq
  obtain rfl := Piece.append_cons_inj hbody' hbody hboth
  have hmore : more = [] := by simpa using hboth
  rw [hmore] at hb
  cases hb

/-- The only lexeme that starts with a slash is the slash. -/
theorem eq_nil_of_slash {k : Token.Kind} {cs : List Char} (h : Lexeme k ('/' :: cs)) : cs = [] := by
  have hs := (symbol_iff (by decide) (by decide) (by decide)).mp h
  cases hs with
  | single => rfl
  | double hequal => cases hequal

/-- No lexeme starts with a blank. -/
theorem not_isBlank_first {k : Token.Kind} {c : Char} {cs : List Char} (h : Lexeme k (c :: cs)) :
    isBlank c = false := by
  by_contra hblank
  obtain ⟨body, -, heq⟩ := h.eq_string_of_isBlank List.mem_cons_self (by simpa using hblank)
  obtain ⟨rfl, -⟩ := List.cons.inj heq
  exact hblank rfl

end Lexeme

namespace Piece

/-! ## Longest fronts -/

/-- The longest lexeme stays the longest in front of another text, if that text starts in no new
way: whatever is in front of the first blank of it stood in front of the old text. -/
theorem IsLongest.of_prefixes {k : Token.Kind} {text rest rest' : List Char} (h : Lexeme k text)
    (hl : IsLongest text rest)
    (hrest : ∀ more, more <+: rest' → (∀ c ∈ more, isBlank c = false) → more <+: rest) :
    IsLongest text rest' := by
  -- what is longer than the lexeme starts with the lexeme
  have hlonger : ∀ front, front <+: text ++ rest' → ¬front.length ≤ text.length →
      ∃ more, front = text ++ more ∧ more <+: rest' := by
    intro front hfront hlt
    obtain ⟨more, rfl⟩ := List.prefix_of_prefix_length_le (List.prefix_append text rest') hfront
      (by omega)
    exact ⟨more, rfl, (List.prefix_append_right_inj text).mp hfront⟩
  constructor
  · intro k' front hk' hfront
    by_contra hlt
    obtain ⟨more, rfl, hmore⟩ := hlonger front hfront hlt
    have hsame := hrest more hmore (h.not_isBlank_of_append hk')
    exact hlt (hl.lexeme k' _ hk' ((List.prefix_append_right_inj text).mpr hsame))
  · intro front hcomment hfront
    by_contra hlt
    obtain ⟨more, rfl, hmore⟩ := hlonger front hfront hlt
    obtain ⟨c, cs, rfl⟩ := List.exists_cons_of_ne_nil h.ne_nil
    obtain ⟨rfl, -⟩ := slashes_of_comment hcomment List.prefix_rfl
    obtain rfl := h.eq_nil_of_slash
    -- the two slashes of the comment were there before
    cases hcomment with
    | mk =>
        have hslash : ['/'] <+: rest' := ((List.prefix_append ['/'] _).trans hmore)
        have hsame := hrest ['/'] hslash (by simp [isBlank])
        have hle := hl.comment ['/', '/'] (.mk List.not_mem_nil)
          ((List.prefix_append_right_inj ['/']).mpr hsame)
        simp at hle

/-- A lexeme is the longest one in front of a blank. -/
theorem isLongest_of_isBlank {k : Token.Kind} {text : List Char} {b : Char} (h : Lexeme k text)
    (hb : isBlank b) (rest : List Char) : IsLongest text (b :: rest) := by
  have halone : IsLongest text [] := by
    constructor
    · intro k front _ hfront
      simpa using hfront.length_le
    · intro front _ hfront
      simpa using hfront.length_le
  refine halone.of_prefixes h fun more hmore hnot => ?_
  cases more with
  | nil => exact List.prefix_rfl
  | cons c more =>
      obtain ⟨rfl, -⟩ := List.cons_prefix_cons.mp hmore
      simp [hnot c List.mem_cons_self] at hb

/-! ## The first piece -/

theorem IsFirst.text_ne_nil {p : Piece} {rest : List Char} (h : IsFirst p rest) : p.text ≠ [] := by
  cases h with
  | blank hb =>
      obtain ⟨b, rfl, -⟩ := exists_of_isBlankText hb
      simp
  | comment hc =>
      cases hc
      simp
  | token hk => exact ((hk _).mpr rfl).ne_nil
  | stray | unterminated => simp

theorem first_of_isBlank {b : Char} (hb : isBlank b) (rest : List Char) :
    first b rest = (⟨.blank, [b]⟩, rest) := by
  rw [first, if_pos hb]

theorem first_of_isComment {text rest : List Char} (hc : IsComment text)
    (hend : ∀ c ∈ rest.head?, c = '\n') :
    ∃ cs, text = '/' :: cs ∧ first '/' (cs ++ rest) = (⟨.comment, text⟩, rest) := by
  cases hc with
  | @mk body hbody =>
      refine ⟨'/' :: body, rfl, ?_⟩
      have hall : ∀ d ∈ '/' :: body, decide (d ≠ '\n') := by
        intro d hd
        rw [decide_eq_true_eq]
        rintro rfl
        simp [hbody] at hd
      have hfirst : first '/' ('/' :: body ++ rest) = comment '/' ('/' :: body ++ rest) := by
        simp [first, isBlank, isLetter]
      rw [hfirst, comment]
      cases rest with
      | nil =>
          rw [List.append_nil, List.takeWhile_eq_self_iff.mpr hall,
            List.dropWhile_eq_nil_iff.mpr hall]
      | cons c rest =>
          obtain rfl : c = '\n' := hend c rfl
          rw [(takeWhile_eq hall (by simp)).1, (takeWhile_eq hall (by simp)).2]

/-- Where no lexeme starts, only one of the two errors can be cut off. -/
theorem IsFirst.cases_of_startsNothing {p : Piece} {rest : List Char} (h : IsFirst p rest)
    (hnothing : StartsNothing (p.text ++ rest)) :
    (∃ c, c ≠ '"' ∧ p = ⟨.stray, [c]⟩) ∨
      ∃ body, p = ⟨.unterminated, '"' :: body⟩ ∧ rest = [] := by
  cases h with
  | blank hb => exact absurd hb (hnothing.blank _ (List.prefix_append _ _))
  | comment hc => exact absurd hc (hnothing.comment _ (List.prefix_append _ _))
  | token hk => exact absurd ((hk _).mpr rfl) (hnothing.lexeme _ _ (List.prefix_append _ _))
  | stray hq => exact .inl ⟨_, hq, rfl⟩
  | unterminated => exact .inr ⟨_, rfl, rfl⟩

/-- Where a lexeme starts that is the longest, it is cut off. -/
theorem IsFirst.eq_of_isLongest {q : Piece} {kind : Token.Kind} {text rest rest' : List Char}
    (h : IsFirst q rest') (hk : ∀ k, Lexeme k text ↔ k = kind) (hl : IsLongest text rest)
    (htext : q.text ++ rest' = text ++ rest) : q = ⟨.token kind, text⟩ ∧ rest' = rest := by
  have hlexeme : Lexeme kind text := (hk kind).mpr rfl
  have hfront : text <+: q.text ++ rest' := htext ▸ List.prefix_append text rest
  have hfront' : q.text <+: text ++ rest := htext ▸ List.prefix_append q.text rest'
  obtain ⟨c, cs, rfl⟩ := List.exists_cons_of_ne_nil hlexeme.ne_nil
  cases h with
  | blank hblank =>
      obtain ⟨b, rfl, hb⟩ := exists_of_isBlankText hblank
      obtain ⟨rfl, -⟩ := List.cons_prefix_cons.mp hfront
      rw [hlexeme.not_isBlank_first] at hb
      cases hb
  | comment hc =>
      obtain ⟨rfl, -⟩ := slashes_of_comment hc hfront'
      obtain rfl := hlexeme.eq_nil_of_slash
      have hle := hl.comment _ hc hfront'
      cases hc
      simp at hle
  | @token kind' text' rest' hk' hl' =>
      have hle := hl.lexeme kind' text' ((hk' kind').mpr rfl) hfront'
      have hle' := hl'.lexeme kind _ hlexeme hfront
      obtain ⟨rfl, rfl⟩ := List.append_inj htext (Nat.le_antisymm hle hle')
      obtain rfl := (hk' kind).mp hlexeme
      exact ⟨rfl, rfl⟩
  | stray _ hnothing => exact absurd hlexeme (hnothing.lexeme _ _ hfront)
  | unterminated _ hnothing =>
      rw [List.append_nil] at hfront
      exact absurd hlexeme (hnothing.lexeme _ _ hfront)

/-- **The first piece is determined.** What is the first piece of a text as the lexical grammar has
it is the piece that is cut off the text. -/
theorem IsFirst.first_eq {p : Piece} {rest cs : List Char} {c : Char} (h : IsFirst p rest)
    (htext : p.text ++ rest = c :: cs) : first c cs = (p, rest) := by
  have hcut := isFirst_first c cs
  have hsame := (text_append_rest c cs).trans htext.symm
  cases h with
  | blank hblank =>
      obtain ⟨b, rfl, hb⟩ := exists_of_isBlankText hblank
      obtain ⟨rfl, rfl⟩ := List.cons.inj htext
      exact first_of_isBlank hb _
  | comment hc hend =>
      obtain ⟨ds, rfl, hfirst⟩ := first_of_isComment hc hend
      obtain ⟨rfl, rfl⟩ := List.cons.inj htext
      exact hfirst
  | token hk hl =>
      obtain ⟨hpiece, hrest⟩ := hcut.eq_of_isLongest hk hl hsame
      exact Prod.ext hpiece hrest
  | @stray d rest hq hnothing =>
      have hnothing' : StartsNothing ([d] ++ rest) := hnothing
      rw [← hsame] at hnothing'
      rcases hcut.cases_of_startsNothing hnothing' with ⟨e, -, hpiece⟩ | ⟨body, hpiece, -⟩
      · rw [hpiece] at hsame
        obtain ⟨rfl, hrest⟩ := List.cons.inj hsame
        exact Prod.ext hpiece hrest
      · rw [hpiece] at hsame
        exact absurd (List.cons.inj hsame).1.symm hq
  | @unterminated body hbody hnothing =>
      have hnothing' : StartsNothing ('"' :: body ++ []) := by rwa [List.append_nil]
      rw [← hsame] at hnothing'
      rcases hcut.cases_of_startsNothing hnothing' with ⟨e, hq, hpiece⟩ | ⟨body', hpiece, hrest⟩
      · rw [hpiece] at hsame
        exact absurd (List.cons.inj hsame).1 hq
      · rw [hpiece, hrest, List.append_nil, List.append_nil] at hsame
        obtain ⟨-, rfl⟩ := List.cons.inj hsame
        exact Prod.ext hpiece hrest

/-- **A text is covered in one way.** -/
theorem Covers.unique {ps qs : List Piece} {text : List Char} (h : Covers ps text)
    (h' : Covers qs text) : ps = qs := by
  induction h generalizing qs with
  | nil =>
      generalize htext : ([] : List Char) = text at h'
      cases h' with
      | nil => rfl
      | cons hq => exact absurd (List.append_eq_nil_iff.mp htext.symm).1 hq.text_ne_nil
  | @cons p ps rest hp hps ih =>
      generalize htext : p.text ++ rest = text at h'
      cases h' with
      | nil => exact absurd (List.append_eq_nil_iff.mp htext).1 hp.text_ne_nil
      | @cons q qs rest' hq hqs =>
          obtain ⟨c, cs, hcs⟩ := List.exists_cons_of_ne_nil hq.text_ne_nil
          rw [hcs, List.cons_append] at htext
          have hsame := (hp.first_eq htext).symm.trans
            (hq.first_eq (by rw [hcs, List.cons_append]))
          obtain ⟨rfl, rfl⟩ := Prod.mk.inj hsame
          rw [ih hqs]

/-! ## Cutting a text up -/

/-- The pieces of a text. -/
def cut : List Char → List Piece
  | [] => []
  | c :: cs => (first c cs).1 :: cut (first c cs).2
termination_by cs => cs.length
decreasing_by exact Nat.lt_succ_of_le (rest_length_le c cs)

theorem covers_cut (text : List Char) : Covers (cut text) text := by
  induction text using text_induction with
  | nil =>
      rw [cut]
      exact .nil
  | cons c cs ih =>
      have hcovers := Covers.cons (isFirst_first c cs) ih
      rwa [text_append_rest, ← cut] at hcovers

/-- The items of a text are those of its pieces. -/
theorem Covers.items_eq {pieces : List Piece} {text : List Char} (h : Covers pieces text) :
    Token.Stream.items ⟨1, some text⟩ =
      itemsOf pieces ++ [.ok (.endOn (1 + text.count '\n'))] := by
  obtain ⟨pieces', hcovers, hitems⟩ := Token.Stream.exists_covers text
  obtain rfl := h.unique hcovers
  exact hitems []

end Piece

end Lox
