import Mathlib.Logic.Relation
import Lox.Proofs.Scan.Longest
import Lox.Token.Stream

set_option autoImplicit false

/-! # What a stream yields

Reading on skips blanks and comments and cuts off one piece (`Token.Stream.read_cases`). Whatever
has been yielded before, the stream then has the rest of the source in front of it, on the line
that the text before it ends on (`Token.Stream.Reaches.isAt`). So an item tells what the lexical
grammar says of the source where the item starts (`Token.Stream.yields_longest`).
-/

namespace Lox

open Lexeme (IsBlank IsComment)

namespace Piece

/-- A property of a text follows from the same property of the rest behind its first piece. -/
@[elab_as_elim]
theorem text_induction {motive : List Char → Prop} (nil : motive [])
    (cons : ∀ c cs, motive (first c cs).2 → motive (c :: cs)) (text : List Char) :
    motive text := by
  induction hn : text.length using Nat.strongRecOn generalizing text with
  | ind n ih =>
    cases text with
    | nil => exact nil
    | cons c cs =>
        have hle := rest_length_le c cs
        rw [List.length_cons] at hn
        exact cons c cs (ih _ (by omega) _ rfl)

/-- `Skipped gap rest`: the text `gap` in front of `rest` is blanks and comments, and every comment
goes on to the end of its line. -/
inductive Skipped : List Char → List Char → Prop
  | nothing {rest : List Char} : Skipped [] rest
  | blank {text gap rest : List Char} (h : IsBlank text) (hs : Skipped gap rest) :
      Skipped (text ++ gap) rest
  | comment {text gap rest : List Char} (h : IsComment text)
      (hend : ∀ c ∈ (gap ++ rest).head?, c = '\n') (hs : Skipped gap rest) :
      Skipped (text ++ gap) rest

/-- A piece that yields no item can be skipped. -/
theorem IsFirst.skip {p : Piece} {cs gap rest : List Char} {line : Nat} (h : IsFirst p cs)
    (hnone : p.item? line = none) (hcs : cs = gap ++ rest) (hs : Skipped gap rest) :
    Skipped (p.text ++ gap) rest := by
  cases h with
  | blank hblank => exact .blank hblank hs
  | comment hcomment hend =>
      rw [hcs] at hend
      exact .comment hcomment hend hs
  | token | stray | unterminated => cases hnone

end Piece

/-! ## Tokens and errors -/

namespace Token

/-- A token is the front of a text as the lexical grammar has it: the lexeme is of this kind only,
nothing longer is a lexeme or a comment, and the literal is what the lexeme denotes. -/
structure IsFront (token : Token) (text : List Char) : Prop where
  front : token.lexeme.toList <+: text
  lexeme : ∀ k, Lexeme k token.lexeme.toList ↔ k = token.kind
  longest : ∀ longer, longer <+: text → token.lexeme.toList.length < longer.length →
    (∀ k, ¬Lexeme k longer) ∧ ¬IsComment longer
  keyword : ∀ word k, (word, k) ∈ Kind.keywords → (token.kind = k ↔ token.lexeme = word)
  number : token.kind = .number →
    token.literal = some (.number (Numeral.read token.lexeme.toList))
  string : token.kind = .string → ∃ body, token.lexeme = "\"" ++ body ++ "\"" ∧
    '"' ∉ body.toList ∧ token.literal = some (.string body)
  other : token.kind ≠ .number → token.kind ≠ .string → token.literal = none

/-- The kinds of the reserved words have no lexemes but these words. -/
theorem eq_of_lexeme {word : String} {k : Kind} {cs : List Char} (h : (word, k) ∈ Kind.keywords)
    (hl : Lexeme k cs) : cs = word.toList := by
  have hsymbol : ∀ entry ∈ Lexeme.symbols, entry.2 ≠ k := by
    have hcheck : ∀ keyword ∈ Kind.keywords, ∀ entry ∈ Lexeme.symbols, entry.2 ≠ keyword.2 := by
      decide
    exact hcheck _ h
  have hother : k ≠ .string ∧ k ≠ .number ∧ k ≠ .identifier := by
    have hcheck : ∀ keyword ∈ Kind.keywords,
        keyword.2 ≠ .string ∧ keyword.2 ≠ .number ∧ keyword.2 ≠ .identifier := by decide
    exact hcheck _ h
  have hsame : ∀ entry ∈ Kind.keywords, entry.2 = k → entry.1 = word := by
    have hcheck : ∀ keyword ∈ Kind.keywords, ∀ entry ∈ Kind.keywords,
        entry.2 = keyword.2 → entry.1 = keyword.1 := by decide
    exact hcheck _ h
  cases hl with
  | symbol hmem => exact absurd rfl (hsymbol _ hmem)
  | keyword hmem => rw [← hsame _ hmem rfl]
  | string => exact absurd rfl hother.1
  | whole | fraction => exact absurd rfl hother.2.1
  | identifier => exact absurd rfl hother.2.2

/-- The token that is made of the longest lexeme at the front of a text. -/
theorem isFront_of_isLongest {kind : Kind} {text rest : List Char} {line : Nat}
    (hk : ∀ k, Lexeme k text ↔ k = kind) (hl : Piece.IsLongest text rest) :
    IsFront ⟨kind, .ofList text, Piece.literal? kind text, line⟩ (text ++ rest) where
  front := by
    rw [String.toList_ofList]
    exact List.prefix_append text rest
  lexeme := by
    rw [String.toList_ofList]
    exact hk
  longest longer hlonger hlt := by
    rw [String.toList_ofList] at hlt
    constructor
    · intro k h
      have hle := hl.lexeme k longer h hlonger
      omega
    · intro h
      have hle := hl.comment longer h hlonger
      omega
  keyword word k hmem := by
    constructor
    · rintro rfl
      have htext := eq_of_lexeme hmem ((hk _).mpr rfl)
      show String.ofList text = word
      rw [htext, String.ofList_toList]
    · intro hword
      have hlexeme : Lexeme k text := by
        rw [← String.toList_ofList (l := text)]
        show Lexeme k (String.ofList text).toList
        have hword : String.ofList text = word := hword
        rw [hword]
        exact .keyword hmem
      exact ((hk k).mp hlexeme).symm
  number hkind := by
    obtain rfl : kind = .number := hkind
    rw [String.toList_ofList]
    rfl
  string hkind := by
    obtain rfl : kind = .string := hkind
    have hlexeme : Lexeme .string text := (hk _).mpr rfl
    cases hlexeme with
    | symbol hmem => exact absurd rfl ((by decide : ∀ e ∈ Lexeme.symbols, e.2 ≠ .string) _ hmem)
    | keyword hmem => exact absurd rfl ((by decide : ∀ e ∈ Kind.keywords, e.2 ≠ .string) _ hmem)
    | @string body hbody =>
        refine ⟨.ofList body, ?_, by rwa [String.toList_ofList], ?_⟩
        · apply String.toList_injective
          simp
        · simp [Piece.literal?]
  other hnumber hstring := by
    cases kind <;> first | rfl | exact absurd rfl hnumber | exact absurd rfl hstring

end Token

namespace Piece

/-- A text that starts with a quote and has no other. -/
def IsOpenString (text : List Char) : Prop := ∃ body, text = '"' :: body ∧ '"' ∉ body

/-- What the lexical grammar says of an item that starts in front of the text `text`. -/
def IsItem (text : List Char) : Item → Prop
  | .ok token => if token.kind = .eof then text = [] else token.IsFront text
  | .error e => StartsNothing text ∧
      (e.message = "Unterminated string." ↔ IsOpenString text) ∧
      (e.message = "Unexpected character." ↔ ¬IsOpenString text)

/-- A piece that yields an item yields it as the grammar has it. -/
theorem IsFirst.isItem {p : Piece} {rest : List Char} {line : Nat} {item : Item}
    (h : IsFirst p rest) (hitem : p.item? line = some item) : IsItem (p.text ++ rest) item := by
  cases h with
  | blank | comment => cases hitem
  | @token kind text rest hk hl =>
      cases hitem
      have hkind : kind ≠ .eof := ((hk kind).mpr rfl).ne_eof
      rw [IsItem, if_neg hkind]
      exact Token.isFront_of_isLongest hk hl
  | @stray c rest hq h =>
      cases hitem
      have hopen : ¬IsOpenString (c :: rest) := by
        rintro ⟨body, heq, -⟩
        exact hq (List.cons.inj heq).1
      exact ⟨h, by simpa [LexError.message, LexError.Cause.message] using hopen,
        by simpa [LexError.message, LexError.Cause.message] using hopen⟩
  | @unterminated body hb h =>
      cases hitem
      have hopen : IsOpenString ('"' :: body ++ []) := ⟨body, by simp, hb⟩
      refine ⟨by simpa using h, ?_, ?_⟩
      · simpa [LexError.message, LexError.Cause.message] using hopen
      · simpa [LexError.message, LexError.Cause.message] using hopen

end Piece

/-- The line that an item lies on. -/
def Item.line : Item → Nat
  | .ok t => t.line
  | .error e => e.line

theorem Piece.line_of_item? {p : Piece} {line : Nat} {item : Item} (h : p.item? line = some item) :
    item.line = line := by
  unfold Piece.item? at h
  split at h <;> cases h <;> rfl

/-! ## Reading on -/

namespace Token.Stream

open Piece (Skipped IsItem)

/-- The last piece of what is read from a text, behind the gap `gap` that yields no item: nothing,
at the end of the source, or the first piece of the rest. -/
inductive ReadsPiece (line : Nat) (gap : List Char) : List Char → Item × Stream → Prop
  | ending : ReadsPiece line gap []
      (.ok (.endOn (line + gap.count '\n')), ⟨line + gap.count '\n', none⟩)
  | piece {c : Char} {cs : List Char} {item : Item} {line' : Nat}
      (hline : line' = line + (gap ++ (Piece.first c cs).1.text).count '\n')
      (hitem : (Piece.first c cs).1.item? line' = some item) :
      ReadsPiece line gap (c :: cs) (item, ⟨line', some (Piece.first c cs).2⟩)

/-- What is read from a text: a gap, and one piece behind it. -/
theorem read_cases (line : Nat) (cs : List Char) :
    ∃ gap rest, cs = gap ++ rest ∧ Skipped gap rest ∧
      ReadsPiece line gap rest (read line cs) := by
  induction cs using Piece.text_induction generalizing line with
  | nil =>
      rw [read]
      exact ⟨[], [], rfl, .nothing, .ending⟩
  | cons c cs ih =>
      rw [read]
      split
      · next item hitem => exact ⟨[], c :: cs, rfl, .nothing, .piece rfl hitem⟩
      · next hnone =>
        obtain ⟨gap, rest, hrest, hgap, hread⟩ := ih (line + (Piece.first c cs).1.lineBreaks)
        refine ⟨(Piece.first c cs).1.text ++ gap, rest, ?_,
          (Piece.isFirst_first c cs).skip hnone hrest hgap, ?_⟩
        · rw [List.append_assoc, ← hrest, Piece.text_append_rest]
        · -- the line breaks of the piece count as some in front of the later gap
          have hcount : line + (Piece.first c cs).1.lineBreaks + gap.count '\n' =
              line + ((Piece.first c cs).1.text ++ gap).count '\n' := by
            rw [List.count_append, Piece.lineBreaks, Nat.add_assoc]
          generalize read (line + (Piece.first c cs).1.lineBreaks) (Piece.first c cs).2 = out
            at hread
          cases hread with
          | ending =>
              rw [hcount]
              exact .ending
          | piece hline hitem =>
              refine .piece ?_ hitem
              rw [hline, List.append_assoc, List.count_append, List.count_append,
                List.count_append, Piece.lineBreaks]
              omega

/-! ## The run of a stream -/

/-- One item is yielded between the two streams. -/
def Step (s t : Stream) : Prop := ∃ item, s.next? = some (item, t)

/-- The streams that come about while the source is read. -/
def Reaches (source : String) : Stream → Prop := Relation.ReflTransGen Step (ofString source)

/-- What a stream has in front of it is the rest of the source, and it is on the line on which
the text before it ends. -/
structure IsAt (source : String) (s : Stream) (before : List Char) : Prop where
  left : source.toList = before ++ s.left.getD []
  line : s.line = 1 + before.count '\n'

/-- Yielding an item moves the stream behind the gap and the piece. -/
theorem IsAt.step {source : String} {s t : Stream} {before : List Char}
    (h : IsAt source s before) (hstep : Step s t) : ∃ before', IsAt source t before' := by
  obtain ⟨item, hnext⟩ := hstep
  obtain ⟨cs, hcs, hread⟩ := Option.map_eq_some_iff.mp hnext
  obtain ⟨gap, rest, rfl, -, hpiece⟩ := read_cases s.line cs
  have hleft : source.toList = before ++ (gap ++ rest) := by simpa [hcs] using h.left
  rw [hread] at hpiece
  cases hpiece with
  | ending =>
      refine ⟨before ++ gap, by simpa using hleft, ?_⟩
      show s.line + gap.count '\n' = _
      rw [h.line, List.count_append, Nat.add_assoc]
  | @piece c cs item line' hline hitem =>
      refine ⟨before ++ (gap ++ (Piece.first c cs).1.text), ?_, ?_⟩
      · rw [hleft, Option.getD_some, ← Piece.text_append_rest c cs]
        simp only [List.append_assoc]
      · show line' = 1 + (before ++ (gap ++ (Piece.first c cs).1.text)).count '\n'
        have hcount : ∀ text : List Char, (before ++ text).count '\n' =
            before.count '\n' + text.count '\n' := fun text => List.count_append
        rw [hline, h.line, hcount, Nat.add_assoc]

/-- Wherever a stream is in a source, it has the rest of the source in front of it. -/
theorem Reaches.isAt {source : String} {s : Stream} (h : Reaches source s) :
    ∃ before, IsAt source s before := by
  -- along the items that have been yielded
  induction h with
  | refl => exact ⟨[], rfl, rfl⟩
  | tail _ hstep ih =>
      obtain ⟨before, hbefore⟩ := ih
      exact hbefore.step hstep

theorem items_of_next? {s t : Stream} {item : Item} (h : s.next? = some (item, t)) :
    s.items = item :: t.items := by
  rw [items]
  split
  · next hnone => cases h.symm.trans hnone
  · next item' t' hsome =>
    cases h.symm.trans hsome
    rfl

theorem items_of_next?_eq_none {s : Stream} (h : s.next? = none) : s.items = [] := by
  rw [items]
  split
  · rfl
  · next hsome => cases h.symm.trans hsome

/-- The items of a source are what the streams on the way through it yield. -/
theorem mem_items_iff {source : String} {item : Item} :
    item ∈ (ofString source).items ↔ ∃ s t, Reaches source s ∧ s.next? = some (item, t) := by
  constructor
  · have hrun : ∀ n (s : Stream), s.size = n → Reaches source s → item ∈ s.items →
        ∃ s t, Reaches source s ∧ s.next? = some (item, t) := by
      intro n
      induction n using Nat.strongRecOn with
      | ind n ih =>
        intro s hsize hs hmem
        cases hnext : s.next? with
        | none =>
            rw [items_of_next?_eq_none hnext] at hmem
            cases hmem
        | some out =>
            obtain ⟨item', t⟩ := out
            rw [items_of_next? hnext] at hmem
            rcases List.mem_cons.mp hmem with rfl | hmem
            · exact ⟨s, t, hs, hnext⟩
            · have hlt := size_lt_of_next? hnext
              exact ih t.size (by omega) t rfl (hs.tail ⟨item', hnext⟩) hmem
    exact hrun _ _ rfl .refl
  · rintro ⟨s, t, hs, hnext⟩
    have hsub : s.items ⊆ (ofString source).items := by
      clear hnext
      induction hs with
      | refl => exact List.Subset.refl _
      | tail _ hstep ih =>
          obtain ⟨item', hnext⟩ := hstep
          rw [items_of_next? hnext] at ih
          exact fun x hx => ih (List.mem_cons_of_mem item' hx)
    apply hsub
    rw [items_of_next? hnext]
    exact List.mem_cons_self

/-- An item lies on the line that the stream is on behind it. -/
theorem line_of_next? {s t : Stream} {item : Item} (h : s.next? = some (item, t)) :
    item.line = t.line := by
  obtain ⟨cs, -, hread⟩ := Option.map_eq_some_iff.mp h
  obtain ⟨gap, rest, -, -, hpiece⟩ := read_cases s.line cs
  rw [hread] at hpiece
  cases hpiece with
  | ending => rfl
  | piece _ hitem => exact Piece.line_of_item? hitem

/-- No item lies further down than the source has lines. -/
theorem line_le_of_mem_items {source : String} {item : Item}
    (h : item ∈ (ofString source).items) : item.line ≤ 1 + source.toList.count '\n' := by
  obtain ⟨s, t, hs, hnext⟩ := mem_items_iff.mp h
  obtain ⟨before, hbefore⟩ := Reaches.isAt (hs.tail ⟨item, hnext⟩)
  rw [line_of_next? hnext, hbefore.line, hbefore.left, List.count_append]
  omega

/-- **Longest match over a whole source.** Wherever an item is yielded, only blanks and comments
are skipped in front of it. A token is then the longest lexeme at the front of the rest of the
source, of the kind and with the literal that belong to the lexeme, and reading goes on right
behind it; an error means that no front of the rest is a lexeme, a blank or a comment. -/
theorem yields_longest {source : String} {s t : Stream} {item : Item} (hs : Reaches source s)
    (h : s.next? = some (item, t)) :
    ∃ before gap rest, source.toList = before ++ (gap ++ rest) ∧ s.left = some (gap ++ rest) ∧
      Skipped gap rest ∧ IsItem rest item ∧
      (∀ token, item = .ok token → token.kind ≠ .eof →
        ∃ after, rest = token.lexeme.toList ++ after ∧ t.left = some after) := by
  obtain ⟨before, hbefore⟩ := hs.isAt
  obtain ⟨cs, hcs, hread⟩ := Option.map_eq_some_iff.mp h
  obtain ⟨gap, rest, rfl, hgap, hpiece⟩ := read_cases s.line cs
  have hleft : source.toList = before ++ (gap ++ rest) := by simpa [hcs] using hbefore.left
  refine ⟨before, gap, rest, hleft, hcs, hgap, ?_⟩
  rw [hread] at hpiece
  cases hpiece with
  | ending =>
      refine ⟨by simp [IsItem, endOn], ?_⟩
      rintro token heq hkind
      cases heq
      exact absurd rfl hkind
  | @piece c cs item line' hline hitem =>
      have hisItem := (Piece.isFirst_first c cs).isItem hitem
      rw [Piece.text_append_rest] at hisItem
      refine ⟨hisItem, ?_⟩
      rintro token rfl -
      refine ⟨(Piece.first c cs).2, ?_, rfl⟩
      have hlexeme : token.lexeme.toList = (Piece.first c cs).1.text := by
        unfold Piece.item? at hitem
        split at hitem <;> cases hitem
        exact String.toList_ofList
      rw [hlexeme, Piece.text_append_rest]

/-- Behind a blank, a comment and a line break, `<=` is one token. -/
theorem yields_lessEqual :
    ∃ t, (ofString " // a\n<=1").next? = some (.ok ⟨.lessEqual, "<=", none, 2⟩, t) ∧
      ∃ before gap rest, " // a\n<=1".toList = before ++ (gap ++ rest) ∧
        IsItem rest (.ok ⟨.lessEqual, "<=", none, 2⟩) := by
  have hnext : (ofString " // a\n<=1").next? =
      some (.ok ⟨.lessEqual, "<=", none, 2⟩, ⟨2, some ['1']⟩) := by
    have htext : " // a\n<=1".toList = [' ', '/', '/', ' ', 'a', '\n', '<', '=', '1'] := by decide
    have hblank : read 1 [' ', '/', '/', ' ', 'a', '\n', '<', '=', '1'] =
        read 1 ['/', '/', ' ', 'a', '\n', '<', '=', '1'] := by rw [read]; rfl
    have hcomment : read 1 ['/', '/', ' ', 'a', '\n', '<', '=', '1'] =
        read 1 ['\n', '<', '=', '1'] := by rw [read]; rfl
    have hbreak : read 1 ['\n', '<', '=', '1'] = read 2 ['<', '=', '1'] := by rw [read]; rfl
    rw [next?, ofString, Option.map_some, htext, hblank, hcomment, hbreak, read]
    rfl
  obtain ⟨before, gap, rest, hleft, -, -, hitem, -⟩ := yields_longest .refl hnext
  exact ⟨_, hnext, before, gap, rest, hleft, hitem⟩

end Token.Stream

end Lox
