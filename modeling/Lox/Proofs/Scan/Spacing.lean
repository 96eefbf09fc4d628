import Mathlib.Tactic
import Lox.Proofs.Scan.Unique

set_option autoImplicit false

/-! # What stands between tokens

Blanks and comments only keep tokens apart. A gap that starts with a line break separates two
sources whatever they are (`Scan.ofString_gap`), single spaces are enough to separate the tokens of
a source (`Scan.ofString_written`), and a character that starts nothing separates as a blank does
(`Scan.ofString_mended`).
-/

namespace Lox

open Lexeme (IsBlank IsComment)

/-! ## Gaps -/

/-- The texts of gaps: blanks, and comments that a line break follows. -/
inductive IsGap : List Char → Prop
  | nil : IsGap []
  | blank {text gap : List Char} (h : IsBlank text) (hs : IsGap gap) : IsGap (text ++ gap)
  | comment {text gap : List Char} (h : IsComment text) (hs : IsGap ('\n' :: gap)) :
      IsGap (text ++ '\n' :: gap)

namespace Token.Stream

open Piece (IsFirst)

/-- The items of a text, by the first piece that it has. -/
theorem items_of_isFirst {p : Piece} {rest : List Char} (h : IsFirst p rest) (line : Nat) :
    items ⟨line, some (p.text ++ rest)⟩ =
      (p.item? (line + p.lineBreaks)).toList ++ items ⟨line + p.lineBreaks, some rest⟩ := by
  obtain ⟨c, cs, hcs⟩ := List.exists_cons_of_ne_nil h.text_ne_nil
  have htext : p.text ++ rest = c :: (cs ++ rest) := by rw [hcs, List.cons_append]
  rw [htext, items_cons, h.first_eq htext]

/-- What is skipped only takes the text behind it further down. -/
theorem items_of_skipped {p : Piece} {rest : List Char} (h : IsFirst p rest)
    (hskip : p.form = .blank ∨ p.form = .comment) (line : Nat) :
    items ⟨line, some (p.text ++ rest)⟩ = items ⟨line + p.text.count '\n', some rest⟩ := by
  rw [items_of_isFirst h, Piece.item?_eq_none_iff.mpr hskip]
  rfl

/-- A gap only takes the text behind it further down. -/
theorem items_gap {gap : List Char} (h : IsGap gap) (line : Nat) (cs : List Char) :
    items ⟨line, some (gap ++ cs)⟩ = items ⟨line + gap.count '\n', some cs⟩ := by
  induction h generalizing line with
  | nil => rfl
  | @blank text gap hblank _ ih =>
      have hfirst : IsFirst ⟨.blank, text⟩ (gap ++ cs) := .blank hblank
      calc items ⟨line, some (text ++ gap ++ cs)⟩
          = items ⟨line, some (text ++ (gap ++ cs))⟩ := by rw [List.append_assoc]
        _ = items ⟨line + text.count '\n', some (gap ++ cs)⟩ :=
            items_of_skipped hfirst (.inl rfl) line
        _ = items ⟨line + (text ++ gap).count '\n', some cs⟩ := by
            rw [ih, List.count_append, Nat.add_assoc]
  | @comment text gap hcomment _ ih =>
      have hfirst : IsFirst ⟨.comment, text⟩ ('\n' :: gap ++ cs) := .comment hcomment (by simp)
      calc items ⟨line, some (text ++ '\n' :: gap ++ cs)⟩
          = items ⟨line, some (text ++ ('\n' :: gap ++ cs))⟩ := by rw [List.append_assoc]
        _ = items ⟨line + text.count '\n', some ('\n' :: gap ++ cs)⟩ :=
            items_of_skipped hfirst (.inr rfl) line
        _ = items ⟨line + (text ++ '\n' :: gap).count '\n', some cs⟩ := by
            rw [ih, List.count_append, Nat.add_assoc]

end Token.Stream

namespace Scan

open Token.Stream (items items_later items_gap)

/-- **Sources join at a line break.** If no string is left open at the end of a source, then
whatever source follows behind a gap that starts with a line break, the tokens and the errors of
both together are those of the first one, but for its end, and then those of the second one, further
down by the line breaks in front of it. -/
theorem ofString_gap {source gap next : String} (hgap : IsGap gap.toList)
    (hbreak : gap.toList.head? = some '\n')
    (hclosed : ∀ e ∈ (ofString source).errors, e.message ≠ "Unterminated string.") :
    ∃ ts, (∀ t ∈ ts, t.kind ≠ .eof) ∧
      (ofString source).tokens = ts ++ [.endOn (1 + source.toList.count '\n')] ∧
      (ofString (source ++ gap ++ next)).tokens =
        ts ++ (ofString next).tokens.map (Token.later ((source ++ gap).toList.count '\n')) ∧
      (ofString (source ++ gap ++ next)).errors = (ofString source).errors ++
        (ofString next).errors.map (LexError.later ((source ++ gap).toList.count '\n')) := by
  have hcauses : ∀ e ∈ (ofString source).errors, e.cause ≠ .unterminatedString := by
    intro e he hcause
    exact hclosed e he (by rw [LexError.message, hcause]; rfl)
  obtain ⟨init, hend, htokens, herrors, hjoin⟩ := exists_front hcauses
  obtain ⟨gap', hgap'⟩ := List.head?_eq_some_iff.mp hbreak
  have htext : (source ++ gap ++ next).toList =
      source.toList ++ '\n' :: (gap' ++ next.toList) := by
    rw [String.toList_append, String.toList_append, hgap', List.append_assoc, List.cons_append]
  -- the line break that ends the first source is read again, as the front of the gap
  have hline : items ⟨1 + source.toList.count '\n' + 1, some (gap' ++ next.toList)⟩ =
      items ⟨1 + source.toList.count '\n', some (gap.toList ++ next.toList)⟩ := by
    rw [hgap', List.cons_append, Token.Stream.items_cons]
    rfl
  have hboth : ofString (source ++ gap ++ next) = ofItems (init ++
      (items ⟨1, some next.toList⟩).map (Item.later ((source ++ gap).toList.count '\n'))) := by
    rw [ofString, Token.Stream.ofString, htext, hjoin, hline, items_gap hgap, ← items_later,
      String.toList_append, List.count_append, Nat.add_assoc]
  rw [ofItems_append, ofItems_later] at hboth
  refine ⟨(ofItems init).tokens, hend, htokens, ?_, ?_⟩
  · rw [hboth]
    rfl
  · rw [hboth, herrors]
    rfl

/-- A slash at the end of a source and one at the start of the next are two tokens, with a line
break and a comment between them. -/
theorem ofString_gap_slashes :
    IsGap "\n// a\n".toList ∧
      (ofString ("@/" ++ "\n// a\n" ++ "/")).tokens =
        [⟨.slash, "/", none, 1⟩, ⟨.slash, "/", none, 3⟩, .endOn 3] ∧
      (ofString ("@/" ++ "\n// a\n" ++ "/")).errors = [⟨1, .unexpectedCharacter⟩] := by
  have hgap : IsGap "\n// a\n".toList := by
    have hbreak : IsBlank ['\n'] := by simp [IsBlank]
    have hcomment : IsComment ['/', '/', ' ', 'a'] := .mk (by simp)
    exact .blank hbreak (.comment hcomment (.blank hbreak .nil))
  obtain ⟨ts, -, htokens, hboth, herrors⟩ :=
    @ofString_gap "@/" "\n// a\n" "/" hgap (by decide) (by decide +kernel)
  have hfirst : (ofString "@/").tokens = [⟨.slash, "/", none, 1⟩] ++ [.endOn 1] := by
    decide +kernel
  obtain rfl := (List.append_inj' (htokens.symm.trans hfirst) rfl).1
  refine ⟨hgap, ?_, ?_⟩
  · exact hboth.trans (by decide +kernel)
  · exact herrors.trans (by decide +kernel)

end Scan

/-! ## Tokens written out -/

/-- What a token is, wherever it stands. -/
def Token.content (t : Token) : Token.Kind × String × Option Token.Literal :=
  (t.kind, t.lexeme, t.literal)

namespace Piece

/-- What the token is that a piece yields, if it yields one. -/
def content? (p : Piece) : Option (Token.Kind × String × Option Token.Literal) :=
  match p.form with
  | .token kind => some (kind, .ofList p.text, literal? kind p.text)
  | _ => none

theorem content?_of_token {p : Piece} {kind : Token.Kind} (h : p.form = .token kind) :
    content? p = some (kind, .ofList p.text, literal? kind p.text) := by
  rw [content?, h]

theorem content?_of_ne {p : Piece} (h : ∀ kind, p.form ≠ .token kind) : content? p = none := by
  rw [content?]
  split
  · next kind hkind => exact absurd hkind (h kind)
  · rfl

/-- The pieces that are tokens, with a space behind each of them. -/
def spaced : List Piece → List Piece
  | [] => []
  | p :: ps =>
    match p.form with
    | .token _ => p :: ⟨.blank, [' ']⟩ :: spaced ps
    | _ => spaced ps

theorem spaced_token {p : Piece} {kind : Token.Kind} (h : p.form = .token kind) (ps : List Piece) :
    spaced (p :: ps) = p :: ⟨.blank, [' ']⟩ :: spaced ps := by
  rw [spaced, h]

theorem spaced_of_ne {p : Piece} (h : ∀ kind, p.form ≠ .token kind) (ps : List Piece) :
    spaced (p :: ps) = spaced ps := by
  rw [spaced]
  split
  · next kind hkind => exact absurd hkind (h kind)
  · rfl

/-- Spaces keep the tokens what they are. -/
theorem covers_spaced {ps : List Piece} {text : List Char} (h : Covers ps text) :
    Covers (spaced ps) ((spaced ps).flatMap Piece.text) := by
  induction h with
  | nil => exact .nil
  | @cons p ps rest hp _ ih =>
      cases hp with
      | @token kind text rest hk =>
          rw [spaced_token rfl, List.flatMap_cons, List.flatMap_cons]
          have hblank : isBlank ' ' := by decide
          refine .cons (.token hk ?_) (.cons (.blank (isBlank_iff.mpr ⟨hblank, rfl⟩)) ih)
          exact isLongest_of_isBlank ((hk kind).mpr rfl) hblank _
      | blank | comment | stray | unterminated =>
          rw [spaced_of_ne (by simp)]
          exact ih

theorem content_spaced (ps : List Piece) :
    (spaced ps).filterMap content? = ps.filterMap content? := by
  induction ps using spaced.induct with
  | case1 => rfl
  | case2 p ps kind hp ih =>
      rw [spaced_token hp, List.filterMap_cons, List.filterMap_cons, List.filterMap_cons, ih]
      rfl
  | case3 p ps hp ih => rw [spaced_of_ne hp, List.filterMap_cons, content?_of_ne hp, ih]

theorem text_spaced (ps : List Piece) : (spaced ps).flatMap Piece.text =
    ((ps.filterMap content?).map (·.2.1)).flatMap fun lexeme => lexeme.toList ++ [' '] := by
  induction ps using spaced.induct with
  | case1 => rfl
  | case2 p ps kind hp ih =>
      rw [spaced_token hp, List.filterMap_cons, content?_of_token hp, List.flatMap_cons,
        List.flatMap_cons, ih, ← List.append_assoc]
      simp only [List.map_cons, List.flatMap_cons, String.toList_ofList]
  | case3 p ps hp ih => rw [spaced_of_ne hp, List.filterMap_cons, content?_of_ne hp, ih]

/-- The tokens of pieces are what the pieces are, wherever the pieces stand. -/
theorem map_content_ends (front : List Char) (ps : List Piece) :
    (((ends front ps).filterMap yield?).filterMap Except.toOption).map Token.content =
      ps.filterMap content? := by
  induction ps generalizing front with
  | nil => rfl
  | cons p ps ih =>
      rw [ends, List.filterMap_cons, List.filterMap_cons, yield?, item?, content?]
      cases p.form with
      | token kind => exact congrArg _ (ih _)
      | blank | comment | stray | unterminated => exact ih _

theorem error_spaced (front : List Char) (ps : List Piece) :
    ((ends front (spaced ps)).filterMap yield?).filterMap Scan.error? = [] := by
  induction ps using spaced.induct generalizing front with
  | case1 => rfl
  | case2 p ps kind hp ih =>
      rw [spaced_token hp, ends, ends, List.filterMap_cons, List.filterMap_cons, yield?, yield?,
        item?, item?, hp]
      exact ih _
  | case3 p ps hp ih =>
      rw [spaced_of_ne hp]
      exact ih front

end Piece

namespace Scan

open Piece (cut covers_cut spaced itemsOf)

/-- The lexemes of the tokens, with single spaces between them. -/
def written (scan : Scan) : String := " ".intercalate (scan.tokens.map Token.lexeme)

/-- The tokens and the errors of a source, by its pieces. -/
theorem ofString_of_covers {source : String} {pieces : List Piece}
    (h : Piece.Covers pieces source.toList) :
    (ofString source).tokens = (itemsOf pieces).filterMap Except.toOption ++
      [.endOn (1 + source.toList.count '\n')] ∧
    (ofString source).errors = (itemsOf pieces).filterMap error? := by
  have hitems : ofString source =
      ofItems (itemsOf pieces ++ [.ok (.endOn (1 + source.toList.count '\n'))]) :=
    congrArg ofItems h.items_eq
  rw [hitems, ofItems_append]
  exact ⟨rfl, List.append_nil _⟩

/-- Behind the last token, the empty lexeme of the end leaves a space. -/
theorem toList_intercalate_concat (lexemes : List String) :
    (" ".intercalate (lexemes ++ [""])).toList = lexemes.flatMap fun l => l.toList ++ [' '] := by
  induction lexemes with
  | nil => rfl
  | cons l ls ih =>
      rw [List.cons_append, String.intercalate_cons_of_ne_nil (by simp), String.toList_append,
        String.toList_append, ih, List.flatMap_cons]
      rfl

theorem toList_written (source : String) : (ofString source).written.toList =
    (spaced (cut source.toList)).flatMap Piece.text := by
  have hlexemes : ((itemsOf (cut source.toList)).filterMap Except.toOption).map Token.lexeme =
      ((cut source.toList).filterMap Piece.content?).map (·.2.1) := by
    rw [← Piece.map_content_ends [], List.map_map]
    rfl
  rw [written, (ofString_of_covers (covers_cut _)).1, List.map_append, hlexemes, Piece.text_spaced]
  exact toList_intercalate_concat _

/-- **Tokens can be written out.** The lexemes of any source, with single spaces between them, are
a source without faults that has the same tokens, but for the lines that they are on. -/
theorem ofString_written (source : String) :
    (ofString (ofString source).written).errors = [] ∧
      (ofString (ofString source).written).tokens.map Token.content =
        (ofString source).tokens.map Token.content := by
  have hcovers := Piece.covers_spaced (covers_cut source.toList)
  rw [← toList_written] at hcovers
  obtain ⟨htokens, herrors⟩ := ofString_of_covers hcovers
  constructor
  · rw [herrors]
    exact Piece.error_spaced [] _
  · rw [htokens, (ofString_of_covers (covers_cut source.toList)).1, List.map_append,
      List.map_append, itemsOf, itemsOf, Piece.map_content_ends, Piece.map_content_ends,
      Piece.content_spaced]
    rfl

end Scan

/-! ## Stray characters -/

/-- The error that a stray character yields. -/
def Item.isStray : Item → Bool
  | .ok _ => false
  | .error e => e.cause = .unexpectedCharacter

namespace Piece

/-- A space in the place of a stray character. -/
def mended (p : Piece) : Piece := if p.form = .stray then ⟨.blank, [' ']⟩ else p

/-- `Mends cs cs'`: the texts are the same but for some characters that are no blanks in the one
and spaces in the other. -/
def Mends : List Char → List Char → Prop :=
  List.Forall₂ fun c c' => c' = c ∨ isBlank c = false ∧ c' = ' '

theorem mends_self (cs : List Char) : Mends cs cs := List.forall₂_same.mpr fun _ _ => .inl rfl

/-- What has no blanks in the mended text is in the text as it was. -/
theorem Mends.prefix_of_not_isBlank {cs cs' more : List Char} (h : Mends cs cs')
    (hmore : more <+: cs') (hnot : ∀ c ∈ more, isBlank c = false) : more <+: cs := by
  induction h generalizing more with
  | nil => exact hmore
  | @cons c c' cs cs' hc _ ih =>
      cases more with
      | nil => exact List.nil_prefix
      | cons d more =>
          obtain ⟨rfl, hrest⟩ := List.cons_prefix_cons.mp hmore
          obtain ⟨hd, hds⟩ := List.forall_mem_cons.mp hnot
          rcases hc with rfl | ⟨-, rfl⟩
          · exact List.cons_prefix_cons.mpr ⟨rfl, ih hrest hds⟩
          · exact absurd hd (by decide)

theorem Mends.count_newline {cs cs' : List Char} (h : Mends cs cs') :
    cs'.count '\n' = cs.count '\n' := by
  induction h with
  | nil => rfl
  | cons hc _ ih =>
      rcases hc with rfl | ⟨hb, rfl⟩
      · rw [List.count_cons, List.count_cons, ih]
      · rw [List.count_cons_of_ne (by decide), List.count_cons_of_ne, ih]
        rintro rfl
        cases hb

/-- A line break ends a comment in the mended text where it did before. -/
theorem Mends.head?_newline {cs cs' : List Char} (h : Mends cs cs')
    (hend : ∀ c ∈ cs.head?, c = '\n') : ∀ c ∈ cs'.head?, c = '\n' := by
  cases h with
  | nil => simp
  | @cons c c' cs cs' hc =>
      obtain rfl : c = '\n' := hend c rfl
      rcases hc with rfl | ⟨hb, -⟩
      · simp
      · cases hb

/-- Only stray characters are unexpected. -/
theorem item?_eq_unexpected_iff {p : Piece} {line : Nat} :
    p.item? line = some (.error ⟨line, .unexpectedCharacter⟩) ↔ p.form = .stray := by
  unfold item?
  cases p.form <;> simp

/-- A stray character is no blank. -/
theorem StartsNothing.not_isBlank {c : Char} {cs : List Char} (h : StartsNothing (c :: cs)) :
    isBlank c = false := by
  by_contra hb
  exact h.blank [c] (List.prefix_append [c] cs) (isBlank_iff.mpr ⟨by simpa using hb, rfl⟩)

theorem mended_of_ne {p : Piece} (h : p.form ≠ .stray) : p.mended = p := if_neg h

theorem IsFirst.mends {p : Piece} {rest : List Char} (h : IsFirst p rest) :
    Mends p.text p.mended.text := by
  cases h with
  | stray _ hnothing => exact .cons (.inr ⟨hnothing.not_isBlank, rfl⟩) .nil
  | blank | comment | token | unterminated =>
      rw [mended_of_ne (by simp)]
      exact mends_self _

/-- The first piece stays the first one in front of a mended text. -/
theorem IsFirst.mended {p : Piece} {rest rest' : List Char} (h : IsFirst p rest)
    (hrest : Mends rest rest') : IsFirst p.mended rest' := by
  cases h with
  | stray => exact .blank (isBlank_iff.mpr ⟨by decide, rfl⟩)
  | blank hb => exact .blank hb
  | comment hc hend => exact .comment hc (hrest.head?_newline hend)
  | token hk hl =>
      exact .token hk (hl.of_prefixes ((hk _).mpr rfl) fun _ => hrest.prefix_of_not_isBlank)
  | unterminated hbody hnothing =>
      cases hrest
      exact .unterminated hbody hnothing

/-- The mended pieces cover the mended text. -/
theorem Covers.mended {ps : List Piece} {text : List Char} (h : Covers ps text) :
    Covers (ps.map Piece.mended) ((ps.map Piece.mended).flatMap Piece.text) ∧
      Mends text ((ps.map Piece.mended).flatMap Piece.text) := by
  induction h with
  | nil => exact ⟨.nil, .nil⟩
  | cons hp _ ih =>
      obtain ⟨hcovers, hmends⟩ := ih
      exact ⟨.cons (hp.mended hmends) hcovers, List.rel_append hp.mends hmends⟩

/-- Each of the pieces is the first one of some text. -/
theorem Covers.exists_isFirst {ps : List Piece} {text : List Char} {p : Piece} (h : Covers ps text)
    (hp : p ∈ ps) : ∃ rest, IsFirst p rest := by
  induction h with
  | nil => cases hp
  | cons hq _ ih =>
      rcases List.mem_cons.mp hp with rfl | hp
      · exact ⟨_, hq⟩
      · exact ih hp

theorem item?_mended (p : Piece) (line : Nat) :
    p.mended.item? line = (p.item? line).filter (!·.isStray) := by
  obtain ⟨form, text⟩ := p
  cases form <;> rfl

/-- The mended pieces yield what the pieces yield, but for the errors of stray characters. -/
theorem Covers.yield_mended {ps : List Piece} {text front front' : List Char} (h : Covers ps text)
    (hcount : front'.count '\n' = front.count '\n') :
    (ends front' (ps.map Piece.mended)).filterMap yield? =
      ((ends front ps).filterMap yield?).filter (!·.isStray) := by
  induction h generalizing front front' with
  | nil => rfl
  | @cons p ps rest hp _ ih =>
      have hnext : (front' ++ p.mended.text).count '\n' = (front ++ p.text).count '\n' := by
        rw [List.count_append, List.count_append, hcount, hp.mends.count_newline]
      rw [List.filter_filterMap, List.map_cons, ends, ends, List.filterMap_cons,
        List.filterMap_cons, ih hnext, List.filter_filterMap, yield?, yield?, item?_mended, hnext]

end Piece

namespace Scan

open Piece (cut covers_cut itemsOf)

/-- The source with a space for each stray character. -/
def mended (source : String) : String :=
  .ofList ((cut source.toList).flatMap fun p => p.mended.text)

/-- Stray characters are no tokens. -/
theorem tokens_filter_isStray (is : List Item) :
    (is.filter (!·.isStray)).filterMap Except.toOption = is.filterMap Except.toOption := by
  rw [List.filterMap_filter]
  refine List.filterMap_congr fun item _ => ?_
  cases item with
  | ok t => rfl
  | error e => exact ite_self none

/-- Stray characters are what the message says that they are. -/
theorem errors_filter_isStray (is : List Item) : (is.filter (!·.isStray)).filterMap error? =
    (is.filterMap error?).filter (·.message ≠ "Unexpected character.") := by
  rw [List.filterMap_filter, List.filter_filterMap]
  refine List.filterMap_congr fun item _ => ?_
  cases item with
  | ok t => rfl
  | error e =>
      obtain ⟨line, cause⟩ := e
      cases cause <;> rfl

/-- **A stray character acts as a blank.** A source is its pieces, which tell what it yields, and
those that yield the error of an unexpected character are single characters. With a space for each
of them, and nothing else changed, the source has the same tokens, and the other errors only. -/
theorem ofString_mended (source : String) :
    source.toList = (cut source.toList).flatMap Piece.text ∧
      (Token.Stream.ofString source).items =
        itemsOf (cut source.toList) ++ [.ok (.endOn (1 + source.toList.count '\n'))] ∧
      (∀ p ∈ cut source.toList, ∀ line,
        (p.item? line = some (.error ⟨line, .unexpectedCharacter⟩) →
          (∃ c, p.text = [c]) ∧ p.mended.text = [' ']) ∧
        (p.item? line ≠ some (.error ⟨line, .unexpectedCharacter⟩) → p.mended.text = p.text)) ∧
      (ofString (mended source)).tokens = (ofString source).tokens ∧
      (ofString (mended source)).errors =
        (ofString source).errors.filter (·.message ≠ "Unexpected character.") := by
  have hcut := covers_cut source.toList
  obtain ⟨hcovers, hmends⟩ := hcut.mended
  have htext : (mended source).toList =
      ((cut source.toList).map Piece.mended).flatMap Piece.text := by
    rw [mended, String.toList_ofList, List.flatMap_map]
  rw [← htext] at hcovers hmends
  obtain ⟨htokens, herrors⟩ := ofString_of_covers hcut
  obtain ⟨htokens', herrors'⟩ := ofString_of_covers hcovers
  have hitems : itemsOf ((cut source.toList).map Piece.mended) =
      (itemsOf (cut source.toList)).filter (!·.isStray) := hcut.yield_mended rfl
  refine ⟨hcut.text_eq, hcut.items_eq, fun p hp line => ?_, ?_, ?_⟩
  · obtain ⟨rest, hfirst⟩ := hcut.exists_isFirst hp
    rw [Ne, Piece.item?_eq_unexpected_iff]
    constructor
    · intro hstray
      cases hfirst <;> cases hstray
      exact ⟨⟨_, rfl⟩, rfl⟩
    · intro hother
      rw [Piece.mended_of_ne hother]
  · rw [htokens, htokens', hitems, tokens_filter_isStray, hmends.count_newline]
  · rw [herrors, herrors', hitems, errors_filter_isStray]

/-- The stray character keeps the two operators apart. In the string it is none. -/
example : mended "!@=\"@\"" = "! =\"@\"" := by decide +kernel

end Scan

end Lox
