import Lox.Proofs.Parse.Segment

set_option autoImplicit false

/-! # Endings of programs

What is left of a program without faults, from some place on, is an ending (`Ending`). What an
ending may be depends on the blocks that are open there, and on how many conditionals around each of
them can still take an `else`. Endings are a second way to say what the grammar derives
(`Statements.precedes`, `Ending.split`). It has no trees in it, so that an ending is easily cut off
at any token: where reading goes on after a fault in front of an ending, there is an ending again
(`Ending.resume`).
-/

namespace Lox

namespace Grammar

open Parse

/-! ## Endings -/

/-- The kinds of places in a program. -/
inductive Place where
  | declarations
  | statement
  | behind
deriving DecidableEq

/-- `Ending place ifs ts`: from the place on, the tokens `ts` may be left of a program. Of `ifs`,
there is a number for each open block, from the inside out: that many conditionals around the block
can take an `else`. In front of a statement and behind one, the first number is for the
statement. -/
inductive Ending : Place → List Nat → List Token → Prop
  | nil : Ending .declarations [] []
  | close {closing : Token} {ts : List Token} {n : Nat} {ifs : List Nat}
      (hc : closing.kind = .rightBrace) (h : Ending .behind (n :: ifs) ts) :
      Ending .declarations (n :: ifs) (closing :: ts)
  | declare {keyword name semicolon : Token} {ts : List Token} {ifs : List Nat}
      (hk : keyword.kind = .kwVar) (hn : name.kind = .identifier)
      (hs : semicolon.kind = .semicolon) (h : Ending .declarations ifs ts) :
      Ending .declarations ifs (keyword :: name :: semicolon :: ts)
  | declareValue {keyword name equals semicolon : Token} {us ts : List Token} {e : Expr}
      {ifs : List Nat} (hk : keyword.kind = .kwVar) (hn : name.kind = .identifier)
      (he : equals.kind = .equal) (hv : Expression .expression us e [])
      (hs : semicolon.kind = .semicolon) (h : Ending .declarations ifs ts) :
      Ending .declarations ifs (keyword :: name :: equals :: (us ++ semicolon :: ts))
  | first {ts : List Token} {ifs : List Nat} (h : Ending .statement (0 :: ifs) ts) :
      Ending .declarations ifs ts
  | expression {semicolon : Token} {us ts : List Token} {e : Expr} {n : Nat} {ifs : List Nat}
      (hv : Expression .expression us e []) (hs : semicolon.kind = .semicolon)
      (h : Ending .behind (n :: ifs) ts) : Ending .statement (n :: ifs) (us ++ semicolon :: ts)
  | print {keyword semicolon : Token} {us ts : List Token} {e : Expr} {n : Nat} {ifs : List Nat}
      (hk : keyword.kind = .kwPrint) (hv : Expression .expression us e [])
      (hs : semicolon.kind = .semicolon) (h : Ending .behind (n :: ifs) ts) :
      Ending .statement (n :: ifs) (keyword :: (us ++ semicolon :: ts))
  | block {opening : Token} {ts : List Token} {n : Nat} {ifs : List Nat}
      (ho : opening.kind = .leftBrace) (h : Ending .declarations (n :: ifs) ts) :
      Ending .statement (n :: ifs) (opening :: ts)
  | ifThen {keyword opening closing : Token} {us ts : List Token} {e : Expr} {n : Nat}
      {ifs : List Nat} (hk : keyword.kind = .kwIf) (ho : opening.kind = .leftParen)
      (hv : Expression .expression us e []) (hc : closing.kind = .rightParen)
      (h : Ending .statement ((n + 1) :: ifs) ts) :
      Ending .statement (n :: ifs) (keyword :: opening :: (us ++ closing :: ts))
  | other {other : Token} {ts : List Token} {n : Nat} {ifs : List Nat}
      (hw : other.kind = .kwElse) (h : Ending .statement (n :: ifs) ts) :
      Ending .behind ((n + 1) :: ifs) (other :: ts)
  | next {ts : List Token} {n : Nat} {ifs : List Nat} (h : Ending .declarations ifs ts) :
      Ending .behind (n :: ifs) ts

/-- More conditionals can take whatever fewer can. -/
theorem Ending.mono {place : Place} {ifs ifs' : List Nat} {ts : List Token}
    (h : Ending place ifs ts) (hle : List.Forall₂ (· ≤ ·) ifs ifs') : Ending place ifs' ts := by
  induction h generalizing ifs' with
  | nil =>
      cases hle
      exact .nil
  | close hc _ ih =>
      have hrest := ih hle
      cases hle
      exact .close hc hrest
  | declare hk hn hs _ ih => exact .declare hk hn hs (ih hle)
  | declareValue hk hn he hv hs _ ih => exact .declareValue hk hn he hv hs (ih hle)
  | first _ ih => exact .first (ih (.cons (Nat.le_refl 0) hle))
  | expression hv hs _ ih =>
      have hrest := ih hle
      cases hle
      exact .expression hv hs hrest
  | print hk hv hs _ ih =>
      have hrest := ih hle
      cases hle
      exact .print hk hv hs hrest
  | block ho _ ih =>
      have hrest := ih hle
      cases hle
      exact .block ho hrest
  | ifThen hk ho hv hc _ ih =>
      cases hle with
      | cons hn hle => exact .ifThen hk ho hv hc (ih (.cons (Nat.succ_le_succ hn) hle))
  | other hw _ ih =>
      cases hle with
      | @cons _ m _ _ hn hle =>
          cases m with
          | zero => cases hn
          | succ m => exact .other hw (ih (.cons (Nat.le_of_succ_le_succ hn) hle))
  | next _ ih =>
      cases hle with
      | cons _ hle => exact .next (ih hle)

/-- An ending starts like a declaration, with a brace, or behind a statement with an `else`. -/
theorem Ending.head {place : Place} {ifs : List Nat} {t : Token} {ts : List Token}
    (h : Ending place ifs (t :: ts)) :
    startsDeclaration t.kind ∨ t.kind = .rightBrace ∨ place = .behind ∧ t.kind = .kwElse := by
  generalize hts : t :: ts = us at h
  induction h with
  | nil => cases hts
  | close hc => cases hts; exact .inr (.inl hc)
  | declare hk | declareValue hk | print hk | block hk | ifThen hk =>
      cases hts
      exact .inl (by rw [hk]; rfl)
  | expression hv =>
      obtain ⟨u, us, rfl, hu⟩ := hv.first
      cases hts
      exact .inl (by simp [startsDeclaration, hu])
  | other hw => cases hts; exact .inr (.inr ⟨rfl, hw⟩)
  | first _ ih | next _ ih =>
      rcases ih hts with hd | hc | ⟨hp, -⟩
      · exact .inl hd
      · exact .inr (.inl hc)
      · cases hp

/-- Declarations do not start with an `else`. -/
theorem Ending.nextIs_else_eq_false {ifs : List Nat} {ts : List Token}
    (h : Ending .declarations ifs ts) : nextIs (· = .kwElse) ts = false := by
  cases ts with
  | nil => rfl
  | cons t ts =>
      have hk := h.head
      rw [nextIs_cons]
      revert hk
      cases t.kind <;> decide

/-! ## What is derived precedes endings -/

/-- In front of an ending, tokens by the rule are an ending. -/
def Sentence.Precedes : Sentence → List Token → Prop
  | .statement, us =>
    ∀ n ifs rest, Ending .behind (n :: ifs) rest → Ending .statement (n :: ifs) (us ++ rest)
  | .declaration, us | .declarations, us =>
    ∀ ifs rest, Ending .declarations ifs rest → Ending .declarations ifs (us ++ rest)

theorem Statements.precedes {r : Sentence} {us : List Token} {ss : List Stmt} {bad : List Token}
    (h : Statements r us ss bad) (hb : bad = []) : r.Precedes us := by
  induction h with
  | nil => exact fun ifs rest hr => hr
  | cons _ _ ih ihs =>
      obtain ⟨hb, hb'⟩ := List.append_eq_nil_iff.mp hb
      intro ifs rest hr
      rw [List.append_assoc]
      exact ih hb ifs _ (ihs hb' ifs rest hr)
  | declare hk hn hs => exact fun ifs rest hr => .declare hk hn hs hr
  | declareValue hk hn he hv hs =>
      subst hb
      intro ifs rest hr
      simpa using Ending.declareValue hk hn he hv hs hr
  | statement _ ih => exact fun ifs rest hr => .first (ih hb 0 ifs rest (.next hr))
  | expression hv hs =>
      subst hb
      intro n ifs rest hr
      simpa using Ending.expression hv hs hr
  | print hk hv hs =>
      subst hb
      intro n ifs rest hr
      simpa using Ending.print hk hv hs hr
  | block ho _ hc ih =>
      intro n ifs rest hr
      simpa using Ending.block ho (ih hb (n :: ifs) _ (.close hc hr))
  | ifThen hk ho hv hc _ ih =>
      obtain ⟨rfl, hb'⟩ := List.append_eq_nil_iff.mp hb
      intro n ifs rest hr
      have hmore : Ending .behind ((n + 1) :: ifs) rest :=
        hr.mono (.cons (Nat.le_succ n) (List.forall₂_refl ifs))
      simpa using Ending.ifThen hk ho hv hc (ih hb' (n + 1) ifs rest hmore)
  | @ifElse _ _ _ other _ _ vs _ _ _ _ _ _ hk ho hv hc _ _ hw _ ih iht =>
      obtain ⟨hbb, hb''⟩ := List.append_eq_nil_iff.mp hb
      obtain ⟨rfl, hb'⟩ := List.append_eq_nil_iff.mp hbb
      intro n ifs rest hr
      have hother : Ending .behind ((n + 1) :: ifs) (other :: (vs ++ rest)) :=
        .other hw (iht hb'' n ifs rest hr)
      simpa using Ending.ifThen hk ho hv hc (ih hb' (n + 1) ifs _ hother)

/-! ## Endings are derived -/

/-- What comes at the end of declarations: the end of the program if no block is open, and else the
end of the block. -/
def EndsDeclarations (ifs : List Nat) (rest : List Token) : Prop :=
  (rest = [] ∧ ifs = []) ∨ ∃ closing rest', rest = closing :: rest' ∧ closing.kind = .rightBrace ∧
    Ending .behind ifs rest'

/-- An ending starts with what the rule for its place derives. -/
theorem Ending.split (k : Nat) :
    (∀ n ifs ts, ts.length < k → Ending .statement (n :: ifs) ts →
      ∃ us s rest, ts = us ++ rest ∧ Statements .statement us [s] [] ∧
        (nextIs (· = .kwElse) rest → s.takesElse = false) ∧ Ending .behind (n :: ifs) rest) ∧
    (∀ ifs ts, ts.length < k → Ending .declarations ifs ts →
      ∃ us ss rest, ts = us ++ rest ∧ Statements .declarations us ss [] ∧
        EndsDeclarations ifs rest) := by
  -- on the length, since what stands behind a branch is split once more
  induction k with
  | zero => exact ⟨fun _ _ _ hlt => absurd hlt (Nat.not_lt_zero _),
      fun _ _ hlt => absurd hlt (Nat.not_lt_zero _)⟩
  | succ k ih =>
      obtain ⟨ih, ihs⟩ := ih
      have hstatement : ∀ n ifs ts, ts.length < k + 1 → Ending .statement (n :: ifs) ts →
          ∃ us s rest, ts = us ++ rest ∧ Statements .statement us [s] [] ∧
            (nextIs (· = .kwElse) rest → s.takesElse = false) ∧ Ending .behind (n :: ifs) rest := by
        intro n ifs ts hlt h
        cases h with
        | @expression semicolon us rest e _ _ hv hs h =>
            exact ⟨us ++ [semicolon], _, rest, by simp, .expression hv hs, fun _ => rfl, h⟩
        | @print keyword semicolon us rest e _ _ hk hv hs h =>
            exact ⟨keyword :: (us ++ [semicolon]), _, rest, by simp, .print hk hv hs, fun _ => rfl,
              h⟩
        | @block opening ts _ _ ho h =>
            obtain ⟨us, ss, _, rfl, hd, ⟨-, hnil⟩ | ⟨closing, rest, rfl, hc, hrest⟩⟩ :=
              ihs _ ts (by simpa using hlt) h
            · cases hnil
            · exact ⟨opening :: (us ++ [closing]), _, rest, by simp, .block ho hd hc, fun _ => rfl,
                hrest⟩
        | @ifThen keyword opening closing cs ts e _ _ hk ho hv hc h =>
            have hshort : ts.length < k := by
              simp only [List.length_cons, List.length_append] at hlt
              omega
            obtain ⟨us, s, rest, rfl, hd, htakes, hrest⟩ := ih _ _ ts hshort h
            cases hrest with
            | @other other ts _ _ hw helse =>
                obtain ⟨vs, t, rest, rfl, hd', htakes', hrest⟩ := ih n ifs ts (by
                  simp only [List.length_cons, List.length_append] at hshort
                  omega) helse
                exact ⟨keyword :: opening :: (cs ++ closing :: (us ++ other :: vs)), _, rest,
                  by simp, .ifElse hk ho hv hc hd (htakes (by simpa using hw)) hw hd', htakes',
                  hrest⟩
            | next hnext =>
                refine ⟨keyword :: opening :: (cs ++ closing :: us), _, rest, by simp,
                  .ifThen hk ho hv hc hd, fun hw => ?_, .next hnext⟩
                rw [hnext.nextIs_else_eq_false] at hw
                cases hw
      refine ⟨hstatement, fun ifs ts hlt h => ?_⟩
      cases h with
      | nil => exact ⟨[], [], [], rfl, .nil, .inl ⟨rfl, rfl⟩⟩
      | close hc h => exact ⟨[], [], _, rfl, .nil, .inr ⟨_, _, rfl, hc, h⟩⟩
      | @declare keyword name semicolon ts _ hk hn hs h =>
          obtain ⟨us, ss, rest, rfl, hd, hend⟩ := ihs ifs ts (by
            simp only [List.length_cons] at hlt
            omega) h
          exact ⟨[keyword, name, semicolon] ++ us, _, rest, by simp,
            .cons (.declare hk hn hs) hd, hend⟩
      | @declareValue keyword name equals semicolon vs ts e _ hk hn he hv hs h =>
          obtain ⟨us, ss, rest, rfl, hd, hend⟩ := ihs ifs ts (by
            simp only [List.length_cons, List.length_append] at hlt
            omega) h
          exact ⟨keyword :: name :: equals :: (vs ++ [semicolon]) ++ us, _, rest, by simp,
            .cons (.declareValue hk hn he hv hs) hd, hend⟩
      | first h =>
          obtain ⟨us, s, rest, rfl, hd, -, hrest⟩ := hstatement 0 ifs _ hlt h
          obtain ⟨t, us', rfl, -⟩ := hd.first (by simp)
          cases hrest with
          | next hnext =>
              obtain ⟨vs, ss, rest, rfl, hds, hend⟩ := ihs ifs rest (by
                simp only [List.cons_append, List.length_cons, List.length_append] at hlt
                omega) hnext
              exact ⟨t :: us' ++ vs, _, rest, by simp, .cons (.statement hd) hds, hend⟩

/-- What is an ending when no block is open is a program. -/
theorem Ending.strict {ts : List Token} (h : Ending .declarations [] ts) : ∃ ss, Strict ts ss := by
  obtain ⟨us, ss, rest, rfl, hd, ⟨rfl, -⟩ | ⟨closing, rest', -, -, hrest⟩⟩ :=
    (Ending.split _).2 [] ts (Nat.lt_succ_self _) h
  · exact ⟨ss, by rwa [List.append_nil]⟩
  · cases hrest

/-! ## Braces -/

/-- How many of the tokens open a block. -/
def opened (ts : List Token) : Nat := ts.countP (·.kind = .leftBrace)

/-- How many of the tokens close a block. -/
def closed (ts : List Token) : Nat := ts.countP (·.kind = .rightBrace)

@[simp] theorem opened_cons (t : Token) (ts : List Token) :
    opened (t :: ts) = opened ts + if t.kind = .leftBrace then 1 else 0 := by
  simp [opened, List.countP_cons]

@[simp] theorem closed_cons (t : Token) (ts : List Token) :
    closed (t :: ts) = closed ts + if t.kind = .rightBrace then 1 else 0 := by
  simp [closed, List.countP_cons]

@[simp] theorem opened_append (ts us : List Token) : opened (ts ++ us) = opened ts + opened us :=
  List.countP_append

@[simp] theorem closed_append (ts us : List Token) : closed (ts ++ us) = closed ts + closed us :=
  List.countP_append

/-- An expression has no braces. -/
theorem Expression.braces {ts : List Token} {e : Expr} {bad : List Token}
    (h : Expression .expression ts e bad) : opened ts = 0 ∧ closed ts = 0 := by
  have hne : ∀ k : Token.Kind, occursInExpr k = false → ts.countP (·.kind = k) = 0 := by
    intro k hk
    rw [List.countP_eq_zero]
    intro t ht hkind
    have hoccurs := occursInExpr_of_mem h t ht
    rw [decide_eq_true_eq] at hkind
    rw [hkind, hk] at hoccurs
    cases hoccurs
  exact ⟨hne _ rfl, hne _ rfl⟩

/-- How many of the numbers are not for open blocks. -/
def Place.extra : Place → Nat
  | declarations => 0
  | statement | behind => 1

/-- An ending closes the open blocks, and those that it opens itself. -/
theorem Ending.braces {place : Place} {ifs : List Nat} {ts : List Token}
    (h : Ending place ifs ts) : closed ts + place.extra = opened ts + ifs.length := by
  induction h with
  | nil => rfl
  | close hc _ ih =>
      simp only [Place.extra, List.length_cons, opened_cons, closed_cons, hc] at ih ⊢
      simp only [reduceCtorEq, if_true, if_false]
      omega
  | declare hk hn hs _ ih => simpa [hk, hn, hs] using ih
  | declareValue hk hn he hv hs _ ih => simpa [hk, hn, he, hs, hv.braces] using ih
  | expression hv hs _ ih => simpa [hs, hv.braces, Place.extra] using ih
  | print hk hv hs _ ih => simpa [hk, hs, hv.braces, Place.extra] using ih
  | block ho _ ih =>
      simp only [Place.extra, List.length_cons, opened_cons, closed_cons, ho] at ih ⊢
      simp only [reduceCtorEq, if_true, if_false]
      omega
  | ifThen hk ho hv hc _ ih => simpa [hk, ho, hc, hv.braces, Place.extra] using ih
  | other hw _ ih => simpa [hw, Place.extra] using ih
  | first _ ih | next _ ih =>
      simp only [Place.extra, List.length_cons] at ih ⊢
      omega

end Grammar

namespace Parse

/-! ## Going on after a fault -/

theorem resume_cons {t : Token} (h : t.kind ≠ .semicolon) (ts : List Token) :
    resume (t :: ts) = if nextIs Token.Kind.startsStatement ts then ts else resume ts := by
  rw [resume]
  cases ts with
  | nil => simp [h, resume]
  | cons u ts => simp only [h, List.head?_cons, Option.mem_some_iff, exists_eq_left', false_or]; rfl

/-- Tokens without a semicolon are passed over, up to a word that starts a statement. -/
theorem resume_append {us : List Token} (hne : us ≠ []) (hus : ∀ t ∈ us, t.kind ≠ .semicolon)
    (hk : ∀ t ∈ us.tail, t.kind.startsStatement = false) (ts : List Token) :
    resume (us ++ ts) = if nextIs Token.Kind.startsStatement ts then ts else resume ts := by
  induction us with
  | nil => exact absurd rfl hne
  | cons u us ih =>
      obtain ⟨hu, hus⟩ := List.forall_mem_cons.mp hus
      rw [List.cons_append, resume_cons hu]
      cases us with
      | nil => rfl
      | cons v us =>
          obtain ⟨hv, hk⟩ := List.forall_mem_cons.mp hk
          rw [if_neg (by simp [hv])]
          exact ih (by simp) hus hk

/-- Tokens up to the first semicolon are passed over, if no word in them starts a statement. -/
theorem resume_semicolon {us : List Token} {semicolon : Token}
    (hus : ∀ t ∈ us, t.kind ≠ .semicolon) (hk : ∀ t ∈ us.tail, t.kind.startsStatement = false)
    (hs : semicolon.kind = .semicolon) (ts : List Token) : resume (us ++ semicolon :: ts) = ts := by
  have hline : endsLine (us ++ [semicolon]) := by
    rw [endsLine_append hus]
    exact (endsLine_semicolon hs).mpr rfl
  have hwords : ∀ t ∈ (us ++ [semicolon]).tail, t.kind.startsStatement = false := by
    cases us with
    | nil => simp
    | cons u us =>
        refine List.forall_mem_append.mpr ⟨hk, ?_⟩
        rw [List.forall_mem_singleton, hs]
        rfl
  simpa using resume_of_endsLine hline hwords ts

theorem ne_semicolon_of_mem {ts : List Token} {e : Expr} {bad : List Token}
    (h : Grammar.Expression .expression ts e bad) : ∀ t ∈ ts, t.kind ≠ .semicolon := by
  intro t ht hk
  have hoccurs := occursInExpr_of_mem h t ht
  rw [hk] at hoccurs
  cases hoccurs

theorem startsStatement_eq_false_of_mem {ts : List Token} {e : Expr} {bad : List Token}
    (h : Grammar.Expression .expression ts e bad) : ∀ t ∈ ts, t.kind.startsStatement = false := by
  intro t ht
  have hoccurs := occursInExpr_of_mem h t ht
  revert hoccurs
  cases t.kind <;> decide

end Parse

namespace Grammar

open Parse

/-- As far as both lists are for the same open blocks, which come last, the first one has no greater
numbers. -/
def Fits (ifs' ifs : List Nat) : Prop :=
  ∀ ns' ns : List Nat, ns' <:+ ifs' → ns <:+ ifs → ns'.length = ns.length →
    List.Forall₂ (· ≤ ·) ns' ns

namespace Fits

theorem refl (ifs : List Nat) : Fits ifs ifs := by
  intro ns' ns h' h hlen
  obtain rfl := (List.suffix_of_suffix_length_le h' h (Nat.le_of_eq hlen)).eq_of_length hlen
  exact List.forall₂_refl ns'

theorem tail {n : Nat} {ifs' ifs : List Nat} (h : Fits (n :: ifs') ifs) : Fits ifs' ifs :=
  fun ns' ns hns' => h ns' ns (hns'.trans (List.suffix_cons n ifs'))

/-- A number may be put in front if it is not greater than the number for the same block. -/
theorem cons {n : Nat} {ifs' ifs : List Nat} (h : Fits ifs' ifs)
    (hn : ∀ k ns, k :: ns <:+ ifs → ns.length = ifs'.length → n ≤ k) : Fits (n :: ifs') ifs := by
  intro ns' ns hns' hns hlen
  rcases List.suffix_cons_iff.mp hns' with rfl | hns'
  · cases ns with
    | nil => cases hlen
    | cons k ns =>
        have hlen := Nat.succ.inj hlen
        exact .cons (hn k ns hns hlen.symm)
          (h ifs' ns List.suffix_rfl ((List.suffix_cons k ns).trans hns) hlen)
  · exact h ns' ns hns' hns hlen

theorem zero {ifs' ifs : List Nat} (h : Fits ifs' ifs) : Fits (0 :: ifs') ifs :=
  h.cons fun k _ _ _ => Nat.zero_le k

/-- Any number may be put in front for a block further inside. -/
theorem inside (n : Nat) (ifs : List Nat) : Fits (n :: ifs) ifs := by
  refine (refl ifs).cons fun k ns hns hlen => ?_
  have hle := hns.length_le
  rw [List.length_cons, hlen] at hle
  exact absurd hle (Nat.not_succ_le_self _)

theorem lower {n : Nat} {ifs' ifs : List Nat} (h : Fits ((n + 1) :: ifs') ifs) :
    Fits (n :: ifs') ifs := by
  refine h.tail.cons fun k ns hns hlen => ?_
  cases h _ _ List.suffix_rfl hns (congrArg Nat.succ hlen.symm) with
  | cons hle _ => exact (Nat.le_succ n).trans hle

/-- Lists for equally many blocks fit if no number is greater. -/
theorem forall₂ {ifs' ifs : List Nat} (h : Fits ifs' ifs) (hlen : ifs'.length = ifs.length) :
    List.Forall₂ (· ≤ ·) ifs' ifs := h _ _ List.suffix_rfl List.suffix_rfl hlen

end Fits

/-- After a fault in front of an ending that starts with no word for a statement, reading goes on
in front of an ending. -/
theorem Ending.resume {place : Place} {ifs : List Nat} {ts : List Token} (h : Ending place ifs ts)
    (hw : nextIs Token.Kind.startsStatement ts = false) {outer : List Nat}
    (hfits : Fits ifs outer) :
    ∃ place' ifs', Ending place' ifs' (Lox.resume ts) ∧ Fits ifs' outer := by
  -- behind a token that is passed over, reading goes on at once, or the ending is shorter
  have hpassed : ∀ {place : Place} {ifs : List Nat} {t : Token} {ts : List Token},
      t.kind ≠ .semicolon → Ending place ifs ts → Fits ifs outer →
      (nextIs Token.Kind.startsStatement ts = false →
        ∃ place' ifs', Ending place' ifs' (Lox.resume ts) ∧ Fits ifs' outer) →
      ∃ place' ifs', Ending place' ifs' (Lox.resume (t :: ts)) ∧ Fits ifs' outer := by
    intro place ifs t ts ht h hfits ih
    rw [resume_cons ht]
    split
    · exact ⟨place, ifs, h, hfits⟩
    · next hn => exact ih (by simpa using hn)
  induction h with
  | nil => exact ⟨_, _, .nil, hfits⟩
  | close hc h ih => exact hpassed (by simp [hc]) h hfits fun hw => ih hw hfits
  | block ho h ih => exact hpassed (by simp [ho]) h hfits fun hw => ih hw hfits
  | other ho h ih => exact hpassed (by simp [ho]) h hfits.lower fun hw => ih hw hfits.lower
  | first _ ih => exact ih hw hfits.zero
  | next _ ih => exact ih hw hfits.tail
  | expression hv hs h =>
      rw [resume_semicolon (ne_semicolon_of_mem hv)
        (fun t ht => startsStatement_eq_false_of_mem hv t (List.mem_of_mem_tail ht)) hs]
      exact ⟨_, _, h, hfits⟩
  | declare hk | declareValue hk | print hk | ifThen hk =>
      rw [nextIs_cons, hk] at hw
      cases hw

/-- After a fault at the word that starts a statement, the statement is passed over to its end or to
its branch. -/
theorem Ending.resume_statement {n : Nat} {ifs : List Nat} {ts : List Token}
    (h : Ending .statement (n :: ifs) ts) (hw : nextIs Token.Kind.startsStatement ts) :
    ∃ place' ifs', Ending place' ifs' (Lox.resume ts) ∧ Fits ifs' ifs := by
  cases h with
  | expression hv =>
      obtain ⟨t, us, rfl, -⟩ := hv.first
      have hfirst := startsStatement_eq_false_of_mem hv t List.mem_cons_self
      rw [List.cons_append, nextIs_cons, hfirst] at hw
      cases hw
  | block ho =>
      rw [nextIs_cons, ho] at hw
      cases hw
  | @print keyword semicolon us ts e _ _ hk hv hs h =>
      have hresume := @resume_semicolon (keyword :: us) semicolon
        (by simpa [hk] using ne_semicolon_of_mem hv) (startsStatement_eq_false_of_mem hv) hs ts
      rw [List.cons_append] at hresume
      rw [hresume]
      exact ⟨_, _, h, .inside n ifs⟩
  | @ifThen keyword opening closing us ts e _ _ hk ho hv hc h =>
      have hresume := @resume_append (keyword :: opening :: (us ++ [closing])) (by simp)
        (by simpa [hk, ho, hc, or_imp, forall_and] using ne_semicolon_of_mem hv)
        (by simpa [ho, hc, or_imp, forall_and, Token.Kind.startsStatement] using
          startsStatement_eq_false_of_mem hv) ts
      rw [List.cons_append, List.cons_append, List.append_assoc, List.singleton_append] at hresume
      rw [hresume]
      split
      · exact ⟨_, _, h, .inside (n + 1) ifs⟩
      · next hn => exact h.resume (by simpa using hn) (.inside (n + 1) ifs)

/-- After a fault at the word that starts a declaration, the front of the declaration is passed
over. -/
theorem Ending.resume_declarations {ifs : List Nat} {ts : List Token}
    (h : Ending .declarations ifs ts) (hw : nextIs Token.Kind.startsStatement ts) :
    ∃ place' ifs', Ending place' ifs' (Lox.resume ts) ∧ Fits ifs' ifs := by
  cases h with
  | nil => cases hw
  | close hc =>
      rw [nextIs_cons, hc] at hw
      cases hw
  | @declare keyword name semicolon ts _ hk hn hs h =>
      have hresume := @resume_semicolon [keyword, name] semicolon (by simp [hk, hn])
        (by simp [hn, Token.Kind.startsStatement]) hs ts
      rw [List.cons_append, List.singleton_append] at hresume
      rw [hresume]
      exact ⟨_, _, h, .refl ifs⟩
  | @declareValue keyword name equals semicolon us ts e _ hk hn he hv hs h =>
      have hresume := @resume_semicolon (keyword :: name :: equals :: us) semicolon
        (by simpa [hk, hn, he] using ne_semicolon_of_mem hv)
        (by simpa [hn, he, Token.Kind.startsStatement] using startsStatement_eq_false_of_mem hv)
        hs ts
      rw [List.cons_append, List.cons_append, List.cons_append] at hresume
      rw [hresume]
      exact ⟨_, _, h, .refl ifs⟩
  | first h => exact h.resume_statement hw

/-- After a fault behind a statement, reading goes on in front of an ending. -/
theorem Ending.resume_behind {n : Nat} {ifs : List Nat} {ts : List Token}
    (h : Ending .behind (n :: ifs) ts) :
    ∃ place' ifs', Ending place' ifs' (Lox.resume ts) ∧ Fits ifs' ifs := by
  cases hw : nextIs Token.Kind.startsStatement ts with
  | false => exact h.resume hw (.inside n ifs)
  | true =>
      cases h with
      | other ho =>
          rw [nextIs_cons, ho] at hw
          cases hw
      | next h => exact h.resume_declarations hw

/-- An `else` is left without an `if` in front of it: it comes first, or after a statement that does
not take it. -/
def LeavesElse (ts : List Token) : Prop :=
  nextIs (· = .kwElse) ts ∨ ∃ us s other rest, ts = us ++ other :: rest ∧
    Statements .statement us [s] [] ∧ s.takesElse = false ∧ other.kind = .kwElse

theorem Ending.declarations_of_behind {n : Nat} {ifs : List Nat} {ts : List Token}
    (h : Ending .behind (n :: ifs) ts) (hn : nextIs (· = .kwElse) ts = false) :
    Ending .declarations ifs ts := by
  cases h with
  | other hw => simp [hw] at hn
  | next h => exact h

/-- What may be left in front of a statement may be left in front of declarations, unless it leaves
an `else`. -/
theorem Ending.declarations_of_statement {n : Nat} {ifs : List Nat} {ts : List Token}
    (h : Ending .statement (n :: ifs) ts) (hn : ¬ LeavesElse ts) : Ending .declarations ifs ts := by
  obtain ⟨us, s, rest, rfl, hd, htakes, hrest⟩ :=
    (Ending.split _).1 n ifs ts (Nat.lt_succ_self _) h
  have helse : nextIs (· = .kwElse) rest = false := by
    rw [Bool.eq_false_iff]
    intro hw
    cases rest with
    | nil => cases hw
    | cons other rest =>
        exact hn (.inr ⟨us, s, other, rest, rfl, hd, htakes hw, by simpa using hw⟩)
  exact .first (hd.precedes rfl 0 ifs rest (.next (hrest.declarations_of_behind helse)))

/-- After a fault behind a statement, reading goes on in front of declarations in the same block, if
as many blocks are closed as are opened in between and no `else` is left. -/
theorem Ending.recovers {n : Nat} {ifs : List Nat} {ts passed : List Token}
    (h : Ending .behind (n :: ifs) ts) (hpassed : ts = passed ++ Lox.resume ts)
    (hbraces : opened passed = closed passed) (hn : ¬ LeavesElse (Lox.resume ts)) :
    Ending .declarations ifs (Lox.resume ts) := by
  obtain ⟨place, ifs', hresume, hfits⟩ := h.resume_behind
  have hcount := h.braces
  rw [hpassed] at hcount
  have hcount' := hresume.braces
  simp only [opened_append, closed_append, Place.extra, List.length_cons] at hcount
  have hinside : place.extra = 1 → ∃ m ifs'', ifs' = m :: ifs'' ∧
      List.Forall₂ (· ≤ ·) (m :: ifs'') (m :: ifs) := by
    intro hextra
    cases ifs' with
    | nil =>
        rw [hextra, List.length_nil] at hcount'
        omega
    | cons m ifs' =>
        rw [hextra, List.length_cons] at hcount'
        exact ⟨m, ifs', rfl, .cons (Nat.le_refl m) (hfits.tail.forall₂ (by omega))⟩
  cases place with
  | declarations =>
      rw [Place.extra] at hcount'
      exact hresume.mono (hfits.forall₂ (by omega))
  | statement =>
      obtain ⟨m, ifs', rfl, hle⟩ := hinside rfl
      exact (hresume.mono hle).declarations_of_statement hn
  | behind =>
      obtain ⟨m, ifs', rfl, hle⟩ := hinside rfl
      exact (hresume.mono hle).declarations_of_behind (by simpa using fun hw => hn (.inl hw))

end Grammar

end Lox
