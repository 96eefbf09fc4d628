import Lox.Proofs.Parse.Ending
import Lox.Proofs.Parse.Tree

set_option autoImplicit false

/-! # Fronts of programs

Wherever a semicolon stands in a program without faults, in front of it there is a declaration that
lacks its semicolon (`Unended`), in front of that declaration there is a front of a program
(`Front`), and what comes behind the semicolon is an ending for the blocks that are open there
(`Strict.cutAt`).

If what comes behind the semicolon starts with a minus sign, the declaration may go on without the
semicolon, as one longer declaration (`Unended.append_minus`).
-/

namespace Lox

namespace Grammar

open Parse

/-! ## Fronts -/

/-- `Heads n hs`: the tokens are the conditionals in front of a branch, and behind the branch `n` of
them can take an `else`. -/
inductive Heads : Nat → List Token → Prop
  | nil : Heads 0 []
  | ifThen {keyword opening closing : Token} {hs cs : List Token} {c : Expr} {n : Nat}
      (h : Heads n hs) (hk : keyword.kind = .kwIf) (ho : opening.kind = .leftParen)
      (hv : Expression .expression cs c []) (hc : closing.kind = .rightParen) :
      Heads (n + 1) (hs ++ keyword :: opening :: (cs ++ [closing]))
  | ifElse {keyword opening closing other : Token} {hs cs us : List Token} {c : Expr} {s : Stmt}
      {n : Nat} (h : Heads n hs) (hk : keyword.kind = .kwIf) (ho : opening.kind = .leftParen)
      (hv : Expression .expression cs c []) (hc : closing.kind = .rightParen)
      (hs' : Statements .statement us [s] []) (hn : s.takesElse = false)
      (hw : other.kind = .kwElse) :
      Heads n (hs ++ keyword :: opening :: (cs ++ closing :: (us ++ [other])))

/-- `Front ifs fs`: the tokens are the front of a program up to a declaration. The numbers are those
for the open blocks, as for an ending. -/
inductive Front : List Nat → List Token → Prop
  | top {ds : List Token} {ss : List Stmt} (hd : Statements .declarations ds ss []) : Front [] ds
  | block {opening : Token} {fs hs ds : List Token} {ss : List Stmt} {n : Nat} {ifs : List Nat}
      (h : Front ifs fs) (hh : Heads n hs) (ho : opening.kind = .leftBrace)
      (hd : Statements .declarations ds ss []) : Front (n :: ifs) (fs ++ (hs ++ opening :: ds))

/-- `Unended n us`: the tokens are a declaration without the semicolon that it ends with, and `n` of
the conditionals around that end can take an `else`. -/
inductive Unended : Nat → List Token → Prop
  | declare {keyword name : Token} (hk : keyword.kind = .kwVar) (hn : name.kind = .identifier) :
      Unended 0 [keyword, name]
  | declareValue {keyword name equals : Token} {us : List Token} {e : Expr}
      (hk : keyword.kind = .kwVar) (hn : name.kind = .identifier) (he : equals.kind = .equal)
      (hv : Expression .expression us e []) : Unended 0 (keyword :: name :: equals :: us)
  | expression {hs us : List Token} {e : Expr} {n : Nat} (h : Heads n hs)
      (hv : Expression .expression us e []) : Unended n (hs ++ us)
  | print {keyword : Token} {hs us : List Token} {e : Expr} {n : Nat} (h : Heads n hs)
      (hk : keyword.kind = .kwPrint) (hv : Expression .expression us e []) :
      Unended n (hs ++ keyword :: us)

/-- An ending may go on with the branch of the conditionals. -/
theorem Heads.ending {n m : Nat} {hs ts : List Token} {ifs : List Nat} (h : Heads n hs)
    (he : Ending .statement ((m + n) :: ifs) ts) : Ending .statement (m :: ifs) (hs ++ ts) := by
  induction h generalizing ts with
  | nil => exact he
  | ifThen _ hk ho hv hc ih =>
      have hif := Ending.ifThen hk ho hv hc he
      simpa using ih hif
  | ifElse _ hk ho hv hc hs _ hw ih =>
      have hthen := hs.precedes rfl _ ifs _ (.other hw he)
      have hif := Ending.ifThen hk ho hv hc hthen
      simpa using ih hif

/-- A front and an ending for the same open blocks are an ending of a program. -/
theorem Front.ending {ifs : List Nat} {fs ts : List Token} (h : Front ifs fs)
    (he : Ending .declarations ifs ts) : Ending .declarations [] (fs ++ ts) := by
  induction h generalizing ts with
  | top hd => exact hd.precedes rfl [] ts he
  | @block _ _ _ _ _ n ifs _ hh ho hd ih =>
      have hblock := Ending.block ho (hd.precedes rfl (n :: ifs) ts he)
      rw [List.append_assoc, List.append_assoc, List.cons_append]
      refine ih (.first (hh.ending ?_))
      rwa [Nat.zero_add]

theorem Front.append {ifs : List Nat} {fs us : List Token} {ss : List Stmt} (h : Front ifs fs)
    (hd : Statements .declarations us ss []) : Front ifs (fs ++ us) := by
  cases h with
  | top hd' => exact .top (hd'.append hd)
  | block h hh ho hd' =>
      have hblock := Front.block h hh ho (hd'.append hd)
      simpa using hblock

/-! ## Where a semicolon stands -/

/-- The tokens `as` and `bs` are what stands around the end of a declaration. -/
def CutAt (as bs : List Token) : Prop :=
  ∃ n ifs fs us, as = fs ++ us ∧ Front ifs fs ∧ Unended n us ∧ Ending .behind (n :: ifs) bs

/-- A token in two lists in a row is in one of them. -/
theorem append_eq_append_cons {α : Type} {xs ys as bs : List α} {t : α}
    (h : xs ++ ys = as ++ t :: bs) :
    (∃ cs, xs = as ++ t :: cs ∧ bs = cs ++ ys) ∨ ∃ cs, as = xs ++ cs ∧ ys = cs ++ t :: bs := by
  rcases List.append_eq_append_iff.mp h with ⟨cs, rfl, rfl⟩ | ⟨cs, rfl, hcs⟩
  · exact .inr ⟨cs, rfl, rfl⟩
  · cases cs with
    | nil => exact .inr ⟨[], by simp, hcs.symm⟩
    | cons c cs =>
        obtain ⟨rfl, rfl⟩ := List.cons.inj hcs
        exact .inl ⟨cs, rfl, rfl⟩

/-- A semicolon is not among the tokens that are none. -/
theorem append_eq_append_semicolon {xs ys as bs : List Token} {semicolon : Token}
    (h : xs ++ ys = as ++ semicolon :: bs) (hs : semicolon.kind = .semicolon)
    (hxs : ∀ t ∈ xs, t.kind ≠ .semicolon) : ∃ cs, as = xs ++ cs ∧ ys = cs ++ semicolon :: bs := by
  rcases append_eq_append_cons h with ⟨cs, rfl, -⟩ | hcs
  · exact absurd hs (hxs _ (by simp))
  · exact hcs

/-- The only semicolon is the last token. -/
theorem append_singleton_eq_append_semicolon {xs as bs : List Token} {t semicolon : Token}
    (h : xs ++ [t] = as ++ semicolon :: bs) (hs : semicolon.kind = .semicolon)
    (hxs : ∀ t ∈ xs, t.kind ≠ .semicolon) : as = xs ∧ bs = [] := by
  obtain ⟨cs, rfl, hcs⟩ := append_eq_append_semicolon h hs hxs
  cases cs with
  | nil => exact ⟨List.append_nil _, (List.cons.inj hcs).2.symm⟩
  | cons c cs => simp at hcs

/-- How the rules cut the tokens `as ++ semicolon :: bs`, wherever they stand in a program. -/
def Sentence.Cuts : Sentence → List Token → List Token → Prop
  | .statement, as, bs =>
    ∀ n ifs fs hs rest, Front ifs fs → Heads n hs → Ending .behind (n :: ifs) rest →
      CutAt (fs ++ (hs ++ as)) (bs ++ rest)
  | .declaration, as, bs | .declarations, as, bs =>
    ∀ ifs fs rest, Front ifs fs → Ending .declarations ifs rest → CutAt (fs ++ as) (bs ++ rest)

/-- A semicolon in derived tokens is the end of a declaration. -/
theorem Statements.cuts {r : Sentence} {ts as bs : List Token} {ss : List Stmt}
    {bad : List Token} {semicolon : Token} (h : Statements r ts ss bad) (hb : bad = [])
    (hs : semicolon.kind = .semicolon) (hts : ts = as ++ semicolon :: bs) : r.Cuts as bs := by
  induction h generalizing as bs with
  | nil => simp at hts
  | @cons us vs s ss _ _ h hds ih ihs =>
      obtain ⟨rfl, rfl⟩ := List.append_eq_nil_iff.mp hb
      intro ifs fs rest hf hrest
      rcases append_eq_append_cons hts with ⟨cs, hus, rfl⟩ | ⟨cs, rfl, hvs⟩
      · rw [List.append_assoc]
        exact ih rfl hus ifs fs _ hf (hds.precedes rfl ifs rest hrest)
      · have hfront : Front ifs (fs ++ us) := hf.append (by simpa using Statements.cons h .nil)
        rw [← List.append_assoc]
        exact ihs rfl hvs ifs (fs ++ us) rest hfront hrest
  | @declare keyword name _ hk hn _ =>
      intro ifs fs rest hf hrest
      obtain ⟨rfl, rfl⟩ := @append_singleton_eq_append_semicolon [keyword, name] _ _ _ _ hts hs
        (by simp [hk, hn])
      exact ⟨0, ifs, fs, _, rfl, hf, .declare hk hn, .next hrest⟩
  | @declareValue keyword name equals _ us _ _ hk hn he hv _ =>
      subst hb
      intro ifs fs rest hf hrest
      obtain ⟨rfl, rfl⟩ := @append_singleton_eq_append_semicolon (keyword :: name :: equals :: us)
        _ _ _ _ hts hs (by simpa [hk, hn, he] using ne_semicolon_of_mem hv)
      exact ⟨0, ifs, fs, _, rfl, hf, .declareValue hk hn he hv, .next hrest⟩
  | statement _ ih =>
      intro ifs fs rest hf hrest
      simpa using ih hb hts 0 ifs fs [] rest hf .nil (.next hrest)
  | @expression us _ _ _ hv _ =>
      subst hb
      intro n ifs fs hs' rest hf hh hrest
      obtain ⟨rfl, rfl⟩ := append_singleton_eq_append_semicolon hts hs (ne_semicolon_of_mem hv)
      exact ⟨n, ifs, fs, _, rfl, hf, .expression hh hv, hrest⟩
  | @print keyword _ us _ _ hk hv _ =>
      subst hb
      intro n ifs fs hs' rest hf hh hrest
      obtain ⟨rfl, rfl⟩ := @append_singleton_eq_append_semicolon (keyword :: us) _ _ _ _ hts hs
        (by simpa [hk] using ne_semicolon_of_mem hv)
      exact ⟨n, ifs, fs, _, rfl, hf, .print hh hk hv, hrest⟩
  | @block opening closing us _ _ ho _ hc ih =>
      intro n ifs fs hs' rest hf hh hrest
      obtain ⟨cs, rfl, hcs⟩ := @append_eq_append_semicolon [opening] _ _ _ _ hts hs (by simp [ho])
      rcases append_eq_append_cons hcs with ⟨ds, hus, rfl⟩ | ⟨ds, rfl, hds⟩
      · have hfront : Front (n :: ifs) (fs ++ (hs' ++ opening :: [])) := .block hf hh ho .nil
        have hcut := ih hb hus (n :: ifs) _ (closing :: rest) hfront (.close hc hrest)
        simpa using hcut
      · have hmem : semicolon ∈ [closing] := by simp [hds]
        rw [List.mem_singleton.mp hmem, hc] at hs
        cases hs
  | @ifThen keyword opening closing cs us _ _ _ _ hk ho hv hc _ ih =>
      obtain ⟨rfl, hb'⟩ := List.append_eq_nil_iff.mp hb
      intro n ifs fs hs' rest hf hh hrest
      obtain ⟨as', rfl, hus⟩ := @append_eq_append_semicolon
        (keyword :: opening :: (cs ++ [closing])) us _ _ _ (by simpa using hts) hs
        (by simpa [hk, ho, hc, or_imp, forall_and] using ne_semicolon_of_mem hv)
      have hmore : Ending .behind ((n + 1) :: ifs) rest :=
        hrest.mono (.cons (Nat.le_succ n) (List.forall₂_refl ifs))
      have hcut := ih hb' hus (n + 1) ifs fs _ rest hf (hh.ifThen hk ho hv hc) hmore
      simpa using hcut
  | @ifElse keyword opening closing other cs us vs _ _ _ _ _ _ hk ho hv hc hs' hn hw ht ih iht =>
      obtain ⟨hbb, hb''⟩ := List.append_eq_nil_iff.mp hb
      obtain ⟨rfl, rfl⟩ := List.append_eq_nil_iff.mp hbb
      subst hb''
      intro n ifs fs hs'' rest hf hh hrest
      obtain ⟨as', rfl, hus⟩ := @append_eq_append_semicolon
        (keyword :: opening :: (cs ++ [closing])) (us ++ other :: vs) _ _ _ (by simpa using hts) hs
        (by simpa [hk, ho, hc, or_imp, forall_and] using ne_semicolon_of_mem hv)
      rcases append_eq_append_cons hus with ⟨ds, hthen, rfl⟩ | ⟨ds, rfl, hds⟩
      · -- in the first branch, the second one is part of what comes behind
        have hother : Ending .behind ((n + 1) :: ifs) (other :: (vs ++ rest)) :=
          .other hw (ht.precedes rfl n ifs rest hrest)
        have hcut := ih rfl hthen (n + 1) ifs fs _ _ hf (hh.ifThen hk ho hv hc) hother
        simpa using hcut
      · obtain ⟨ds, rfl, hvs⟩ := @append_eq_append_semicolon [other] _ _ _ _ hds hs (by simp [hw])
        have hcut := iht rfl hvs n ifs fs _ rest hf (hh.ifElse hk ho hv hc hs' hn hw) hrest
        simpa using hcut

/-- A semicolon in a program without faults is the end of a declaration. -/
theorem Strict.cutAt {as bs : List Token} {ss : List Stmt} {semicolon : Token}
    (h : Strict (as ++ semicolon :: bs) ss) (hs : semicolon.kind = .semicolon) : CutAt as bs := by
  have hcut := Statements.cuts h rfl hs rfl [] [] [] (.top .nil) .nil
  simpa using hcut

/-! ## Going on with a minus sign -/

/-- A list in front of others starts the same way as with the others behind it. -/
theorem nextIs_of_append {p : Token.Kind → Bool} {ts us : List Token} (hne : ts ≠ [])
    (h : nextIs p (ts ++ us)) : nextIs p ts := by
  rwa [nextIs_append p hne us] at h

theorem Expression.ne_nil {r : Rule} {ts : List Token} {e : Expr} {bad : List Token}
    (h : Expression r ts e bad) : ts ≠ [] := by
  obtain ⟨t, us, rfl, -⟩ := h.first
  simp

/-- Behind the minus sign that it starts with, a product is a product. -/
theorem Expression.tail_of_minus {r : Rule} {ts : List Token} {e : Expr} {bad : List Token}
    (h : Expression r ts e bad) (hb : bad = []) (hr : r = .unary ∨ r = .level .factor)
    (hm : nextIs (· = .minus) ts) :
    ∃ minus us e', ts = minus :: us ∧ minus.kind = .minus ∧
      Expression (.level .factor) us e' [] := by
  induction h with
  | loosest | assign | misassign | atom | grouping => simp at hr
  | @single l _ _ _ _ ih =>
      obtain rfl : l = .factor := by simpa using hr
      exact ih hb (.inl rfl) hm
  | @join l _ us operator _ _ _ _ hl ho hr' ih _ =>
      obtain rfl : l = .factor := by simpa using hr
      obtain ⟨rfl, rfl⟩ := List.append_eq_nil_iff.mp hb
      obtain ⟨minus, vs, e', rfl, hk, hd⟩ := ih rfl (.inr rfl) (nextIs_of_append hl.ne_nil hm)
      exact ⟨minus, vs ++ operator :: us, _, rfl, hk, .join hd ho hr'⟩
  | @unary operator us _ _ _ h _ =>
      subst hb
      exact ⟨operator, us, _, rfl, by simpa using hm, .single h⟩
  | primary h _ =>
      have hu := h.nextIs_isUnary []
      obtain ⟨t, us, rfl, -⟩ := h.first
      rw [nextIs_cons, decide_eq_true_eq] at hm
      simp [hm, Token.Kind.isUnary] at hu

/-- An expression of the level goes on with another one that starts with a minus sign. -/
def GoesOn (l : Level) : Prop :=
  ∀ ⦃ts us : List Token⦄ ⦃e e' : Expr⦄, Expression (.level l) ts e [] →
    Expression (.level l) us e' [] → nextIs (· = .minus) us →
    ∃ e'', Expression (.level l) (ts ++ us) e'' []

/-- Tokens that go on with the first operand of an expression go on with the expression. -/
theorem Expression.append_of_operand {l : Level} {r : Rule} {ts us : List Token} {e : Expr}
    {bad : List Token} (h : Expression r us e bad) (hb : bad = []) (hr : r = .level l)
    (hm : nextIs (· = .minus) us)
    (hfirst : ∀ ⦃vs : List Token⦄ ⦃d : Expr⦄, Expression (operand l) vs d [] →
      nextIs (· = .minus) vs → ∃ e', Expression (.level l) (ts ++ vs) e' []) :
    ∃ e', Expression (.level l) (ts ++ us) e' [] := by
  induction h with
  | loosest | assign | misassign | atom | grouping | unary | primary => simp at hr
  | @single l' _ _ _ h _ =>
      obtain rfl : l' = l := by simpa using hr
      subst hb
      exact hfirst h hm
  | @join l' vs ws operator _ _ _ _ hl ho hr' ih _ =>
      obtain rfl : l' = l := by simpa using hr
      obtain ⟨rfl, rfl⟩ := List.append_eq_nil_iff.mp hb
      obtain ⟨e', hd⟩ := ih rfl rfl (nextIs_of_append hl.ne_nil hm)
      rw [← List.append_assoc]
      exact ⟨_, .join hd ho hr'⟩

/-- In a sum, the minus sign is one more operator. -/
theorem goesOn_term : GoesOn .term := by
  intro ts us e e' h h' hm
  refine h'.append_of_operand rfl rfl hm fun vs d hd hm => ?_
  obtain ⟨minus, ws, d', rfl, hk, hd'⟩ := hd.tail_of_minus rfl (.inr rfl) hm
  exact ⟨_, .join h (hk ▸ .minus) hd'⟩

/-- The last operand goes on. -/
theorem GoesOn.append_operand {l m : Level} (hgo : GoesOn m) (ht : l.tighter = some m) {r : Rule}
    {ts us : List Token} {e e' : Expr} {bad : List Token} (h : Expression r ts e bad)
    (hb : bad = []) (hr : r = .level l) (h' : Expression (.level m) us e' [])
    (hm : nextIs (· = .minus) us) : ∃ e'', Expression (.level l) (ts ++ us) e'' [] := by
  have hop := operand_eq_level ht
  cases h with
  | loosest | assign | misassign | atom | grouping | unary | primary => simp at hr
  | @single l' _ _ _ h =>
      obtain rfl : l' = l := by simpa using hr
      subst hb
      rw [hop] at h
      obtain ⟨e'', hd⟩ := hgo h h' hm
      exact ⟨e'', .single (by rwa [hop])⟩
  | @join l' vs ws operator _ _ _ _ hl ho hr' =>
      obtain rfl : l' = l := by simpa using hr
      obtain ⟨rfl, rfl⟩ := List.append_eq_nil_iff.mp hb
      rw [hop] at hr'
      obtain ⟨e'', hd⟩ := hgo hr' h' hm
      rw [List.append_assoc, List.cons_append]
      exact ⟨_, .join hl ho (by rwa [hop])⟩

/-- Where the operands go on, expressions of the looser level go on. -/
theorem GoesOn.looser {l m : Level} (hgo : GoesOn m) (ht : l.tighter = some m) : GoesOn l := by
  intro ts us e e' h h' hm
  refine h'.append_of_operand rfl rfl hm fun vs d hd hm => ?_
  rw [operand_eq_level ht] at hd
  exact hgo.append_operand ht h rfl rfl hd hm

theorem goesOn_disjunction : GoesOn .disjunction := by
  have hcomparison : GoesOn .comparison := goesOn_term.looser rfl
  have hequality : GoesOn .equality := hcomparison.looser rfl
  have hconjunction : GoesOn .conjunction := hequality.looser rfl
  exact hconjunction.looser rfl

/-- Any expression goes on with an expression that starts with a minus sign. -/
theorem Expression.append_minus {ts us : List Token} {e e' : Expr}
    (h : Expression .expression ts e []) (h' : Expression .expression us e' [])
    (hm : nextIs (· = .minus) us) : ∃ e'', Expression .expression (ts ++ us) e'' [] := by
  -- an assignment without a fault does not start with a minus sign
  have hlevel : Expression (.level .disjunction) us e' [] := by
    generalize hb : ([] : List Token) = bad at h'
    cases h' with
    | loosest h' => exact h'
    | assign hn => simp [hn] at hm
    | misassign => simp at hb
  generalize hr : Rule.expression = r, hb : ([] : List Token) = bad at h
  induction h with
  | loosest h _ =>
      subst hb
      obtain ⟨e'', hd⟩ := goesOn_disjunction h hlevel hm
      exact ⟨e'', .loosest hd⟩
  | assign hn he _ ih =>
      obtain ⟨e'', hd⟩ := ih rfl hb
      exact ⟨_, .assign hn he hd⟩
  | misassign => simp at hb
  | single | join | unary | primary | atom | grouping => cases hr

/-- What comes behind a statement and starts with a minus sign is an expression statement first. -/
theorem Ending.split_minus {n : Nat} {ifs : List Nat} {ts : List Token}
    (h : Ending .behind (n :: ifs) ts) (hm : nextIs (· = .minus) ts) :
    ∃ us e semicolon rest, ts = us ++ semicolon :: rest ∧ Expression .expression us e [] ∧
      nextIs (· = .minus) us ∧ semicolon.kind = .semicolon ∧ Ending .declarations ifs rest := by
  cases h with
  | other hw => simp [hw] at hm
  | next h =>
      cases h with
      | nil => cases hm
      | close hk | declare hk | declareValue hk => simp [hk] at hm
      | first h =>
          cases h with
          | print hk | block hk | ifThen hk => simp [hk] at hm
          | expression hv hs h =>
              cases h with
              | next h => exact ⟨_, _, _, _, rfl, hv, nextIs_of_append hv.ne_nil hm, hs, h⟩

/-- With its semicolon, a declaration precedes what comes behind it. -/
theorem Unended.ending {n : Nat} {us ts : List Token} {ifs : List Nat} {semicolon : Token}
    (h : Unended n us) (hs : semicolon.kind = .semicolon) (he : Ending .behind (n :: ifs) ts) :
    Ending .declarations ifs (us ++ semicolon :: ts) := by
  cases h with
  | declare hk hn =>
      cases he with
      | next he => exact .declare hk hn hs he
  | declareValue hk hn heq hv =>
      cases he with
      | next he => exact .declareValue hk hn heq hv hs he
  | expression hh hv =>
      have hstatement := Ending.expression hv hs he
      rw [← Nat.zero_add n] at hstatement
      rw [List.append_assoc]
      exact .first (hh.ending hstatement)
  | print hh hk hv =>
      have hstatement := Ending.print hk hv hs he
      rw [← Nat.zero_add n] at hstatement
      rw [List.append_assoc]
      exact .first (hh.ending hstatement)

/-- Without its semicolon, a declaration that ends with an expression goes on with an expression
statement that starts with a minus sign. -/
theorem Unended.append_minus {n : Nat} {us vs : List Token} {e : Expr} (h : Unended n us)
    (hv : Expression .expression vs e []) (hm : nextIs (· = .minus) vs) :
    (∃ keyword name, us = [keyword, name] ∧ keyword.kind = .kwVar ∧ name.kind = .identifier) ∨
      Unended n (us ++ vs) := by
  cases h with
  | declare hk hn => exact .inl ⟨_, _, rfl, hk, hn⟩
  | declareValue hk hn he hv' =>
      obtain ⟨e', hd⟩ := hv'.append_minus hv hm
      exact .inr (.declareValue hk hn he hd)
  | expression hh hv' =>
      obtain ⟨e', hd⟩ := hv'.append_minus hv hm
      rw [List.append_assoc]
      exact .inr (.expression hh hd)
  | print hh hk hv' =>
      obtain ⟨e', hd⟩ := hv'.append_minus hv hm
      rw [List.append_assoc, List.cons_append]
      exact .inr (.print hh hk hd)

end Grammar

end Lox
