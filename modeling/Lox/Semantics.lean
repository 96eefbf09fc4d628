import Std.Data.ExtTreeMap
import Lox.Failure
import Lox.Number.Canonical
import Lox.Syntax

set_option autoImplicit false

/-! # Natural semantics

The meaning of programs as a relation, without scopes that are opened and closed by number. The
variables are a list of finite maps, the innermost first and the global variables last. A block
runs on an empty map in front of the others, which is gone after it, however it ends. Output goes
to a sink by `Writer.write`.

Which values count as false, which are equal and what is shown of them is told here as well
(`Falsy`, `Same`, `Shows`). A number shows its canonical text.

`Evaluates`, `Executes` and `ExecutesAll` relate a tree and the state before it to what comes of
it and the state after. They say nothing of trees with an operator that does not fit its node.
-/

namespace Lox.Semantics

/-! ## Variables -/

/-- The variables, from the innermost block out. -/
abbrev Frames := List (Std.ExtTreeMap String Value)

namespace Frames

/-- Binds a name in the first map. -/
def define (name : String) (value : Value) : Frames → Frames
  | [] => []
  | m :: ms => m.insert name value :: ms

/-- The value of a name in the first map that binds it. -/
def get? (name : String) : Frames → Option Value
  | [] => none
  | m :: ms => m[name]?.or (get? name ms)

/-- Binds a name anew in the first map that binds it, if there is one. -/
def assign? (name : String) (value : Value) : Frames → Option Frames
  | [] => none
  | m :: ms =>
    if name ∈ m then some (m.insert name value :: ms) else (assign? name value ms).map (m :: ·)

end Frames

/-! ## Values -/

/-- The values that count as false. -/
inductive Falsy : Value → Prop
  | nil : Falsy .nil
  | false : Falsy (.boolean false)

/-- The values that are equal for the language. Numbers are compared as numbers. -/
inductive Same : Value → Value → Prop
  | nil : Same .nil .nil
  | boolean {b : Bool} : Same (.boolean b) (.boolean b)
  | number {x y : Float} (h : x == y) : Same (.number x) (.number y)
  | string {s : String} : Same (.string s) (.string s)

/-- What a print statement shows of a value. -/
inductive Shows : Value → String → Prop
  | nil : Shows .nil "nil"
  | true : Shows (.boolean true) "true"
  | false : Shows (.boolean false) "false"
  | number {x : Float} {text : String} (h : Numeral.IsCanonical x text) : Shows (.number x) text
  | string {s : String} : Shows (.string s) s

/-! ## Operators -/

/-- What comes of an operator on one value. -/
inductive Unary (operator : Token) : Value → Except RuntimeError Value → Prop
  | negate {x : Float} (h : operator.kind = .minus) :
      Unary operator (.number x) (.ok (.number (-x)))
  | negateOther {v : Value} (h : operator.kind = .minus) (hv : ∀ x, v ≠ .number x) :
      Unary operator v (.error ⟨operator, .operandsNotNumbers⟩)
  | notFalsy {v : Value} (h : operator.kind = .bang) (hv : Falsy v) :
      Unary operator v (.ok (.boolean true))
  | notTruthy {v : Value} (h : operator.kind = .bang) (hv : ¬Falsy v) :
      Unary operator v (.ok (.boolean false))

/-- The operators that take numbers only: what they make of numbers, and what is wrong with other
values. -/
inductive Numeric : Token.Kind → (Float → Float → Value) → RuntimeError.Cause → Prop
  | subtract : Numeric .minus (fun x y => .number (x - y)) .operandsNotNumbers
  | multiply : Numeric .star (fun x y => .number (x * y)) .operandNotNumber
  | divide : Numeric .slash (fun x y => .number (x / y)) .operandNotNumber
  | greater : Numeric .greater (fun x y => .boolean (x > y)) .operandNotNumber
  | greaterEqual : Numeric .greaterEqual (fun x y => .boolean (x ≥ y)) .operandNotNumber
  | less : Numeric .less (fun x y => .boolean (x < y)) .operandNotNumber
  | lessEqual : Numeric .lessEqual (fun x y => .boolean (x ≤ y)) .operandNotNumber

/-- What comes of an operator on two values. -/
inductive Binary (operator : Token) : Value → Value → Except RuntimeError Value → Prop
  | add {x y : Float} (h : operator.kind = .plus) :
      Binary operator (.number x) (.number y) (.ok (.number (x + y)))
  | join {s t : String} (h : operator.kind = .plus) :
      Binary operator (.string s) (.string t) (.ok (.string (s ++ t)))
  | addOther {v w : Value} (h : operator.kind = .plus)
      (hn : ∀ x y, ¬(v = .number x ∧ w = .number y))
      (hs : ∀ s t, ¬(v = .string s ∧ w = .string t)) :
      Binary operator v w (.error ⟨operator, .operandsNotAddable⟩)
  | numbers {f : Float → Float → Value} {cause : RuntimeError.Cause} {x y : Float}
      (h : Numeric operator.kind f cause) :
      Binary operator (.number x) (.number y) (.ok (f x y))
  | others {f : Float → Float → Value} {cause : RuntimeError.Cause} {v w : Value}
      (h : Numeric operator.kind f cause) (hn : ∀ x y, ¬(v = .number x ∧ w = .number y)) :
      Binary operator v w (.error ⟨operator, cause⟩)
  | equal {v w : Value} (h : operator.kind = .bangEqual ∨ operator.kind = .equalEqual)
      (hvw : Same v w) : Binary operator v w (.ok (.boolean false))
  | unequal {v w : Value} (h : operator.kind = .bangEqual ∨ operator.kind = .equalEqual)
      (hvw : ¬Same v w) : Binary operator v w (.ok (.boolean true))

/-- Whether a logical operator has its left operand as the result. -/
inductive Decides (operator : Token) : Value → Bool → Prop
  | andFalsy {v : Value} (h : operator.kind = .kwAnd) (hv : Falsy v) : Decides operator v true
  | andTruthy {v : Value} (h : operator.kind = .kwAnd) (hv : ¬Falsy v) : Decides operator v false
  | orFalsy {v : Value} (h : operator.kind = .kwOr) (hv : Falsy v) : Decides operator v false
  | orTruthy {v : Value} (h : operator.kind = .kwOr) (hv : ¬Falsy v) : Decides operator v true

/-! ## Expressions -/

/-- The fault of using a name that is bound nowhere. -/
def unbound (name : Token) : RuntimeError := ⟨name, .undefinedVariable name.lexeme⟩

/-- `Evaluates e ms r ms'`: on the variables `ms`, the expression `e` comes to the value or fault
`r`, and the variables then are `ms'`. Operands are evaluated from left to right. -/
inductive Evaluates : Expr → Frames → Except RuntimeError Value → Frames → Prop
  | literal {v : Value} {ms : Frames} : Evaluates (.literal v) ms (.ok v) ms
  | grouping {e : Expr} {r : Except RuntimeError Value} {ms ms' : Frames}
      (h : Evaluates e ms r ms') : Evaluates (.grouping e) ms r ms'
  | unary {operator : Token} {e : Expr} {v : Value} {r : Except RuntimeError Value}
      {ms ms' : Frames} (h : Evaluates e ms (.ok v) ms') (hr : Unary operator v r) :
      Evaluates (.unary operator e) ms r ms'
  | unaryFails {operator : Token} {e : Expr} {f : RuntimeError} {ms ms' : Frames}
      (h : Evaluates e ms (.error f) ms') : Evaluates (.unary operator e) ms (.error f) ms'
  | binary {operator : Token} {a b : Expr} {v w : Value} {r : Except RuntimeError Value}
      {ms ms' ms'' : Frames} (ha : Evaluates a ms (.ok v) ms') (hb : Evaluates b ms' (.ok w) ms'')
      (hr : Binary operator v w r) : Evaluates (.binary a operator b) ms r ms''
  | binaryLeftFails {operator : Token} {a b : Expr} {f : RuntimeError} {ms ms' : Frames}
      (ha : Evaluates a ms (.error f) ms') : Evaluates (.binary a operator b) ms (.error f) ms'
  | binaryRightFails {operator : Token} {a b : Expr} {v : Value} {f : RuntimeError}
      {ms ms' ms'' : Frames} (ha : Evaluates a ms (.ok v) ms')
      (hb : Evaluates b ms' (.error f) ms'') : Evaluates (.binary a operator b) ms (.error f) ms''
  | logicalDecided {operator : Token} {a b : Expr} {v : Value} {ms ms' : Frames}
      (ha : Evaluates a ms (.ok v) ms') (hd : Decides operator v true) :
      Evaluates (.logical a operator b) ms (.ok v) ms'
  | logicalOpen {operator : Token} {a b : Expr} {v : Value} {r : Except RuntimeError Value}
      {ms ms' ms'' : Frames} (ha : Evaluates a ms (.ok v) ms') (hd : Decides operator v false)
      (hb : Evaluates b ms' r ms'') : Evaluates (.logical a operator b) ms r ms''
  | logicalFails {operator : Token} {a b : Expr} {f : RuntimeError} {ms ms' : Frames}
      (ha : Evaluates a ms (.error f) ms') : Evaluates (.logical a operator b) ms (.error f) ms'
  | var {name : Token} {v : Value} {ms : Frames} (h : ms.get? name.lexeme = some v) :
      Evaluates (.var name) ms (.ok v) ms
  | varUnbound {name : Token} {ms : Frames} (h : ms.get? name.lexeme = none) :
      Evaluates (.var name) ms (.error (unbound name)) ms
  | assign {name : Token} {e : Expr} {v : Value} {ms ms' ms'' : Frames}
      (h : Evaluates e ms (.ok v) ms') (ha : ms'.assign? name.lexeme v = some ms'') :
      Evaluates (.assign name e) ms (.ok v) ms''
  | assignUnbound {name : Token} {e : Expr} {v : Value} {ms ms' : Frames}
      (h : Evaluates e ms (.ok v) ms') (ha : ms'.assign? name.lexeme v = none) :
      Evaluates (.assign name e) ms (.error (unbound name)) ms'
  | assignFails {name : Token} {e : Expr} {f : RuntimeError} {ms ms' : Frames}
      (h : Evaluates e ms (.error f) ms') : Evaluates (.assign name e) ms (.error f) ms'

/-! ## Output -/

variable {ω : Type} [Writer ω]

/-- `Writes bytes sink r sink'`: what comes of offering bytes to a sink until it has taken all. -/
inductive Writes : List UInt8 → ω → Except WriteError Unit → ω → Prop
  | nothing {sink : ω} : Writes [] sink (.ok ()) sink
  | some {bytes : List UInt8} {sink sink' sink'' : ω} {n : Nat} {r : Except WriteError Unit}
      (hne : bytes ≠ []) (h : Writer.write bytes sink = (.took n, sink')) (hn : n ≠ 0)
      (hr : Writes (bytes.drop n) sink' r sink'') : Writes bytes sink r sink''
  | stalled {bytes : List UInt8} {sink sink' : ω} (hne : bytes ≠ [])
      (h : Writer.write bytes sink = (.took 0, sink')) : Writes bytes sink (.error .stalled) sink'
  | refused {bytes : List UInt8} {sink sink' : ω} {reason : String} (hne : bytes ≠ [])
      (h : Writer.write bytes sink = (.refused reason, sink')) :
      Writes bytes sink (.error (.refused reason)) sink'

/-- The UTF-8 bytes of a text. -/
def bytesOf (text : String) : List UInt8 := text.toUTF8.data.toList

/-- `Prints text sink r sink'`: what comes of writing a text and then a line break. -/
inductive Prints : String → ω → Except WriteError Unit → ω → Prop
  | line {text : String} {sink sink' sink'' : ω} {r : Except WriteError Unit}
      (ht : Writes (bytesOf text) sink (.ok ()) sink') (hn : Writes (bytesOf "\n") sink' r sink'') :
      Prints text sink r sink''
  | textFails {text : String} {sink sink' : ω} {e : WriteError}
      (ht : Writes (bytesOf text) sink (.error e) sink') : Prints text sink (.error e) sink'

/-! ## Statements -/

/-- What comes of a statement. -/
inductive Outcome where
  | done
  | runtime (e : RuntimeError)
  | output (e : WriteError)
deriving DecidableEq

/-- A statement that writes fails if and only if the writing does. -/
def Outcome.ofWriting : Except WriteError Unit → Outcome
  | .ok () => done
  | .error e => output e

/-- The variables and the sink. -/
structure State (ω : Type) where
  frames : Frames
  sink : ω

mutual

/-- `Executes s σ o σ'`: in the state `σ`, the statement `s` has the outcome `o` and leaves the
state `σ'` behind. -/
inductive Executes : Stmt → State ω → Outcome → State ω → Prop
  | expression {e : Expr} {v : Value} {ms ms' : Frames} {sink : ω}
      (h : Evaluates e ms (.ok v) ms') :
      Executes (.expression e) ⟨ms, sink⟩ .done ⟨ms', sink⟩
  | expressionFails {e : Expr} {f : RuntimeError} {ms ms' : Frames} {sink : ω}
      (h : Evaluates e ms (.error f) ms') :
      Executes (.expression e) ⟨ms, sink⟩ (.runtime f) ⟨ms', sink⟩
  | print {e : Expr} {v : Value} {text : String} {r : Except WriteError Unit} {ms ms' : Frames}
      {sink sink' : ω} (h : Evaluates e ms (.ok v) ms') (ht : Shows v text)
      (hp : Prints text sink r sink') :
      Executes (.print e) ⟨ms, sink⟩ (.ofWriting r) ⟨ms', sink'⟩
  | printFails {e : Expr} {f : RuntimeError} {ms ms' : Frames} {sink : ω}
      (h : Evaluates e ms (.error f) ms') :
      Executes (.print e) ⟨ms, sink⟩ (.runtime f) ⟨ms', sink⟩
  | declare {name : Token} {ms : Frames} {sink : ω} :
      Executes (.declare name none) ⟨ms, sink⟩ .done ⟨ms.define name.lexeme .nil, sink⟩
  | declareValue {name : Token} {e : Expr} {v : Value} {ms ms' : Frames} {sink : ω}
      (h : Evaluates e ms (.ok v) ms') :
      Executes (.declare name (some e)) ⟨ms, sink⟩ .done ⟨ms'.define name.lexeme v, sink⟩
  | declareFails {name : Token} {e : Expr} {f : RuntimeError} {ms ms' : Frames} {sink : ω}
      (h : Evaluates e ms (.error f) ms') :
      Executes (.declare name (some e)) ⟨ms, sink⟩ (.runtime f) ⟨ms', sink⟩
  | block {body : List Stmt} {o : Outcome} {m : Std.ExtTreeMap String Value} {ms ms' : Frames}
      {sink sink' : ω} (h : ExecutesAll body ⟨∅ :: ms, sink⟩ o ⟨m :: ms', sink'⟩) :
      Executes (.block body) ⟨ms, sink⟩ o ⟨ms', sink'⟩
  | thenBranch {c : Expr} {s : Stmt} {v : Value} {o : Outcome} {ms ms' : Frames} {sink : ω}
      {σ : State ω} (hc : Evaluates c ms (.ok v) ms') (hv : ¬Falsy v)
      (h : Executes s ⟨ms', sink⟩ o σ) : Executes (.ifThen c s) ⟨ms, sink⟩ o σ
  | noBranch {c : Expr} {s : Stmt} {v : Value} {ms ms' : Frames} {sink : ω}
      (hc : Evaluates c ms (.ok v) ms') (hv : Falsy v) :
      Executes (.ifThen c s) ⟨ms, sink⟩ .done ⟨ms', sink⟩
  | conditionFails {c : Expr} {s : Stmt} {f : RuntimeError} {ms ms' : Frames} {sink : ω}
      (hc : Evaluates c ms (.error f) ms') :
      Executes (.ifThen c s) ⟨ms, sink⟩ (.runtime f) ⟨ms', sink⟩
  | firstBranch {c : Expr} {s t : Stmt} {v : Value} {o : Outcome} {ms ms' : Frames} {sink : ω}
      {σ : State ω} (hc : Evaluates c ms (.ok v) ms') (hv : ¬Falsy v)
      (h : Executes s ⟨ms', sink⟩ o σ) : Executes (.ifElse c s t) ⟨ms, sink⟩ o σ
  | secondBranch {c : Expr} {s t : Stmt} {v : Value} {o : Outcome} {ms ms' : Frames} {sink : ω}
      {σ : State ω} (hc : Evaluates c ms (.ok v) ms') (hv : Falsy v)
      (h : Executes t ⟨ms', sink⟩ o σ) : Executes (.ifElse c s t) ⟨ms, sink⟩ o σ
  | choiceFails {c : Expr} {s t : Stmt} {f : RuntimeError} {ms ms' : Frames} {sink : ω}
      (hc : Evaluates c ms (.error f) ms') :
      Executes (.ifElse c s t) ⟨ms, sink⟩ (.runtime f) ⟨ms', sink⟩

/-- Executes statements one after the other, up to the first that is not done. -/
inductive ExecutesAll : List Stmt → State ω → Outcome → State ω → Prop
  | nil {σ : State ω} : ExecutesAll [] σ .done σ
  | cons {s : Stmt} {ss : List Stmt} {o : Outcome} {σ σ' σ'' : State ω}
      (h : Executes s σ .done σ') (hs : ExecutesAll ss σ' o σ'') :
      ExecutesAll (s :: ss) σ o σ''
  | fails {s : Stmt} {ss : List Stmt} {o : Outcome} {σ σ' : State ω} (h : Executes s σ o σ')
      (ho : o ≠ .done) : ExecutesAll (s :: ss) σ o σ'

end

end Lox.Semantics
