import OsProjects.Jit.Parser
import Mathlib.Logic.Function.Basic

/-!
# The generated program (`main.c`)

`reflect` writes one declaration for each node of a tree, operands first, and
`generate_with_sigmoid` wraps them into a C function. Execution of the declarations is
defined over any interpretation of the arithmetic, beside the direct evaluation of the
tree.
-/
namespace OsProjects.Jit

/-- What stands on the right of a declaration; `t<i>` is the number `i`. -/
inductive Rhs (ν : Type) where
  | lit (v : ν)
  | neg (i : Nat)
  | op (op : DagOp) (i j : Nat)
  /-- `t<c> ? (t<i> / t<j>) : 0.0` -/
  | guarded (c i j : Nat)
  deriving DecidableEq, Repr

/-- `double t<target> = <rhs>;` -/
structure Decl (ν : Type) where
  target : Nat
  rhs : Rhs ν
  deriving DecidableEq, Repr

section
variable {ν α : Type}

def Dag.id : Dag ν → Nat
  | .val id _ => id
  | .neg id _ => id
  | .bin _ id _ _ => id

/-- The declarations that `reflect` writes. -/
def reflect : Dag ν → List (Decl ν)
  | .val id v => [⟨id, .lit v⟩]
  | .neg id right => reflect right ++ [⟨id, .neg right.id⟩]
  | .bin .mul id left right => reflect left ++ reflect right ++ [⟨id, .op .mul left.id right.id⟩]
  | .bin .div id left right =>
    reflect left ++ reflect right ++ [⟨id, .guarded right.id left.id right.id⟩]
  | .bin .add id left right => reflect left ++ reflect right ++ [⟨id, .op .add left.id right.id⟩]
  | .bin .sub id left right => reflect left ++ reflect right ++ [⟨id, .op .sub left.id right.id⟩]

def DagOp.symbol : DagOp → String
  | .mul => "*"
  | .div => "/"
  | .add => "+"
  | .sub => "-"

def temp (i : Nat) : String := "t" ++ toString i

/-- The text of a right side; `fmt` is the conversion `%f`. -/
def Rhs.text (fmt : ν → String) : Rhs ν → String
  | .lit v => fmt v
  | .neg i => "- " ++ temp i
  | .op o i j => temp i ++ " " ++ o.symbol ++ " " ++ temp j
  | .guarded c i j => temp c ++ " ? (" ++ temp i ++ " / " ++ temp j ++ ") : 0.0"

def Decl.text (fmt : ν → String) (d : Decl ν) : String :=
  "double " ++ temp d.target ++ " = " ++ d.rhs.text fmt ++ ";\n"

/-- The function `evaluate` of the generated file. -/
structure Program (ν : Type) where
  body : List (Decl ν)
  result : Nat
  deriving DecidableEq, Repr

def generateWithSigmoid (dag : Dag ν) : Program ν := ⟨reflect dag, dag.id⟩

/-- The file that `generate_with_sigmoid` writes. -/
def Program.text (fmt : ν → String) (p : Program ν) : String :=
  "typedef double (*sigmoid_t)(double);\n" ++ "double evaluate(sigmoid_t sigmoid_fnc) \x7b\n" ++
    String.join (p.body.map (Decl.text fmt)) ++ "return sigmoid_fnc(" ++ temp p.result ++ ");\n\x7d\n"

/-- An interpretation of the arithmetic. A value is zero when a condition takes it as false. -/
structure Arith (ν α : Type) where
  lit : ν → α
  neg : α → α
  op : DagOp → α → α → α
  zero : α
  isZero : α → Bool

/-- The value of a tree. -/
def Dag.eval (I : Arith ν α) : Dag ν → α
  | .val _ v => I.lit v
  | .neg _ right => I.neg (right.eval I)
  | .bin .div _ left right =>
    if I.isZero (right.eval I) then I.zero else I.op .div (left.eval I) (right.eval I)
  | .bin op _ left right => I.op op (left.eval I) (right.eval I)

/-- The temporaries that are declared. -/
abbrev Env (α : Type) := Nat → Option α

def Rhs.eval (I : Arith ν α) (env : Env α) : Rhs ν → Option α
  | .lit v => some (I.lit v)
  | .neg i => return I.neg (← env i)
  | .op o i j => return I.op o (← env i) (← env j)
  | .guarded c i j => do
    if I.isZero (← env c) then return I.zero else return I.op .div (← env i) (← env j)

/-- A declaration takes a name that is not taken and uses names that are. -/
def Decl.exec (I : Arith ν α) (d : Decl ν) (env : Env α) : Option (Env α) :=
  if (env d.target).isSome then none
  else (d.rhs.eval I env).map fun v => Function.update env d.target (some v)

def exec (I : Arith ν α) : List (Decl ν) → Env α → Option (Env α)
  | [], env => some env
  | d :: ds, env => (d.exec I env).bind (exec I ds)

def Program.evaluate (I : Arith ν α) (sigmoid : α → α) (p : Program ν) : Option α := do
  let env ← exec I p.body fun _ => none
  let v ← env p.result
  return sigmoid v

end

example : (generateWithSigmoid (.bin .div 2 (.val 1 1) (.val 3 0))).text (fun v : Nat => toString v)
    = "typedef double (*sigmoid_t)(double);\ndouble evaluate(sigmoid_t sigmoid_fnc) \x7b\n" ++
      "double t1 = 1;\ndouble t3 = 0;\ndouble t2 = t3 ? (t1 / t3) : 0.0;\n" ++
      "return sigmoid_fnc(t2);\n\x7d\n" := by decide +kernel

end OsProjects.Jit
