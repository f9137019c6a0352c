import OsProjects.Jit.Reflect
import OsProjects.Jit.ParserCorrect
import Mathlib.Data.List.Perm.Basic

/-!
# The generated program against the tree

The parser hands out each node number once, so no declaration takes a name that another
has. Execution of the declarations of a tree extends the environment by the names of its
nodes and leaves the value of the tree under the name of its root.
-/
namespace OsProjects.Jit

section
variable {ν α : Type} {dag : Dag ν} {I : Arith ν α} {env env' : Env α}
  {ds es : List (Decl ν)} {d : Decl ν}

/-- The numbers of the nodes. -/
def Dag.ids : Dag ν → List Nat
  | .val id _ => [id]
  | .neg id right => id :: right.ids
  | .bin _ id left right => id :: (left.ids ++ right.ids)

def Rhs.uses : Rhs ν → List Nat
  | .lit _ => []
  | .neg i => [i]
  | .op _ i j => [i, j]
  | .guarded c i j => [c, i, j]

/-- Each declaration uses names of `seen` or of declarations before it. -/
def Ordered (seen : List Nat) : List (Decl ν) → Prop
  | [] => True
  | d :: ds => (∀ i ∈ d.rhs.uses, i ∈ seen) ∧ Ordered (seen ++ [d.target]) ds

/-- The declaration of the root. -/
def Dag.decl : Dag ν → Decl ν
  | .val id v => ⟨id, .lit v⟩
  | .neg id right => ⟨id, .neg right.id⟩
  | .bin .div id left right => ⟨id, .guarded right.id left.id right.id⟩
  | .bin op id left right => ⟨id, .op op left.id right.id⟩

theorem reflect_bin (op : DagOp) (id : Nat) (left right : Dag ν) :
    reflect (.bin op id left right) =
      reflect left ++ reflect right ++ [(Dag.bin op id left right).decl] := by
  cases op <;> rfl

@[simp] theorem decl_target (op : DagOp) (id : Nat) (left right : Dag ν) :
    (Dag.bin op id left right).decl.target = id := by
  cases op <;> rfl

theorem mem_uses_decl {op : DagOp} {id i : Nat} {left right : Dag ν}
    (h : i ∈ (Dag.bin op id left right).decl.rhs.uses) : i = left.id ∨ i = right.id := by
  cases op <;> simp [Dag.decl, Rhs.uses] at h <;> tauto

theorem reflect_targets (dag : Dag ν) : ((reflect dag).map Decl.target).Perm dag.ids := by
  induction dag with
  | val id v => exact List.Perm.refl _
  | neg id right ih =>
    simp only [reflect, List.map_append, List.map_cons, List.map_nil]
    exact (List.perm_append_singleton _ _).trans (ih.cons _)
  | bin op id left right ihl ihr =>
    rw [reflect_bin, List.map_append, List.map_append, List.map_cons, decl_target]
    exact (List.perm_append_singleton _ _).trans ((ihl.append ihr).cons _)

theorem id_mem_targets (dag : Dag ν) : dag.id ∈ (reflect dag).map Decl.target := by
  apply (reflect_targets dag).mem_iff.mpr
  cases dag <;> simp [Dag.id, Dag.ids]

theorem ordered_append {seen : List Nat} :
    Ordered seen (ds ++ es) ↔ Ordered seen ds ∧ Ordered (seen ++ ds.map Decl.target) es := by
  induction ds generalizing seen with
  | nil => simp [Ordered]
  | cons d ds ih =>
    simp only [List.cons_append, Ordered, ih, List.map_cons, List.append_assoc, List.nil_append,
      and_assoc]

theorem reflect_ordered (dag : Dag ν) (seen : List Nat) : Ordered seen (reflect dag) := by
  induction dag generalizing seen with
  | val id v => simp [reflect, Ordered, Rhs.uses]
  | neg id right ih =>
    rw [reflect, ordered_append]
    refine ⟨ih seen, fun i mem => ?_, trivial⟩
    rw [List.mem_singleton.mp mem]
    exact List.mem_append_right _ (id_mem_targets right)
  | bin op id left right ihl ihr =>
    rw [reflect_bin, ordered_append, ordered_append]
    refine ⟨⟨ihl seen, ihr _⟩, fun i mem => ?_, trivial⟩
    rw [List.map_append]
    rcases mem_uses_decl mem with rfl | rfl
    · exact List.mem_append_right _ (List.mem_append_left _ (id_mem_targets left))
    · exact List.mem_append_right _ (List.mem_append_right _ (id_mem_targets right))

theorem exec_append (ds es : List (Decl ν)) (env : Env α) :
    exec I (ds ++ es) env = (exec I ds env).bind (exec I es) := by
  induction ds generalizing env with
  | nil => rfl
  | cons d ds ih =>
    simp only [List.cons_append, exec, Option.bind_assoc]
    congr 1
    funext env'
    exact ih env'

theorem Dag.id_mem (dag : Dag ν) : dag.id ∈ dag.ids := by
  cases dag <;> simp [Dag.id, Dag.ids]

/-- The last declaration of a tree computes its value from those of the operands. -/
theorem decl_eval {op : DagOp} {id : Nat} {left right : Dag ν}
    (l : env left.id = some (left.eval I)) (r : env right.id = some (right.eval I)) :
    (Dag.bin op id left right).decl.rhs.eval I env = some ((Dag.bin op id left right).eval I) := by
  cases op with
  | div =>
    by_cases zero : I.isZero (right.eval I) = true <;>
      simp [Dag.decl, Rhs.eval, l, r, Dag.eval, zero]
  | _ => simp [Dag.decl, Rhs.eval, l, r, Dag.eval]

theorem exec_concat (run : exec I ds env = some env') (free : env' d.target = none)
    {v : α} (value : d.rhs.eval I env' = some v) :
    exec I (ds ++ [d]) env = some (Function.update env' d.target (some v)) := by
  simp [exec_append, run, exec, Decl.exec, free, value]

/-- Execution leaves the value of the tree under its root and touches the names of its nodes
only. -/
theorem exec_reflect (I : Arith ν α) (dag : Dag ν) (nodup : dag.ids.Nodup) (env : Env α)
    (free : ∀ i ∈ dag.ids, env i = none) :
    ∃ env', exec I (reflect dag) env = some env' ∧ env' dag.id = some (dag.eval I) ∧
      ∀ i, i ∉ dag.ids → env' i = env i := by
  induction dag generalizing env with
  | val id v =>
    have free : env id = none := free id (by simp [Dag.ids])
    refine ⟨Function.update env id (some (I.lit v)), ?_, ?_, fun i out => ?_⟩
    · simp [reflect, exec, Decl.exec, free, Rhs.eval]
    · simp [Dag.id, Dag.eval]
    · exact Function.update_of_ne (by simpa [Dag.ids] using out) _ _
  | neg id right ih =>
    obtain ⟨out, nodup⟩ := List.nodup_cons.mp nodup
    obtain ⟨here, free⟩ := List.forall_mem_cons.mp free
    obtain ⟨env₁, run, value, same⟩ := ih nodup env free
    have free₁ : env₁ id = none := (same id out).trans here
    have result : (Rhs.neg right.id : Rhs ν).eval I env₁ = some (I.neg (right.eval I)) := by
      simp [Rhs.eval, value]
    refine ⟨_, exec_concat run free₁ result, by simp [Dag.id, Dag.eval], fun i out' => ?_⟩
    obtain ⟨ne, out'⟩ := not_or.mp (List.mem_cons.not.mp out')
    rw [Function.update_of_ne ne, same i out']
  | bin op id left right ihl ihr =>
    obtain ⟨out, nodup⟩ := List.nodup_cons.mp nodup
    obtain ⟨here, free⟩ := List.forall_mem_cons.mp free
    obtain ⟨nodupl, nodupr, apart⟩ := List.nodup_append.mp nodup
    obtain ⟨freel, freer⟩ := List.forall_mem_append.mp free
    obtain ⟨outl, outr⟩ := not_or.mp (List.mem_append.not.mp out)
    obtain ⟨env₁, run₁, value₁, same₁⟩ := ihl nodupl env freel
    have untouched : ∀ i ∈ right.ids, i ∉ left.ids := fun i mem mem' => apart i mem' i mem rfl
    obtain ⟨env₂, run₂, value₂, same₂⟩ := ihr nodupr env₁ fun i mem =>
      (same₁ i (untouched i mem)).trans (freer i mem)
    have kept : env₂ left.id = some (left.eval I) := by
      rw [same₂ _ fun mem => untouched _ mem left.id_mem, value₁]
    have free₂ : env₂ id = none := by rw [same₂ id outr, same₁ id outl, here]
    have run : exec I (reflect left ++ reflect right) env = some env₂ := by
      rw [exec_append, run₁, Option.bind_some, run₂]
    rw [reflect_bin]
    have free₂ : env₂ (Dag.bin op id left right).decl.target = none := by rw [decl_target, free₂]
    refine ⟨_, exec_concat run free₂ (decl_eval kept value₂), by simp [Dag.id], fun i out' => ?_⟩
    simp only [Dag.ids, List.mem_cons, List.mem_append, not_or] at out'
    rw [decl_target, Function.update_of_ne out'.1, same₂ i out'.2.2, same₁ i out'.2.1]

/-- The functions of the parser, with the numbers of the tree they are given. -/
inductive Builds : List Nat → (Nat → Parser ν → Result ν) → Prop where
  | primary : Builds [] exprPrimary
  | unary : Builds [] exprUnary
  | tail {level : Level} (dag : Dag ν) : Builds dag.ids fun fuel => exprLoop level fuel dag dag
  | binary {level : Level} : Builds [] (exprBinary level)

/-- The numbers that a parse hands out follow the last one. -/
def Numbers (base : List Nat) (last : Nat) (result : Result ν) : Prop :=
  ∀ dag p', result = .ok (some dag, p') →
    ∃ n, p'.id = last + n ∧ dag.ids.Perm (base ++ List.range' (last + 1) n)

theorem exprOperand_numbers (level : Level) {fuel : Nat} (p : Parser ν)
    (h : ∀ n < fuel, ∀ run, Builds [] run → Numbers [] p.id (run n p)) :
    Numbers [] p.id (exprOperand level fuel p) := by
  cases fuel with
  | zero => simp [exprOperand_zero, Numbers]
  | succ fuel =>
    cases level with
    | multiplicative => simpa only [exprOperand] using h fuel (Nat.lt_succ_self _) _ .unary
    | additive => simpa only [exprOperand] using h fuel (Nat.lt_succ_self _) _ .binary

/-- The numbers of a binary node, its operands and what is parsed after it. -/
theorem numbers_bin {op : DagOp} {last n m : Nat} {left right : Dag ν} {ids : List Nat}
    (operand : right.ids.Perm (List.range' (last + 1 + 1) n))
    (more : ids.Perm ((Dag.bin op (last + 1) left right).ids ++
      List.range' (last + 1 + n + 1) m)) :
    ids.Perm (left.ids ++ List.range' (last + 1) (n + 1 + m)) := by
  have split : List.range' (last + 1) (n + 1 + m) =
      (last + 1) :: (List.range' (last + 1 + 1) n ++ List.range' (last + 1 + n + 1) m) := by
    rw [← List.range'_append_1, List.range'_succ, List.cons_append]
    rfl
  rw [split]
  refine more.trans (((operand.append_left left.ids).cons _).append_right _ |>.trans ?_)
  simp only [List.cons_append, List.append_assoc]
  exact List.perm_middle.symm

theorem parse_numbers (fuel : Nat) : ∀ base run, Builds base run →
    ∀ p : Parser ν, Numbers base p.id (run fuel p) := by
  induction fuel using Nat.strong_induction_on with
  | _ fuel ih =>
    intro base run builds p dag p' ok
    cases fuel with
    | zero =>
      cases builds <;> simp [exprPrimary, exprUnary, exprLoop, exprBinary] at ok
    | succ fuel =>
      have operand := fun level (p : Parser ν) =>
        exprOperand_numbers level p fun n lt run builds =>
          ih n (Nat.lt_succ_of_lt (lt : n < fuel)) _ run builds p
      cases builds with
      | primary =>
        simp only [exprPrimary] at ok
        split at ok
        · obtain ⟨rfl, rfl⟩ : _ ∧ _ := by simpa using ok
          exact ⟨1, rfl, List.Perm.refl _⟩
        · cases fuel with
          | zero => simp [expr] at ok
          | succ fuel =>
            simp only [expr] at ok
            split at ok
            · simp at ok
            · simp at ok
            · rename_i inner q run
              split at ok
              · obtain ⟨rfl, rfl⟩ : _ ∧ _ := by simpa using ok
                have numbers := ih fuel (by omega) _ _ .binary _ _ _ run
                exact numbers
              · simp at ok
        · simp at ok
      | unary =>
        simp only [exprUnary] at ok
        split at ok
        · split at ok
          · simp at ok
          · simp at ok
          · rename_i inner q run
            obtain ⟨rfl, rfl⟩ : _ ∧ _ := by simpa using ok
            have numbers := ih fuel (Nat.lt_succ_self fuel) _ _ .unary _ _ _ run
            exact numbers
        · split at ok
          · simp at ok
          · simp at ok
          · rename_i inner q run
            obtain ⟨rfl, rfl⟩ : _ ∧ _ := by simpa using ok
            obtain ⟨n, id, perm⟩ := ih fuel (Nat.lt_succ_self fuel) _ _ .unary _ _ _ run
            refine ⟨n + 1, by simp only at id; omega, ?_⟩
            rw [List.range'_succ]
            exact perm.cons _
        · exact ih fuel (Nat.lt_succ_self fuel) _ _ .primary _ _ _ ok
      | @tail level left =>
        simp only [exprLoop] at ok
        split at ok
        · obtain ⟨rfl, rfl⟩ : _ ∧ _ := by simpa using ok
          exact ⟨0, rfl, by simp⟩
        · split at ok
          · obtain ⟨rfl, rfl⟩ : _ ∧ _ := by simpa using ok
            exact ⟨0, rfl, by simp⟩
          · split at ok
            · simp at ok
            · simp only [invalidOperand] at ok
              split at ok <;> simp at ok
            · rename_i right p₁ run
              split at ok
              · simp at ok
              · simp at ok
              · rename_i again
                obtain ⟨n, id, perm⟩ := operand level _ _ _ run
                obtain ⟨m, id₂, perm₂⟩ :=
                  ih fuel (Nat.lt_succ_self fuel) _ _ (.tail _) _ _ _ again
                -- after the self call no operator of the level is left
                obtain ⟨_, _, _, ended⟩ := parse_sound fuel _ _ (.tail _) _ _ _ again
                cases fuel with
                | zero => simp [exprLoop] at ok
                | succ fuel =>
                  rw [exprLoop_ends ended] at ok
                  obtain ⟨rfl, rfl⟩ : _ ∧ _ := by simpa using ok
                  simp only at id perm
                  rw [id] at perm₂ id₂
                  exact ⟨n + 1 + m, by omega, numbers_bin perm perm₂⟩
      | @binary level =>
        simp only [exprBinary] at ok
        split at ok
        · simp at ok
        · simp at ok
        · rename_i left p₁ run
          obtain ⟨n, id, perm⟩ := operand level _ _ _ run
          obtain ⟨m, id₂, perm₂⟩ := ih fuel (Nat.lt_succ_self fuel) _ _ (.tail left) _ _ _ ok
          refine ⟨n + m, by omega, perm₂.trans ?_⟩
          rw [id, ← List.range'_append_1, Nat.add_right_comm]
          exact perm.append_right _

def Dag.size : Dag ν → Nat
  | .val _ _ => 1
  | .neg _ right => right.size + 1
  | .bin _ _ left right => left.size + right.size + 1

theorem Dag.length_ids (dag : Dag ν) : dag.ids.length = dag.size := by
  induction dag with
  | val => rfl
  | neg id right ih => simp [Dag.ids, Dag.size, ih]
  | bin op id left right ihl ihr => simp [Dag.ids, Dag.size, ihl, ihr]

/-- The nodes of a parsed tree are numbered from one on. -/
theorem parse_ids {toks : List (Token ν)} (h : parse toks = .ok (some dag)) :
    dag.ids.Perm (List.range' 1 dag.size) := by
  obtain ⟨fuel, eq, _⟩ := expr_enough toks ⟨0, none, toks⟩ rfl
  simp only [parse, top, eq] at h
  cases run : exprBinary .additive fuel ⟨0, none, toks⟩ with
  | error e => simp [run, Except.map] at h
  | ok result =>
    obtain ⟨_ | d, p'⟩ := result
    · simp [run, Except.map] at h
    · simp only [run] at h
      split at h
      · obtain rfl : d = dag := by simpa [Except.map] using h
        obtain ⟨n, _, perm⟩ := parse_numbers fuel _ _ .binary _ _ _ run
        have length := perm.length_eq
        simp only [List.nil_append, List.length_range', Dag.length_ids] at length perm
        rw [length]
        exact perm
      · simp [Except.map] at h

end

/-- For every tree that the parser returns, the nodes are numbered from one to their number, the
program declares the temporary of each node once and uses those declared before, and under any
arithmetic it hands the value of the tree to the sigmoid. -/
theorem generate_correct {ν : Type} {toks : List (Token ν)} {dag : Dag ν}
    (h : parse toks = .ok (some dag)) :
    dag.ids.Perm (List.range' 1 dag.size) ∧ ((reflect dag).map Decl.target).Perm dag.ids ∧
      ((reflect dag).map Decl.target).Nodup ∧ Ordered [] (reflect dag) ∧
      ∀ {α : Type} (I : Arith ν α) (sigmoid : α → α),
        ∃ env, exec I (generateWithSigmoid dag).body (fun _ => none) = some env ∧
          env (generateWithSigmoid dag).result = some (dag.eval I) ∧
          (generateWithSigmoid dag).evaluate I sigmoid = some (sigmoid (dag.eval I)) := by
  have ids := parse_ids h
  have nodup : dag.ids.Nodup := ids.nodup_iff.mpr List.nodup_range'
  have targets := reflect_targets dag
  refine ⟨ids, targets, targets.nodup_iff.mpr nodup, reflect_ordered dag [], ?_⟩
  intro α I sigmoid
  obtain ⟨env, run, value, _⟩ := exec_reflect I dag nodup (fun _ => none) fun _ _ => rfl
  refine ⟨env, run, value, ?_⟩
  simp [Program.evaluate, generateWithSigmoid, run, value]

def intArith : Arith Int Int where
  lit v := v
  neg x := -x
  op
    | .mul, x, y => x * y
    | .div, x, y => x / y
    | .add, x, y => x + y
    | .sub, x, y => x - y
  zero := 0
  isZero x := x == 0

theorem generate_correct_sub :
    ∃ dag, parse [.val 7, .sub, .val 2, .div, .val 0] = .ok (some dag) ∧
      (generateWithSigmoid dag).evaluate intArith id = some 7 := by
  have ok : parse [.val (7 : Int), .sub, .val 2, .div, .val 0] =
      .ok (some (.bin .sub 2 (.val 1 7) (.bin .div 4 (.val 3 2) (.val 5 0)))) := rfl
  obtain ⟨_, _, _, _, runs⟩ := generate_correct ok
  obtain ⟨_, _, _, value⟩ := runs intArith id
  exact ⟨_, ok, value⟩

end OsProjects.Jit
