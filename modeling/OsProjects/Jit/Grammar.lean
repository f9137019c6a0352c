import OsProjects.Jit.Parser

/-!
# The documented grammar

`Derives` is the grammar that the comments of `parser.c` give, with the tree each rule
builds. The tail of a binary level carries the tree of what stands before it, so both
levels associate to the left. `Misses` describes the token lists on which a parse runs
out of operand under a pending binary `+` or `-`.
-/
namespace OsProjects.Jit

variable {ν : Type}

/-- A parse tree without node numbers. -/
inductive Tree (ν : Type) where
  | val (v : ν)
  | neg (right : Tree ν)
  | bin (op : DagOp) (left right : Tree ν)
  deriving DecidableEq, Repr

def Dag.tree : Dag ν → Tree ν
  | .val _ v => .val v
  | .neg _ right => .neg right.tree
  | .bin op _ left right => .bin op left.tree right.tree

/-- The nonterminals: `expr_primary`, `expr_unary`, and for both binary levels the rule with
and without the underscore. -/
inductive Symbol (ν : Type) where
  | primary
  | unary
  | tail (level : Level) (left : Tree ν)
  | binary (level : Level)

/-- The operands of a level. -/
def Level.operand : Level → Symbol ν
  | .multiplicative => .unary
  | .additive => .binary .multiplicative

inductive Derives : Symbol ν → List (Token ν) → Tree ν → Prop where
  | val (v : ν) : Derives .primary [.val v] (.val v)
  | paren {w : List (Token ν)} {t : Tree ν} :
      Derives (.binary .additive) w t → Derives .primary (.open_ :: (w ++ [.close])) t
  | plus {w : List (Token ν)} {t : Tree ν} : Derives .unary w t → Derives .unary (.add :: w) t
  | minus {w : List (Token ν)} {t : Tree ν} :
      Derives .unary w t → Derives .unary (.sub :: w) (.neg t)
  | unsigned {w : List (Token ν)} {t : Tree ν} : Derives .primary w t → Derives .unary w t
  | nil {level : Level} {left : Tree ν} : Derives (.tail level left) [] left
  | cons {level : Level} {left right t : Tree ν} {tok : Token ν} {op : DagOp}
      {w w' : List (Token ν)} : level.op tok = some op → Derives level.operand w right →
      Derives (.tail level (.bin op left right)) w' t →
      Derives (.tail level left) (tok :: (w ++ w')) t
  | binary {level : Level} {left t : Tree ν} {w w' : List (Token ν)} :
      Derives level.operand w left → Derives (.tail level left) w' t →
      Derives (.binary level) (w ++ w') t

/-- `top : expr`, over the whole token list. -/
def DerivesTop (toks : List (Token ν)) (t : Tree ν) : Prop := Derives (.binary .additive) toks t

/-- The next token is no operator of the level. -/
def Ends (level : Level) (toks : List (Token ν)) : Prop :=
  ∀ tok rest, toks = tok :: rest → level.op tok = none

/-- The token lists whose parse finds no operand for a binary `+` or `-`. The operand is missing
when no prefix that the next token ends is a multiplicative expression. -/
inductive Misses : Symbol ν → List (Token ν) → Prop where
  | paren {w : List (Token ν)} : Misses (.binary .additive) w → Misses .primary (.open_ :: w)
  | sign {tok : Token ν} {w : List (Token ν)} :
      tok = .add ∨ tok = .sub → Misses .unary w → Misses .unary (tok :: w)
  | unsigned {w : List (Token ν)} : Misses .primary w → Misses .unary w
  | here {left : Tree ν} {tok : Token ν} {op : DagOp} {w : List (Token ν)} :
      Level.additive.op tok = some op →
      (∀ v rest t, w = v ++ rest → Ends .multiplicative rest →
        ¬ Derives (.binary .multiplicative) v t) →
      Misses (.tail .additive left) (tok :: w)
  | operand {level : Level} {left : Tree ν} {tok : Token ν} {op : DagOp} {w : List (Token ν)} :
      level.op tok = some op → Misses level.operand w → Misses (.tail level left) (tok :: w)
  | later {level : Level} {left right : Tree ν} {tok : Token ν} {op : DagOp}
      {w w' : List (Token ν)} : level.op tok = some op → Derives level.operand w right →
      Misses (.tail level (.bin op left right)) w' → Misses (.tail level left) (tok :: (w ++ w'))
  | first {level : Level} {w : List (Token ν)} : Misses level.operand w → Misses (.binary level) w
  | tail {level : Level} {left : Tree ν} {w w' : List (Token ν)} :
      Derives level.operand w left → Misses (.tail level left) w' → Misses (.binary level) (w ++ w')

/-- A token is an operator of at most one level. -/
theorem Level.op_additive {tok : Token ν} {op : DagOp} (h : Level.additive.op tok = some op) :
    Level.multiplicative.op tok = none := by
  cases tok <;> simp_all [Level.op]

/-- What may follow the words of a symbol in a greedy parse. -/
def Symbol.Follows : Symbol ν → List (Token ν) → Prop
  | .primary, _ => True
  | .unary, _ => True
  | .tail level _, rest => Ends level rest ∧ Ends .multiplicative rest
  | .binary level, rest => Ends level rest ∧ Ends .multiplicative rest

theorem Ends.nil (level : Level) : Ends level ([] : List (Token ν)) := by
  intro tok rest h
  cases h

theorem Ends.cons {level : Level} {tok : Token ν} (h : level.op tok = none)
    (rest : List (Token ν)) : Ends level (tok :: rest) := by
  rintro _ _ ⟨⟩
  exact h

theorem Level.operand_follows_cons {level : Level} {tok : Token ν} {op : DagOp}
    (h : level.op tok = some op) (rest : List (Token ν)) :
    (level.operand : Symbol ν).Follows (tok :: rest) := by
  cases level with
  | multiplicative => trivial
  | additive => exact ⟨Ends.cons (Level.op_additive h) rest, Ends.cons (Level.op_additive h) rest⟩

theorem Level.operand_follows {level : Level} {rest : List (Token ν)}
    (h : Ends .multiplicative rest) : (level.operand : Symbol ν).Follows rest := by
  cases level with
  | multiplicative => trivial
  | additive => exact ⟨h, h⟩

/-- The operand of a level may be followed by a tail of the level. -/
theorem Derives.operand_follows {level : Level} {left t : Tree ν} {w rest : List (Token ν)}
    (h : Derives (.tail level left) w t) (follows : Ends .multiplicative rest) :
    (level.operand : Symbol ν).Follows (w ++ rest) := by
  cases h with
  | nil => exact Level.operand_follows follows
  | cons operator _ _ => exact Level.operand_follows_cons operator _

theorem Misses.operand_follows {level : Level} {left : Tree ν} {w : List (Token ν)}
    (h : Misses (.tail level left) w) : (level.operand : Symbol ν).Follows w := by
  cases h with
  | here operator _ => exact Level.operand_follows_cons operator _
  | operand operator _ => exact Level.operand_follows_cons operator _
  | later operator _ _ => exact Level.operand_follows_cons operator _

end OsProjects.Jit
