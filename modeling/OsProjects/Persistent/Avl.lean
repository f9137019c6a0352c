import OsProjects.Library.AvlTree
import OsProjects.Persistent.Scm

/-!
# The word tree (`avl.c`)

A tree of counted strings that lives in a persistent region: nodes and strings are
blocks of the region, and the first block holds the two counters and the root pointer.
The functions read and write the bytes of the mapping. A dereference outside of the
mapping faults, and so does a recursion through more nodes than the region has bytes.
-/
namespace OsProjects.Persistent
open OsProjects.Library

/-- A run on a region. -/
abbrev Prog := StateT Scm (Except Fault)

/-- `struct node`, an `int` and four words of eight bytes from offset 8 on -/
structure Node where
  depth : Int
  count : Nat
  item : Nat
  left : Nat
  right : Nat
  deriving DecidableEq, Repr

/-- `sizeof (struct node)` -/
def nodeLen : Nat := 40

/-- `sizeof (struct state)`: `items`, `unique`, `root` -/
def stateLen : Nat := 24

def Node.child : Side → Node → Nat
  | .left, n => n.left
  | .right, n => n.right

/-- A four-byte `int`. -/
def toInt (n : Nat) : Int := if n < 2 ^ 31 then n else n - 2 ^ 32

def Scm.node (scm : Scm) (p : Nat) : Node where
  depth := toInt (scm.mem.load 4 p)
  count := scm.mem.load 8 (p + 8)
  item := scm.mem.load 8 (p + 16)
  left := scm.mem.load 8 (p + 24)
  right := scm.mem.load 8 (p + 32)

def Scm.Maps (scm : Scm) (p : Nat) : Prop := virtAddr ≤ p ∧ p < virtAddr + scm.capacity

instance (scm : Scm) (p : Nat) : Decidable (scm.Maps p) := inferInstanceAs (Decidable (_ ∧ _))

def fault (f : Fault) {α : Type} : Prog α := fun _ => .error f

def getNode (p : Nat) : Prog Node := fun scm =>
  if scm.Maps p then .ok (scm.node p, scm) else .error .segv

/-- A write through the pointer `p`. -/
def poke (p i : Nat) (bytes : Bytes) : Prog Unit := fun scm =>
  if scm.Maps p then .ok ((), { scm with mem := scm.mem.write (p + i) bytes }) else .error .segv

def setDepth (p : Nat) (d : Int) : Prog Unit := poke p 0 (leBytes 4 (d % 2 ^ 32).toNat)

def setCount (p n : Nat) : Prog Unit := poke p 8 (leBytes 8 n)

def setItem (p n : Nat) : Prog Unit := poke p 16 (leBytes 8 n)

def setChild : Side → Nat → Nat → Prog Unit
  | .left, p, n => poke p 24 (leBytes 8 n)
  | .right, p, n => poke p 32 (leBytes 8 n)

/-- `*to = *from` -/
def copyNode (target source : Nat) : Prog Unit := fun scm =>
  if scm.Maps source then poke target 0 (scm.mem.read source nodeLen) scm else .error .segv

/-- The bytes up to the first zero, within the given number of bytes. -/
def cString (m : Mem) : Nat → Nat → Option Bytes
  | 0, _ => none
  | fuel + 1, a => if m a = 0 then some [] else (cString m fuel (a + 1)).map (m a :: ·)

/-- The string at `p`, which ends inside the mapping. -/
def getString (p : Nat) : Prog Bytes := fun scm =>
  if scm.Maps p then
    match cString scm.mem (virtAddr + scm.capacity - p) p with
    | some s => .ok (s, scm)
    | none => .error .segv
  else .error .segv

/-- `strcmp` of strings without a zero byte: by the first byte that differs, then by length. -/
def strcmp (s t : Bytes) : Ordering := compare s t

/-- The sign of `strcmp` with which an item belongs on a side. -/
def order : Side → Ordering
  | .left => .lt
  | .right => .gt

def malloc (n : Nat) : Prog (Option Nat) := fun scm => scmMalloc scm n

def strdup (s : Bytes) : Prog (Option Nat) := fun scm => scmStrdup scm s

def free (p : Nat) : Prog Unit := fun scm => .ok ((), scmFree scm p)

/-- The words of the state block, which stands first: `items`, `unique`, `root`. -/
def Scm.items (scm : Scm) : Nat := scm.mem.load 8 (scmMbase scm)

def Scm.unique (scm : Scm) : Nat := scm.mem.load 8 (scmMbase scm + 8)

def Scm.root (scm : Scm) : Nat := scm.mem.load 8 (scmMbase scm + 16)

def setItems (f : Nat → Nat) : Prog Unit := fun scm =>
  poke (scmMbase scm) 0 (leBytes 8 (f scm.items)) scm

def setUnique (f : Nat → Nat) : Prog Unit := fun scm =>
  poke (scmMbase scm) 8 (leBytes 8 (f scm.unique)) scm

def setRoot (p : Nat) : Prog Unit := fun scm => poke (scmMbase scm) 16 (leBytes 8 p) scm

/-- `--` on a `uint64_t` -/
def decr (n : Nat) : Nat := n + (2 ^ 64 - 1)

def delta (node : Nat) : Prog Int :=
  if node = 0 then pure (-1) else do
    let n ← getNode node
    return n.depth

def balance (node : Nat) : Prog Int := do
  let n ← getNode node
  let l ← delta n.left
  let r ← delta n.right
  return l - r

def depth (a b : Nat) : Prog Int := do
  let da ← delta a
  let db ← delta b
  return if db < da then da + 1 else db + 1

/-- `node->depth = depth(node->left, node->right)` -/
def updateDepth (node : Nat) : Prog Unit := do
  let n ← getNode node
  let d ← depth n.left n.right
  setDepth node d

/-- The two rotations, by the side of the child that moves up. -/
def rotate (side : Side) (node : Nat) : Prog Nat := do
  let n ← getNode node
  let root := n.child side
  let m ← getNode root
  setChild side node (m.child side.other)
  setChild side.other root node
  updateDepth node
  let m ← getNode root
  let d ← depth (m.child side) node
  setDepth root d
  return root

def rotateRight : Nat → Prog Nat := rotate .left

def rotateLeft : Nat → Prog Nat := rotate .right

/-- The two double rotations, by the side of the child that is rotated first. -/
def rotateTwice (side : Side) (node : Nat) : Prog Nat := do
  let n ← getNode node
  let root ← rotate side.other (n.child side)
  setChild side node root
  rotate side node

def rotateLeftRight : Nat → Prog Nat := rotateTwice .left

def rotateRightLeft : Nat → Prog Nat := rotateTwice .right

/-- A new node. Where its string finds no room, the node stays allocated. -/
def newNode (item : Bytes) : Prog Nat := do
  match ← malloc nodeLen with
  | none => return 0
  | some root =>
    poke root 0 (List.replicate nodeLen 0)
    match ← strdup item with
    | none => return 0
    | some s =>
      setItem root s
      let n ← getNode root
      setCount root (n.count + 1)
      setItems (· + 1)
      setUnique (· + 1)
      return root

/-- After an insertion on a side: rotate where the tree has lost its balance, once if the item has
gone to the same side of the child. -/
def settle (side : Side) (root : Nat) (item : Bytes) : Prog Nat := do
  let b ← balance root
  if 1 < b.natAbs then
    let n ← getNode root
    let m ← getNode (n.child side)
    let s ← getString m.item
    if strcmp item s = order side then rotate side root else rotateTwice side root
  else return root

/-- `update`; the last lines of the function are the last two of each branch. -/
def update (item : Bytes) : Nat → Nat → Prog Nat
  | 0, _ => fault .hang
  | fuel + 1, root =>
    if root = 0 then newNode item
    else do
      let n ← getNode root
      let s ← getString n.item
      match strcmp item s with
      | .eq =>
        setCount root (n.count + 1)
        setItems (· + 1)
        updateDepth root
        return root
      | .lt =>
        let left ← update item fuel n.left
        setChild .left root left
        let root ← settle .left root item
        updateDepth root
        return root
      | .gt =>
        let right ← update item fuel n.right
        setChild .right root right
        let root ← settle .right root item
        updateDepth root
        return root

/-- `traverse` with a callback that collects what it is given. -/
def traverse : Nat → Nat → Prog (List (Bytes × Nat))
  | 0, _ => fault .hang
  | fuel + 1, node =>
    if node = 0 then return []
    else do
      let n ← getNode node
      let before ← traverse fuel n.left
      let s ← getString n.item
      let after ← traverse fuel n.right
      return before ++ (s, n.count) :: after

/-- The loop of `avl_exists`. -/
def search (item : Bytes) : Nat → Nat → Prog Nat
  | 0, _ => fault .hang
  | fuel + 1, node =>
    if node = 0 then return 0
    else do
      let n ← getNode node
      let s ← getString n.item
      match strcmp item s with
      | .eq => return n.count
      | .lt => search item fuel n.left
      | .gt => search item fuel n.right

/-- The loop of `remove_node` to the leftmost node. -/
def leftmost : Nat → Nat → Prog Nat
  | 0, _ => fault .hang
  | fuel + 1, temp => do
    let t ← getNode temp
    if t.left = 0 then return temp else leftmost fuel t.left

/-- The last lines of `remove_node`. -/
def restoreBalance (root : Nat) : Prog Nat := do
  updateDepth root
  let bal ← balance root
  let n ← getNode root
  if 1 < bal then
    let b ← balance n.left
    if 0 ≤ b then rotateRight root else rotateLeftRight root
  else if bal < -1 then
    let b ← balance n.right
    if b ≤ 0 then rotateLeft root else rotateRightLeft root
  else return root

/-- Frees the string and the node of `temp`, by its fields after the copy. -/
def freeNode (temp : Nat) : Prog Unit := do
  let t ← getNode temp
  free t.item
  free temp
  setItems decr
  setUnique decr

/-- `remove_node`; no string changes on the way, so the item is passed by its bytes. -/
def removeNode : Nat → Nat → Bytes → Prog Nat
  | 0, _, _ => fault .hang
  | fuel + 1, root, item =>
    if root = 0 then return root
    else do
      let n ← getNode root
      let s ← getString n.item
      match strcmp item s with
      | .lt =>
        let left ← removeNode fuel n.left item
        setChild .left root left
        restoreBalance root
      | .gt =>
        let right ← removeNode fuel n.right item
        setChild .right root right
        restoreBalance root
      | .eq =>
        if 1 < n.count then
          setCount root (decr n.count)
          setItems decr
          return root
        else if n.left = 0 ∨ n.right = 0 then
          let temp := if n.left ≠ 0 then n.left else n.right
          if temp = 0 then
            freeNode root
            return 0
          else
            copyNode root temp
            freeNode temp
            restoreBalance root
        else
          let temp ← leftmost fuel n.right
          let t ← getNode temp
          setItem root t.item
          setCount root t.count
          let s ← getString t.item
          let right ← removeNode fuel n.right s
          setChild .right root right
          restoreBalance root

/-- A walk that visits more nodes than the region has bytes visits one twice and does not end. -/
def walkFuel (scm : Scm) : Nat := scm.capacity + 1

/-- `avl_open` on a file of `capacity` bytes -/
def avlOpen (file : Mem) (capacity : Nat) (mapped : virtAddr + capacity < 2 ^ 64)
    (truncate : Bool) : Except Fault (Option Scm) :=
  let scm := scmOpen file capacity mapped truncate
  if scm.utilized ≠ 0 then .ok (some scm)
  else
    match scmMalloc scm stateLen with
    | .error e => .error e
    | .ok (none, _) => .ok none
    | .ok (some p, scm) =>
      if p = scmMbase scm then
        .ok (some { scm with mem := scm.mem.write p (List.replicate stateLen 0) })
      else .error .assertion

def avlInsert (item : Bytes) : Prog Int := fun scm =>
  match update item (walkFuel scm) scm.root scm with
  | .error e => .error e
  | .ok (root, scm) =>
    if root = 0 then .ok (-1, scm)
    else do
      let (_, scm) ← setRoot root scm
      return (0, scm)

def avlExists (scm : Scm) (item : Bytes) : Except Fault Nat :=
  (search item (walkFuel scm) scm.root scm).map Prod.fst

def avlTraverse (scm : Scm) : Except Fault (List (Bytes × Nat)) :=
  (traverse (walkFuel scm) scm.root scm).map Prod.fst

def avlItems (scm : Scm) : Nat := scm.items

def avlUnique (scm : Scm) : Nat := scm.unique

def avlRemove (item : Bytes) : Prog Int := fun scm => do
  let (root, scm) ← removeNode (walkFuel scm) scm.root item scm
  let (_, scm) ← setRoot root scm
  return (0, scm)

end OsProjects.Persistent
