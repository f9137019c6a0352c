import OsProjects.Library.Memory

/-!
# The line editor (`shell.c`)

`state.history` is one stretch of `H * N` bytes, and a slot is an address in it. Each `history[k]` is
checked for its index and each access for the bounds of the table; what the editor shows on the
terminal is left out.
-/
namespace OsProjects.Shell
open OsProjects.Library

/-- History slots. -/
def H : Nat := 96

/-- Bytes per slot. -/
def N : Nat := 160

inductive Fault where
  | index
  | bytes
  deriving DecidableEq, Repr

/-- The address of `state.history[k]`. -/
def slot (k : Nat) : Except Fault Nat := if k < H then .ok (k * N) else .error .index

/-- The zero bytes of a table are looked for up to its end. -/
def strlenFrom (mem : Mem) : Nat → Nat → Except Fault Nat
  | 0, _ => .error .bytes
  | fuel + 1, p => if mem p = 0 then .ok 0 else (strlenFrom mem fuel (p + 1)).map (· + 1)

def strlen (mem : Mem) (p : Nat) : Except Fault Nat := strlenFrom mem (H * N - p) p

def memmove (mem : Mem) (dst src len : Nat) : Except Fault Mem :=
  if dst + len ≤ H * N ∧ src + len ≤ H * N then .ok (mem.write dst (mem.read src len))
  else .error .bytes

/-- `*p = b`. -/
def put (mem : Mem) (p : Nat) (b : UInt8) : Except Fault Mem :=
  if p < H * N then .ok (Function.update mem p b) else .error .bytes

def strncpy (mem : Mem) (dst src len : Nat) : Except Fault Mem :=
  if dst + len ≤ H * N ∧ src + len ≤ H * N then
    let text := (mem.read src len).takeWhile (· ≠ 0)
    .ok (mem.write dst (text ++ List.replicate (len - text.length) 0))
  else .error .bytes

/-- In the C locale. -/
def isspace (b : UInt8) : Bool := b = 32 || 9 ≤ b && b ≤ 13

def isprint (k : Nat) : Bool := 32 ≤ k && k ≤ 126

/-- A key as `getchar` gives it: an escape sequence with its last character, or one character. -/
inductive Key where
  | escape (c : Nat)
  | code (k : Nat)
  deriving DecidableEq, Repr

/-- The variables of `read_line`; `last` is `state.n`. -/
structure Editor where
  mem : Mem
  buf : Nat
  last : Nat
  j : Nat
  i : Nat
  n : Nat

/-- `buf` becomes the line in slot `j`. -/
def Editor.recall (e : Editor) (j : Nat) : Except Fault Editor := do
  let mem ← put e.mem e.buf 0
  let src ← slot j
  let mem ← (if e.buf ≠ src then strncpy mem e.buf src N else pure mem)
  let n ← strlen mem e.buf
  return { e with mem := mem, j := j, i := n, n := n }

def Editor.kill (e : Editor) : Except Fault Editor := do
  let mem ← put e.mem (e.buf + e.i) 0
  let n ← strlen mem e.buf
  return { e with mem := mem, i := n, n := n }

def Editor.delete (e : Editor) : Except Fault Editor :=
  if e.n > e.i then do
    let len ← strlen e.mem (e.buf + e.i + 1)
    let mem ← memmove e.mem (e.buf + e.i) (e.buf + e.i + 1) (len + 1)
    return { e with mem := mem, n := e.n - 1 }
  else return e

def Editor.backspace (e : Editor) : Except Fault Editor :=
  if 0 < e.i then do
    let len ← strlen e.mem (e.buf + e.i)
    let mem ← memmove e.mem (e.buf + e.i - 1) (e.buf + e.i) (len + 1)
    return { e with mem := mem, i := e.i - 1, n := e.n - 1 }
  else return e

def Editor.blank (e : Editor) : Except Fault Editor :=
  if N > e.n then do
    let len ← strlen e.mem (e.buf + e.i)
    let mem ← memmove e.mem (e.buf + e.i + 1) (e.buf + e.i) (len + 1)
    let mem ← put mem (e.buf + e.i) 32
    return { e with mem := mem, i := e.i + 1, n := e.n + 1 }
  else return e

def Editor.print (e : Editor) (k : Nat) : Except Fault Editor :=
  if e.n + 1 < N then do
    let mem ←
      (if e.i < e.n then do
        let len ← strlen e.mem (e.buf + e.i)
        memmove e.mem (e.buf + e.i + 1) (e.buf + e.i) len
      else pure e.mem)
    let mem ← put mem (e.buf + e.i) (UInt8.ofNat k)
    let mem ← put mem (e.buf + (e.n + 1)) 0
    return { e with mem := mem, i := e.i + 1, n := e.n + 1 }
  else return e

/-- One round of the loop. A newline leaves the loop and changes nothing. -/
def Editor.press (e : Editor) : Key → Except Fault Editor
  | .escape c =>
    if c = 65 then if 0 < e.j then e.recall (e.j - 1) else return e
    else if c = 66 then if e.last > e.j then e.recall (e.j + 1) else return e
    else if c = 67 then return { e with i := if e.i < e.n then e.i + 1 else e.n }
    else if c = 68 then return { e with i := if e.i > 0 then e.i - 1 else 0 }
    else return e
  | .code k =>
    if k = 11 then e.kill
    else if k = 12 then return e
    else if k = 4 then e.delete
    else if k = 8 ∨ k = 127 then e.backspace
    else if k = 32 ∨ k = 9 then e.blank
    else if k = 10 then return e
    else if isprint k then e.print k
    else return e

def Editor.edit (e : Editor) : List Key → Except Fault Editor
  | [] => return e
  | key :: keys => do
    let e ← e.press key
    e.edit keys

structure State where
  i : Nat
  n : Nat
  history : Mem

/-- The start of `read_line`, where `state.i` and `j` become `state.n`. -/
def State.editor (s : State) : Except Fault Editor := do
  let buf ← slot s.n
  let n ← strlen s.history buf
  return ⟨s.history, buf, s.n, s.n, n, n⟩

/-- The loop of `read_line`, over the keys before the newline. -/
def State.edit (s : State) (keys : List Key) : Except Fault Editor := do
  let e ← s.editor
  e.edit keys

def shellStrtrim (mem : Mem) (s : Nat) : Except Fault Mem := do
  let len ← strlen mem s
  let text := mem.read s len
  let b := (text.takeWhile isspace).length
  let e := len - (text.reverse.takeWhile isspace).length
  let n := if b < e then e - b else 0
  let mem ← memmove mem s (s + b) n
  put mem (s + n) 0

/-- `state.n` after a line, and the slot behind it emptied. -/
def State.advance (s : State) : Except Fault State :=
  if s.i = s.n then do
    let n := if H > s.n + 1 then s.n + 1 else H
    let next ← slot n
    let mem ← put s.history next 0
    return ⟨s.i, n, mem⟩
  else return s

/-- The line of `read_line` for the keys before the newline, its buffer and its length. -/
def State.line (s : State) (keys : List Key) : Except Fault (State × Nat × Nat) := do
  let e ← s.edit keys
  let mem ← shellStrtrim e.mem e.buf
  let len ← strlen mem e.buf
  return (⟨s.n, s.n, mem⟩, e.buf, len)

/-- The second part is the line that is returned, unless it is `NULL`. -/
def State.readLine (s : State) (keys : List Key) : Except Fault (State × Option Nat) := do
  let (s, buf, len) ← s.line keys
  if len ≠ 0 then
    let s ← s.advance
    return (s, some buf)
  else return (s, none)

/-- The loop of `shell`, for the keys of each line; `fnc` is what the caller does with a line. -/
def State.shell (fnc : Mem → Nat → Mem) (s : State) : List (List Key) → Except Fault State
  | [] => return s
  | keys :: lines => do
    let (s, line) ← s.readLine keys
    match line with
    | none => s.shell fnc lines
    | some buf => State.shell fnc { s with history := fnc s.history buf } lines

end OsProjects.Shell
