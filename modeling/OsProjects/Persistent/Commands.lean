import OsProjects.Persistent.Avl
import OsProjects.Shell.LineSessions

/-!
# The commands of the word program (`main.c`)

The shell hands a line to `shell_fnc`, which looks its first letters up in a table of commands, trims
the rest of the line in its slot and calls the command with it. Each command is a function of the rest
of the line and of the region; what it prints is collected. The files that may be loaded are a
parameter, by their names.
-/
namespace OsProjects.Persistent
open OsProjects.Library

/-- A fault in the table of the shell or in the region. -/
inductive Crash where
  | table (f : Shell.Fault)
  | region (f : Fault)
  deriving DecidableEq, Repr

def table {α : Type} (x : Except Shell.Fault α) : Except Crash α := x.mapError .table

def region {α : Type} (x : Except Fault α) : Except Crash α := x.mapError .region

/-- The bytes of a text. -/
def ascii (s : String) : Bytes := s.toList.map fun c => UInt8.ofNat c.toNat

/-- `%lu` -/
def decimal (n : Nat) : Bytes := (Nat.toDigits 10 n).map fun c => UInt8.ofNat c.toNat

def quoted (s : Bytes) : Bytes := ascii "'" ++ s ++ ascii "'"

-- What the program prints.
namespace Text

def absent (s : Bytes) : Bytes := quoted s ++ ascii " does not exist\n"

def present (s : Bytes) (count : Nat) : Bytes :=
  quoted s ++ ascii " x " ++ decimal count ++ ascii " exists\n"

def notInserted (s : Bytes) : Bytes := ascii "error: failed to insert " ++ quoted s

def notOpened (s : Bytes) : Bytes :=
  ascii "error: unable to open " ++ quoted s ++ ascii " for reading\n"

def notLoaded (word : Bytes) : Bytes := ascii "error: unable to load " ++ quoted word

def listed (word : Bytes) (count : Nat) : Bytes :=
  quoted word ++ ascii " x " ++ decimal count ++ ascii "\n"

def info (items unique utilized capacity : Nat) : Bytes :=
  ascii "\n-- info -- \n" ++
  ascii "  words    : " ++ decimal items ++ ascii " (total)\n" ++
  ascii "  words    : " ++ decimal unique ++ ascii " (unique)\n" ++
  ascii "  utilized : " ++ decimal utilized ++ ascii " bytes\n" ++
  ascii "  capacity : " ++ decimal capacity ++ ascii " bytes\n\n"

def help : Bytes :=
  ascii "\n-- commands -- \n" ++
  ascii "  quit          : exit the program\n" ++
  ascii "  help          : prints this menu\n" ++
  ascii "  info          : report info\n" ++
  ascii "  list          : list words in sorted order\n" ++
  ascii "  load pathname : load words from file @ 'pathname'\n" ++
  ascii "  insert word   : insert 'word'\n" ++
  ascii "  exists word   : check if 'word' exists\n" ++
  ascii " remove word    : remove word\n\n"

def missing : Bytes := ascii "error: missing argument\n"

def notInTree (s : Bytes) : Bytes := quoted s ++ ascii " does not exist in the tree\n"

def notRemoved (s : Bytes) : Bytes := ascii "error: unable to remove " ++ quoted s ++ ascii "\n"

def removed (s : Bytes) : Bytes := quoted s ++ ascii " removed\n"

def bad (s : Bytes) : Bytes :=
  ascii "error: bad command/argument (" ++ (if s ≠ [] then s else ascii "missing argument") ++
    ascii ")\n"

end Text

/-- What a command prints, whether it returns a value other than zero, and the region. -/
abbrev Command := Bytes → Scm → Except Crash (Bytes × Bool × Scm)

-- The functions of `main.c`.
namespace Main

def exists_ : Command := fun s scm => do
  let count ← region (avlExists scm s)
  if count = 0 then return (Text.absent s, false, scm)
  else return (Text.present s count, false, scm)

def insert : Command := fun s scm => do
  let (r, scm) ← region (avlInsert s scm)
  if r ≠ 0 then return (Text.notInserted s, false, scm)
  else return ([], false, scm)

/-- `fgets` on what is left of a file: at most `n` bytes, up to a newline, and the rest. -/
def fgets : Nat → Bytes → Bytes × Bytes
  | 0, text => ([], text)
  | _ + 1, [] => ([], [])
  | n + 1, b :: text => if b = 10 then ([b], text) else (b :: (fgets n text).1, (fgets n text).2)

/-- The pieces that `fgets` gives until the end of the file, for `char word[256]`. -/
def pieces : Nat → Bytes → List Bytes
  | 0, _ => []
  | fuel + 1, text =>
    if text = [] then [] else (fgets 255 text).1 :: pieces fuel (fgets 255 text).2

/-- The loop of `load`. The bounds that are checked in `word` are those of the larger table of the
shell. -/
def loadLoop (word : Mem) (scm : Scm) : List Bytes → Except Crash (Bytes × Scm)
  | [] => return ([], scm)
  | piece :: rest => do
    let word ← table (Shell.shellStrtrim (word.write 0 (piece ++ [0])) 0)
    let len ← table (Shell.strlen word 0)
    if len ≠ 0 then
      let (r, scm) ← region (avlInsert (word.read 0 len) scm)
      if r ≠ 0 then return (Text.notLoaded (word.read 0 len), scm)
      else loadLoop word scm rest
    else loadLoop word scm rest

def load (files : Bytes → Option Bytes) : Command := fun s scm =>
  match files s with
  | none => return (Text.notOpened s, false, scm)
  | some text => do
    let (out, scm) ← loadLoop (fun _ => 0) scm (pieces text.length text)
    return (out, false, scm)

def list : Command := fun _ scm => do
  let visits ← region (avlTraverse scm)
  return (visits.flatMap fun (word, count) => Text.listed word count, false, scm)

def info : Command := fun _ scm =>
  return (Text.info (avlItems scm) (avlUnique scm) (scmUtilized scm) (scmCapacity scm), false, scm)

def help : Command := fun _ scm => return (Text.help, false, scm)

def quit : Command := fun _ scm => return ([], true, scm)

def removeWord : Command := fun s scm => do
  if s = [] then return (Text.missing, false, scm)
  else
    let count ← region (avlExists scm s)
    if count = 0 then return (Text.notInTree s, false, scm)
    else
      let (r, scm) ← region (avlRemove s scm)
      if r = -1 then return (Text.notRemoved s, false, scm)
      else return (Text.removed s, false, scm)

/-- An entry of `CMDS`. -/
structure Entry where
  argc : Nat
  face : Bytes
  fnc : Command

def CMDS (files : Bytes → Option Bytes) : List Entry :=
  [⟨0, ascii "quit", quit⟩, ⟨0, ascii "help", help⟩, ⟨0, ascii "info", info⟩,
    ⟨0, ascii "list", list⟩, ⟨1, ascii "load", load files⟩, ⟨1, ascii "insert", insert⟩,
    ⟨1, ascii "exists", exists_⟩, ⟨1, ascii "remove", removeWord⟩]

/-- The last lines of `shell_fnc`. -/
def badCommand (scm : Scm) (mem : Mem) (s : Nat) : Except Crash (Bytes × Bool × Scm × Mem) := do
  let len ← table (Shell.strlen mem s)
  return (Text.bad (mem.read s len), false, scm, mem)

/-- The loop of `shell_fnc`. That `strncmp` gives zero means that the bytes of the face stand at `s`. -/
def dispatch (scm : Scm) (mem : Mem) (s : Nat) : List Entry → Except Crash (Bytes × Bool × Scm × Mem)
  | [] => badCommand scm mem s
  | c :: cs =>
    if mem.read s c.face.length = c.face then do
      let s := s + c.face.length
      let mem ← table (Shell.shellStrtrim mem s)
      let len ← table (Shell.strlen mem s)
      if (c.argc ≠ 0 ∧ len = 0) ∨ (c.argc = 0 ∧ len ≠ 0) then badCommand scm mem s
      else
        let (text, ends, scm) ← c.fnc (mem.read s len) scm
        return (text, ends, scm, mem)
    else dispatch scm mem s cs

/-- `shell_fnc`, with what has been printed so far beside the region. -/
def shellFnc (files : Bytes → Option Bytes) (a : Scm × Bytes) (mem : Mem) (s : Nat) :
    Except Crash ((Scm × Bytes) × Mem × Bool) := do
  let (text, ends, scm, mem) ← dispatch a.1 mem s (CMDS files)
  return ((scm, a.2 ++ text), mem, ends)

end Main

end OsProjects.Persistent
