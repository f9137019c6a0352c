import OsProjects.Persistent.Requests
import OsProjects.Persistent.Sessions

/-!
# Runs of the word program

The program opens the tree in its file, serves the lines of the shell, and closes the file. Between
two runs there is only the file, and the table of the shell starts empty. A sequence of runs is
compared with the requests of its lines on a multiset of words that the runs hand on. What the program
prints before its first line and for the terminal is left out.
-/
namespace OsProjects.Persistent
open OsProjects.Library

/-- A file that can be mapped. -/
structure Image where
  bytes : Bytes
  mapped : virtAddr + bytes.length < 2 ^ 64

def Scm.image (scm : Scm) : Image :=
  ⟨scmClose scm, by simpa only [scmClose, Mem.length_read] using scm.mapped⟩

/-- `main` behind its arguments, with the file that it leaves and what its commands print. -/
def Main.main (files : Bytes → Option Bytes) (d : Image) (truncate : Bool)
    (lines : List (List Shell.Key)) : Except Crash (Image × Option Bytes) := do
  let avl ← region (avlOpen (fun a => d.bytes.getD a 0) d.bytes.length d.mapped truncate)
  match avl with
  | none => return (d, none)
  | some scm =>
    let ((scm, out), _) ←
      Shell.State.loop .table (Main.shellFnc files) (scm, []) ⟨0, 0, fun _ => 0⟩ lines
    return (scm.image, some out)

/-- Runs of the program on one file. -/
def Main.runs (files : Bytes → Option Bytes) (d : Image) :
    List (Bool × List (List Shell.Key)) → Except Crash (Image × List (Option Bytes))
  | [] => return (d, [])
  | run :: runs => do
    let (d, out) ← Main.main files d run.1 run.2
    let (d, outs) ← Main.runs files d runs
    return (d, out :: outs)

/-- An empty tree, with its state block. -/
def Words.fresh : Words := ⟨0, headerLen + stateLen⟩

/-- What a run starts with. -/
def opened (truncate : Bool) (w : Option Words) : Words :=
  if truncate then .fresh else w.getD .fresh

section
variable (files : Bytes → Option Bytes) (capacity : Nat)

/-- The words after a run, and what it prints. -/
def serve (w : Words) (lines : List (List Shell.Key)) : Words × Bytes :=
  (Shell.session (answer files capacity) (w, []) [] lines).1

def serveAll (w : Option Words) :
    List (Bool × List (List Shell.Key)) → Option Words × List (Option Bytes)
  | [] => (w, [])
  | run :: runs =>
    let (w', out) := serve files capacity (opened run.1 w) run.2
    let (last, outs) := serveAll (some w') runs
    (last, some out :: outs)

/-- What a run asks of its keys and of the room in the file. -/
def Serves (w : Words) (lines : List (List Shell.Key)) : Prop :=
  Shell.Ready (fun a t => a.1.Allows files capacity (request t)) (answer files capacity) (w, []) []
    lines

instance (w : Words) (lines : List (List Shell.Key)) : Decidable (Serves files capacity w lines) :=
  inferInstanceAs (Decidable (Shell.Ready _ _ _ _ _))

def ServesAll (w : Option Words) : List (Bool × List (List Shell.Key)) → Prop
  | [] => True
  | run :: runs => Serves files capacity (opened run.1 w) run.2 ∧
      ServesAll (some (serve files capacity (opened run.1 w) run.2).1) runs

instance decideServesAll : ∀ (w : Option Words) (runs : List (Bool × List (List Shell.Key))),
    Decidable (ServesAll files capacity w runs)
  | _, [] => isTrue trivial
  | w, run :: runs =>
    have := decideServesAll (some (serve files capacity (opened run.1 w) run.2).1) runs
    inferInstanceAs (Decidable (_ ∧ ServesAll files capacity
      (some (serve files capacity (opened run.1 w) run.2).1) runs))

end

/-- The file holds the words, or nothing where its first word is zero. -/
def Image.Holds (d : Image) : Option Words → Prop
  | none => (scmOpen (fun a => d.bytes.getD a 0) d.bytes.length d.mapped false).utilized = 0
  | some w => ∃ scm, Stores scm w ∧ scm.image = d

section
variable {files : Bytes → Option Bytes} {scm scm' : Scm} {blocks : List Block}
  {t : BinTree Cell} {w : Words} {d : Image} {truncate : Bool}

theorem avlOpen_fresh (file : Mem) (capacity : Nat) (mapped : virtAddr + capacity < 2 ^ 64)
    (empty : (scmOpen file capacity mapped truncate).utilized = 0)
    (room : 8 + headerLen + stateLen ≤ capacity) :
    ∃ scm, avlOpen file capacity mapped truncate = .ok (some scm) ∧ Stores scm .fresh ∧
      scm.capacity = capacity := by
  obtain ⟨scm, blocks, ok, store, items, unique, _⟩ :=
    avlOpen_store file capacity mapped truncate empty room
  have fits : 8 + (scmOpen file capacity mapped truncate).utilized + headerLen + stateLen ≤
      (scmOpen file capacity mapped truncate).capacity := by
    rw [empty]
    exact room
  obtain ⟨mem, granted⟩ := scmMalloc_room fits
  have opened := ok
  simp only [avlOpen, empty, ne_eq, not_true, if_false, granted] at opened
  rw [if_pos (by rfl)] at opened
  obtain rfl := Option.some.inj (Except.ok.inj opened)
  refine ⟨_, ok, ⟨blocks, .leaf, store, ⟨rfl, by simp [contents], items, unique⟩, ?_⟩, rfl⟩
  simp only [Nat.zero_add, Words.fresh]

/-- A store in other memory with the same blocks. -/
theorem Store.congr (h : Store scm blocks t) (same : Same blocks (fun _ => True) scm scm')
    (rep : scm'.Rep blocks) : Store scm' blocks t ∧ scm'.state = scm.state := by
  have rooted := h.rooted
  have state : scm'.state = scm.state := same.state trivial rooted.base
  have root : scm'.root = scm.root := congrArg State.root state
  exact ⟨⟨⟨rep, rooted.base, same.heap rooted.owns (fun _ _ => ⟨trivial, trivial⟩) rooted.heap,
    rooted.owns, rooted.balanced, rooted.increasing, rooted.all_held, rooted.off_state,
    rooted.state_held⟩, root.trans h.root, h.state_live, h.nodes_live⟩, state⟩

/-- A region with the same bytes in the mapping, whose handle has its number from the first word. -/
theorem Stores.congr (h : Stores scm w) (capacity : scm'.capacity = scm.capacity)
    (bytes : ∀ a, virtAddr ≤ a → a < virtAddr + scm.capacity → scm'.mem a = scm.mem a)
    (first : scm'.utilized = scm'.mem.load 8 virtAddr) : Stores scm' w := by
  obtain ⟨blocks, t, store, counts, used⟩ := h
  have rep := store.rooted.rep
  have base := store.rooted.base.bounds rep
  simp only [stateAt, headerLen, stateLen] at base
  have word : scm'.mem.load 8 virtAddr = scm.mem.load 8 virtAddr :=
    Mem.load_congr fun x ge lt => bytes x ge (by omega)
  have utilized : scm'.utilized = scm.utilized := by rw [first, word, rep.word]
  have same : Same blocks (fun _ => True) scm scm' := by
    refine ⟨capacity, fun p n _ placed x ge lt => ?_⟩
    have bounds := placed.bounds rep
    exact bytes x (by omega) (by omega)
  have rep' : scm'.Rep blocks := by
    refine ⟨?_, by rw [utilized, capacity]; exact rep.within, first.symm⟩
    have same_headers : ∀ b ∈ blocks, ∀ x, b.hdr ≤ x → x < b.ptr → scm.mem x = scm'.mem x := by
      intro b mem x ge lt
      have low := rep.hdr_ge mem
      have high := rep.stop_le mem
      simp only [Block.stop, Block.ptr] at high lt
      exact (bytes x (by omega) (by omega)).symm
    rw [utilized]
    exact rep.chain.congr same_headers
  obtain ⟨store', state⟩ := store.congr same rep'
  have items : scm'.items = scm.items := congrArg State.items state
  have unique : scm'.unique = scm.unique := congrArg State.unique state
  exact ⟨blocks, t, store', ⟨counts.bag, counts.positive, items.trans counts.items,
    unique.trans counts.unique⟩, utilized.trans used⟩

theorem Stores.used_pos (h : Stores scm w) : scm.utilized ≠ 0 := by
  obtain ⟨blocks, _, store, _, _⟩ := h
  obtain ⟨b, mem, _, _⟩ := store.rooted.base
  have bounds := store.rooted.rep.chain.bounds b mem
  simp only [Block.stop, headerLen] at bounds
  omega

/-- The file is opened with the words that it holds, or empty. -/
theorem Image.Holds.opens {o : Option Words} (h : d.Holds o) (truncate : Bool)
    (room : 8 + headerLen + stateLen ≤ d.bytes.length) :
    ∃ scm, avlOpen (fun a => d.bytes.getD a 0) d.bytes.length d.mapped truncate = .ok (some scm) ∧
      Stores scm (opened truncate o) ∧ scm.capacity = d.bytes.length := by
  cases truncate with
  | true => exact avlOpen_fresh _ _ d.mapped rfl room
  | false =>
    cases o with
    | none => exact avlOpen_fresh _ _ d.mapped h room
    | some w =>
      obtain ⟨scm, stores, rfl⟩ := h
      have capacity : scm.image.bytes.length = scm.capacity := scm.mem.length_read _ _
      set scm' := scmOpen (fun a => scm.image.bytes.getD a 0) scm.image.bytes.length
        scm.image.mapped false with scm'_eq
      have stores' : Stores scm' w :=
        stores.congr capacity (fun a low high => @Scm.reopen_mem scm false a low high) rfl
      refine ⟨scm', ?_, stores', rfl⟩
      simp only [avlOpen, ← scm'_eq, if_pos stores'.used_pos]

/-- A run answers its lines, and the file holds the words that it leaves. -/
theorem main_serves {o : Option Words} {lines : List (List Shell.Key)} (h : d.Holds o)
    (room : 8 + headerLen + stateLen ≤ d.bytes.length)
    (ready : Serves files d.bytes.length (opened truncate o) lines) :
    ∃ d', Main.main files d truncate lines =
        .ok (d', some (serve files d.bytes.length (opened truncate o) lines).2) ∧
      d'.Holds (some (serve files d.bytes.length (opened truncate o) lines).1) ∧
      d'.bytes.length = d.bytes.length := by
  obtain ⟨scm, ok, stores, capacity⟩ := h.opens truncate room
  have agrees : Agrees d.bytes.length (scm, []) (opened truncate o, []) := ⟨stores, capacity, rfl⟩
  obtain ⟨⟨scm', out⟩, s', run, ⟨stores', capacity', printed⟩, _⟩ :=
    Shell.loop_session (shellFnc_serves files d.bytes.length) .table lines agrees Shell.table_start
      ready
  refine ⟨scm'.image, ?_, ⟨scm', stores', rfl⟩, (scm'.mem.length_read _ _).trans capacity'⟩
  simp only [Main.main, region_ok ok, bind, Except.bind, run]
  rw [show out = _ from printed]
  rfl

theorem runs_serve {o : Option Words} {capacity : Nat}
    (runs : List (Bool × List (List Shell.Key))) (h : d.Holds o) (length : d.bytes.length = capacity)
    (room : 8 + headerLen + stateLen ≤ capacity) (ready : ServesAll files capacity o runs) :
    ∃ d', Main.runs files d runs = .ok (d', (serveAll files capacity o runs).2) ∧
      d'.Holds (serveAll files capacity o runs).1 := by
  induction runs generalizing d o with
  | nil => exact ⟨d, rfl, h⟩
  | cons run runs ih =>
    obtain ⟨first, rest⟩ := ready
    rw [← length] at first room
    obtain ⟨d₁, ok, holds, same⟩ := main_serves h room first
    rw [length] at ok holds room
    obtain ⟨d', oks, last⟩ := ih holds (same.trans length) rest
    refine ⟨d', ?_, last⟩
    simp only [Main.runs, ok, bind, Except.bind, oks]
    rfl

/-- Over any runs of the program on a file, from keys to text, each run prints what the requests of its
lines give on the words that the runs before it have left, and the file holds them at the end. -/
theorem word_program_refines (files : Bytes → Option Bytes) (d : Image) (o : Option Words)
    (runs : List (Bool × List (List Shell.Key))) (h : d.Holds o)
    (room : 8 + headerLen + stateLen ≤ d.bytes.length)
    (ready : ServesAll files d.bytes.length o runs) :
    ∃ d', Main.runs files d runs = .ok (d', (serveAll files d.bytes.length o runs).2) ∧
      d'.Holds (serveAll files d.bytes.length o runs).1 :=
  runs_serve runs h rfl room ready

end

/-- A file of zeros. -/
def blankImage : Image := ⟨List.replicate 400 0, by rw [List.length_replicate]; decide⟩

def keysOf (s : String) : List Shell.Key := (ascii s).map fun b => .code b.toNat

/-- One file that may be loaded. -/
def oneFile (path : Bytes) : Option Bytes :=
  if path = ascii "words" then some (ascii "a\n\n c d \n") else none

/-- The second run recalls its first line. -/
def twoRuns : List (Bool × List (List Shell.Key)) :=
  [(false, [keysOf "insert  b", keysOf "load words", keysOf "insertb ", keysOf "quit now"]),
    (false, [keysOf "exists b", keysOf "remove b", [.escape 65, .escape 65], keysOf "quit",
      keysOf "help"])]

theorem blankImage_length : blankImage.bytes.length = 400 := List.length_replicate

theorem blankImage_holds : blankImage.Holds none := by
  simp only [Image.Holds, scmOpen]
  decide +kernel

theorem word_program_refines_two :
    ∃ d', Main.runs oneFile blankImage twoRuns = .ok (d',
        [some (ascii "error: bad command/argument (now)\n"),
          some (ascii "'b' x 2 exists\n'b' removed\n'b' x 1 exists\n")]) ∧
      d'.Holds (serveAll oneFile 400 none twoRuns).1 := by
  have ready : ServesAll oneFile 400 none twoRuns := by decide +kernel
  have printed : (serveAll oneFile 400 none twoRuns).2 =
      [some (ascii "error: bad command/argument (now)\n"),
        some (ascii "'b' x 2 exists\n'b' removed\n'b' x 1 exists\n")] := by decide +kernel
  obtain ⟨d', ok, last⟩ := word_program_refines oneFile blankImage none twoRuns blankImage_holds
    (by rw [blankImage_length]; decide) (by rw [blankImage_length]; exact ready)
  rw [blankImage_length] at ok last
  exact ⟨d', ok.trans (by rw [printed]), last⟩

end OsProjects.Persistent
