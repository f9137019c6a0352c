import OsProjects.Persistent.Commands
import OsProjects.Persistent.WordRoom
import Mathlib.Data.Finset.Sort

/-!
# What the commands ask for

A line is a request on a multiset of words, and its answer is a text. The bytes of the line, the table
of the shell, the tree and the region do not occur here; `shell_fnc` on a slot and a region does what
the request of the line says, and leaves the line in its slot with the blanks around its argument
removed.
-/
namespace OsProjects.Persistent
open OsProjects.Library

inductive Request where
  | quit
  | help
  | info
  | list
  | load (path : Bytes)
  | insert (word : Bytes)
  | exists_ (word : Bytes)
  | remove (word : Bytes)
  | bad (text : Bytes)
  deriving DecidableEq, Repr

/-- A command word, whether it takes an argument, and what it asks for. -/
structure Verb where
  face : Bytes
  takes : Bool
  ask : Bytes → Request

def verbs : List Verb :=
  [⟨ascii "quit", false, fun _ => .quit⟩, ⟨ascii "help", false, fun _ => .help⟩,
    ⟨ascii "info", false, fun _ => .info⟩, ⟨ascii "list", false, fun _ => .list⟩,
    ⟨ascii "load", true, .load⟩, ⟨ascii "insert", true, .insert⟩,
    ⟨ascii "exists", true, .exists_⟩, ⟨ascii "remove", true, .remove⟩]

/-- The command whose word the line starts with. -/
def verbOf (vs : List Verb) (t : Bytes) : Option Verb := vs.find? fun v => v.face.isPrefixOf t

def Verb.argument (v : Verb) (t : Bytes) : Bytes := trim Shell.isspace (t.drop v.face.length)

def requestOf (vs : List Verb) (t : Bytes) : Request :=
  match verbOf vs t with
  | none => .bad t
  | some v => if (v.takes ↔ v.argument t ≠ []) then v.ask (v.argument t) else .bad (v.argument t)

def request : Bytes → Request := requestOf verbs

/-- What is left of the line. -/
def keptOf (vs : List Verb) (t : Bytes) : Bytes :=
  match verbOf vs t with
  | none => t
  | some v => v.face ++ v.argument t

def kept : Bytes → Bytes := keptOf verbs

/-- The order of the words. -/
def Upto (x y : Bytes) : Prop := strcmp x y ≠ .gt

instance : DecidableRel Upto := fun _ _ => inferInstanceAs (Decidable (_ ≠ _))

instance : IsTrans Bytes Upto where
  trans x y z h h' := by
    cases first : strcmp x y with
    | gt => exact absurd first h
    | eq => rwa [strcmp_eq_eq.mp first]
    | lt =>
      cases second : strcmp y z with
      | gt => exact absurd second h'
      | eq =>
        rw [← strcmp_eq_eq.mp second]
        exact h
      | lt => simp [Upto, strcmp_trans first second]

instance : Std.Antisymm Upto where
  antisymm x y h h' := by
    cases order : strcmp x y with
    | eq => exact strcmp_eq_eq.mp order
    | gt => exact absurd order h
    | lt => exact absurd (strcmp_eq_gt.mpr order) h'

instance : Std.Total Upto where
  total x y := by
    cases order : strcmp x y with
    | gt => exact Or.inr (by simp [Upto, strcmp_eq_gt.mp order])
    | eq => exact Or.inl (by simp [Upto, order])
    | lt => exact Or.inl (by simp [Upto, order])

/-- The words in their order, each with its count. -/
def listing (m : Multiset Bytes) : List (Bytes × Nat) :=
  (m.toFinset.sort Upto).map fun x => (x, m.count x)

/-- What stands in a piece of a file before a zero byte, without the blanks around it. -/
def wordOf (piece : Bytes) : Bytes := trim Shell.isspace (piece.takeWhile (· ≠ 0))

def wordsIn (pieces : List Bytes) : List Bytes := (pieces.map wordOf).filter (· ≠ [])

/-- The words of a file. -/
def wordsOf (text : Bytes) : List Bytes := wordsIn (Main.pieces text.length text)

section
variable (files : Bytes → Option Bytes) (capacity : Nat)

/-- The words after a request, what is printed, and whether the session ends. -/
def perform (w : Words) : Request → Words × Bytes × Bool
  | .quit => (w, [], true)
  | .help => (w, Text.help, false)
  | .info => (w, Text.info w.bag.card w.bag.toFinset.card w.used capacity, false)
  | .list => (w, (listing w.bag).flatMap fun i => Text.listed i.1 i.2, false)
  | .load path =>
    match files path with
    | none => (w, Text.notOpened path, false)
    | some text => ((wordsOf text).foldl Words.insert w, [], false)
  | .insert x => (w.insert x, [], false)
  | .exists_ x =>
    (w, if x ∈ w.bag then Text.present x (w.bag.count x) else Text.absent x, false)
  | .remove x => if x ∈ w.bag then (w.remove x, Text.removed x, false) else (w, Text.notInTree x, false)
  | .bad t => (w, Text.bad t, false)

/-- There is room for each of the words. -/
def Words.RoomAll (w : Words) : List Bytes → Prop
  | [] => True
  | x :: xs => w.Room capacity x ∧ (w.insert x).RoomAll xs

instance decideRoomAll : ∀ (w : Words) (xs : List Bytes), Decidable (w.RoomAll capacity xs)
  | _, [] => isTrue trivial
  | w, x :: xs =>
    have := decideRoomAll (w.insert x) xs
    inferInstanceAs (Decidable (_ ∧ (w.insert x).RoomAll capacity xs))

/-- The new words of the request have room, and a removal leaves no word twice in the tree. -/
def Words.Allows (w : Words) : Request → Prop
  | .load path => ∀ text ∈ files path, w.RoomAll capacity (wordsOf text)
  | .insert x => w.Room capacity x
  | .remove x => NextOnce w.bag x
  | _ => True

instance (w : Words) : ∀ r, Decidable (w.Allows files capacity r)
  | .load _ => inferInstanceAs (Decidable (∀ text ∈ _, _))
  | .insert _ => inferInstanceAs (Decidable (Words.Room _ _ _))
  | .remove _ => inferInstanceAs (Decidable (NextOnce _ _))
  | .quit | .help | .info | .list | .exists_ _ | .bad _ => isTrue trivial

/-- The answer to a line, behind what has been printed. -/
def answer (a : Words × Bytes) (t : Bytes) : Shell.Answer (Words × Bytes) :=
  let (w, text, ends) := perform files capacity a.1 (request t)
  ⟨(w, a.2 ++ text), kept t, ends⟩

/-- The region holds the words, and the same has been printed. -/
def Agrees (a : Scm × Bytes) (b : Words × Bytes) : Prop :=
  Stores a.1 b.1 ∧ a.1.capacity = capacity ∧ a.2 = b.2

/-- A function of `main.c` does what the word asks for, where the argument is there as it should be. -/
def Does (fnc : Command) (takes : Bool) (ask : Bytes → Request) : Prop :=
  ∀ (scm : Scm) (w : Words) (s : Bytes), Stores scm w → scm.capacity = capacity → 0 ∉ s →
    (takes ↔ s ≠ []) → w.Allows files capacity (ask s) →
      ∃ scm', fnc s scm = .ok ((perform files capacity w (ask s)).2.1,
          (perform files capacity w (ask s)).2.2, scm') ∧
        Stores scm' (perform files capacity w (ask s)).1 ∧ scm'.capacity = capacity

end

section
variable {files : Bytes → Option Bytes} {capacity : Nat} {scm scm' : Scm} {w : Words} {x : Bytes}
  {m : Multiset Bytes}

theorem region_ok {α : Type} {e : Except Fault α} {a : α} (ok : e = .ok a) : region e = .ok a := by
  rw [ok]
  rfl

theorem table_ok {α : Type} {e : Except Shell.Fault α} {a : α} (ok : e = .ok a) :
    table e = .ok a := by
  rw [ok]
  rfl

theorem Stores.implements (h : Stores scm w) : Implements scm w.bag := by
  obtain ⟨_, _, store, counts, _⟩ := h
  exact counts.implements store

theorem Stores.exists_ok (h : Stores scm w) (some_ : x ≠ []) (ends : 0 ∉ x) :
    avlExists scm x = .ok (w.bag.count x) := h.implements.count ⟨x, some_, ends⟩

/-- An increasing list of the words with their counts is the listing. -/
theorem listing_eq {visits : List (Bytes × Nat)}
    (order : visits.Pairwise fun i j => strcmp i.1 j.1 = .lt)
    (counts : ∀ x n, (x, n) ∈ visits ↔ n = m.count x ∧ 0 < n) : listing m = visits := by
  have less : (visits.map Prod.fst).Pairwise fun x y => strcmp x y = .lt := List.pairwise_map.mpr order
  have nodup : (visits.map Prod.fst).Nodup := by
    refine less.imp ?_
    rintro x _ lt rfl
    exact strcmp_irrefl x lt
  have words : m.toFinset = (visits.map Prod.fst).toFinset := by
    ext x
    simp only [Multiset.mem_toFinset, List.mem_toFinset, List.mem_map, Prod.exists,
      exists_and_right, exists_eq_right, counts, ← Multiset.count_pos]
    exact ⟨fun pos => ⟨_, rfl, pos⟩, fun ⟨_, same, pos⟩ => same ▸ pos⟩
  have sorted : m.toFinset.sort Upto = visits.map Prod.fst := by
    rw [words]
    exact (List.toFinset_sort Upto nodup).mpr (less.imp fun lt => by simp [Upto, lt])
  rw [listing, sorted, List.map_map]
  conv_rhs => rw [← List.map_id visits]
  refine List.map_congr_left fun i mem => ?_
  exact Prod.ext rfl (((counts i.1 i.2).mp mem).1.symm)

theorem Stores.traverse_ok (h : Stores scm w) : avlTraverse scm = .ok (listing w.bag) := by
  obtain ⟨visits, ok, order, counts⟩ := h.implements.visits
  rw [ok, listing_eq order counts]

theorem quit_does : Does files capacity Main.quit false fun _ => .quit :=
  fun scm _ _ h cap _ _ _ => ⟨scm, rfl, h, cap⟩

theorem help_does : Does files capacity Main.help false fun _ => .help :=
  fun scm _ _ h cap _ _ _ => ⟨scm, rfl, h, cap⟩

theorem info_does : Does files capacity Main.info false fun _ => .info := by
  intro scm w s h cap _ _ _
  refine ⟨scm, ?_, h, cap⟩
  have shows := h.implements
  obtain ⟨_, _, _, _, used⟩ := h
  simp only [Main.info, shows.items, shows.unique, scmUtilized, used, scmCapacity, cap]
  rfl

theorem list_does : Does files capacity Main.list false fun _ => .list := by
  intro scm w s h cap _ _ _
  refine ⟨scm, ?_, h, cap⟩
  simp only [Main.list, region_ok h.traverse_ok, bind, Except.bind]
  rfl

theorem exists_does : Does files capacity Main.exists_ true .exists_ := by
  intro scm w s h cap ends takes _
  refine ⟨scm, ?_, h, cap⟩
  simp only [Main.exists_, region_ok (h.exists_ok (takes.mp rfl) ends), bind, Except.bind, perform]
  by_cases inside : s ∈ w.bag
  · rw [if_neg (Multiset.count_ne_zero.mpr inside), if_pos inside]
    rfl
  · rw [if_pos (Multiset.count_eq_zero.mpr inside), if_neg inside]
    rfl

theorem insert_does : Does files capacity Main.insert true .insert := by
  intro scm w s h cap ends takes room
  obtain ⟨scm', ok, stores, same⟩ := h.insert ⟨s, takes.mp rfl, ends⟩ (by rw [cap]; exact room)
  refine ⟨scm', ?_, stores, same.trans cap⟩
  simp only [Main.insert, region_ok ok, bind, Except.bind, ne_eq, not_true, if_false]
  rfl

theorem remove_does : Does files capacity Main.removeWord true .remove := by
  intro scm w s h cap ends takes safe
  have some_ : s ≠ [] := takes.mp rfl
  simp only [Main.removeWord, if_neg some_, region_ok (h.exists_ok some_ ends), bind, Except.bind,
    perform]
  by_cases inside : s ∈ w.bag
  · obtain ⟨scm', ok, stores, same⟩ := h.remove safe
    refine ⟨scm', ?_, by rw [if_pos inside]; exact stores, same.trans cap⟩
    simp only [if_neg (Multiset.count_ne_zero.mpr inside), region_ok ok, if_pos inside]
    rfl
  · refine ⟨scm, ?_, by rw [if_neg inside]; exact h, cap⟩
    simp only [if_pos (Multiset.count_eq_zero.mpr inside), if_neg inside]
    rfl

theorem fgets_length (n : Nat) (text : Bytes) : (Main.fgets n text).1.length ≤ n := by
  induction n generalizing text with
  | zero => exact le_rfl
  | succ n ih =>
    cases text with
    | nil => exact Nat.zero_le _
    | cons b text =>
      simp only [Main.fgets]
      split_ifs
      · exact Nat.succ_le_succ (Nat.zero_le _)
      · exact Nat.succ_le_succ (ih text)

theorem pieces_length {fuel : Nat} {text p : Bytes} (mem : p ∈ Main.pieces fuel text) :
    p.length ≤ 255 := by
  induction fuel generalizing text with
  | zero => simp [Main.pieces] at mem
  | succ fuel ih =>
    simp only [Main.pieces] at mem
    split_ifs at mem with empty
    · simp at mem
    · rcases List.mem_cons.mp mem with rfl | mem
      · exact fgets_length _ _
      · exact ih mem

theorem wordsIn_blank {p : Bytes} {ps : List Bytes} (empty : wordOf p = []) :
    wordsIn (p :: ps) = wordsIn ps := by
  rw [wordsIn, List.map_cons, List.filter_cons_of_neg (by simp [empty])]
  rfl

theorem wordsIn_word {p : Bytes} {ps : List Bytes} (some_ : wordOf p ≠ []) :
    wordsIn (p :: ps) = wordOf p :: wordsIn ps := by
  rw [wordsIn, List.map_cons, List.filter_cons_of_pos (by simp [some_])]
  rfl

/-- The word of a piece is what is left of it in the buffer. -/
theorem piece_word (word : Mem) {p : Bytes} (short : p.length ≤ 255) :
    ∃ word', Shell.shellStrtrim (word.write 0 (p ++ [0])) 0 = .ok word' ∧
      Shell.strlen word' 0 = .ok (wordOf p).length ∧ word'.read 0 (wordOf p).length = wordOf p ∧
      0 ∉ wordOf p := by
  have small : 255 < Shell.H * Shell.N := by decide
  have spells : (word.write 0 (p ++ [0])).Spells 0 (p.takeWhile (· ≠ 0)) := Mem.holds_write.spells
  have less : (p.takeWhile (· ≠ 0)).length ≤ 255 := (List.takeWhile_prefix _).length_le.trans short
  obtain ⟨word', trimmed, spells', _⟩ := Shell.shellStrtrim_spells spells (by omega)
  have shorter : (wordOf p).length ≤ (p.takeWhile (· ≠ 0)).length := (trim_sublist _).length_le
  exact ⟨word', trimmed, Shell.strlen_spells spells' (show 0 + (wordOf p).length < _ by omega),
    spells'.read, spells'.ends⟩

theorem loadLoop_spec (word : Mem) (ps : List Bytes) (h : Stores scm w)
    (cap : scm.capacity = capacity) (short : ∀ p ∈ ps, p.length ≤ 255)
    (room : w.RoomAll capacity (wordsIn ps)) :
    ∃ scm', Main.loadLoop word scm ps = .ok ([], scm') ∧
      Stores scm' ((wordsIn ps).foldl Words.insert w) ∧ scm'.capacity = capacity := by
  induction ps generalizing word scm w with
  | nil => exact ⟨scm, rfl, h, cap⟩
  | cons p ps ih =>
    obtain ⟨here, later⟩ := List.forall_mem_cons.mp short
    obtain ⟨word', trimmed, length, text, ends⟩ := piece_word word here
    by_cases empty : wordOf p = []
    · rw [wordsIn_blank empty] at room ⊢
      obtain ⟨scm', ok, stores, same⟩ := ih word' h cap later room
      refine ⟨scm', ?_, stores, same⟩
      rw [empty, List.length_nil] at length
      simp only [Main.loadLoop, table_ok trimmed, table_ok length, bind, Except.bind, ne_eq,
        not_true, if_false, ok]
    · rw [wordsIn_word empty] at room ⊢
      obtain ⟨first, rest⟩ := room
      obtain ⟨scm₁, inserted, stores₁, same₁⟩ := h.insert ⟨_, empty, ends⟩ (by rw [cap]; exact first)
      obtain ⟨scm', ok, stores, same⟩ := ih word' stores₁ (same₁.trans cap) later rest
      refine ⟨scm', ?_, stores, same⟩
      have some_ : (wordOf p).length ≠ 0 := fun zero => empty (List.eq_nil_of_length_eq_zero zero)
      simp only [Main.loadLoop, table_ok trimmed, table_ok length, bind, Except.bind, if_pos some_,
        text, region_ok inserted, ne_eq, not_true, if_false, ok]

theorem load_does : Does files capacity (Main.load files) true .load := by
  intro scm w s h cap _ _ room
  cases file : files s with
  | none =>
    refine ⟨scm, ?_, by rw [perform, file]; exact h, cap⟩
    simp only [Main.load, perform, file]
    rfl
  | some text =>
    obtain ⟨scm', ok, stores, same⟩ := loadLoop_spec (fun _ => 0) (Main.pieces text.length text) h
      cap (fun p mem => pieces_length mem) (room text file)
    refine ⟨scm', ?_, by rw [perform, file]; exact stores, same⟩
    simp only [Main.load, perform, file, ok, bind, Except.bind]
    rfl

/-- An entry of the table stands for a command word. -/
structure Stands (files : Bytes → Option Bytes) (capacity : Nat) (e : Main.Entry) (v : Verb) :
    Prop where
  face : e.face = v.face
  ends : 0 ∉ v.face
  argc : e.argc ≠ 0 ↔ v.takes
  does : Does files capacity e.fnc v.takes v.ask

variable {e : Main.Entry} {v : Verb} {vs : List Verb} {mem : Mem} {s : Nat} {t : Bytes}

theorem verbOf_cons_pos (first : v.face <+: t) : verbOf (v :: vs) t = some v :=
  List.find?_cons_of_pos (List.isPrefixOf_iff_prefix.mpr first)

theorem verbOf_cons_neg (other : ¬ v.face <+: t) : verbOf (v :: vs) t = verbOf vs t :=
  List.find?_cons_of_neg fun first => other (List.isPrefixOf_iff_prefix.mp first)

theorem verbOf_prefix (found : verbOf vs t = some v) : v.face <+: t := by
  have first := List.find?_some found
  exact List.isPrefixOf_iff_prefix.mp first

/-- `strncmp` of a face compares with the start of the string. -/
theorem read_face_iff (h : mem.Spells s t) {face : Bytes} (ends : 0 ∉ face) :
    mem.read s face.length = face ↔ face <+: t := by
  constructor
  · intro same
    rcases Nat.lt_or_ge t.length face.length with short | le
    · have byte := mem.getElem?_read s face.length t.length short
      rw [same, h.nul] at byte
      exact absurd (List.mem_of_getElem? byte) ends
    · refine ⟨t.drop face.length, ?_⟩
      have start := Mem.take_read mem (a := s) le
      rw [h.read, same] at start
      rw [← start, List.length_take, Nat.min_eq_left le, List.take_append_drop]
  · rintro ⟨rest, rfl⟩
    have holds := h.holds
    rw [List.append_assoc] at holds
    exact (Mem.holds_append.mp holds).1

theorem badCommand_ok (h : mem.Spells s t) (inside : s + t.length < Shell.H * Shell.N) :
    Main.badCommand scm mem s = .ok (Text.bad t, false, scm, mem) := by
  simp only [Main.badCommand, table_ok (Shell.strlen_spells h inside), bind, Except.bind, h.read]
  rfl

/-- What the argument of a command becomes in its slot. -/
theorem trim_argument (h : mem.Spells s t) (inside : s + t.length < Shell.H * Shell.N)
    (first : v.face <+: t) :
    ∃ mem', Shell.shellStrtrim mem (s + v.face.length) = .ok mem' ∧
      mem'.Spells (s + v.face.length) (v.argument t) ∧
      s + v.face.length + (v.argument t).length < Shell.H * Shell.N ∧
      mem'.Spells s (v.face ++ v.argument t) ∧
      ∀ p, p < s ∨ s + t.length < p → mem' p = mem p := by
  obtain ⟨rest, rfl⟩ := first
  have tail : v.argument (v.face ++ rest) = trim Shell.isspace rest := by
    rw [Verb.argument, List.drop_left]
  rw [tail]
  rw [List.length_append] at inside ⊢
  obtain ⟨mem', trimmed, spells, frame⟩ := Shell.shellStrtrim_spells h.behind (by omega)
  have shorter : (trim Shell.isspace rest).length ≤ rest.length := (trim_sublist _).length_le
  have holds := h.holds
  rw [List.append_assoc] at holds
  have face : mem'.Holds s v.face :=
    (Mem.holds_append.mp holds).1.congr fun p ge lt => frame p (Or.inl lt)
  refine ⟨mem', trimmed, spells, by omega, ⟨?_, ?_⟩, fun p out => frame p (by omega)⟩
  · rw [List.append_assoc]
    exact Mem.holds_append.mpr ⟨face, spells.holds⟩
  · intro zero
    rcases List.mem_append.mp zero with inner | outer
    · exact h.ends (List.mem_append_left rest inner)
    · exact spells.ends outer

/-- A line in its slot is answered as the line is, whatever the table of commands. -/
theorem dispatch_does {es : List Main.Entry} (same : List.Forall₂ (Stands files capacity) es vs)
    (spells : mem.Spells s t) (inside : s + t.length < Shell.H * Shell.N) (h : Stores scm w)
    (cap : scm.capacity = capacity) (allows : w.Allows files capacity (requestOf vs t)) :
    ∃ scm' mem', Main.dispatch scm mem s es =
        .ok ((perform files capacity w (requestOf vs t)).2.1,
          (perform files capacity w (requestOf vs t)).2.2, scm', mem') ∧
      Stores scm' (perform files capacity w (requestOf vs t)).1 ∧ scm'.capacity = capacity ∧
      mem'.Spells s (keptOf vs t) ∧ ∀ p, p < s ∨ s + t.length < p → mem' p = mem p := by
  induction same with
  | nil => exact ⟨scm, mem, badCommand_ok spells inside, h, cap, spells, fun _ _ => rfl⟩
  | @cons e v es vs stands _ ih =>
    by_cases first : v.face <+: t
    · have matched : mem.read s e.face.length = e.face := by
        rw [stands.face]
        exact (read_face_iff spells stands.ends).mpr first
      obtain ⟨mem', trimmed, argument, room, line, frame⟩ := trim_argument spells inside first
      have length := Shell.strlen_spells argument room
      have empty : (v.argument t).length = 0 ↔ v.argument t = [] := List.length_eq_zero_iff
      simp only [requestOf, keptOf, verbOf_cons_pos first] at allows ⊢
      by_cases fits : v.takes ↔ v.argument t ≠ []
      · rw [if_pos fits] at allows ⊢
        obtain ⟨scm', ok, stores, kept⟩ := stands.does scm w _ h cap argument.ends fits allows
        have right : ¬ ((e.argc ≠ 0 ∧ (v.argument t).length = 0) ∨
            (e.argc = 0 ∧ (v.argument t).length ≠ 0)) := by
          have argc := stands.argc
          rw [fits] at argc
          rw [empty]
          tauto
        refine ⟨scm', mem', ?_, stores, kept, line, frame⟩
        rw [Main.dispatch, if_pos matched, stands.face]
        simp only [table_ok trimmed, table_ok length, bind, Except.bind, if_neg right,
          argument.read, ok]
        rfl
      · rw [if_neg fits] at allows ⊢
        have wrong : (e.argc ≠ 0 ∧ (v.argument t).length = 0) ∨
            (e.argc = 0 ∧ (v.argument t).length ≠ 0) := by
          have argc := stands.argc
          rw [← argc] at fits
          rw [empty]
          tauto
        refine ⟨scm, mem', ?_, h, cap, line, frame⟩
        rw [Main.dispatch, if_pos matched, stands.face]
        simp only [table_ok trimmed, table_ok length, bind, Except.bind, if_pos wrong,
          badCommand_ok argument room]
        rfl
    · have other : ¬ mem.read s e.face.length = e.face := by
        rw [stands.face]
        exact fun same => first ((read_face_iff spells stands.ends).mp same)
      simp only [requestOf, keptOf, verbOf_cons_neg first] at allows ⊢
      obtain ⟨scm', mem', ok, rest⟩ := ih allows
      exact ⟨scm', mem', by rw [Main.dispatch, if_neg other]; exact ok, rest⟩

/-- The entries of `CMDS`, one after the other. -/
theorem commands_stand : List.Forall₂ (Stands files capacity) (Main.CMDS files) verbs :=
  .cons ⟨rfl, by decide, by decide, quit_does⟩ <|
  .cons ⟨rfl, by decide, by decide, help_does⟩ <|
  .cons ⟨rfl, by decide, by decide, info_does⟩ <|
  .cons ⟨rfl, by decide, by decide, list_does⟩ <|
  .cons ⟨rfl, by decide, by simp, load_does⟩ <|
  .cons ⟨rfl, by decide, by decide, insert_does⟩ <|
  .cons ⟨rfl, by decide, by decide, exists_does⟩ <|
  .cons ⟨rfl, by decide, by decide, remove_does⟩ .nil

theorem kept_length (t : Bytes) : (kept t).length ≤ t.length := by
  rw [kept, keptOf]
  cases found : verbOf verbs t with
  | none => exact le_rfl
  | some v =>
    obtain ⟨rest, rfl⟩ := verbOf_prefix found
    have shorter : (trim Shell.isspace rest).length ≤ rest.length := (trim_sublist _).length_le
    simp only [Verb.argument, List.drop_left, List.length_append]
    omega

/-- `shell_fnc` answers each line of the shell. -/
theorem shellFnc_serves (files : Bytes → Option Bytes) (capacity : Nat) :
    Shell.Serves (Agrees capacity) (fun a t => a.1.Allows files capacity (request t))
      (Main.shellFnc files) (answer files capacity) := by
  rintro ⟨scm, out⟩ ⟨w, _⟩ mem s t ⟨stores, cap, rfl⟩ allows _ short room spells
  obtain ⟨scm', mem', ok, stores', cap', line, frame⟩ :=
    dispatch_does commands_stand spells (by omega) stores cap allows
  refine ⟨(scm', out ++ (perform files capacity w (request t)).2.1), mem', ?_,
    ⟨stores', cap', rfl⟩, line, Nat.lt_of_le_of_lt (kept_length t) short,
    fun p out => frame p (by omega)⟩
  simp only [Main.shellFnc, ok, bind, Except.bind]
  rfl

end

end OsProjects.Persistent
