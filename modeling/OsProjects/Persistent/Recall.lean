import OsProjects.Persistent.Program

/-!
# Lines that are recalled

A command trims its argument in the slot of the line, so what is recalled later is not what was typed.
It still asks for the same: no command word is the start of another, and a line that has been trimmed
stays as it is.
-/
namespace OsProjects.Persistent
open OsProjects.Library

section
variable {files : Bytes → Option Bytes} {capacity k : Nat} {w : Words} {t s : Bytes} {v : Verb}
  {r : Request} {d : Image} {o : Option Words} {truncate : Bool} {lines : List (List Shell.Key)}

theorem verbOf_face (v : Verb) (mem : v ∈ verbs) (s : Bytes) : verbOf verbs (v.face ++ s) = some v := by
  simp only [verbs, List.mem_cons, List.not_mem_nil, or_false] at mem
  rcases mem with rfl | rfl | rfl | rfl | rfl | rfl | rfl | rfl <;> rfl

theorem argument_kept (v : Verb) (t : Bytes) : v.argument (v.face ++ v.argument t) = v.argument t := by
  rw [Verb.argument, List.drop_left]
  exact trim_trim _

theorem verbOf_mem (found : verbOf verbs t = some v) : v ∈ verbs := List.mem_of_find?_eq_some found

/-- What is left of a line asks for the same. -/
theorem request_kept (t : Bytes) : request (kept t) = request t := by
  rw [kept, keptOf]
  cases found : verbOf verbs t with
  | none => rfl
  | some v =>
    have again := verbOf_face v (verbOf_mem found) (v.argument t)
    simp only [request, requestOf, again, found, argument_kept]

/-- The ends of a command word are no blanks. -/
theorem face_ends (mem : v ∈ verbs) : v.face ≠ [] ∧ (∀ x ∈ v.face.head?, ¬ Shell.isspace x) ∧
    ∀ x ∈ v.face.getLast?, ¬ Shell.isspace x := by
  simp only [verbs, List.mem_cons, List.not_mem_nil, or_false] at mem
  rcases mem with rfl | rfl | rfl | rfl | rfl | rfl | rfl | rfl <;> decide +kernel

theorem trim_kept (own : trim Shell.isspace t = t) : trim Shell.isspace (kept t) = kept t := by
  rw [kept, keptOf]
  cases found : verbOf verbs t with
  | none => exact own
  | some v =>
    obtain ⟨some_, head, last⟩ := face_ends (verbOf_mem found)
    show trim Shell.isspace (v.face ++ v.argument t) = v.face ++ v.argument t
    refine trim_of_ends (fun x first => ?_) fun x final => ?_
    · rw [List.head?_append_of_ne_nil _ some_] at first
      exact head x first
    · cases argument : v.argument t with
      | nil =>
        rw [argument, List.append_nil] at final
        exact last x final
      | cons y ys =>
        rw [List.getLast?_append_of_ne_nil _ (by rw [argument]; exact List.cons_ne_nil y ys)] at final
        exact trim_last _ x final

theorem kept_ne_nil (some_ : t ≠ []) : kept t ≠ [] := by
  rw [kept, keptOf]
  cases found : verbOf verbs t with
  | none => exact some_
  | some v => exact List.append_ne_nil_of_left_ne_nil (face_ends (verbOf_mem found)).1 _

/-- What the lines of a run have asked for. -/
def asked (files : Bytes → Option Bytes) (capacity : Nat) (w : Words)
    (lines : List (List Shell.Key)) : List Request :=
  (Shell.texts (answer files capacity) (w, []) [] lines).map request

theorem answer_kept (a : Words × Bytes) (t : Bytes) : (answer files capacity a t).kept = kept t := rfl

/-- The line that `k` presses recall asks for what the line so far back asked for. -/
theorem typed_recalled {older : List Bytes} {ts : List Bytes} (left : older = ts.map kept)
    (trimmed : ∀ t ∈ ts, trim Shell.isspace t = t ∧ t ≠ []) (le : k ≤ ts.length)
    (back : (ts.map request)[ts.length - k]? = some r) :
    request (Shell.typed older (List.replicate k (.escape 65))) = r ∧
      Shell.typed older (List.replicate k (.escape 65)) ≠ [] := by
  have length : older.length = ts.length := by rw [left, List.length_map]
  rw [List.getElem?_map] at back
  obtain ⟨t, at_, rfl⟩ := Option.map_eq_some_iff.mp back
  obtain ⟨own, some_⟩ := trimmed t (List.mem_of_getElem? at_)
  have recalled : older.getD (older.length - k) [] = kept t := by
    rw [List.getD_eq_getElem?_getD, length, left, List.getElem?_map, at_]
    rfl
  rw [Shell.typed_ups (length ▸ le), recalled, trim_kept own]
  exact ⟨request_kept t, kept_ne_nil some_⟩

/-- A run that ends with a line recalled by `k` presses does last what the line so far back asked for. -/
theorem recalled_repeats (lines : List (List Shell.Key)) (k : Nat) (h : d.Holds o)
    (room : 8 + headerLen + stateLen ≤ d.bytes.length)
    (ready : Serves files d.bytes.length (opened truncate o) lines)
    (goes : Shell.GoesOn (answer files d.bytes.length) (opened truncate o, []) [] lines)
    (le : k ≤ (asked files d.bytes.length (opened truncate o) lines).length)
    (slots : (asked files d.bytes.length (opened truncate o) lines).length + 1 < Shell.H)
    (back : (asked files d.bytes.length (opened truncate o) lines)[
      (asked files d.bytes.length (opened truncate o) lines).length - k]? = some r)
    (allows : (serve files d.bytes.length (opened truncate o) lines).1.Allows files d.bytes.length r) :
    ∃ d', Main.main files d truncate (lines ++ [List.replicate k (.escape 65)]) = .ok (d',
        some ((serve files d.bytes.length (opened truncate o) lines).2 ++
          (perform files d.bytes.length (serve files d.bytes.length (opened truncate o) lines).1 r).2.1)) ∧
      d'.Holds (some
        (perform files d.bytes.length (serve files d.bytes.length (opened truncate o) lines).1 r).1) := by
  set capacity := d.bytes.length
  set w := opened truncate o
  set keys : List Shell.Key := List.replicate k (.escape 65)
  set ts := Shell.texts (answer files capacity) (w, []) [] lines with ts_eq
  set end_ := Shell.session (answer files capacity) (w, []) [] lines with end_eq
  have left : end_.2 = ts.map kept := by
    rw [end_eq, Shell.session_older answer_kept lines, List.nil_append]
  have count : (asked files capacity w lines).length = ts.length := List.length_map _
  have length : end_.2.length = ts.length := by rw [left, List.length_map]
  rw [count] at le slots back
  obtain ⟨asks, some_⟩ : request (Shell.typed end_.2 keys) = r ∧ Shell.typed end_.2 keys ≠ [] :=
    typed_recalled left (Shell.texts_trimmed lines) le back
  have last : Shell.Ready (fun a t => a.1.Allows files capacity (request t)) (answer files capacity)
      end_.1 end_.2 [keys] := by
    refine ⟨Shell.fits_ups _ _ k, fun empty => absurd empty some_, fun _ => ⟨?_, ?_, fun _ => trivial⟩⟩
    · rw [length]
      exact slots
    · show end_.1.1.Allows files capacity (request (Shell.typed end_.2 keys))
      rw [asks]
      exact allows
  have whole : serve files capacity w (lines ++ [keys]) =
      ((perform files capacity end_.1.1 r).1, end_.1.2 ++ (perform files capacity end_.1.1 r).2.1) := by
    rw [serve, Shell.session_append goes, ← end_eq]
    simp only [Shell.session, if_neg some_]
    rw [← asks]
    split_ifs <;> rfl
  obtain ⟨d', ok, holds, _⟩ := main_serves h room (Shell.ready_append goes ready last)
  rw [whole] at ok holds
  exact ⟨d', ok, holds⟩

end

/-- The first of two lines, recalled. -/
theorem recalled_repeats_insert : ∃ d', Main.main oneFile blankImage false
      ([keysOf " insert  b", keysOf "exists b"] ++ [List.replicate 2 (.escape 65)]) =
        .ok (d', some (ascii "'b' x 1 exists\n")) ∧
      d'.Holds (some (perform oneFile 400
        (serve oneFile 400 .fresh [keysOf " insert  b", keysOf "exists b"]).1 (.insert (ascii "b"))).1) := by
  have asked_ : asked oneFile 400 .fresh [keysOf " insert  b", keysOf "exists b"] =
      [.insert (ascii "b"), .exists_ (ascii "b")] := by decide +kernel
  have printed : (serve oneFile 400 .fresh [keysOf " insert  b", keysOf "exists b"]).2 ++
      (perform oneFile 400 (serve oneFile 400 .fresh [keysOf " insert  b", keysOf "exists b"]).1
        (.insert (ascii "b"))).2.1 = ascii "'b' x 1 exists\n" := by decide +kernel
  have opened_ : opened false none = .fresh := rfl
  have repeats := @recalled_repeats oneFile (.insert (ascii "b")) blankImage none false
    [keysOf " insert  b", keysOf "exists b"] 2 blankImage_holds
  rw [blankImage_length, opened_, asked_, printed] at repeats
  exact repeats (by decide) (by decide +kernel) (by decide +kernel) (by decide) (by decide +kernel) rfl
    (by decide +kernel)

end OsProjects.Persistent
