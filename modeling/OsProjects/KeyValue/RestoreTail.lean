import OsProjects.KeyValue.VisitorRuns
import OsProjects.Library.Steps

/-!
# What a restore leaves in logfs

The visitor puts every record into the write buffer and takes out at most one block for
each, as soon as 4096 bytes are queued. So the tail offset and the queue are those of
the log only if the records keep up with the blocks: `Restorable` says when, by the
sizes of the records alone.
-/
namespace OsProjects.KeyValue
open OsProjects.Library

/-- How often 4096 bytes are taken out: once for a record at most, and never more than full
blocks have been put in. -/
def taken (ns : List Nat) : Nat :=
  (ns.foldl (fun p n => (p.1 + n, min (p.2 + 1) ((p.1 + n) / 4096))) (0, 0)).2

theorem taken_append (ns : List Nat) (n : Nat) :
    taken (ns ++ [n]) = min (taken ns + 1) ((ns.sum + n) / 4096) := by
  have total : ∀ (ns : List Nat) (p : Nat × Nat),
      (ns.foldl (fun p n => (p.1 + n, min (p.2 + 1) ((p.1 + n) / 4096))) p).1 = p.1 + ns.sum := by
    intro ns
    induction ns with
    | nil => simp
    | cons m ns ih =>
      intro p
      rw [List.foldl_cons, ih, List.sum_cons, Nat.add_assoc]
  simp only [taken, List.foldl_append, List.foldl_cons, List.foldl_nil, total, Nat.zero_add]

/-- From any prefix on, a block goes with each record at most. -/
theorem taken_le (ns : List Nat) :
    ∀ a b, ns = a ++ b → taken ns ≤ a.sum / 4096 + b.length := by
  induction ns using List.reverseRecOn with
  | nil =>
    intro a b split
    simp [taken]
  | append_singleton ns n ih =>
    intro a b split
    rw [taken_append]
    rcases List.eq_nil_or_concat b with rfl | ⟨b, m, rfl⟩
    · rw [List.append_nil] at split
      rw [← split, List.sum_append, List.sum_singleton, List.length_nil]
      exact Nat.min_le_right _ _
    · rw [List.concat_eq_append, ← List.append_assoc] at split
      have le := ih a b (List.append_inj' split rfl).1
      simp only [List.concat_eq_append, List.length_append, List.length_singleton]
      omega

theorem taken_attained (ns : List Nat) :
    ∃ a b, ns = a ++ b ∧ taken ns = a.sum / 4096 + b.length := by
  induction ns using List.reverseRecOn with
  | nil => exact ⟨[], [], rfl, rfl⟩
  | append_singleton ns n ih =>
    obtain ⟨a, b, rfl, eq⟩ := ih
    rw [taken_append]
    rcases Nat.le_total (taken (a ++ b) + 1) (((a ++ b).sum + n) / 4096) with le | ge
    · refine ⟨a, b ++ [n], by simp, ?_⟩
      rw [Nat.min_eq_left le, eq, List.length_append, List.length_singleton, Nat.add_assoc]
    · refine ⟨a ++ b ++ [n], [], by simp, ?_⟩
      have sum : (a ++ b ++ [n]).sum = (a ++ b).sum + n := by
        rw [List.sum_append, List.sum_singleton]
      rw [Nat.min_eq_right ge, sum]
      rfl

theorem taken_mul_le (ns : List Nat) : 4096 * taken ns ≤ ns.sum := by
  have le := taken_le ns ns [] (by simp)
  simp only [List.length_nil] at le
  omega

/-- A record of `n` bytes that meets `queued` bytes loses none, and what it makes go are 4096. -/
def Keeps (block queued n : Nat) : Prop :=
  queued + n < wcacheBlocks * block ∧ (4096 ≤ queued + n → block = 4096 ∨ queued + n = 4096)

/-- Every record is kept. -/
def Kept (block : Nat) (ns : List Nat) : Prop :=
  Steps (fun before n => Keeps block (before.sum - 4096 * taken before) n) ns

section
variable {block : Nat} {state : Bytes × Nat} {bytes : Bytes} {s : Nat}

/-- What goes with 4096 queued bytes is at least as long as what the tail offset moves. -/
theorem takeOut_le (big : 4096 ≤ block) (queue : Bytes) (tail : Nat)
    (small : tail + queue.length < 2 ^ 64) :
    (takeOut block queue tail).2 + (takeOut block queue tail).1.length ≤ tail + queue.length ∧
      ((takeOut block queue tail).2 + (takeOut block queue tail).1.length = tail + queue.length →
        4096 ≤ queue.length → block = 4096 ∨ queue.length = 4096) := by
  unfold takeOut
  by_cases full : 4096 ≤ queue.length
  · have mod : (tail + 4096) % 2 ^ 64 = tail + 4096 := Nat.mod_eq_of_lt (by omega)
    simp only [if_pos full, mod, List.length_drop]
    omega
  · simp only [if_neg full]
    omega

/-- Queue and tail offset together never count more than the log, and all of it only while every
record is kept. -/
theorem absorb_le (big : 4096 ≤ block) (le : state.2 + state.1.length ≤ s)
    (some_ : 0 < bytes.length) (small : s + bytes.length < 2 ^ 64) :
    (absorb block state bytes).2 + (absorb block state bytes).1.length ≤ s + bytes.length ∧
      ((absorb block state bytes).2 + (absorb block state bytes).1.length = s + bytes.length →
        state.2 + state.1.length = s ∧ Keeps block state.1.length bytes.length) := by
  unfold absorb enqueue Keeps
  split_ifs with less fills
  · obtain ⟨bound, exact_⟩ := takeOut_le big (state.1 ++ bytes) state.2
      (by rw [List.length_append]; omega)
    rw [List.length_append] at bound exact_
    exact ⟨by omega, fun same => ⟨by omega, less, exact_ (by omega)⟩⟩
  · obtain ⟨bound, _⟩ := takeOut_le big [] state.2 (by rw [List.length_nil]; omega)
    rw [List.length_nil] at bound
    exact ⟨by omega, fun same => by omega⟩
  · obtain ⟨bound, _⟩ := takeOut_le big state.1 state.2 (by omega)
    exact ⟨by omega, fun same => by omega⟩

/-- A kept record stays in the log's place. -/
theorem absorb_kept (big : 4096 ≤ block) {log : Bytes} {tail : Nat} (le : tail ≤ log.length)
    (keeps : Keeps block (log.length - tail) bytes.length)
    (small : log.length + bytes.length < 2 ^ 64) :
    absorb block (log.drop tail, tail) bytes =
      if 4096 ≤ log.length - tail + bytes.length then
        ((log ++ bytes).drop (tail + 4096), tail + 4096)
      else ((log ++ bytes).drop tail, tail) := by
  obtain ⟨less, goes⟩ := keeps
  have queue : log.drop tail ++ bytes = (log ++ bytes).drop tail :=
    (List.drop_append_of_le_length le).symm
  simp only [absorb, takeOut, enqueue, List.length_drop, if_pos less, queue, List.length_append]
  by_cases full : 4096 ≤ log.length - tail + bytes.length
  · rw [if_pos (by omega), if_pos full, Nat.mod_eq_of_lt (by omega), List.drop_drop]
    rcases goes full with rfl | exact_
    · rfl
    · rw [List.drop_of_length_le (by rw [List.length_append]; omega),
        List.drop_of_length_le (by rw [List.length_append]; omega)]
  · rw [if_neg (by omega), if_neg full]

/-- After any records the queue and the tail offset count the whole log exactly if every record
was kept, and then they are those of the log. -/
theorem absorbAll_spec (big : 4096 ≤ block) (bss : List Bytes) (some_ : ∀ bs ∈ bss, 0 < bs.length)
    (small : (bss.map List.length).sum < 2 ^ 64) :
    let final := bss.foldl (absorb block) ([], 0)
    let sizes := bss.map List.length
    final.2 + final.1.length ≤ sizes.sum ∧
      (final.2 + final.1.length = sizes.sum → Kept block sizes) ∧
      (Kept block sizes →
        final = (bss.flatten.drop (4096 * taken sizes), 4096 * taken sizes)) := by
  induction bss using List.reverseRecOn with
  | nil => exact ⟨Nat.le_refl 0, fun _ => Steps.nil, fun _ => rfl⟩
  | append_singleton bss bs ih =>
    simp only [List.map_append, List.map_cons, List.map_nil, List.sum_append, List.sum_singleton,
      List.foldl_append, List.foldl_cons, List.foldl_nil] at small ⊢
    obtain ⟨bound, kept, same⟩ := ih (fun b mem => some_ b (by simp [mem])) (by omega)
    obtain ⟨bound', exact_⟩ := absorb_le big bound (some_ bs (by simp)) small
    have tail_le := taken_mul_le (bss.map List.length)
    refine ⟨bound', fun all => ?_, fun all => ?_⟩
    · obtain ⟨before, keeps⟩ := exact_ all
      have earlier := kept before
      refine steps_append.mpr ⟨earlier, ?_⟩
      have queued := congrArg (fun final => final.1.length) (same earlier)
      simp only [List.length_drop, List.length_flatten] at queued
      rwa [queued] at keeps
    · obtain ⟨earlier, keeps⟩ := steps_append.mp all
      have length : bss.flatten.length = (bss.map List.length).sum := List.length_flatten
      have flatten : (bss ++ [bs]).flatten = bss.flatten ++ bs := by simp
      rw [← length] at keeps small tail_le
      rw [same earlier, absorb_kept big tail_le keeps small, taken_append, flatten, ← length]
      split_ifs with full
      · have next : min (taken (bss.map List.length) + 1) ((bss.flatten.length + bs.length) / 4096) =
            taken (bss.map List.length) + 1 := Nat.min_eq_left (by omega)
        rw [next, Nat.mul_add]
      · have next : min (taken (bss.map List.length) + 1) ((bss.flatten.length + bs.length) / 4096) =
            taken (bss.map List.length) := by omega
        rw [next]

end

/-- The sizes of records from which a restore rebuilds tail offset and queue. For blocks of 4096
bytes the records of no stretch of the log fill more blocks than they are, up to its end, and the
blocks that wait fit the ring. For larger blocks no record reaches across a multiple of 4096 and
the last one passed is a block boundary; for smaller ones the log has no full block. -/
def Restorable (block : Nat) (ns : List Nat) : Prop :=
  if block < 4096 then ns.sum < block
  else if block = 4096 then
    Steps (fun before n => ∀ a b, before = a ++ b →
      before.sum + n < 4096 * (wcacheBlocks + a.sum / 4096 + b.length)) ns ∧
    ∀ a b, ns = a ++ b → ns.sum / 4096 ≤ a.sum / 4096 + b.length
  else
    Steps (fun before n => before.sum + n ≤ 4096 * (before.sum / 4096 + 1)) ns ∧
      ns.sum % block < 4096

/-- With blocks of 4096 bytes a record is kept if the blocks that wait fit the ring. -/
theorem kept_iff_of_eq (ns : List Nat) :
    Kept 4096 ns ↔ Steps (fun before n => ∀ a b, before = a ++ b →
      before.sum + n < 4096 * (wcacheBlocks + a.sum / 4096 + b.length)) ns := by
  have step : ∀ before n, Keeps 4096 (before.sum - 4096 * taken before) n ↔
      ∀ a b, before = a ++ b →
        before.sum + n < 4096 * (wcacheBlocks + a.sum / 4096 + b.length) := by
    intro before n
    have le := taken_mul_le before
    simp only [Keeps, wcacheBlocks, true_or, implies_true, and_true]
    constructor
    · intro fits a b split
      have most := taken_le before a b split
      omega
    · intro fits
      obtain ⟨a, b, split, eq⟩ := taken_attained before
      have := fits a b split
      omega
  exact ⟨fun h => h.imp fun before n => (step before n).mp,
    fun h => h.imp fun before n => (step before n).mpr⟩

/-- While no record reaches across a multiple of 4096 all full 4096 bytes have been taken out. -/
theorem taken_of_steps (ns : List Nat)
    (h : Steps (fun before n => before.sum + n ≤ 4096 * (before.sum / 4096 + 1)) ns) :
    taken ns = ns.sum / 4096 := by
  induction ns using List.reverseRecOn with
  | nil => rfl
  | append_singleton ns n ih =>
    obtain ⟨earlier, last⟩ := steps_append.mp h
    rw [taken_append, ih earlier, List.sum_append, List.sum_singleton]
    omega

/-- With larger blocks a record is kept if it does not reach across a multiple of 4096. -/
theorem kept_iff_of_lt {block : Nat} (big : 4096 < block) (ns : List Nat) :
    Kept block ns ↔
      Steps (fun before n => before.sum + n ≤ 4096 * (before.sum / 4096 + 1)) ns := by
  induction ns using List.reverseRecOn with
  | nil => exact ⟨fun _ => Steps.nil, fun _ => Steps.nil⟩
  | append_singleton ns n ih =>
    constructor
    · intro h
      obtain ⟨earlier, keeps⟩ := steps_append.mp h
      have whole := taken_of_steps ns (ih.mp earlier)
      refine steps_append.mpr ⟨ih.mp earlier, ?_⟩
      simp only [Keeps, whole] at keeps
      omega
    · intro h
      obtain ⟨earlier, last⟩ := steps_append.mp h
      have whole := taken_of_steps ns earlier
      refine steps_append.mpr ⟨ih.mpr earlier, ?_⟩
      simp only [Keeps, wcacheBlocks, whole]
      omega

/-- Logs shorter than a block and than 4096 bytes stay in the write buffer. -/
theorem absorbAll_short {block : Nat} (bss : List Bytes) {log : Bytes} {tail : Nat}
    (short : log.length + (bss.map List.length).sum < min block 4096) :
    bss.foldl (absorb block) (log, tail) = (log ++ bss.flatten, tail) := by
  induction bss generalizing log with
  | nil => simp
  | cons bs bss ih =>
    simp only [List.map_cons, List.sum_cons] at short
    have added : absorb block (log, tail) bs = (log ++ bs, tail) := by
      have fits : log.length + bs.length < wcacheBlocks * block := by
        simp only [wcacheBlocks]
        omega
      simp only [absorb, enqueue, takeOut, if_pos fits, List.length_append]
      rw [if_neg (by omega)]
    rw [List.foldl_cons, added, ih (by rw [List.length_append]; omega)]
    simp

/-- What `kvraw_visitor_init` and `kvraw_visitor_next` have to leave behind: the size of the log, its
last block boundary, and the log from there on in the write buffer. -/
structure Kvraw.Restored (kvraw : Kvraw Logfs) (block : Nat) (log : Bytes) : Prop where
  size : kvraw.size = log.length
  tail : kvraw.logfs.tailOffset = log.length / block * block
  queue : kvraw.logfs.writeBuffer.Holds (log.drop (log.length / block * block))

theorem WriteBuffer.Holds.unique {wb : WriteBuffer} {bs bs' : Bytes} (h : wb.Holds bs)
    (h' : wb.Holds bs') : bs = bs' := by
  have tail_lt := h.tail_lt
  have length : bs.length = bs'.length := by
    have short := h.short
    have short' := h'.short
    have head := h.head.symm.trans h'.head
    unfold slot at head
    split_ifs at head <;> omega
  apply List.ext_getElem?
  intro i
  rcases Nat.lt_or_ge i bs.length with lt | ge
  · have value := h.ring i _ (List.getElem?_eq_getElem lt)
    have value' := h'.ring i _ (List.getElem?_eq_getElem (length ▸ lt))
    rw [List.getElem?_eq_getElem lt, List.getElem?_eq_getElem (length ▸ lt), ← value, ← value']
  · rw [List.getElem?_eq_none ge, List.getElem?_eq_none (length ▸ ge)]

section
variable {device : Device} {rs : List Rec} {rand : Nat → Nat → Nat}

/-- A device with the log, zeros behind it and at least one further block of them. -/
structure Device.HasPaddedLog (device : Device) (rs : List Rec) : Prop where
  log : device.HasLog 0 (dummy :: rs)
  zeros : ∀ x, logSize (dummy :: rs) ≤ x →
    x < logSize (dummy :: rs) / device.block * device.block + 2 * device.block →
      device.bytes x = 0
  inside : logSize (dummy :: rs) / device.block * device.block + 2 * device.block ≤ device.size

theorem map_length_bytes (rs : List Rec) :
    (rs.map Rec.bytes).map List.length = rs.map Rec.size := by
  rw [List.map_map]
  exact List.map_congr_left fun r _ => r.length_bytes

theorem Device.HasPaddedLog.ends (h : device.HasPaddedLog rs)
    (enough : 16 ≤ device.block) : device.EndsAt (logSize (dummy :: rs)) := by
  have split := Nat.div_add_mod' (logSize (dummy :: rs)) device.block
  have lt := Nat.mod_lt (logSize (dummy :: rs)) device.block_pos
  have inside := h.inside
  refine ⟨by simp only [metaLen]; omega, ?_⟩
  rintro ⟨k, _⟩
  rw [h.zeros _ (Nat.le_refl _) (by omega)] at k
  exact absurd k (by decide)

theorem Device.Sane.dvd_block (sane : device.Sane) (big : 4096 ≤ device.block) :
    4096 ∣ device.block := by
  obtain ⟨k, hk⟩ := sane.power
  rw [hk] at big ⊢
  have le : 12 ≤ k := (Nat.pow_le_pow_iff_right (by decide : 1 < 2)).mp big
  exact Nat.pow_dvd_pow 2 le

/-- From 4096 bytes on a block size admits the logs whose records are all kept and whose taken
blocks are all the full ones. -/
theorem restorable_iff {block : Nat} (big : 4096 ≤ block) (dvd : 4096 ∣ block) (ns : List Nat) :
    Restorable block ns ↔ Kept block ns ∧ 4096 * taken ns = ns.sum / block * block := by
  have most := taken_mul_le ns
  rw [Restorable, if_neg (by omega)]
  by_cases exact_ : block = 4096
  · subst exact_
    rw [if_pos rfl, kept_iff_of_eq]
    refine and_congr_right fun _ => ⟨fun keeps_up => ?_, fun all a b split => ?_⟩
    · obtain ⟨a, b, split, eq⟩ := taken_attained ns
      have := keeps_up a b split
      omega
    · have := taken_le ns a b split
      omega
  · rw [if_neg exact_, kept_iff_of_lt (by omega)]
    refine and_congr_right fun steps => ?_
    rw [taken_of_steps ns steps]
    obtain ⟨k, rfl⟩ := dvd
    have split := Nat.div_add_mod ns.sum (4096 * k)
    rw [Nat.mul_comm _ (4096 * k), Nat.mul_assoc] at *
    omega

theorem Kept.sums {block : Nat} {rs : List Rec} (h : Kept block (rs.map Rec.size)) :
    ∀ r ∈ rs, r.Sums := by
  intro r mem
  obtain ⟨before, after, rfl⟩ := List.append_of_mem mem
  obtain ⟨fits, goes⟩ := h (before.map Rec.size) r.size (after.map Rec.size) (by simp)
  have size : r.size = metaLen + r.key.length + r.val.length := rfl
  simp only [wcacheBlocks, Rec.Sums] at *
  rcases Nat.lt_or_ge ((before.map Rec.size).sum - 4096 * taken (before.map Rec.size) + r.size) 4096
    with less | full
  · omega
  · rcases goes full with rfl | exact_ <;> omega

/-- With blocks of at least 4096 bytes a restore leaves the log's tail behind exactly when every
record is kept and all full blocks are taken out. -/
theorem visitorRun_restored_iff (sane : device.Sane) (h : device.HasPaddedLog rs)
    (big : 4096 ≤ device.block) :
    (∃ yielded kvraw, visitorRun rand device = .ok (yielded, kvraw) ∧
        kvraw.Restored device.block (logBytes (dummy :: rs))) ↔
      Restorable device.block ((dummy :: rs).map Rec.size) := by
  have size_lt := device.size_lt
  have inside := h.log.inside
  have total : ((dummy :: rs).map Rec.size).sum = logSize (dummy :: rs) := rfl
  have lengths := map_length_bytes (dummy :: rs)
  have flat : ((dummy :: rs).map Rec.bytes).flatten = logBytes (dummy :: rs) :=
    List.flatMap_def.symm
  obtain ⟨_, all_kept, final⟩ := absorbAll_spec big ((dummy :: rs).map Rec.bytes) (by
    intro bs mem
    obtain ⟨r, _, rfl⟩ := List.mem_map.mp mem
    rw [r.length_bytes]
    exact r.size_pos) (by rw [lengths, total]; omega)
  rw [lengths, flat] at final
  rw [lengths, total] at all_kept
  rw [restorable_iff big (sane.dvd_block big), total]
  have ends := h.ends (by omega)
  constructor
  · rintro ⟨yielded, kvraw, run, restored⟩
    obtain ⟨l, run', restoring⟩ := visitorRun_records rand sane h.log
      (visitorRun_sums rand sane h.log run) ends
    rw [run'] at run
    obtain ⟨rfl, rfl⟩ := Prod.mk.inj (Except.ok.inj run)
    have tail := restoring.tail.symm.trans restored.tail
    have queue := congrArg List.length (restoring.queue.unique restored.queue)
    have le := Nat.div_mul_le_self (logSize (dummy :: rs)) device.block
    rw [length_logBytes] at tail
    rw [List.length_drop, length_logBytes] at queue
    have kept := all_kept (by omega)
    rw [final kept] at tail
    exact ⟨kept, tail⟩
  · rintro ⟨kept, whole⟩
    obtain ⟨l, run, restoring⟩ := visitorRun_records rand sane h.log
      (fun r mem => kept.sums r (List.mem_cons_of_mem _ mem)) ends
    rw [final kept, whole] at restoring
    refine ⟨_, _, run, (length_logBytes _).symm, ?_, ?_⟩
    · rw [length_logBytes]
      exact restoring.tail
    · rw [length_logBytes]
      exact restoring.queue

/-- A log with no full block is restored, also with smaller blocks. -/
theorem visitorRun_restored_short (sane : device.Sane) (h : device.HasPaddedLog rs)
    (short : logSize (dummy :: rs) < min device.block 4096) :
    ∃ yielded kvraw, visitorRun rand device = .ok (yielded, kvraw) ∧
      kvraw.Restored device.block (logBytes (dummy :: rs)) := by
  have sizes : ∀ r ∈ rs, r.size ≤ logSize rs := by
    intro r mem
    obtain ⟨before, after, rfl⟩ := List.append_of_mem mem
    simp only [logSize_append, logSize_cons]
    omega
  have dummy_le : logSize (dummy :: rs) = 18 + logSize rs := rfl
  have sums : ∀ r ∈ rs, r.Sums := by
    intro r mem
    have := sizes r mem
    have size : r.size = metaLen + r.key.length + r.val.length := rfl
    simp only [Rec.Sums]
    omega
  have total : ((dummy :: rs).map Rec.size).sum = logSize (dummy :: rs) := rfl
  have flat : ((dummy :: rs).map Rec.bytes).flatten = logBytes (dummy :: rs) :=
    List.flatMap_def.symm
  obtain ⟨l, run, restoring⟩ := visitorRun_records rand sane h.log sums (h.ends (by omega))
  have nothing : logSize (dummy :: rs) / device.block = 0 := Nat.div_eq_of_lt (by omega)
  rw [absorbAll_short _ (by rw [map_length_bytes, total, List.length_nil]; omega), flat] at restoring
  refine ⟨_, _, run, (length_logBytes _).symm, ?_, ?_⟩
  · rw [length_logBytes, nothing, Nat.zero_mul]
    exact restoring.tail
  · rw [length_logBytes, nothing, Nat.zero_mul]
    exact restoring.queue

end

/-- After a restore of a restorable log the size, the tail offset and the write buffer are those of
the log; with blocks of at least 4096 bytes after no other. -/
theorem visitorRun_restores (device : Device) (sane : device.Sane) (rand : Nat → Nat → Nat)
    (rs : List Rec) (h : device.HasPaddedLog rs) :
    (Restorable device.block ((dummy :: rs).map Rec.size) →
      ∃ yielded kvraw, visitorRun rand device = .ok (yielded, kvraw) ∧
        kvraw.Restored device.block (logBytes (dummy :: rs))) ∧
    (4096 ≤ device.block →
      (∃ yielded kvraw, visitorRun rand device = .ok (yielded, kvraw) ∧
        kvraw.Restored device.block (logBytes (dummy :: rs))) →
      Restorable device.block ((dummy :: rs).map Rec.size)) := by
  refine ⟨fun restorable => ?_, fun big => (visitorRun_restored_iff sane h big).mp⟩
  rcases Nat.lt_or_ge device.block 4096 with small | big
  · rw [Restorable, if_pos small] at restorable
    have short : logSize (dummy :: rs) < device.block := restorable
    exact visitorRun_restored_short sane h (by omega)
  · exact (visitorRun_restored_iff sane h big).mpr restorable

/-- A device of 8 blocks of 4096 bytes with the log of one record. -/
def recDevice (r : Rec) : Device where
  bytes x := (logBytes [dummy, r]).getD x 0
  size := 32768
  block := 4096
  works _ := true
  transfers := 0
  block_pos := by decide
  block_lt := by decide
  size_lt := by decide
  whole := by decide

theorem recDevice_sane (r : Rec) : (recDevice r).Sane where
  power := ⟨12, rfl⟩
  block_lt := show 4096 < 2 ^ 31 by decide
  works _ := rfl

theorem recDevice_hasPaddedLog {r : Rec} (fits : r.Fits) (short : logSize [dummy, r] ≤ 24576) :
    (recDevice r).HasPaddedLog [r] := by
  have block : (recDevice r).block = 4096 := rfl
  have size : (recDevice r).size = 32768 := rfl
  refine ⟨⟨?_, by rw [size]; omega, ?_⟩, fun x behind _ => ?_, by rw [block, size]; omega⟩
  · rw [← length_logBytes]
    exact Mem.read_getD _
  · exact List.forall_mem_cons.mpr
      ⟨⟨by decide, by decide, by decide, by decide⟩, by simpa using fits⟩
  · rw [← length_logBytes] at behind
    simp [recDevice, List.getD_eq_getElem?_getD, List.getElem?_eq_none behind]

/-- A record of a key of one byte and a value of `n` bytes. -/
def filler (n : Nat) : Rec := ⟨[1], List.replicate n 7, 0⟩

theorem size_filler (n : Nat) : (filler n).size = 17 + n := by
  rw [Rec.size, filler, List.length_replicate]
  rfl

theorem logSize_filler (n : Nat) : logSize [dummy, filler n] = 35 + n := by
  rw [logSize_cons, logSize_cons, size_filler]
  simp only [logSize_nil]
  have first : dummy.size = 18 := rfl
  omega

theorem filler_fits {n : Nat} (short : n < 2 ^ 31) : (filler n).Fits where
  key_pos := show 0 < 1 by decide
  key_le := show 1 ≤ 0xffff by decide
  val_le := by
    rw [filler, List.length_replicate]
    omega
  prev_lt := show 0 < 2 ^ 64 by decide

/-- The dummy and a record that together fill one block. -/
theorem restorable_filler : Restorable 4096 ([dummy, filler 4080].map Rec.size) := by
  have sizes : [dummy, filler 4080].map Rec.size = [18, 4097] := by
    simp only [List.map_cons, List.map_nil, size_filler]
    rfl
  rw [sizes, Restorable, if_neg (by decide), if_pos rfl]
  refine ⟨fun before n after split a b _ => ?_, fun a b split => ?_⟩
  · have sum := congrArg List.sum split
    simp only [List.sum_append, List.sum_cons, List.sum_nil] at sum
    rw [wcacheBlocks]
    omega
  · rcases a with _ | ⟨x, _ | ⟨y, a⟩⟩
    · rw [← List.nil_append b, ← split]
      decide
    · obtain ⟨same, rfl⟩ := List.cons.inj split
      simp [← same]
    · obtain ⟨same, split⟩ := List.cons.inj split
      obtain ⟨same', split⟩ := List.cons.inj split
      obtain ⟨rfl, rfl⟩ := List.append_eq_nil_iff.mp split.symm
      simp [← same, ← same']

theorem visitorRun_restores_filler :
    ∃ yielded kvraw, visitorRun (fun _ _ => 0) (recDevice (filler 4080)) = .ok (yielded, kvraw) ∧
      kvraw.Restored 4096 (logBytes [dummy, filler 4080]) :=
  (visitorRun_restores (recDevice (filler 4080)) (recDevice_sane _) _ [filler 4080]
    (recDevice_hasPaddedLog (filler_fits (by decide)) (by rw [logSize_filler]; decide))).1
      restorable_filler

/-- A record of two blocks. -/
def longRec : Rec := filler 8175

def longRecDevice : Device := recDevice longRec

theorem longRecDevice_hasPaddedLog : longRecDevice.HasPaddedLog [longRec] :=
  recDevice_hasPaddedLog (filler_fits (by decide)) (by rw [longRec, logSize_filler]; decide)

/-- A long record fills two blocks but takes out only one. -/
theorem visitorRun_restores_not_long :
    longRecDevice.Sane ∧ longRecDevice.HasPaddedLog [longRec] ∧
      ¬ ∃ yielded kvraw, visitorRun (fun _ _ => 0) longRecDevice = .ok (yielded, kvraw) ∧
        kvraw.Restored longRecDevice.block (logBytes [dummy, longRec]) := by
  have sane : longRecDevice.Sane := recDevice_sane longRec
  refine ⟨sane, longRecDevice_hasPaddedLog, fun restored => ?_⟩
  have restorable := (visitorRun_restored_iff sane longRecDevice_hasPaddedLog (by decide)).mp restored
  rw [Restorable, if_neg (by decide), if_pos (show longRecDevice.block = 4096 from rfl)]
    at restorable
  have keeps_up := restorable.2 [dummy.size] [longRec.size] rfl
  have total : ([dummy, longRec].map Rec.size).sum = 8210 := logSize_filler 8175
  rw [total] at keeps_up
  exact absurd keeps_up (by decide)

end OsProjects.KeyValue
