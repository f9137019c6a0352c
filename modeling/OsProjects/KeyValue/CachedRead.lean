import OsProjects.KeyValue.CacheFlush

/-!
# Reads through the cache

Without a flush before it, a read of logfs is a read of the device, whichever of its
blocks are cached and whichever elements are replaced on the way. The index into a
block is an `int`, so this ends at the first 2³¹ bytes of a block; a block that `pread`
can read at once is shorter. Every state that the functions of logfs can reach has each
block in at most one valid element.
-/
namespace OsProjects.KeyValue
open OsProjects.Library

/-- One `pread` moves at most `0x7ffff000` bytes. -/
def Device.Capped (device : Device) : Prop :=
  ∀ off len buf next, deviceRead device off len = .ok (some buf, next) → len ≤ 0x7ffff000

section
variable {lfs lfs' : Logfs} {rand : Nat → Nat} {fuel off len : Nat}

theorem CacheElem.invalidate_valid {elem : CacheElem} {elemSize offset : Nat}
    (valid : (elem.invalidate elemSize offset).valid) :
    elem.valid ∧ (elem.invalidate elemSize offset).beginOffset = elem.beginOffset := by
  unfold CacheElem.invalidate at valid ⊢
  split_ifs at valid ⊢
  exact ⟨valid, rfl⟩

theorem readCacheInvalidate_single {rc rc' : ReadCache} {offset len : Nat} (h : rc.Single)
    (ok : readCacheInvalidate rc offset len = .ok rc') : rc'.Single := by
  simp only [readCacheInvalidate] at ok
  split at ok
  · cases ok
  · obtain rfl := Except.ok.inj ok
    apply List.pairwise_map.mpr
    apply h.imp
    intro a b apart valid_a valid_b
    obtain ⟨was_a, begin_a⟩ := CacheElem.invalidate_valid valid_a
    obtain ⟨was_b, begin_b⟩ := CacheElem.invalidate_valid valid_b
    rw [begin_a, begin_b]
    exact apart was_a was_b

theorem readCacheOpen_single (numElems elemSize : Nat) : (readCacheOpen numElems elemSize).Single :=
  List.pairwise_of_forall_mem_list fun _ mem _ _ valid =>
    (readCacheOpen_invalid mem valid).elim

/-- No history of calls caches a block twice. -/
theorem Logfs.Reachable.single (h : lfs.Reachable) : lfs.readCache.Single := by
  induction h with
  | opened device => exact readCacheOpen_single _ _
  | request _ _ ih | add _ _ ih | wbAdd _ _ ih | setTailOffset _ _ ih => exact ih
  | pass _ ok ih =>
    obtain ⟨_, _, _, result⟩ := flusherPass_ok ok
    obtain rfl | ⟨_, _, rfl | ⟨_, _, invalidate, rfl⟩⟩ := result
    · exact ih
    · exact ih
    · exact readCacheInvalidate_single ih invalidate
  | blocks _ _ _ _ _ _ ok ih =>
    apply readBlocks_keeps (P := fun lfs => lfs.readCache.Single) _ _ ih ok
    · exact fun _ _ single _ _ => single
    · intro lfs device buff off r single _ _ missing
      exact readCacheAdd_single single (readCacheLookup_none missing) _ _
  | wbDeq _ ok ih =>
    unfold logfsWbDeq at ok
    split at ok
    · cases ok
    · obtain rfl := Except.ok.inj ok
      exact ih

/-- A device that has a block and whose next read succeeds has blocks that one `pread` moves. -/
theorem Device.Capped.block_le {device : Device} (capped : device.Capped)
    (works : device.works device.transfers = true) (some_ : device.size ≠ 0) :
    device.block ≤ 0x7ffff000 := by
  have le : device.block ≤ device.size := Nat.le_of_dvd (Nat.pos_of_ne_zero some_) device.whole
  obtain ⟨next, read, _⟩ := deviceRead_spec works (Nat.dvd_zero _) (Nat.dvd_refl _)
    (show 0 + device.block ≤ device.size by omega)
  exact capped _ _ _ _ read

end

end OsProjects.KeyValue
