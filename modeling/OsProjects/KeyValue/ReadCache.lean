import OsProjects.KeyValue.System
import OsProjects.Library.Memory

/-!
# The read cache of logfs (`logfs.c`)

An array of device blocks. A lookup takes the first valid element of the block, an
added block goes to the first free element or replaces a random one. A cache is
coherent with the device while its valid elements hold what a device read would give.
-/
namespace OsProjects.KeyValue
open OsProjects.Library

structure CacheElem where
  beginOffset : Nat
  data : Bytes
  valid : Bool

structure ReadCache where
  elemSize : Nat
  cache : List CacheElem

def readCacheOpen (numElems elemSize : Nat) : ReadCache :=
  ⟨elemSize, List.replicate numElems ⟨0, List.replicate elemSize 0, false⟩⟩

/-- `rand` is what `rand()` returns, which counts only when every element is valid. -/
def readCacheAdd (rc : ReadCache) (buff : Bytes) (offset rand : Nat) : ReadCache :=
  let unused := rc.cache.findIdx? fun elem => !elem.valid
  let foundIndex := unused.getD (rand % rc.cache.length)
  { rc with cache := rc.cache.set foundIndex ⟨offset, buff, true⟩ }

def readCacheLookup (rc : ReadCache) (offset : Nat) : Option CacheElem :=
  let roundedDownOffset := offset / rc.elemSize * rc.elemSize
  rc.cache.find? fun elem => roundedDownOffset == elem.beginOffset && elem.valid

/-- The body of the loop of `read_cache_invalidate`. -/
def CacheElem.invalidate (elem : CacheElem) (elemSize roundedDownOffset : Nat) : CacheElem :=
  if roundedDownOffset = elem.beginOffset ∧ elem.valid then
    { elem with valid := false, data := List.replicate elemSize 0 }
  else elem

/-- The length of the written range is a parameter of the source, but it is not used. -/
def readCacheInvalidate (rc : ReadCache) (offset : Nat) (_len : Nat) : Except Fault ReadCache :=
  let roundedDownOffset := offset / rc.elemSize * rc.elemSize
  if roundedDownOffset ≠ offset then .error .exit
  else
    .ok { rc with
      cache := rc.cache.map fun elem => elem.invalidate rc.elemSize roundedDownOffset }

structure ReadCache.Coherent (rc : ReadCache) (device : Mem) : Prop where
  aligned : ∀ elem ∈ rc.cache, elem.valid → rc.elemSize ∣ elem.beginOffset
  data : ∀ elem ∈ rc.cache, elem.valid → elem.data = device.read elem.beginOffset rc.elemSize

/-- No block has two valid elements. -/
def ReadCache.Single (rc : ReadCache) : Prop :=
  rc.cache.Pairwise fun a b => a.valid → b.valid → a.beginOffset ≠ b.beginOffset

/-- The cached blocks lie before `limit`. -/
def ReadCache.Within (rc : ReadCache) (limit : Nat) : Prop :=
  ∀ elem ∈ rc.cache, elem.valid → elem.beginOffset + rc.elemSize ≤ limit

section
variable {rc : ReadCache} {device : Mem}

theorem readCacheOpen_invalid {numElems elemSize : Nat} {elem : CacheElem}
    (mem : elem ∈ (readCacheOpen numElems elemSize).cache) : ¬ elem.valid = true := by
  rw [List.eq_of_mem_replicate mem]
  simp

theorem readCacheOpen_coherent (numElems elemSize : Nat) (device : Mem) :
    (readCacheOpen numElems elemSize).Coherent device :=
  ⟨fun _ mem valid => (readCacheOpen_invalid mem valid).elim,
    fun _ mem valid => (readCacheOpen_invalid mem valid).elim⟩

theorem readCacheOpen_within (numElems elemSize limit : Nat) :
    (readCacheOpen numElems elemSize).Within limit :=
  fun _ mem valid => (readCacheOpen_invalid mem valid).elim

theorem readCacheAdd_coherent (h : rc.Coherent device) {offset : Nat}
    (aligned : rc.elemSize ∣ offset) (rand : Nat) :
    (readCacheAdd rc (device.read offset rc.elemSize) offset rand).Coherent device := by
  constructor
  · intro elem mem valid
    rcases List.mem_or_eq_of_mem_set mem with old | rfl
    · exact h.aligned elem old valid
    · exact aligned
  · intro elem mem valid
    rcases List.mem_or_eq_of_mem_set mem with old | rfl
    · exact h.data elem old valid
    · rfl

theorem readCacheAdd_within {limit offset : Nat} (h : rc.Within limit)
    (inside : offset + rc.elemSize ≤ limit) (buff : Bytes) (rand : Nat) :
    (readCacheAdd rc buff offset rand).Within limit := by
  intro elem mem valid
  rcases List.mem_or_eq_of_mem_set mem with old | rfl
  · exact h elem old valid
  · exact inside

theorem readCacheLookup_none {offset : Nat} (missing : readCacheLookup rc offset = none) :
    ∀ elem ∈ rc.cache, elem.valid → elem.beginOffset ≠ offset / rc.elemSize * rc.elemSize := by
  intro elem mem valid same
  have miss := List.find?_eq_none.mp missing elem mem
  simp [same, valid] at miss

/-- A block that was missing has one element afterwards. -/
theorem readCacheAdd_single (h : rc.Single) {offset : Nat}
    (missing : ∀ elem ∈ rc.cache, elem.valid → elem.beginOffset ≠ offset) (buff : Bytes)
    (rand : Nat) : (readCacheAdd rc buff offset rand).Single := by
  unfold ReadCache.Single readCacheAdd
  generalize (rc.cache.findIdx? fun elem => !elem.valid).getD (rand % rc.cache.length) = k
  simp only [List.pairwise_iff_getElem, List.length_set, List.getElem_set]
  intro i j hi hj lt
  have old := List.pairwise_iff_getElem.mp h i j hi hj lt
  split_ifs with at_i at_j at_j
  · omega
  · exact fun _ valid => (missing _ (List.getElem_mem hj) valid).symm
  · exact fun valid _ => missing _ (List.getElem_mem hi) valid
  · exact old

/-- A hit holds the looked-up block, whether or not its bytes are right. -/
theorem readCacheLookup_begin {offset : Nat} {elem : CacheElem}
    (found : readCacheLookup rc offset = some elem) :
    elem ∈ rc.cache ∧ elem.valid ∧ elem.beginOffset = offset / rc.elemSize * rc.elemSize := by
  have hit := List.find?_some found
  simp only [Bool.and_eq_true, beq_iff_eq] at hit
  exact ⟨List.mem_of_find?_eq_some found, hit.2, hit.1.symm⟩

theorem readCacheLookup_coherent (h : rc.Coherent device) {offset : Nat} {elem : CacheElem}
    (found : readCacheLookup rc offset = some elem) :
    elem.data = device.read (offset / rc.elemSize * rc.elemSize) rc.elemSize := by
  obtain ⟨mem, valid, begin_⟩ := readCacheLookup_begin found
  rw [h.data elem mem valid, begin_]

/-- Invalidating the first block of a written range keeps the cache coherent just when the write
leaves all other cached blocks as they are. -/
theorem readCacheInvalidate_spec {offset : Nat} (aligned : rc.elemSize ∣ offset) (len : Nat) :
    ∃ rc', readCacheInvalidate rc offset len = .ok rc' ∧ rc'.elemSize = rc.elemSize ∧
      ∀ device', rc.Coherent device → (rc'.Coherent device' ↔
        ∀ elem ∈ rc.cache, elem.valid → elem.beginOffset ≠ offset →
          elem.data = device'.read elem.beginOffset rc.elemSize) := by
  have rounded : offset / rc.elemSize * rc.elemSize = offset := Nat.div_mul_cancel aligned
  have left : ∀ elem, elem.valid → (elem ∈ rc.cache.map (fun elem =>
      elem.invalidate rc.elemSize (offset / rc.elemSize * rc.elemSize)) ↔
      elem ∈ rc.cache ∧ elem.beginOffset ≠ offset) := by
    intro elem valid
    rw [rounded]
    constructor
    · intro mem
      obtain ⟨was, in_cache, rfl⟩ := List.mem_map.mp mem
      unfold CacheElem.invalidate at valid ⊢
      split_ifs at valid ⊢ with hit
      exact ⟨in_cache, fun same => hit ⟨same.symm, valid⟩⟩
    · rintro ⟨in_cache, other⟩
      refine List.mem_map.mpr ⟨elem, in_cache, if_neg ?_⟩
      exact fun hit => other hit.1.symm
  refine ⟨_, if_neg (not_not_intro rounded), rfl, fun device' h => ⟨fun h' => ?_, fun spared => ?_⟩⟩
  · intro elem mem valid other
    exact h'.data elem ((left elem valid).mpr ⟨mem, other⟩) valid
  · constructor
    · intro elem mem valid
      exact h.aligned elem ((left elem valid).mp mem).1 valid
    · intro elem mem valid
      obtain ⟨in_cache, other⟩ := (left elem valid).mp mem
      exact spared elem in_cache valid other

end

end OsProjects.KeyValue
