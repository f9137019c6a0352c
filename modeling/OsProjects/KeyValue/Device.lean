import OsProjects.KeyValue.System
import OsProjects.Library.Memory

/-!
# The block device (`device.c`)

A device transfers whole blocks at block offsets. A read that violates this fails an
assertion, a write that does ends the process; both checks add in `uint64_t`. `works`
says for each transfer, counted from the opening of the device, whether the kernel
completes it, and it completes none behind the end.
-/
namespace OsProjects.KeyValue
open OsProjects.Library

/-- An open device. `geometry` rejects a block or a size of 0, and the size is rounded down to
whole blocks. -/
structure Device where
  bytes : Mem
  size : Nat
  block : Nat
  /-- Whether the kernel makes a transfer in full. What it makes at most in one call is left open. -/
  works : Nat → Bool
  transfers : Nat
  block_pos : 0 < block
  block_lt : block < 2 ^ 32
  size_lt : size < 2 ^ 64
  whole : block ∣ size

/-- `device_read`; `none` is the return value -1. -/
def deviceRead (device : Device) (off len : Nat) : Except Fault (Option Bytes × Device) :=
  if off % device.block ≠ 0 ∨ len % device.block ≠ 0 ∨
      device.size < (off + len) % 2 ^ 64 then
    .error .assertion
  else
    let next := { device with transfers := device.transfers + 1 }
    if device.works device.transfers ∧ off + len ≤ device.size then
      .ok (some (device.bytes.read off len), next)
    else .ok (none, next)

/-- `device_write`; `false` is the return value -1. -/
def deviceWrite (device : Device) (buf : Bytes) (off : Nat) : Except Fault (Bool × Device) :=
  if off % device.block ≠ 0 ∨ buf.length % device.block ≠ 0 ∨
      device.size < (off + buf.length) % 2 ^ 64 then
    .error .exit
  else
    let next := { device with transfers := device.transfers + 1 }
    if device.works device.transfers ∧ off + buf.length ≤ device.size then
      .ok (true, { next with bytes := device.bytes.write off buf })
    else .ok (false, next)

section
variable {device : Device}

/-- Two states of one device that differ in bytes and transfers only. -/
structure Device.SameGeometry (a b : Device) : Prop where
  size : a.size = b.size
  block : a.block = b.block
  works : a.works = b.works

theorem Device.SameGeometry.refl (d : Device) : d.SameGeometry d := ⟨rfl, rfl, rfl⟩

theorem Device.SameGeometry.trans {a b c : Device} (h : a.SameGeometry b) (h' : b.SameGeometry c) :
    a.SameGeometry c :=
  ⟨h.size.trans h'.size, h.block.trans h'.block, h.works.trans h'.works⟩

theorem deviceRead_spec (works : device.works device.transfers = true) {off len : Nat}
    (aligned : device.block ∣ off) (whole : device.block ∣ len) (within : off + len ≤ device.size) :
    ∃ next, deviceRead device off len = .ok (some (device.bytes.read off len), next) ∧
      next.bytes = device.bytes ∧ next.SameGeometry device ∧
      next.transfers = device.transfers + 1 := by
  have guard : ¬ (off % device.block ≠ 0 ∨ len % device.block ≠ 0 ∨
      device.size < (off + len) % 2 ^ 64) := by
    rw [Nat.mod_eq_zero_of_dvd aligned, Nat.mod_eq_zero_of_dvd whole]
    omega
  refine ⟨{ device with transfers := device.transfers + 1 }, ?_, rfl, ⟨rfl, rfl, rfl⟩, rfl⟩
  rw [deviceRead, if_neg guard]
  exact if_pos ⟨works, within⟩

/-- A successful read stays on the device. -/
theorem deviceRead_some {off len : Nat} {buf : Bytes} {next : Device}
    (h : deviceRead device off len = .ok (some buf, next)) :
    off + len ≤ device.size ∧ next.SameGeometry device := by
  unfold deviceRead at h
  split at h
  · cases h
  · simp only at h
    split at h
    · next ok =>
      cases h
      exact ⟨ok.2, ⟨rfl, rfl, rfl⟩⟩
    · cases h

theorem deviceWrite_works (works : device.works device.transfers = true) {off : Nat} {buf : Bytes}
    (aligned : device.block ∣ off) (whole : device.block ∣ buf.length)
    (within : off + buf.length ≤ device.size) :
    ∃ next, deviceWrite device buf off = .ok (true, next) ∧
      next.bytes = device.bytes.write off buf ∧ next.SameGeometry device := by
  have guard : ¬ (off % device.block ≠ 0 ∨ buf.length % device.block ≠ 0 ∨
      device.size < (off + buf.length) % 2 ^ 64) := by
    rw [Nat.mod_eq_zero_of_dvd aligned, Nat.mod_eq_zero_of_dvd whole]
    omega
  refine ⟨{ device with
    transfers := device.transfers + 1
    bytes := device.bytes.write off buf }, ?_, rfl, ⟨rfl, rfl, rfl⟩⟩
  rw [deviceWrite, if_neg guard]
  exact if_pos ⟨works, within⟩

theorem deviceWrite_spec (works : ∀ n, device.works n = true) {off : Nat} {buf : Bytes}
    (aligned : device.block ∣ off) (whole : device.block ∣ buf.length)
    (within : off + buf.length ≤ device.size) :
    ∃ next, deviceWrite device buf off = .ok (true, next) ∧
      next.bytes = device.bytes.write off buf ∧ next.SameGeometry device :=
  deviceWrite_works (works _) aligned whole within

/-- What any write does. -/
theorem deviceWrite_ok {off : Nat} {buf : Bytes} {done : Bool} {next : Device}
    (h : deviceWrite device buf off = .ok (done, next)) :
    next.SameGeometry device ∧ (done = true → device.block ∣ off ∧ device.block ∣ buf.length ∧
      off + buf.length ≤ device.size ∧ next.bytes = device.bytes.write off buf) := by
  unfold deviceWrite at h
  split at h
  · cases h
  · next guard =>
    simp only [not_or, not_not] at guard
    simp only at h
    split at h
    · next ok =>
      cases h
      exact ⟨⟨rfl, rfl, rfl⟩, fun _ => ⟨Nat.dvd_of_mod_eq_zero guard.1,
        Nat.dvd_of_mod_eq_zero guard.2.1, ok.2, rfl⟩⟩
    · cases h
      exact ⟨⟨rfl, rfl, rfl⟩, fun done => by cases done⟩

theorem deviceRead_ok {off len : Nat} {reply : Option Bytes} {next : Device}
    (h : deviceRead device off len = .ok (reply, next)) :
    next.SameGeometry device ∧ next.bytes = device.bytes := by
  unfold deviceRead at h
  split at h
  · cases h
  · simp only at h
    split at h
    · cases h
      exact ⟨⟨rfl, rfl, rfl⟩, rfl⟩
    · cases h
      exact ⟨⟨rfl, rfl, rfl⟩, rfl⟩

end

end OsProjects.KeyValue
