import OsProjects.Library.Bytes
import Mathlib.Logic.Function.Basic

/-!
# Byte-addressed memory

A memory gives a byte to every address. Reads and writes of byte strings are recursive
in their length; integers are stored with the low byte first. What a write leaves alone
is said by addresses, so that frame facts reduce to arithmetic.
-/
namespace OsProjects.Library

abbrev Mem := Nat → UInt8

def Mem.read (m : Mem) : Nat → Nat → Bytes
  | _, 0 => []
  | a, n + 1 => m a :: m.read (a + 1) n

def Mem.write (m : Mem) : Nat → Bytes → Mem
  | _, [] => m
  | a, b :: bs => Function.update (m.write (a + 1) bs) a b

/-- The integer in the `w` bytes at `a`. -/
def Mem.load (m : Mem) (w a : Nat) : Nat := leNat (m.read a w)

def Mem.store (m : Mem) (w a n : Nat) : Mem := m.write a (leBytes w n)

variable {m m' : Mem}

@[simp] theorem Mem.length_read (m : Mem) (a n : Nat) : (m.read a n).length = n := by
  induction n generalizing a with
  | zero => rfl
  | succ n ih => simp [Mem.read, ih]

theorem Mem.read_congr {a n : Nat} (h : ∀ x, a ≤ x → x < a + n → m x = m' x) :
    m.read a n = m'.read a n := by
  induction n generalizing a with
  | zero => rfl
  | succ n ih =>
    rw [Mem.read, Mem.read, h a (Nat.le_refl a) (by omega)]
    rw [ih fun x ge lt => h x (by omega) (by omega)]

theorem Mem.read_add (m : Mem) (a n k : Nat) :
    m.read a (n + k) = m.read a n ++ m.read (a + n) k := by
  induction n generalizing a with
  | zero => simp [Mem.read]
  | succ n ih =>
    rw [Nat.add_right_comm, Mem.read, Mem.read, ih]
    simp [Nat.add_assoc, Nat.add_comm 1 n]

theorem Mem.getElem?_read (m : Mem) (a n i : Nat) (h : i < n) :
    (m.read a n)[i]? = some (m (a + i)) := by
  induction n generalizing a i with
  | zero => omega
  | succ n ih =>
    cases i with
    | zero => simp [Mem.read]
    | succ i =>
      rw [Mem.read, List.getElem?_cons_succ, ih (a + 1) i (by omega)]
      congr 2
      omega

theorem Mem.take_read (m : Mem) {a n k : Nat} (h : k ≤ n) :
    (m.read a n).take k = m.read a k := by
  obtain ⟨rest, rfl⟩ := Nat.exists_eq_add_of_le h
  rw [m.read_add a k, List.take_left' (m.length_read a k)]

theorem Mem.drop_read (m : Mem) (a n k : Nat) :
    (m.read a n).drop k = m.read (a + k) (n - k) := by
  rcases Nat.le_total k n with le | ge
  · obtain ⟨rest, rfl⟩ := Nat.exists_eq_add_of_le le
    rw [m.read_add a k, List.drop_left' (m.length_read a k), Nat.add_sub_cancel_left]
  · rw [List.drop_of_length_le (by rwa [m.length_read]), Nat.sub_eq_zero_of_le ge]
    rfl

/-- A piece of what was read. -/
theorem Mem.take_drop_read (m : Mem) {a n k l : Nat} (h : k + l ≤ n) :
    ((m.read a n).drop k).take l = m.read (a + k) l := by
  rw [m.drop_read, m.take_read (by omega)]

theorem Mem.write_outside (m : Mem) {a x : Nat} {bs : Bytes} (h : x < a ∨ a + bs.length ≤ x) :
    m.write a bs x = m x := by
  induction bs generalizing a with
  | nil => rfl
  | cons b bs ih =>
    simp only [List.length_cons] at h
    rw [Mem.write, Function.update_of_ne (by omega)]
    exact ih (by omega)

theorem Mem.read_write_self (m : Mem) (a : Nat) (bs : Bytes) :
    (m.write a bs).read a bs.length = bs := by
  induction bs generalizing a with
  | nil => rfl
  | cons b bs ih =>
    have rest : (m.write a (b :: bs)).read (a + 1) bs.length =
        (m.write (a + 1) bs).read (a + 1) bs.length := by
      apply Mem.read_congr
      intro x ge _
      exact Function.update_of_ne (by omega) _ _
    rw [List.length_cons, Mem.read, rest, ih, Mem.write, Function.update_self]

theorem Mem.write_inside (m : Mem) {a i : Nat} {bs : Bytes} {b : UInt8} (h : bs[i]? = some b) :
    m.write a bs (a + i) = b := by
  induction bs generalizing a i with
  | nil => simp at h
  | cons c bs ih =>
    cases i with
    | zero =>
      obtain rfl : c = b := by simpa using h
      simp [Mem.write]
    | succ i =>
      rw [Mem.write, Function.update_of_ne (by omega)]
      rw [← Nat.add_assoc, Nat.add_right_comm]
      exact ih (by simpa using h)

/-- A copy of bytes from one place to another. -/
theorem Mem.write_read_apply (m : Mem) (dst src len x : Nat) :
    m.write dst (m.read src len) x =
      if dst ≤ x ∧ x < dst + len then m (src + (x - dst)) else m x := by
  split_ifs with inside
  · obtain ⟨i, rfl⟩ := Nat.exists_eq_add_of_le inside.1
    rw [Nat.add_sub_cancel_left]
    exact m.write_inside (m.getElem?_read src len i (by omega))
  · refine m.write_outside ?_
    rw [m.length_read]
    omega

/-- A piece of what was written. -/
theorem Mem.read_write_inside (m : Mem) {a k n : Nat} {bs : Bytes} (h : k + n ≤ bs.length) :
    (m.write a bs).read (a + k) n = (bs.drop k).take n := by
  have whole := Mem.take_drop_read (m.write a bs) (a := a) h
  rw [← whole, m.read_write_self]

/-- Bytes away from a write are as before. -/
theorem Mem.read_write_of_apart (m : Mem) {a x n : Nat} {bs : Bytes}
    (h : x + n ≤ a ∨ a + bs.length ≤ x) : (m.write a bs).read x n = m.read x n := by
  apply Mem.read_congr
  intro y ge lt
  exact m.write_outside (by omega)

theorem Mem.load_congr {w a : Nat} (h : ∀ x, a ≤ x → x < a + w → m x = m' x) :
    m.load w a = m'.load w a := by
  rw [Mem.load, Mem.load, Mem.read_congr h]

theorem Mem.load_lt (m : Mem) (w a : Nat) : m.load w a < 256 ^ w := by
  have := leNat_lt (m.read a w)
  rwa [Mem.length_read] at this

theorem Mem.load_store_self (m : Mem) (w a n : Nat) :
    (m.store w a n).load w a = n % 256 ^ w := by
  have self := m.read_write_self a (leBytes w n)
  rw [length_leBytes] at self
  rw [Mem.load, Mem.store, self, leNat_leBytes]

theorem Mem.store_outside (m : Mem) {w a n x : Nat} (h : x < a ∨ a + w ≤ x) :
    m.store w a n x = m x :=
  m.write_outside (by simpa using h)

theorem Mem.load_store_of_apart (m : Mem) {w w' a x n : Nat} (h : x + w' ≤ a ∨ a + w ≤ x) :
    (m.store w a n).load w' x = m.load w' x := by
  apply Mem.load_congr
  intro y ge lt
  exact m.store_outside (by omega)

/-- A memory that starts with the bytes of a list. -/
theorem Mem.read_getD (bs : Bytes) : Mem.read (fun x => bs.getD x 0) 0 bs.length = bs := by
  apply List.ext_getElem?
  intro i
  rcases Nat.lt_or_ge i bs.length with lt | ge
  · rw [Mem.getElem?_read _ _ _ _ lt, Nat.zero_add, List.getD_eq_getElem?_getD,
      List.getElem?_eq_getElem lt, Option.getD_some]
  · rw [List.getElem?_eq_none (by simpa using ge), List.getElem?_eq_none ge]

theorem leNat_zeros (n : Nat) : leNat (List.replicate n 0) = 0 := by
  induction n with
  | zero => rfl
  | succ n ih => simp [List.replicate_succ, leNat, ih]

theorem Mem.read_zeros {a n : Nat} (h : ∀ x, a ≤ x → x < a + n → m x = 0) :
    m.read a n = List.replicate n 0 := by
  induction n generalizing a with
  | zero => rfl
  | succ n ih =>
    rw [Mem.read, h a (Nat.le_refl a) (by omega), ih fun x ge lt => h x (by omega) (by omega)]
    rfl

theorem Mem.load_zeros {w a : Nat} (h : ∀ x, a ≤ x → x < a + w → m x = 0) :
    m.load w a = 0 := by
  rw [Mem.load, Mem.read_zeros h, leNat_zeros]

/-- An integer is zero only if its bytes are. -/
theorem Mem.zeros_of_load {w a : Nat} (h : m.load w a = 0) : ∀ x, a ≤ x → x < a + w → m x = 0 := by
  induction w generalizing a with
  | zero => exact fun x ge lt => by omega
  | succ w ih =>
    have sum : (m a).toNat + 256 * m.load w (a + 1) = 0 := h
    intro x ge lt
    rcases Nat.eq_or_lt_of_le ge with rfl | gt
    · exact UInt8.toNat_inj.mp (Nat.eq_zero_of_add_eq_zero_right sum)
    · have rest : m.load w (a + 1) = 0 := by omega
      exact ih rest x gt (by omega)

end OsProjects.Library
