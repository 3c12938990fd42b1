/-
# Byte memory and raw pointers

`ykbh` reads and writes memory through raw pointers: the frames it allocates
and the caller's memory behind the trace inputs pointer alike. The model is one
byte-addressed 64-bit address space (`Mem`) with wrapping pointer arithmetic.
`std::ptr::copy` is `Mem.copy`, a `memmove`: it reads all the bytes, then
writes them. A pointer is stored as its eight little-endian bytes
(`writePtr`, `readPtr`), as on x86_64.

What is written reads back (`read_write_self`, `readPtr_writePtr`), and a
write changes no byte outside its range (`write_of_not_inRange`).

Key definitions: `Mem.read`, `Mem.write`, `Mem.copy`, `readPtr`, `writePtr`.
-/
import Mathlib.Algebra.Order.Ring.Nat
import Mathlib.Data.BitVec

namespace Yk
namespace Bh

/-- An address, 64 bits wide. -/
abbrev Addr := BitVec 64

/-- Memory: a byte at every address. -/
abbrev Mem := Addr → BitVec 8

/-- `x` is one of the `n` bytes from `a`. -/
def InRange (a : Addr) (n : Nat) (x : Addr) : Prop := (x - a).toNat < n

instance (a : Addr) (n : Nat) (x : Addr) : Decidable (InRange a n x) :=
  inferInstanceAs (Decidable (_ < _))

/-- The `n` bytes from `a`. -/
def Mem.read (m : Mem) (a : Addr) (n : Nat) : List (BitVec 8) :=
  (List.range n).map fun i => m (a + BitVec.ofNat 64 i)

/-- The bytes `bs` written from `a`. -/
def Mem.write (m : Mem) (a : Addr) (bs : List (BitVec 8)) : Mem :=
  fun x => if (x - a).toNat < bs.length then bs.getD (x - a).toNat 0 else m x

/-- `std::ptr::copy(src, dst, n)`. -/
def Mem.copy (m : Mem) (src dst : Addr) (n : Nat) : Mem := m.write dst (m.read src n)

/-- The `n` low bytes of `v`, least significant first. -/
def leBytes (v : Nat) : Nat → List (BitVec 8)
  | 0 => []
  | n + 1 => BitVec.ofNat 8 v :: leBytes (v / 256) n

/-- The number whose little-endian bytes are `bs`. -/
def leValue : List (BitVec 8) → Nat
  | [] => 0
  | b :: bs => b.toNat + 256 * leValue bs

/-- `std::ptr::read::<*mut u8>(a)`. -/
def readPtr (m : Mem) (a : Addr) : Addr := BitVec.ofNat 64 (leValue (m.read a 8))

/-- `std::ptr::write::<*mut u8>(a, p)`. -/
def writePtr (m : Mem) (a p : Addr) : Mem := m.write a (leBytes p.toNat 8)

/-! ### Encoding pointers -/

@[simp] theorem length_leBytes (v n : Nat) : (leBytes v n).length = n := by
  induction n generalizing v with
  | zero => rfl
  | succ n ih => simp [leBytes, ih]

theorem leValue_leBytes (v n : Nat) : leValue (leBytes v n) = v % 256 ^ n := by
  induction n generalizing v with
  | zero => simp [leBytes, leValue, Nat.mod_one]
  | succ n ih =>
    rw [leBytes, leValue, ih, BitVec.toNat_ofNat, pow_succ' 256 n, Nat.mod_mul]

/-! ### Reading what was written -/

@[simp] theorem length_read (m : Mem) (a : Addr) (n : Nat) : (m.read a n).length = n := by
  simp [Mem.read]

theorem toNat_add_sub_self (a : Addr) {i : Nat} (hi : i < 18446744073709551616) :
    (a + BitVec.ofNat 64 i - a).toNat = i := by
  rw [add_sub_cancel_left, BitVec.toNat_ofNat]
  exact Nat.mod_eq_of_lt hi

theorem write_of_not_inRange {m : Mem} {a x : Addr} {bs : List (BitVec 8)}
    (h : ¬ InRange a bs.length x) : m.write a bs x = m x :=
  if_neg h

@[simp] theorem write_nil (m : Mem) (a : Addr) : m.write a [] = m :=
  funext fun _ => if_neg (Nat.not_lt_zero _)

/-- The bytes written read back, when they do not wrap onto themselves. -/
theorem read_write_self (m : Mem) (a : Addr) {bs : List (BitVec 8)}
    (h : bs.length ≤ 18446744073709551616) : (m.write a bs).read a bs.length = bs := by
  apply List.ext_getElem (length_read _ _ _)
  intro i hi hi'
  have hlt : i < 18446744073709551616 := by omega
  simp only [Mem.read, List.getElem_map, List.getElem_range, Mem.write,
    toNat_add_sub_self a hlt, if_pos hi', List.getD_eq_getElem?_getD, List.getElem?_eq_getElem hi',
    Option.getD_some]

theorem read_congr {m m' : Mem} {a : Addr} {n : Nat}
    (h : ∀ t < n, m (a + BitVec.ofNat 64 t) = m' (a + BitVec.ofNat 64 t)) :
    m.read a n = m'.read a n :=
  List.map_congr_left fun t ht => h t (List.mem_range.mp ht)

/-- A byte lies in the `n` bytes from offset `o` of a region at `base` just
when its own offset in the region does. -/
theorem inRange_add_iff {base x : Addr} {o n : Nat} (h : o + n ≤ 18446744073709551616) :
    InRange (base + BitVec.ofNat 64 o) n x ↔ o ≤ (x - base).toNat ∧ (x - base).toNat < o + n := by
  have hr := (x - base).isLt
  unfold InRange
  rw [sub_add_eq_sub_sub, BitVec.toNat_sub, BitVec.toNat_ofNat]
  simp only [show (2 : Nat) ^ 64 = 18446744073709551616 from rfl] at *
  rcases Nat.eq_zero_or_pos n with rfl | hn
  · simp
  · rw [Nat.mod_eq_of_lt (by omega : o < 18446744073709551616)]
    constructor <;> intro h' <;> omega

theorem toNat_add_add_sub_self (a : Addr) {o t : Nat} (h : o + t < 18446744073709551616) :
    (a + BitVec.ofNat 64 o + BitVec.ofNat 64 t - a).toNat = o + t := by
  rw [add_assoc, ← BitVec.ofNat_add, toNat_add_sub_self a h]

theorem readPtr_writePtr (m : Mem) (a p : Addr) : readPtr (writePtr m a p) a = p := by
  have h8 := @read_write_self m a (leBytes p.toNat 8) (by simp)
  rw [length_leBytes] at h8
  rw [readPtr, writePtr, h8, leValue_leBytes]
  exact BitVec.eq_of_toNat_eq (by simp [Nat.mod_eq_of_lt p.isLt])

end Bh
end Yk
