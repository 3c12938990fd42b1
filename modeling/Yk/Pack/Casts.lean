/-
# Integer constants from raw bits and into registers

`const_int_from_bits!` generates, for every integer type narrower than 128
bits, a constructor of a constant from a `u128` of raw bits: `bits as $rs_t`
keeps the low bits (`constIntFromBits`). `ConstantInt::i64_cast` gives the
value to load into a 64-bit register, sign-extending a signed constant.

Each `_from_bits` undoes its type's cast into `u128`, zero-extending or
sign-extending as Rust does (`fromBits_widen`). The register value is the
constant's integer modulo `2 ^ 64`, and is that integer itself whenever it fits
in an `i64` (`i64Cast_value`).

Key definitions: `constIntFromBits`, `ConstantInt.i64Cast`, `ConstantInt.value`.
-/
import Mathlib.Algebra.Order.Ring.Nat
import Yk.Pack.Types

namespace Yk
namespace Pack

/-! ### `const_int_from_bits!` -/

/-- `const_int_from_bits!`: the constant `mk` builds from the low `w` bits. -/
def constIntFromBits {w : Nat} (mk : BitVec w → ConstantInt) (bits : BitVec 128) : ConstantInt :=
  mk (bits.setWidth w)

def ConstantInt.u8FromBits : BitVec 128 → ConstantInt := constIntFromBits (.unsignedInt ∘ .u8)
def ConstantInt.u16FromBits : BitVec 128 → ConstantInt := constIntFromBits (.unsignedInt ∘ .u16)
def ConstantInt.u32FromBits : BitVec 128 → ConstantInt := constIntFromBits (.unsignedInt ∘ .u32)
def ConstantInt.u64FromBits : BitVec 128 → ConstantInt := constIntFromBits (.unsignedInt ∘ .u64)
def ConstantInt.usizeFromBits : BitVec 128 → ConstantInt :=
  constIntFromBits (.unsignedInt ∘ .usize)
def ConstantInt.i8FromBits : BitVec 128 → ConstantInt := constIntFromBits (.signedInt ∘ .i8)
def ConstantInt.i16FromBits : BitVec 128 → ConstantInt := constIntFromBits (.signedInt ∘ .i16)
def ConstantInt.i32FromBits : BitVec 128 → ConstantInt := constIntFromBits (.signedInt ∘ .i32)
def ConstantInt.i64FromBits : BitVec 128 → ConstantInt := constIntFromBits (.signedInt ∘ .i64)
def ConstantInt.isizeFromBits : BitVec 128 → ConstantInt :=
  constIntFromBits (.signedInt ∘ .isize)

section FromBits

variable {w : Nat} (mk : BitVec w → ConstantInt)

/-- An unsigned value cast to `u128` comes back. -/
theorem constIntFromBits_setWidth (hw : w ≤ 128) (v : BitVec w) :
    constIntFromBits mk (v.setWidth 128) = mk v := by
  rw [constIntFromBits, BitVec.setWidth_setWidth_of_le _ hw, BitVec.setWidth_eq]

/-- A signed value cast to `u128` comes back. -/
theorem constIntFromBits_signExtend (hw : w ≤ 128) (v : BitVec w) :
    constIntFromBits mk (v.signExtend 128) = mk v := by
  have h : (v.signExtend 128).setWidth w = v := by
    apply BitVec.eq_of_getLsbD_eq
    intro i
    simp [BitVec.getLsbD_signExtend, i.isLt, show (i : Nat) < 128 by omega]
  rw [constIntFromBits, h]

end FromBits

/-- **Every `_from_bits` undoes its type's cast into `u128`.** `v as u128`
zero-extends an unsigned `v` and sign-extends a signed one; the constructor
gives the constant of `v` back. -/
theorem fromBits_widen :
    (∀ v : BitVec 8, ConstantInt.u8FromBits (v.setWidth 128) = .unsignedInt (.u8 v)) ∧
    (∀ v : BitVec 16, ConstantInt.u16FromBits (v.setWidth 128) = .unsignedInt (.u16 v)) ∧
    (∀ v : BitVec 32, ConstantInt.u32FromBits (v.setWidth 128) = .unsignedInt (.u32 v)) ∧
    (∀ v : BitVec 64, ConstantInt.u64FromBits (v.setWidth 128) = .unsignedInt (.u64 v)) ∧
    (∀ v : BitVec 64, ConstantInt.usizeFromBits (v.setWidth 128) = .unsignedInt (.usize v)) ∧
    (∀ v : BitVec 8, ConstantInt.i8FromBits (v.signExtend 128) = .signedInt (.i8 v)) ∧
    (∀ v : BitVec 16, ConstantInt.i16FromBits (v.signExtend 128) = .signedInt (.i16 v)) ∧
    (∀ v : BitVec 32, ConstantInt.i32FromBits (v.signExtend 128) = .signedInt (.i32 v)) ∧
    (∀ v : BitVec 64, ConstantInt.i64FromBits (v.signExtend 128) = .signedInt (.i64 v)) ∧
    (∀ v : BitVec 64, ConstantInt.isizeFromBits (v.signExtend 128) = .signedInt (.isize v)) :=
  ⟨constIntFromBits_setWidth _ (by decide), constIntFromBits_setWidth _ (by decide),
    constIntFromBits_setWidth _ (by decide), constIntFromBits_setWidth _ (by decide),
    constIntFromBits_setWidth _ (by decide), constIntFromBits_signExtend _ (by decide),
    constIntFromBits_signExtend _ (by decide), constIntFromBits_signExtend _ (by decide),
    constIntFromBits_signExtend _ (by decide), constIntFromBits_signExtend _ (by decide)⟩

/-! ### `i64_cast` -/

/-- `ConstantInt::i64_cast`: `as i64` zero-extends an unsigned constant,
sign-extends a signed one, and keeps the bits of a 64-bit one. -/
def ConstantInt.i64Cast : ConstantInt → Except Panic (BitVec 64)
  | .unsignedInt (.u8 i) => pure (i.setWidth 64)
  | .unsignedInt (.u16 i) => pure (i.setWidth 64)
  | .unsignedInt (.u32 i) => pure (i.setWidth 64)
  | .unsignedInt (.u64 i) => pure i
  | .unsignedInt (.usize i) => pure i
  | .unsignedInt (.u128 _) => throw ⟨"i64_cast: u128 to isize"⟩
  | .signedInt (.i8 i) => pure (i.signExtend 64)
  | .signedInt (.i16 i) => pure (i.signExtend 64)
  | .signedInt (.i32 i) => pure (i.signExtend 64)
  | .signedInt (.i64 i) => pure i
  | .signedInt (.isize i) => pure i
  | .signedInt (.i128 _) => throw ⟨"i64_cast: i128 to isize"⟩

/-- The integer a constant stands for. -/
def ConstantInt.value : ConstantInt → Int
  | .unsignedInt (.u8 i) => i.toNat
  | .unsignedInt (.u16 i) => i.toNat
  | .unsignedInt (.u32 i) => i.toNat
  | .unsignedInt (.u64 i) => i.toNat
  | .unsignedInt (.usize i) => i.toNat
  | .unsignedInt (.u128 s) => s.val.toNat
  | .signedInt (.i8 i) => i.toInt
  | .signedInt (.i16 i) => i.toInt
  | .signedInt (.i32 i) => i.toInt
  | .signedInt (.i64 i) => i.toInt
  | .signedInt (.isize i) => i.toInt
  | .signedInt (.i128 s) => s.val.toInt

theorem setWidth_eq_ofInt {w : Nat} (i : BitVec w) :
    i.setWidth 64 = BitVec.ofInt 64 (i.toNat : Int) :=
  BitVec.eq_of_toNat_eq (by simp)

theorem toInt_ge_of_le {w : Nat} (i : BitVec w) (hw : w ≤ 64) : -9223372036854775808 ≤ i.toInt := by
  rw [BitVec.toInt_eq_toNat_bmod]
  have h1 := @Int.le_bmod (i.toNat : Int) (2 ^ w) (Nat.two_pow_pos w)
  have h2 : 2 ^ w ≤ 18446744073709551616 := Nat.pow_le_pow_right (by decide) hw
  omega

/-- The register value is the constant's integer modulo `2 ^ 64`. -/
theorem i64Cast_eq_ofInt {c : ConstantInt} {r : BitVec 64} (h : c.i64Cast = .ok r) :
    r = BitVec.ofInt 64 c.value ∧ -9223372036854775808 ≤ c.value := by
  rcases c with (i | i | i | i | i | s) | (i | i | i | i | i | s) <;>
    simp only [ConstantInt.i64Cast, pure_eq_ok, throw_eq_ok] at h <;> subst h <;>
    simp only [ConstantInt.value]
  -- unsigned: `usize`, `u8`, `u16`, `u32`, `u64`
  · exact ⟨(BitVec.setWidth_eq i).symm.trans (setWidth_eq_ofInt i), by omega⟩
  · exact ⟨setWidth_eq_ofInt i, by omega⟩
  · exact ⟨setWidth_eq_ofInt i, by omega⟩
  · exact ⟨setWidth_eq_ofInt i, by omega⟩
  · exact ⟨(BitVec.setWidth_eq i).symm.trans (setWidth_eq_ofInt i), by omega⟩
  -- signed: `isize`, `i8`, `i16`, `i32`, `i64`
  · exact ⟨(BitVec.signExtend_eq i).symm, toInt_ge_of_le i le_rfl⟩
  · exact ⟨rfl, toInt_ge_of_le i (by decide)⟩
  · exact ⟨rfl, toInt_ge_of_le i (by decide)⟩
  · exact ⟨rfl, toInt_ge_of_le i (by decide)⟩
  · exact ⟨(BitVec.signExtend_eq i).symm, toInt_ge_of_le i le_rfl⟩

theorem bmod_eq_self_of_lt {x : Int} (h1 : -9223372036854775808 ≤ x) (h2 : x < 9223372036854775808) :
    x.bmod (2 ^ 64) = x := by
  rw [Int.bmod_def, show ((2 ^ 64 : Nat) : Int) = 18446744073709551616 from rfl]
  split <;> omega

/-- **`i64_cast` loads a constant's value.** The register holds the
constant's integer modulo `2 ^ 64`, and the integer itself whenever it is below
`2 ^ 63`: always for a signed constant or one narrower than 64 bits. -/
theorem i64Cast_value {c : ConstantInt} {r : BitVec 64} (h : c.i64Cast = .ok r) :
    r = BitVec.ofInt 64 c.value ∧ (c.value < 9223372036854775808 → r.toInt = c.value) := by
  obtain ⟨rfl, hge⟩ := i64Cast_eq_ofInt h
  exact ⟨rfl, fun hlt => by rw [BitVec.toInt_ofInt, bmod_eq_self_of_lt hge hlt]⟩

/-- `-42i32`, as in the `const_i32_from_bits` test, loads as `-42`. -/
theorem i64Cast_value_i32 :
    ∃ r, (ConstantInt.signedInt (.i32 (BitVec.ofInt 32 (-42)))).i64Cast = .ok r ∧
      (r = BitVec.ofInt 64 (ConstantInt.signedInt (.i32 (BitVec.ofInt 32 (-42)))).value ∧
        ((ConstantInt.signedInt (.i32 (BitVec.ofInt 32 (-42)))).value < 9223372036854775808 →
          r.toInt = (ConstantInt.signedInt (.i32 (BitVec.ofInt 32 (-42)))).value)) :=
  ⟨_, rfl, i64Cast_value rfl⟩

end Pack
end Yk
