/-
# Constants of the Yorick intermediate language

`ykpack` (`types.rs`) stores a 128-bit constant as two `u64` halves, the
`SerU128` and `SerI128` wrappers that `new_ser128!` generates to get past the
serialiser, and builds integer constants from raw bits
(`ConstantInt::u128_from_bits`, `ConstantInt::i128_from_bits`). A fixed-width
integer is a `BitVec` of its width; an `i128` is its 128-bit two's-complement
word, on which `>>` shifts arithmetically.

Both wrappers are bijections, including the `i128`s whose sign bit the
arithmetic shift copies into the high half (`ser128_round_trip`).

Key definitions: `ser128Halves`, `ser128Val`, `SerU128.new`, `SerI128.new`.
Key theorems: `ser128Val_halves`, `ser128Halves_val`, `ser128_round_trip`.
-/

namespace Yk
namespace Pack

/-- `BasicBlockIndex`, a `u32` in the source. -/
abbrev BasicBlockIndex := Nat

/-- `TypeId`: a crate hash and an index into that crate's type table. -/
abbrev TypeId := Nat × Nat

/-! ### `new_ser128!` -/

/-- The halves `new(val)` stores, given the type's `>> 64`: `hi` is
`(val >> 64) as u64`, `lo` is `val as u64`. -/
def ser128Halves (shr : BitVec 128 → Nat → BitVec 128) (val : BitVec 128) :
    BitVec 64 × BitVec 64 :=
  ((shr val 64).setWidth 64, val.setWidth 64)

/-- `val()`: `(self.hi as $t) << 64 | self.lo as $t`. Both casts are from `u64`,
so they zero-extend for `u128` and `i128` alike. -/
def ser128Val (hi lo : BitVec 64) : BitVec 128 :=
  hi.setWidth 128 <<< 64 ||| lo.setWidth 128

/-- `new_ser128!(SerU128, u128)`. -/
structure SerU128 where
  hi : BitVec 64
  lo : BitVec 64
  deriving DecidableEq, Repr

/-- `new_ser128!(SerI128, i128)`. -/
structure SerI128 where
  hi : BitVec 64
  lo : BitVec 64
  deriving DecidableEq, Repr

/-- `SerU128::new`: `>>` on `u128` is the logical shift. -/
def SerU128.new (val : BitVec 128) : SerU128 :=
  ⟨(ser128Halves BitVec.ushiftRight val).1, (ser128Halves BitVec.ushiftRight val).2⟩

def SerU128.val (s : SerU128) : BitVec 128 := ser128Val s.hi s.lo

/-- `SerI128::new`: `>>` on `i128` is the arithmetic shift. -/
def SerI128.new (val : BitVec 128) : SerI128 :=
  ⟨(ser128Halves BitVec.sshiftRight val).1, (ser128Halves BitVec.sshiftRight val).2⟩

def SerI128.val (s : SerI128) : BitVec 128 := ser128Val s.hi s.lo

/-- The arithmetic shift copies the sign into bits 64 and up only, which the
cast to `u64` drops: both wrappers store the same halves. -/
theorem ser128Halves_sshiftRight (val : BitVec 128) :
    ser128Halves BitVec.sshiftRight val = ser128Halves BitVec.ushiftRight val := by
  simp only [ser128Halves, Prod.mk.injEq, and_true]
  ext i
  have hi : 64 + (i : Nat) < 128 := by omega
  simp [BitVec.getLsbD_sshiftRight, hi, show (i : Nat) < 128 by omega]

/-- Joining the halves gives the value back. -/
theorem ser128Val_halves (val : BitVec 128) :
    ser128Val (ser128Halves BitVec.ushiftRight val).1 (ser128Halves BitVec.ushiftRight val).2 =
      val := by
  ext i
  by_cases h : (i : Nat) < 64
  · simp [ser128Val, ser128Halves, h]
  · have h1 : (i : Nat) - 64 < 64 := by omega
    have h2 : 64 + ((i : Nat) - 64) = i := by omega
    simp [ser128Val, ser128Halves, h, h1, h2, show (i : Nat) - 64 < 128 by omega]

/-- Splitting a joined value gives the halves back. -/
theorem ser128Halves_val (hi lo : BitVec 64) :
    ser128Halves BitVec.ushiftRight (ser128Val hi lo) = (hi, lo) := by
  simp only [ser128Halves, Prod.mk.injEq]
  constructor <;> ext i
  · have h : 64 + (i : Nat) < 128 := by omega
    simp [ser128Val, h, show (i : Nat) < 128 by omega,
      show ¬ (64 + (i : Nat) < 64) by omega, Nat.add_sub_cancel_left]
  · simp [ser128Val, show (i : Nat) < 128 by omega]

@[simp] theorem SerU128.val_new (val : BitVec 128) : (SerU128.new val).val = val :=
  ser128Val_halves val

@[simp] theorem SerI128.val_new (val : BitVec 128) : (SerI128.new val).val = val := by
  simp only [SerI128.new, SerI128.val, ser128Halves_sshiftRight, ser128Val_halves]

theorem SerU128.new_val (s : SerU128) : SerU128.new s.val = s := by
  simp [SerU128.new, SerU128.val, ser128Halves_val]

theorem SerI128.new_val (s : SerI128) : SerI128.new s.val = s := by
  simp [SerI128.new, SerI128.val, ser128Halves_sshiftRight, ser128Halves_val]

/-! ### Integer constants -/

inductive UnsignedInt
  | usize (v : BitVec 64)
  | u8 (v : BitVec 8)
  | u16 (v : BitVec 16)
  | u32 (v : BitVec 32)
  | u64 (v : BitVec 64)
  | u128 (v : SerU128)
  deriving DecidableEq, Repr

inductive SignedInt
  | isize (v : BitVec 64)
  | i8 (v : BitVec 8)
  | i16 (v : BitVec 16)
  | i32 (v : BitVec 32)
  | i64 (v : BitVec 64)
  | i128 (v : SerI128)
  deriving DecidableEq, Repr

inductive ConstantInt
  | unsignedInt (u : UnsignedInt)
  | signedInt (s : SignedInt)
  deriving DecidableEq, Repr

/-- `Constant`. `Tuple` is from the revision the interpreter reads (a tuple
constant names its type); the revision in `types.rs` lacks it. -/
inductive Constant
  | int (ci : ConstantInt)
  | bool (b : Bool)
  | tuple (ty : TypeId)
  | unimplemented (s : String)
  deriving DecidableEq, Repr

def ConstantInt.u128FromBits (bits : BitVec 128) : ConstantInt :=
  .unsignedInt (.u128 (SerU128.new bits))

/-- `bits as i128` keeps the bit pattern. -/
def ConstantInt.i128FromBits (bits : BitVec 128) : ConstantInt :=
  .signedInt (.i128 (SerI128.new bits))

/-- **Both 128-bit wrappers are bijections.** `val ∘ new` is the identity on
every `u128` and every `i128` (negative ones included), `new ∘ val` on every
pair of halves, and so the 128-bit constants built from raw bits carry exactly
those bits. -/
theorem ser128_round_trip :
    (∀ v : BitVec 128, (SerU128.new v).val = v) ∧
    (∀ v : BitVec 128, (SerI128.new v).val = v) ∧
    (∀ hi lo : BitVec 64, SerU128.new (SerU128.mk hi lo).val = ⟨hi, lo⟩) ∧
    (∀ hi lo : BitVec 64, SerI128.new (SerI128.mk hi lo).val = ⟨hi, lo⟩) ∧
    (∀ bits, ∃ s, ConstantInt.u128FromBits bits = .unsignedInt (.u128 s) ∧ s.val = bits) ∧
    (∀ bits, ∃ s, ConstantInt.i128FromBits bits = .signedInt (.i128 s) ∧ s.val = bits) :=
  ⟨SerU128.val_new, SerI128.val_new, fun hi lo => SerU128.new_val ⟨hi, lo⟩,
    fun hi lo => SerI128.new_val ⟨hi, lo⟩, fun bits => ⟨_, rfl, SerU128.val_new bits⟩,
    fun bits => ⟨_, rfl, SerI128.val_new bits⟩⟩

end Pack
end Yk
