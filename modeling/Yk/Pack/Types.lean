/-
# Types, places, statements and bodies (`ykpack::types`)

The part of `types.rs` the trace lowering reads: locals, places with their
projections, operands and rvalues, the statements and terminators of basic
blocks, and bodies. `StorageLive` is in the revision `tir.rs` is written
against, not in the `types.rs` of the repository; it is added here. Data that
no modelled function reads (a body's symbol and flags, the targets of the
terminators that yield no guard, a struct's field list) is left out.

Rust panics (`panic!`, `todo!`, `unreachable!`, an out-of-range `v[i]`, an
`unwrap` of `None`, a `u32` overflow: the model follows a debug build, as the
tests run) are `Panic`s, with the message the code gives.

Key definitions: `Ty.size`, `Place`, `Statement`, `Terminator`, `Body`, `Sir`.
-/
import Yk.Pack.Values

namespace Yk
namespace Pack

/-! ### Panics -/

/-- A panic of the Rust code, with its message. -/
structure Panic where
  msg : String
  deriving DecidableEq, Repr

/-- `v[i]` out of range. -/
def Panic.indexOutOfBounds : Panic := ⟨"index out of bounds"⟩

/-- `Option::unwrap` (or `expect`) on `None`. -/
def Panic.unwrapNone : Panic := ⟨"called `Option::unwrap()` on a `None` value"⟩

/-- `Result::unwrap` on the `Err` of a failed integer conversion (`try_from`). -/
def Panic.unwrapErr : Panic := ⟨"called `Result::unwrap()` on an `Err` value: TryFromIntError(())"⟩

/-- `+` on `u32` past `u32::MAX`, in a debug build. -/
def Panic.addOverflow : Panic := ⟨"attempt to add with overflow"⟩

/-- `todo!()`. -/
def Panic.todo : Panic := ⟨"not yet implemented"⟩

/-- `unreachable!()`. -/
def Panic.unreachable : Panic := ⟨"internal error: entered unreachable code"⟩

/-- A `do` block that succeeds: each step succeeded. -/
theorem bind_eq_ok {ε α β : Type} {x : Except ε α} {f : α → Except ε β} {b : β} :
    (x >>= f) = .ok b ↔ ∃ a, x = .ok a ∧ f a = .ok b := by
  cases x <;> simp [bind, Except.bind]

@[simp] theorem pure_eq_ok {ε α : Type} {a b : α} : (pure a : Except ε α) = .ok b ↔ a = b :=
  ⟨Except.ok.inj, congrArg _⟩

@[simp] theorem throw_eq_ok {ε α : Type} {e : ε} {b : α} : (throw e : Except ε α) = .ok b ↔ False :=
  ⟨nofun, False.elim⟩

/-- Rust's `v[i]`. -/
def index {α : Type} (v : List α) (i : Nat) : Except Panic α :=
  match v[i]? with
  | some x => pure x
  | none => throw .indexOutOfBounds

@[simp] theorem index_eq_ok {α : Type} {v : List α} {i : Nat} {x : α} :
    index v i = .ok x ↔ v[i]? = some x := by
  unfold index
  cases v[i]? <;> simp

/-- `a + b` on `u32`: a debug build panics past `u32::MAX`. -/
def addU32 (a b : Nat) : Except Panic Nat :=
  if a + b < 4294967296 then pure (a + b) else throw .addOverflow

@[simp] theorem addU32_eq_ok {a b c : Nat} : addU32 a b = .ok c ↔ a + b < 4294967296 ∧ c = a + b := by
  unfold addU32
  by_cases h : a + b < 4294967296
  · rw [if_pos h, pure_eq_ok]
    exact ⟨fun e => ⟨h, e.symm⟩, fun ⟨_, e⟩ => e.symm⟩
  · rw [if_neg h, throw_eq_ok]
    exact ⟨False.elim, fun ⟨h', _⟩ => h h'⟩

/-- `u32::try_from(n).unwrap()`. -/
def toU32 (n : Nat) : Except Panic Nat :=
  if n < 4294967296 then pure n else throw .unwrapErr

theorem toU32_eq_ok {n m : Nat} (h : toU32 n = .ok m) : n < 4294967296 ∧ m = n := by
  unfold toU32 at h
  split at h
  · exact ⟨‹_›, (pure_eq_ok.mp h).symm⟩
  · cases h

/-! ### Types -/

/-- The size and alignment of a struct or a tuple, both `i32`. -/
structure SizeAndAlign where
  align : BitVec 32
  size : BitVec 32
  deriving DecidableEq, Repr

inductive SignedIntTy
  | isize | i8 | i16 | i32 | i64 | i128
  deriving DecidableEq, Repr

inductive UnsignedIntTy
  | usize | u8 | u16 | u32 | u64 | u128
  deriving DecidableEq, Repr

/-- `Ty`. A struct's or a tuple's fields are not read, only its layout. -/
inductive Ty
  | signedInt (t : SignedIntTy)
  | unsignedInt (t : UnsignedIntTy)
  | struct (sizeAlign : SizeAndAlign)
  | tuple (sizeAlign : SizeAndAlign)
  | ref (t : TypeId)
  | bool
  | unimplemented (s : String)
  deriving DecidableEq, Repr

/-- `u64::try_from(x).unwrap()` for an `i32`. -/
def i32ToU64 (x : BitVec 32) : Except Panic Nat :=
  if 0 ≤ x.toInt then pure x.toInt.toNat else throw .unwrapErr

/-- `Ty::size`, on x86_64 (`usize`, `isize` and references take 8 bytes, a
`bool` 1). -/
def Ty.size : Ty → Except Panic Nat
  | .unsignedInt t => pure <| match t with
    | .u8 => 1 | .u16 => 2 | .u32 => 4 | .u64 => 8 | .usize => 8 | .u128 => 16
  | .signedInt t => pure <| match t with
    | .i8 => 1 | .i16 => 2 | .i32 => 4 | .i64 => 8 | .isize => 8 | .i128 => 16
  | .struct sa => i32ToU64 sa.size
  | .tuple sa => i32ToU64 sa.size
  | .ref _ => pure 8
  | .bool => pure 1
  | .unimplemented _ => throw .todo

/-- Every size `Ty::size` returns fits an `i32`, so it is below `2 ^ 31`. -/
theorem Ty.size_lt {t : Ty} {n : Nat} (h : t.size = .ok n) : n < 2147483648 := by
  have hi32 : ∀ x : BitVec 32, i32ToU64 x = .ok n → n < 2147483648 := by
    intro x hx
    unfold i32ToU64 at hx
    split at hx
    · cases hx
      rw [BitVec.toInt_eq_toNat_cond] at *
      split at * <;> omega
    · cases hx
  cases t with
  | unsignedInt t => cases t <;> cases h <;> decide
  | signedInt t => cases t <;> cases h <;> decide
  | struct sa => exact hi32 _ h
  | tuple sa => exact hi32 _ h
  | ref _ => cases h; decide
  | bool => cases h; decide
  | unimplemented _ => cases h

/-! ### Places, operands and rvalues -/

/-- `Local(pub LocalIndex)`: a local of one body, `LocalIndex` a `u32`. -/
structure Local where
  idx : Nat
  deriving DecidableEq, Repr

inductive Projection
  | field (i : Nat)
  | deref
  | unimplemented (s : String)
  deriving DecidableEq, Repr

structure Place where
  «local» : Local
  projection : List Projection
  deriving DecidableEq, Repr

/-- `From<Local> for Place`: the whole local. -/
def Place.ofLocal (l : Local) : Place := ⟨l, []⟩

inductive Operand
  | place (p : Place)
  | constant (c : Constant)
  deriving DecidableEq, Repr

inductive BinOp
  | add | sub | mul | div | rem | bitXor | bitAnd | bitOr | shl | shr
  | eq | lt | le | ne | ge | gt | offset
  deriving DecidableEq, Repr

inductive Rvalue
  | use (o : Operand)
  | binaryOp (op : BinOp) (o1 o2 : Operand)
  | checkedBinaryOp (op : BinOp) (o1 o2 : Operand)
  | ref (p : Place)
  | unimplemented (s : String)
  deriving DecidableEq, Repr

/-- A call target: a symbol, or a callable the compiler could not name. -/
inductive CallOperand
  | fn (sym : String)
  | unknown
  deriving DecidableEq, Repr

def CallOperand.symbol : CallOperand → Option String
  | .fn sym => some sym
  | .unknown => none

/-! ### Statements, terminators and bodies -/

inductive Statement
  | nop
  | assign (p : Place) (rv : Rvalue)
  /-- An inlined call begins: callee, arguments, destination, and the offset of
  the callee's locals. Only in TIR. -/
  | enter (op : CallOperand) (args : List Operand) (dest : Option Place) (off : Nat)
  /-- An inlined call ends. Only in TIR. -/
  | leave
  | storageLive (l : Local)
  | storageDead (l : Local)
  /-- A call that is not inlined. Only in TIR. -/
  | call (op : CallOperand) (args : List Operand) (dest : Option Place)
  | unimplemented (s : String)
  deriving DecidableEq, Repr

/-- `Terminator`; what the terminators that yield no guard carry is not read. -/
inductive Terminator
  | goto
  | switchInt (discr : Place) (values : List SerU128) (targetBbs : List BasicBlockIndex)
      (otherwiseBb : BasicBlockIndex)
  | «return»
  | unreachable
  | drop
  | dropAndReplace
  | call (operand : CallOperand) (args : List Operand)
      (destination : Option (Place × BasicBlockIndex))
  | assert (cond : Place) (expected : Bool)
  | unimplemented
  deriving DecidableEq, Repr

structure BasicBlock where
  stmts : List Statement
  term : Terminator
  deriving DecidableEq, Repr

/-- The declaration of a local: its type. -/
structure LocalDecl where
  ty : TypeId
  deriving DecidableEq, Repr

structure Body where
  blocks : List BasicBlock
  traceInputsLocal : Option Local
  localDecls : List LocalDecl
  deriving DecidableEq, Repr

/-- The `SIR` table the lowering reads (`sir.rs` is not in the repository; the
spec's body registry): a symbol's body, if the binary has SIR for it. -/
structure Sir where
  bodies : String → Option Body

end Pack
end Yk
