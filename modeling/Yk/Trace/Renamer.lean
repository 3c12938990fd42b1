/-
# Alpha-renaming of inlined locals (`VarRenamer`)

`tir.rs` renames the locals of every inlined activation by an offset: the
renamer keeps the offset of each open inlined call on a stack, an accumulator
of the locals handed out so far, and the destination of each open call, which
stands for the callee's return local `$0`. Renaming a local also records its
declaration under the new name.

Every renaming function changes only the recorded declarations, not the
renamer's scopes (`VarRenamer.scopes`; `Yk.Trace.Renaming` proves it), so the
scope discipline is `enter` and `leave` alone.

Renaming `$0` returns the destination itself and drops the projection of the
renamed place (`rename_place_projection_dropped`).

Key definitions: `VarRenamer`, `VarRenamer.enter`, `VarRenamer.leave`,
`VarRenamer.renamePlace`.
-/
import Yk.Pack.Types

namespace Yk
namespace Trace

open Pack

/-- `VarRenamer`. Its `Vec`s are stacks, here lists with the top first. -/
structure VarRenamer where
  /-- The offset of each open inlined call, and `0` for the trace's own body. -/
  stack : List Nat
  offset : Nat
  /-- The locals handed out so far, once the first body set it. -/
  acc : Option Nat
  /-- The destination of each open inlined call. -/
  returns : List Place
  usedDecls : Local → Option LocalDecl

namespace VarRenamer

def new : VarRenamer := ⟨[0], 0, none, [], fun _ => none⟩

def usedDecl (r : VarRenamer) (l : Local) (decl : LocalDecl) : VarRenamer :=
  { r with usedDecls := fun l' => if l' = l then some decl else r.usedDecls l' }

def done (r : VarRenamer) : Local → Option LocalDecl := r.usedDecls

/-- `init_acc`: only the first call sets the accumulator (`num_locals as u32`). -/
def initAcc (r : VarRenamer) (numLocals : Nat) : VarRenamer :=
  if r.acc.isNone then { r with acc := some (numLocals % 4294967296) } else r

def enter (r : VarRenamer) (numLocals : Nat) (dest : Place) : Except Panic VarRenamer := do
  let offset ← match r.acc with
    | some a => pure a
    | none => throw .unwrapNone
  let acc ← addU32 offset (numLocals % 4294967296)
  pure { r with offset, stack := offset :: r.stack, acc := some acc, returns := dest :: r.returns }

def leave (r : VarRenamer) : Except Panic VarRenamer :=
  match r.stack.tail with
  | v :: _ => pure { r with stack := r.stack.tail, returns := r.returns.tail, offset := v }
  | [] => throw ⟨"Unbalanced enter/leave statements!"⟩

/-- `enter` needs the accumulator set, and the new one must fit a `u32`. -/
theorem enter_eq_ok {r r' : VarRenamer} {n : Nat} {dest : Place} :
    r.enter n dest = .ok r' ↔ ∃ a, r.acc = some a ∧ a + n % 4294967296 < 4294967296 ∧
      r' = { r with offset := a, stack := a :: r.stack, acc := some (a + n % 4294967296)
                    returns := dest :: r.returns } := by
  unfold enter
  cases r.acc with
  | none => simp [bind_eq_ok]
  | some a =>
    simp only [bind_eq_ok, pure_eq_ok, addU32_eq_ok, Option.some.injEq, exists_eq_left']
    constructor
    · rintro ⟨_, ⟨h, rfl⟩, rfl⟩; exact ⟨h, rfl⟩
    · rintro ⟨h, rfl⟩; exact ⟨_, ⟨h, rfl⟩, rfl⟩

/-- `leave` needs an enclosing offset below the one it pops. -/
theorem leave_eq_ok {r r' : VarRenamer} :
    r.leave = .ok r' ↔ ∃ v vs, r.stack.tail = v :: vs ∧
      r' = { r with stack := r.stack.tail, returns := r.returns.tail, offset := v } := by
  unfold leave
  cases r.stack.tail with
  | nil => simp
  | cons v vs =>
    simp only [pure_eq_ok, List.cons.injEq]
    exact ⟨fun h => ⟨v, vs, ⟨rfl, rfl⟩, h.symm⟩, fun ⟨_, _, ⟨h1, h2⟩, h⟩ => by subst h1 h2; exact h.symm⟩

def renameLocal (r : VarRenamer) (l : Local) (body : Body) : Except Panic (Local × VarRenamer) := do
  let renamed : Local := ⟨← addU32 l.idx r.offset⟩
  let decl ← index body.localDecls l.idx
  pure (renamed, r.usedDecl renamed decl)

/-- `rename_place`: `$0` becomes the innermost open call's destination. -/
def renamePlace (r : VarRenamer) (p : Place) (body : Body) : Except Panic (Place × VarRenamer) :=
  if p.local = ⟨0⟩ then
    match r.returns with
    | v :: _ => pure (v, r)
    | [] => throw ⟨"Expected return value!"⟩
  else do
    let (l, r) ← r.renameLocal p.local body
    pure ({ p with «local» := l }, r)

/-- In a call inlined with destination `$2` (the renamer of a trace whose first
body has eight locals, on entering a callee of three), the callee's `_0.1`
becomes `$2`: the field projection is lost. -/
theorem rename_place_projection_dropped (body : Body) :
    ((VarRenamer.new.initAcc 8).enter 3 (.ofLocal ⟨2⟩) >>= fun r =>
      (r.renamePlace ⟨⟨0⟩, [.field 1]⟩ body).map Prod.fst) = .ok (.ofLocal ⟨2⟩) := rfl

def renameOperand (r : VarRenamer) : Operand → Body → Except Panic (Operand × VarRenamer)
  | .place p, body => do
    let (p, r) ← r.renamePlace p body
    pure (.place p, r)
  | .constant c, _ => pure (.constant c, r)

def renameRvalue (r : VarRenamer) : Rvalue → Body → Except Panic (Rvalue × VarRenamer)
  | .use o, body => do
    let (o, r) ← r.renameOperand o body
    pure (.use o, r)
  | .binaryOp op o1 o2, body => do
    let (o1, r) ← r.renameOperand o1 body
    let (o2, r) ← r.renameOperand o2 body
    pure (.binaryOp op o1 o2, r)
  | .checkedBinaryOp op o1 o2, body => do
    let (o1, r) ← r.renameOperand o1 body
    let (o2, r) ← r.renameOperand o2 body
    pure (.checkedBinaryOp op o1 o2, r)
  | .ref p, body => do
    let (p, r) ← r.renamePlace p body
    pure (.ref p, r)
  | .unimplemented s, _ => pure (.unimplemented s, r)

def renameArgs : VarRenamer → List Operand → Body → Except Panic (List Operand × VarRenamer)
  | r, [], _ => pure ([], r)
  | r, o :: os, body => do
    let (o, r) ← r.renameOperand o body
    let (os, r) ← renameArgs r os body
    pure (o :: os, r)

/-! ### The renamer's scopes -/

/-- What `enter` and `leave` maintain: everything but the recorded declarations. -/
def scopes (r : VarRenamer) : List Nat × Nat × Option Nat × List Place :=
  (r.stack, r.offset, r.acc, r.returns)

end VarRenamer

end Trace
end Yk
