/-
# Lowering a SIR trace to TIR (`TirTrace::new`)

`TirTrace::new` walks the recorded locations in order. For each one it looks up
the body (a symbol without SIR makes the trace invalid), renames the block's
statements, turns a call into an `Enter` of an inlined callee (or a native
`Call`) and a return into a `Leave`, and turns a `SwitchInt` or an `Assert`
into a guard, peeking at the next location for the branch the run took. Last it
trims what the calls that start and stop the tracer left at both ends.

The loop is `lowerLocs`, one location a step (`lowerLoc`, which looks up the
body and sets the accumulator, then `lowerBlock`); a run splits at any point
into the run up to it and the run from it (`lowerLocs_append`).

Key definitions: `lowerBlock`, `lowerLoc`, `lowerLocs`, `trim`, `TirTrace.new`.
-/
import Mathlib.Data.List.Infix
import Yk.Trace.Renamer

namespace Yk
namespace Trace

open Pack

/-! ### Guards and TIR operations -/

inductive GuardKind
  /-- The value must equal this integer. -/
  | integer (v : BitVec 128)
  /-- The value must be none of these: the "otherwise" edge of a `SwitchInt`. -/
  | otherInteger (vs : List (BitVec 128))
  | boolean (b : Bool)
  deriving DecidableEq, Repr

/-- A guard: the place to check, and what it must hold. -/
structure Guard where
  val : Place
  kind : GuardKind
  deriving DecidableEq, Repr

inductive TirOp
  | statement (s : Statement)
  | guard (g : Guard)
  deriving DecidableEq, Repr

structure TirTrace where
  ops : List TirOp
  traceInputsLocal : Option Local
  /-- The declaration of every local the trace registered, by its renamed index. -/
  localDecls : Local → Option LocalDecl

/-- A location of a SIR trace: a symbol and the index of a block of its body. -/
structure SirLoc where
  symbolName : String
  bbIdx : BasicBlockIndex
  deriving DecidableEq, Repr

inductive InvalidTraceError
  | noSir (symbolName : String)
  | internalError
  deriving DecidableEq, Repr

/-- How `TirTrace::new` fails: with an `Err`, or in a panic. -/
inductive LowerError
  | err (e : InvalidTraceError)
  | panic (p : Panic)
  deriving DecidableEq, Repr

def liftPanic {α : Type} (x : Except Panic α) : Except LowerError α := x.mapError .panic

@[simp] theorem liftPanic_eq_ok {α : Type} {x : Except Panic α} {a : α} :
    liftPanic x = .ok a ↔ x = .ok a := by
  cases x <;> simp [liftPanic, Except.mapError]

/-! ### One block -/

/-- A statement of the block, renamed; the kinds only TIR has cannot be in SIR. -/
def renameStmt (r : VarRenamer) (body : Body) : Statement → Except Panic (Statement × VarRenamer)
  | .storageLive l => do
    let (l, r) ← r.renameLocal l body
    pure (.storageLive l, r)
  | .storageDead l => do
    let (l, r) ← r.renameLocal l body
    pure (.storageDead l, r)
  | .assign p rv => do
    let (p, r) ← r.renamePlace p body
    let (rv, r) ← r.renameRvalue rv body
    pure (.assign p rv, r)
  | .nop => pure (.nop, r)
  | .unimplemented s => pure (.unimplemented s, r)
  | .call .. | .enter .. | .leave => throw .unreachable

/-- The block's statements, renamed, pushed onto `ops`. -/
def pushStmts (body : Body) : List Statement → List TirOp → VarRenamer →
    Except Panic (List TirOp × VarRenamer)
  | [], ops, r => pure (ops, r)
  | s :: ss, ops, r => do
    let (s, r) ← renameStmt r body s
    pushStmts body ss (ops ++ [.statement s]) r

/-- The declarations of an inlined callee's argument locals `1..=n`, under their
renamed indices: arguments are live on entry, without a `StorageLive`. -/
def registerArgSlots (callbody : Body) (r : VarRenamer) : List Nat → Except Panic VarRenamer
  | [] => pure r
  | lidx :: rest => do
    let decl ← index callbody.localDecls lidx
    let l ← addU32 r.offset (← toU32 lidx)
    registerArgSlots callbody (r.usedDecl ⟨l⟩ decl) rest

/-- What the terminator adds: a call becomes an `Enter` of the inlined callee (a
`Call` when the callee has no SIR), a return a `Leave`. -/
def termOp (sir : Sir) (body : Body) (r : VarRenamer) :
    Terminator → Except Panic (Option TirOp × VarRenamer)
  | .call op args dest => do
    let (retVal, r) ← match dest with
      | some (p, _) => r.renamePlace p body
      | none => throw .unwrapNone
    match op.symbol with
    | some calleeSym => do
      let (newargs, r) ← r.renameArgs args body
      match sir.bodies calleeSym with
      | some callbody => do
        let r ← r.enter callbody.localDecls.length retVal
        let r ← registerArgSlots callbody r ((List.range newargs.length).map (· + 1))
        pure (some (.statement (.enter op newargs (some retVal) r.offset)), r)
      | none => pure (some (.statement (.call op newargs (some retVal))), r)
    | none => throw ⟨"not yet implemented: Unknown callee encountered"⟩
  | .return => do
    let r ← r.leave
    pure (some (.statement .leave), r)
  | _ => pure (none, r)

/-- The guard of a `SwitchInt` whose successor in the trace is `nextBlk`: the
value of the first edge to `nextBlk`, or, for the otherwise edge, none of the
values. -/
def switchGuard (discr : Place) (values : List SerU128) (targetBbs : List BasicBlockIndex)
    (otherwiseBb nextBlk : BasicBlockIndex) : Except Panic Guard :=
  match targetBbs.findIdx? (· == nextBlk) with
  | some idx => do
    let v ← index values idx
    pure ⟨discr, .integer v.val⟩
  | none =>
    if nextBlk = otherwiseBb then pure ⟨discr, .otherInteger (values.map SerU128.val)⟩
    else throw ⟨"assertion failed: next_blk == otherwise_bb"⟩

/-- The guard a terminator asks for, given the location that follows it. -/
def termGuard (term : Terminator) (next : Option SirLoc) : Except Panic (Option Guard) :=
  match term with
  | .switchInt discr values targetBbs otherwiseBb => do
    let nextBlk ← match next with
      | some loc => pure loc.bbIdx
      | none => throw ⟨"no block to peek at"⟩
    some <$> switchGuard discr values targetBbs otherwiseBb nextBlk
  | .assert cond expected => pure (some ⟨cond, .boolean expected⟩)
  | .unreachable => throw ⟨"Traced unreachable code"⟩
  | _ => pure none

/-! ### The loop -/

/-- The loop's state: the operations so far, the renamer, the trace inputs. -/
structure LowerState where
  ops : List TirOp
  rnm : VarRenamer
  traceInputsLocal : Option Local

def LowerState.init : LowerState := ⟨[], VarRenamer.new, none⟩

/-- A block of `body`, once its body is known and the accumulator set. -/
def lowerBlock (sir : Sir) (body : Body) (bbIdx : BasicBlockIndex) (next : Option SirLoc)
    (ops : List TirOp) (rnm : VarRenamer) : Except Panic (List TirOp × VarRenamer) := do
  let block ← index body.blocks bbIdx
  let (ops, rnm) ← pushStmts body block.stmts ops rnm
  let (op, rnm) ← termOp sir body rnm block.term
  let guard ← termGuard block.term next
  pure (ops ++ op.toList ++ (guard.map TirOp.guard).toList, rnm)

/-- One turn of the loop: the location `loc`, followed in the trace by `next`. -/
def lowerLoc (sir : Sir) (st : LowerState) (loc : SirLoc) (next : Option SirLoc) :
    Except LowerError LowerState := do
  let body ← match sir.bodies loc.symbolName with
    | some b => pure b
    | none => throw (.err (.noSir loc.symbolName))
  let (ops, rnm) ← liftPanic <|
    lowerBlock sir body loc.bbIdx next st.ops (st.rnm.initAcc body.localDecls.length)
  pure ⟨ops, rnm, body.traceInputsLocal⟩

theorem lowerLoc_eq_ok {sir : Sir} {st st' : LowerState} {loc : SirLoc} {next : Option SirLoc} :
    lowerLoc sir st loc next = .ok st' ↔ ∃ body, sir.bodies loc.symbolName = some body ∧
      lowerBlock sir body loc.bbIdx next st.ops (st.rnm.initAcc body.localDecls.length) =
        .ok (st'.ops, st'.rnm) ∧ st'.traceInputsLocal = body.traceInputsLocal := by
  unfold lowerLoc
  cases sir.bodies loc.symbolName with
  | none => simp [bind_eq_ok]
  | some body =>
    simp only [bind_eq_ok, pure_eq_ok, liftPanic_eq_ok, Option.some.injEq, exists_eq_left']
    constructor
    · rintro ⟨_, h, rfl⟩; exact ⟨h, rfl⟩
    · rintro ⟨h, ht⟩; exact ⟨_, h, by cases st'; simp_all⟩

/-- The loop over `locs`; `after` holds the locations that follow them. -/
def lowerLocs (sir : Sir) : List SirLoc → List SirLoc → LowerState → Except LowerError LowerState
  | [], _, st => pure st
  | loc :: rest, after, st => do
    let st ← lowerLoc sir st loc (rest ++ after).head?
    lowerLocs sir rest after st

/-- A run of the loop is the run up to any point followed by the run from it. -/
theorem lowerLocs_append (sir : Sir) (pre post after : List SirLoc) (st : LowerState) :
    lowerLocs sir (pre ++ post) after st =
      lowerLocs sir pre (post ++ after) st >>= lowerLocs sir post after := by
  induction pre generalizing st with
  | nil => rfl
  | cons loc rest ih =>
    rw [List.cons_append, lowerLocs, lowerLocs, List.append_assoc]
    cases lowerLoc sir st loc (rest ++ (post ++ after)).head? with
    | error e => rfl
    | ok st' => exact ih st'

/-! ### Trimming the tracer's remnants -/

/-- `ops.pop()` when the last operation has the shape `p`; `msg` otherwise. -/
def popIf (p : TirOp → Bool) (msg : String) (ops : List TirOp) : Except Panic (List TirOp) :=
  match ops.getLast? with
  | some op => if p op then pure ops.dropLast else throw ⟨msg⟩
  | none => throw ⟨msg⟩

def isAssign : TirOp → Bool
  | .statement (.assign _ _) => true
  | _ => false

def isAssignFalse : TirOp → Bool
  | .statement (.assign _ (.use (.constant (.bool false)))) => true
  | _ => false

def isStorageLive : TirOp → Bool
  | .statement (.storageLive _) => true
  | _ => false

/-- An `Enter` of a symbol containing `stop_tracing`. -/
def isStopTracingEnter : TirOp → Bool
  | .statement (.enter (.fn s) _ _ _) => decide ("stop_tracing".toList <:+: s.toList)
  | _ => false

/-- `ops.pop()` of the `Enter` of `stop_tracing`; the name is a `debug_assert!`. -/
def popStopTracing (ops : List TirOp) : Except Panic (List TirOp) :=
  match ops.getLast? with
  | some (.statement (.enter (.fn s) _ _ _)) =>
    if "stop_tracing".toList <:+: s.toList then pure ops.dropLast
    else throw ⟨"assertion failed: s.contains(\"stop_tracing\")"⟩
  | _ => throw ⟨"Expected call to `stop_tracing` here"⟩

/-- `ops.remove(0)` of the leading `StorageDead`. -/
def removeStorageDead : List TirOp → Except Panic (List TirOp)
  | .statement (.storageDead _) :: rest => pure rest
  | _ :: _ => throw ⟨"Expected `StorageDead` here"⟩
  | [] => throw ⟨"removal index (is 0) should be < len (is 0)"⟩

/-- The remnants of `start_tracing` (one leading `StorageDead`) and of
`stop_tracing` (an `Enter` of it after an `Assign`, an `Assign(_, false)` and
three `StorageLive`s), each checked by shape and removed. -/
def trim (ops : List TirOp) : Except Panic (List TirOp) := do
  let ops ← popStopTracing ops
  let ops ← popIf isAssign "Expected `Assign` here" ops
  let ops ← popIf isAssignFalse "Expected `Assign(_, false)` here" ops
  let ops ← popIf isStorageLive "Expected `StorageLive` here" ops
  let ops ← popIf isStorageLive "Expected `StorageLive` here" ops
  let ops ← popIf isStorageLive "Expected `StorageLive` here" ops
  removeStorageDead ops

/-- `TirTrace::new`. -/
def TirTrace.new (sir : Sir) (trace : List SirLoc) : Except LowerError TirTrace := do
  let st ← lowerLocs sir trace [] LowerState.init
  let ops ← liftPanic (trim st.ops)
  pure ⟨ops, st.traceInputsLocal, st.rnm.done⟩

/-! ### A trace through one inlined call

`main` kills `_3`, calls `callee` into `_2`, and then stops the tracer with the
shape `trim` expects. `callee` (three locals) switches on its `_1`, then writes
`_0.1 = _1` and returns. -/

def sampleSir : Sir where
  bodies sym :=
    if sym = "main" then some
      ⟨[⟨[.storageDead ⟨3⟩], .call (.fn "callee") [] (some (.ofLocal ⟨2⟩, 1))⟩,
        ⟨[.storageLive ⟨4⟩, .storageLive ⟨5⟩, .storageLive ⟨6⟩,
          .assign (.ofLocal ⟨7⟩) (.use (.constant (.bool false))),
          .assign (.ofLocal ⟨7⟩) (.use (.place (.ofLocal ⟨4⟩)))],
          .call (.fn "stop_tracing") [] (some (.ofLocal ⟨7⟩, 2))⟩],
        some ⟨1⟩, List.replicate 8 ⟨(0, 0)⟩⟩
    else if sym = "callee" then some
      ⟨[⟨[], .switchInt (.ofLocal ⟨1⟩) [SerU128.new 0] [1] 2⟩,
        ⟨[.assign ⟨⟨0⟩, [.field 1]⟩ (.use (.place (.ofLocal ⟨1⟩)))], .return⟩],
        none, List.replicate 3 ⟨(0, 1)⟩⟩
    else if sym = "stop_tracing" then some ⟨[], none, [⟨(0, 2)⟩]⟩
    else none

def sampleTrace : List SirLoc := [⟨"main", 0⟩, ⟨"callee", 0⟩, ⟨"callee", 1⟩, ⟨"main", 1⟩]

/-- Inside the call inlined at offset 8, the callee's `_1` is renamed to `$9`
in its statements, but the guard of its `SwitchInt` checks `$1`. -/
theorem tirTrace_guard_not_renamed :
    (TirTrace.new sampleSir sampleTrace).map TirTrace.ops = .ok
      [.statement (.enter (.fn "callee") [] (some (.ofLocal ⟨2⟩)) 8),
       .guard ⟨.ofLocal ⟨1⟩, .integer 0⟩,
       .statement (.assign (.ofLocal ⟨2⟩) (.use (.place (.ofLocal ⟨9⟩)))),
       .statement .leave] := rfl

end Trace
end Yk
