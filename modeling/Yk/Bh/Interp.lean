/-
# The SIR interpreter (`ykbh`)

`SIRInterpreter` runs a body against stack frames it allocates itself, one per
activation, each laid out by its body's offset table. `interpret` keeps, beside
the interpreter's frames and block index, a stack of bodies and a stack of
resume points. One turn of its loop (`step`) runs a block's statements and then
its terminator: a `Call` pushes a frame, a body and a resume point, a `Return`
pops them and copies the callee's local `0` into the caller's destination.

`IPlace`, the interpreter's `Statement`s and a body's offsets and layout belong
to the ykpack revision `ykbh` is written against, which is not in the
repository: they are modelled from their uses in `ykbh` and from the spec, with
byte offsets as naturals. The fields of the statements and terminators the
interpreter does not run are left out. Frames, the caller's memory and every
pointer live in one address space (`Mem`); what `alloc` answers is an input of
`step`, and `dealloc` is not modelled.

Resolving an `Indirect` place reads the pointer at the start of the pointer's
local and adds the pointer's offset after the dereference, so a reference that
`MkRef` stored at a non-zero offset is not the one read back
(`mkref_indirect_reads_local_start`); a reference stored at the start of a local
is (`mkref_deref`). `set_trace_inputs` stores the trace inputs pointer in `$1`,
and every `Indirect` through `$1` reaches them (`setTraceInputs_indirect`).

Key definitions: `StackFrame.iplaceToPtr`, `mkref`, `termStep`, `step`, `Reachable`.
-/
import Yk.Pack.Types
import Yk.Bh.Memory

namespace Yk
namespace Bh

open Pack (Panic Local TypeId BasicBlockIndex Constant ConstantInt UnsignedInt CallOperand Ty
  index toU32 bind_eq_ok pure_eq_ok throw_eq_ok index_eq_ok)

/-! ### Places, statements and bodies -/

/-- `IndirectPtr`: the local holding a pointer, and an offset. -/
structure IndirectPtr where
  «local» : Local
  off : Nat
  deriving DecidableEq, Repr

/-- `IPlace`: a place as the interpreter resolves it. -/
inductive IPlace
  /-- The bytes at an offset into a local. -/
  | val («local» : Local) (off : Nat) (ty : TypeId)
  /-- The bytes at an offset from the pointer an `IndirectPtr` names. -/
  | indirect (ptr : IndirectPtr) (off : Nat) (ty : TypeId)
  | const (val : Constant) (ty : TypeId)
  | unimplemented (s : String)
  deriving DecidableEq, Repr

inductive Statement
  | mkRef (dest src : IPlace)
  | dynOffs
  | store (dest src : IPlace)
  | binaryOp
  | nop
  | unimplemented (s : String)
  | debug (s : String)
  | cast
  | call
  | storageDead (l : Local)
  deriving DecidableEq, Repr

inductive Terminator
  | goto
  | switchInt
  | «return»
  | unreachable
  | drop
  | dropAndReplace
  | call (operand : CallOperand) (args : List IPlace)
      (destination : Option (IPlace × BasicBlockIndex))
  | assert
  | unimplemented
  deriving DecidableEq, Repr

structure BasicBlock where
  stmts : List Statement
  term : Terminator
  deriving DecidableEq, Repr

structure Body where
  blocks : List BasicBlock
  /-- `flags.contains(BodyFlags::TRACE_DEBUG)`. -/
  traceDebug : Bool
  /-- The byte offset of each local in a frame. -/
  offsets : List Nat
  /-- The size and alignment of a frame. -/
  layout : Nat × Nat
  deriving DecidableEq, Repr

/-- The `SIR` the interpreter reads: bodies by symbol, types by id. -/
structure Sir where
  bodies : String → Option Body
  tys : TypeId → Option Ty

/-- `SIR.ty(ty)`. -/
def Sir.ty (sir : Sir) (ty : TypeId) : Except Panic Ty :=
  match sir.tys ty with
  | some t => pure t
  | none => throw .indexOutOfBounds

/-- `SIR.body(fname).unwrap()`. -/
def Sir.body (sir : Sir) (fname : String) : Except Panic Body :=
  match sir.bodies fname with
  | some b => pure b
  | none => throw .unwrapNone

/-- `usize::try_from(SIR.ty(ty).size()).unwrap()`. -/
def Sir.tySize (sir : Sir) (ty : TypeId) : Except Panic Nat := do
  let t ← sir.ty ty
  t.size

/-- `IPlace::ty`; an `Unimplemented` place has none. -/
def IPlace.ty : IPlace → Option TypeId
  | .val _ _ ty | .indirect _ _ ty | .const _ ty => some ty
  | .unimplemented _ => none

/-- The size of a place's type, `usize::try_from(SIR.ty(&p.ty()).size()).unwrap()`. -/
def Sir.placeSize (sir : Sir) (p : IPlace) : Except Panic Nat :=
  match p.ty with
  | some ty => sir.tySize ty
  | none => throw .unreachable

/-! ### Stack frames -/

/-- `Layout`: a size and a power-of-two alignment, the size rounded up to the
alignment fitting an `isize`. -/
structure Layout where
  size : Nat
  align : Nat
  align_pow : 0 < align ∧ align &&& (align - 1) = 0
  size_fits : size + (align - 1) ≤ 9223372036854775807

/-- `Layout::from_size_align(size, align).unwrap()`. -/
def Layout.fromSizeAlign (size align : Nat) : Except Panic Layout :=
  if h : (0 < align ∧ align &&& (align - 1) = 0) ∧ size + (align - 1) ≤ 9223372036854775807 then
    pure ⟨size, align, h.1, h.2⟩
  else throw ⟨"called `Result::unwrap()` on an `Err` value"⟩

structure StackFrame where
  /-- The frame's memory, as `alloc` returned it. -/
  locals : Addr
  offsets : List Nat
  layout : Layout

/-- `SIRInterpreter::create_frame`, `alloc` answering `base`. -/
def createFrame (body : Body) (base : Addr) : Except Panic StackFrame := do
  let layout ← Layout.fromSizeAlign body.layout.1 body.layout.2
  pure ⟨base, body.offsets, layout⟩

theorem createFrame_eq_ok {body : Body} {base : Addr} {f : StackFrame} :
    createFrame body base = .ok f ↔ ∃ layout,
      Layout.fromSizeAlign body.layout.1 body.layout.2 = .ok layout ∧
        ⟨base, body.offsets, layout⟩ = f := by
  simp only [createFrame, bind_eq_ok, pure_eq_ok]

namespace StackFrame

/-- `local_ptr`. -/
def localPtr (f : StackFrame) (l : Local) : Except Panic Addr := do
  let off ← index f.offsets l.idx
  pure (f.locals + BitVec.ofNat 64 off)

/-- `iplace_to_ptr`: an `Indirect` reads the pointer at the start of its
pointer's local, then adds the pointer's offset and its own. -/
def iplaceToPtr (f : StackFrame) (mem : Mem) : IPlace → Except Panic Addr
  | .val l off _ => do
    let p ← f.localPtr l
    pure (p + BitVec.ofNat 64 off)
  | .indirect ptr off _ => do
    let destPtr ← f.localPtr ptr.local
    let p := readPtr mem destPtr
    pure (p + BitVec.ofNat 64 ptr.off + BitVec.ofNat 64 off)
  | _ => throw .unreachable

/-- `write_const`: a `u8` or a zero-sized tuple; the rest is `todo!()`. -/
def writeConst (sir : Sir) (mem : Mem) (dest : Addr) : Constant → Except Panic Mem
  | .int (.unsignedInt (.u8 v)) => pure (mem.write dest [v])
  | .int (.unsignedInt _) | .int (.signedInt _) | .bool _ => throw .todo
  | .tuple t => do
    let size ← sir.tySize t
    if size = 0 then pure mem else throw .todo
  | .unimplemented _ => throw .todo

/-- `store`: copy the bytes of `src`, or write its constant, to `dest`. -/
def store (sir : Sir) (f : StackFrame) (mem : Mem) (dest src : IPlace) : Except Panic Mem :=
  match src with
  | .val _ _ ty | .indirect _ _ ty => do
    let srcPtr ← f.iplaceToPtr mem src
    let dstPtr ← f.iplaceToPtr mem dest
    let size ← sir.tySize ty
    pure (mem.copy srcPtr dstPtr size)
  | .const val _ => do
    let dstPtr ← f.iplaceToPtr mem dest
    writeConst sir mem dstPtr val
  | .unimplemented _ => throw .todo

/-- One argument of `copy_args` into the callee's local at `dst`. -/
def copyArg (sir : Sir) (caller : StackFrame) (mem : Mem) (dst : Addr) :
    IPlace → Except Panic Mem
  | arg@(.val _ _ ty) | arg@(.indirect _ _ ty) => do
    let src ← caller.iplaceToPtr mem arg
    let size ← sir.tySize ty
    pure (mem.copy src dst size)
  | .const val _ => writeConst sir mem dst val
  | .unimplemented _ => throw .unreachable

/-- `copy_args` from the `i`-th argument on: argument `i` goes to local `i + 1`. -/
def copyArgsFrom (sir : Sir) (f caller : StackFrame) : Nat → List IPlace → Mem → Except Panic Mem
  | _, [], mem => pure mem
  | i, arg :: args, mem => do
    let l ← toU32 (i + 1)
    let dst ← f.localPtr ⟨l⟩
    let mem ← copyArg sir caller mem dst arg
    copyArgsFrom sir f caller (i + 1) args mem

def copyArgs (sir : Sir) (f caller : StackFrame) (mem : Mem) (args : List IPlace) :
    Except Panic Mem :=
  copyArgsFrom sir f caller 0 args mem

end StackFrame

/-! ### The interpreter -/

structure SIRInterpreter where
  /-- The frames, the active one first. -/
  frames : List StackFrame
  bbidx : BasicBlockIndex

/-- `SIRInterpreter::new`, `alloc` answering `base`. -/
def SIRInterpreter.new (body : Body) (base : Addr) : Except Panic SIRInterpreter := do
  let frame ← createFrame body base
  pure ⟨[frame], 0⟩

/-- `frames.last().unwrap()`: the active frame. -/
def topFrame : List StackFrame → Except Panic StackFrame
  | f :: _ => pure f
  | [] => throw .unwrapNone

/-- `frames.pop().unwrap()`: the active frame, and those below it. -/
def popFrame : List StackFrame → Except Panic (StackFrame × List StackFrame)
  | f :: fs => pure (f, fs)
  | [] => throw .unwrapNone

/-- The symbol a call names; `todo!()` for an unknown target. -/
def callTarget : CallOperand → Except Panic String
  | .fn sym => pure sym
  | .unknown => throw ⟨"not yet implemented: unknown call target"⟩

/-- `set_trace_inputs`: write the pointer `tio` into `$1` of the active frame. -/
def SIRInterpreter.setTraceInputs (si : SIRInterpreter) (mem : Mem) (tio : Addr) :
    Except Panic Mem := do
  let frame ← topFrame si.frames
  let ptr ← frame.localPtr ⟨1⟩
  pure (writePtr mem ptr tio)

/-- `SIRInterpreter::mkref`: store the address of `src` at `dest`. -/
def mkref (frames : List StackFrame) (mem : Mem) (dest src : IPlace) : Except Panic Mem :=
  match dest with
  | .val .. | .indirect .. => do
    let frame ← topFrame frames
    let srcPtr ← frame.iplaceToPtr mem src
    let dstPtr ← frame.iplaceToPtr mem dest
    pure (writePtr mem dstPtr srcPtr)
  | _ => throw .unreachable

/-- A frame at `0x1000` of 32 bytes, with a local at offset `0` and one at `16`. -/
def sampleFrame : StackFrame := ⟨0x1000, [0, 16], ⟨32, 8, by decide, by decide⟩⟩

/-- `MkRef` stores `_1`'s address `0x1010` at offset `8` of `_0`, over zeroed
memory; an `Indirect` through that slot reads the pointer at the start of `_0`,
still `0`, and resolves to `8`. -/
theorem mkref_indirect_reads_local_start :
    (mkref [sampleFrame] (fun _ => 0) (.val ⟨0⟩ 8 (0, 0)) (.val ⟨1⟩ 0 (0, 0)) >>= fun mem =>
      sampleFrame.iplaceToPtr mem (.indirect ⟨⟨0⟩, 8⟩ 0 (0, 0))) = .ok 8 ∧
    sampleFrame.iplaceToPtr (fun _ => 0) (.val ⟨1⟩ 0 (0, 0)) = .ok 0x1010 :=
  ⟨rfl, rfl⟩

/-- **What an `Indirect` through a reference resolves to.** After `MkRef`
stores the address of `src` at the start of local `l`, an `Indirect` through
`l` with pointer offset `o` and offset `k` resolves to that address plus `o`
plus `k`: the pointer's offset is applied after the dereference. -/
theorem mkref_deref {f : StackFrame} {fs : List StackFrame} {mem mem' : Mem} {l : Local}
    {ty ty' : TypeId} {src : IPlace} {o k : Nat}
    (h : mkref (f :: fs) mem (.val l 0 ty) src = .ok mem') :
    ∃ q, f.iplaceToPtr mem src = .ok q ∧
      f.iplaceToPtr mem' (.indirect ⟨l, o⟩ k ty') =
        .ok (q + BitVec.ofNat 64 o + BitVec.ofNat 64 k) := by
  obtain ⟨_, hf, h⟩ := bind_eq_ok.mp h
  cases hf
  obtain ⟨q, hq, h⟩ := bind_eq_ok.mp h
  obtain ⟨d, hd, h⟩ := bind_eq_ok.mp h
  cases h
  obtain ⟨p, hp, hd⟩ := bind_eq_ok.mp hd
  cases hd
  refine ⟨q, hq, ?_⟩
  show (f.localPtr l >>= fun destPtr => pure _) = _
  rw [hp, BitVec.add_zero]
  exact congrArg (fun x => Except.ok (x + _ + _)) (readPtr_writePtr mem p q)

/-- A reference to `_1` at the start of `_0`, through which a place `4` bytes
past `8` bytes into the referent resolves. -/
theorem mkref_deref_sample :
    ∃ mem', mkref [sampleFrame] (fun _ => 0) (.val ⟨0⟩ 0 (0, 0)) (.val ⟨1⟩ 0 (0, 0)) = .ok mem' ∧
      ∃ q, sampleFrame.iplaceToPtr (fun _ => 0) (.val ⟨1⟩ 0 (0, 0)) = .ok q ∧
        sampleFrame.iplaceToPtr mem' (.indirect ⟨⟨0⟩, 8⟩ 4 (0, 0)) =
          .ok (q + BitVec.ofNat 64 8 + BitVec.ofNat 64 4) := by
  obtain ⟨mem', h⟩ : ∃ mem', mkref [sampleFrame] (fun _ => 0) (.val ⟨0⟩ 0 (0, 0))
      (.val ⟨1⟩ 0 (0, 0)) = .ok mem' := ⟨_, rfl⟩
  exact ⟨mem', h, mkref_deref h⟩

/-- **The trace inputs are reached through `$1`.** After
`set_trace_inputs(tio)`, an `Indirect` through `$1` with pointer offset `o` and
offset `k` resolves, in the active frame, to `tio + o + k`. -/
theorem setTraceInputs_indirect {si : SIRInterpreter} {f : StackFrame} {fs : List StackFrame}
    {mem mem' : Mem} {tio : Addr} {o k : Nat} {ty : TypeId} (hf : si.frames = f :: fs)
    (h : si.setTraceInputs mem tio = .ok mem') :
    f.iplaceToPtr mem' (.indirect ⟨⟨1⟩, o⟩ k ty) =
      .ok (tio + BitVec.ofNat 64 o + BitVec.ofNat 64 k) := by
  obtain ⟨_, hf', h⟩ := bind_eq_ok.mp h
  rw [hf] at hf'
  cases hf'
  obtain ⟨p, hp, h⟩ := bind_eq_ok.mp h
  cases h
  show (f.localPtr ⟨1⟩ >>= fun destPtr => pure _) = _
  rw [hp]
  exact congrArg (fun x => Except.ok (x + _ + _)) (readPtr_writePtr mem p tio)

/-- The trace inputs at `0x7000`: `io.1` is the byte after their start. -/
theorem setTraceInputs_indirect_sample :
    ∃ mem', SIRInterpreter.setTraceInputs ⟨[sampleFrame], 0⟩ (fun _ => 0) 0x7000 = .ok mem' ∧
      sampleFrame.iplaceToPtr mem' (.indirect ⟨⟨1⟩, 0⟩ 1 (0, 0)) =
        .ok (0x7000 + BitVec.ofNat 64 0 + BitVec.ofNat 64 1) := by
  obtain ⟨mem', h⟩ : ∃ mem', SIRInterpreter.setTraceInputs ⟨[sampleFrame], 0⟩ (fun _ => 0)
      0x7000 = .ok mem' := ⟨_, rfl⟩
  exact ⟨mem', h, setTraceInputs_indirect rfl h⟩

def execStmt (sir : Sir) (frames : List StackFrame) (mem : Mem) : Statement → Except Panic Mem
  | .mkRef dest src => mkref frames mem dest src
  | .store dest src => do
    let frame ← topFrame frames
    frame.store sir mem dest src
  | .nop => pure mem
  | .dynOffs | .binaryOp | .unimplemented _ | .debug _ | .cast => throw .todo
  | .call | .storageDead _ => throw .unreachable

/-- A block's statements, in order. They change memory, never the frames. -/
def execStmts (sir : Sir) (frames : List StackFrame) : Mem → List Statement → Except Panic Mem
  | mem, [] => pure mem
  | mem, s :: ss => do
    let mem ← execStmt sir frames mem s
    execStmts sir frames mem ss

/-- The state at the head of `interpret`'s loop: the interpreter, the loop's
stacks of bodies and resume points (the innermost first), and memory. -/
structure LoopState extends SIRInterpreter where
  bodies : List Body
  returns : List (Option (IPlace × BasicBlockIndex))
  mem : Mem

/-- `interpret(body)` on entry: no loop for a `TRACE_DEBUG` body. -/
def SIRInterpreter.interpretStart (si : SIRInterpreter) (body : Body) (mem : Mem) :
    Option LoopState :=
  if body.traceDebug then none else some { si with bodies := [body], returns := [], mem }

/-- The `Return` of a call with a destination: copy the popped frame's local `0`
to `dest`, resolved in the frame below. -/
def writeReturn (sir : Sir) (old : StackFrame) (frames : List StackFrame) (mem : Mem)
    (dest : IPlace) : Except Panic Mem := do
  let retPtr ← old.localPtr ⟨0⟩
  let caller ← topFrame frames
  let dstPtr ← caller.iplaceToPtr mem dest
  let size ← sir.placeSize dest
  pure (mem.copy retPtr dstPtr size)

/-- The terminator of a turn, once the statements left memory `mem`; `none`
ends the loop. Other terminators are `todo!()`. -/
def termStep (sir : Sir) (base : Addr) (s : LoopState) (mem : Mem) :
    Terminator → Except Panic (Option LoopState)
  | .call op args dest => do
    let fname ← callTarget op
    let body ← sir.body fname
    let frame ← createFrame body base
    let caller ← topFrame s.frames
    let mem ← frame.copyArgs sir caller mem args
    pure (some { frames := frame :: s.frames, bbidx := 0, returns := dest :: s.returns,
                 bodies := body :: s.bodies, mem })
  | .return =>
    match s.returns with
    | v :: returns => do
      let (old, frames) ← popFrame s.frames
      match v with
      | some (dest, bb) => do
        let mem ← writeReturn sir old frames mem dest
        pure (some { frames, bbidx := bb, returns, bodies := s.bodies.tail, mem })
      | none => pure (some { frames, bbidx := s.bbidx, returns, bodies := s.bodies.tail, mem })
    | [] => pure none
  | _ => throw .todo

/-- One turn of `interpret`'s loop, `alloc` answering `base` if it is asked. -/
def step (sir : Sir) (base : Addr) (s : LoopState) : Except Panic (Option LoopState) :=
  match s.bodies with
  | [] => pure none
  | body :: _ => do
    let block ← index body.blocks s.bbidx
    let mem ← execStmts sir s.frames s.mem block.stmts
    termStep sir base s mem block.term

/-- A turn of the loop: the innermost body's block at `bbidx`, its statements,
then its terminator. -/
theorem step_eq_some {sir : Sir} {base : Addr} {s s' : LoopState}
    (h : step sir base s = .ok (some s')) :
    ∃ body bodies block mem, s.bodies = body :: bodies ∧ body.blocks[s.bbidx]? = some block ∧
      execStmts sir s.frames s.mem block.stmts = .ok mem ∧
      termStep sir base s mem block.term = .ok (some s') := by
  unfold step at h
  split at h
  · cases h
  · rename_i body bodies hb
    obtain ⟨block, hblock, h⟩ := bind_eq_ok.mp h
    obtain ⟨mem, hmem, h⟩ := bind_eq_ok.mp h
    exact ⟨body, bodies, block, mem, hb, index_eq_ok.mp hblock, hmem, h⟩

/-- **What a terminator can do.** A `Call` of a symbol with SIR pushes a fresh
frame for it, holding the arguments, with its body and the resume point; a
`Return` with a resume point pops the frame and the body, and copies the
return value into the destination if there is one. -/
theorem termStep_eq_some {sir : Sir} {base : Addr} {s s' : LoopState} {term : Terminator}
    {mem : Mem} (h : termStep sir base s mem term = .ok (some s')) :
    (∃ fname args dest callee frame caller mem', term = .call (.fn fname) args dest ∧
      sir.bodies fname = some callee ∧ createFrame callee base = .ok frame ∧
      topFrame s.frames = .ok caller ∧ frame.copyArgs sir caller mem args = .ok mem' ∧
      s' = ⟨⟨frame :: s.frames, 0⟩, callee :: s.bodies, dest :: s.returns, mem'⟩) ∨
    (term = .return ∧ ∃ v returns old frames, s.returns = v :: returns ∧ s.frames = old :: frames ∧
      ((v = none ∧ s' = ⟨⟨frames, s.bbidx⟩, s.bodies.tail, returns, mem⟩) ∨
       (∃ dest bb mem', v = some (dest, bb) ∧ writeReturn sir old frames mem dest = .ok mem' ∧
        s' = ⟨⟨frames, bb⟩, s.bodies.tail, returns, mem'⟩))) := by
  cases term with
  | call op args dest =>
    refine .inl ?_
    obtain ⟨fname, hf, h⟩ := bind_eq_ok.mp h
    obtain ⟨callee, hcallee, h⟩ := bind_eq_ok.mp h
    obtain ⟨frame, hframe, h⟩ := bind_eq_ok.mp h
    obtain ⟨caller, hcaller, h⟩ := bind_eq_ok.mp h
    obtain ⟨mem', hmem, h⟩ := bind_eq_ok.mp h
    cases h
    rcases op with _ | _ <;> cases hf
    refine ⟨fname, args, dest, callee, frame, caller, mem', rfl, ?_, hframe, hcaller, hmem, rfl⟩
    unfold Sir.body at hcallee
    split at hcallee <;> simp_all
  | «return» =>
    refine .inr ⟨rfl, ?_⟩
    rcases hret : s.returns with _ | ⟨v, rs⟩
    · simp [termStep, hret] at h
    simp only [termStep, hret] at h
    obtain ⟨⟨old, fs⟩, hpop, h⟩ := bind_eq_ok.mp h
    rcases hfr : s.frames with _ | ⟨old', fs'⟩ <;> rw [hfr] at hpop <;> cases hpop
    refine ⟨v, rs, old, fs, rfl, rfl, ?_⟩
    dsimp only at h
    rcases v with _ | ⟨dest, bb⟩
    · cases h
      exact .inl ⟨rfl, rfl⟩
    · obtain ⟨mem', hw, h⟩ := bind_eq_ok.mp h
      cases h
      exact .inr ⟨dest, bb, mem', rfl, hw, rfl⟩
  | goto | switchInt | unreachable | drop | dropAndReplace | assert | unimplemented => cases h

/-- A terminator ends the loop only as a `Return` with no resume point pending. -/
theorem termStep_eq_none {sir : Sir} {base : Addr} {s : LoopState} {term : Terminator}
    {mem : Mem} (h : termStep sir base s mem term = .ok none) :
    term = .return ∧ s.returns = [] := by
  cases term with
  | call op args dest =>
    obtain ⟨_, -, h⟩ := bind_eq_ok.mp h
    obtain ⟨_, -, h⟩ := bind_eq_ok.mp h
    obtain ⟨_, -, h⟩ := bind_eq_ok.mp h
    obtain ⟨_, -, h⟩ := bind_eq_ok.mp h
    obtain ⟨_, -, h⟩ := bind_eq_ok.mp h
    cases h
  | «return» =>
    refine ⟨rfl, ?_⟩
    rcases hret : s.returns with _ | ⟨v, rs⟩
    · rfl
    simp only [termStep, hret] at h
    obtain ⟨_, -, h⟩ := bind_eq_ok.mp h
    rcases v with _ | _
    · cases h
    · obtain ⟨_, -, h⟩ := bind_eq_ok.mp h
      cases h
  | goto | switchInt | unreachable | drop | dropAndReplace | assert | unimplemented => cases h

/-- A turn ends the loop only at a `Return` with no resume point pending. -/
theorem step_eq_none {sir : Sir} {base : Addr} {s : LoopState} (h : step sir base s = .ok none) :
    s.bodies = [] ∨ ∃ body bodies block mem, s.bodies = body :: bodies ∧
      body.blocks[s.bbidx]? = some block ∧ execStmts sir s.frames s.mem block.stmts = .ok mem ∧
      block.term = .return ∧ s.returns = [] := by
  unfold step at h
  split at h
  · exact .inl ‹_›
  · rename_i body bodies hb
    obtain ⟨block, hblock, h⟩ := bind_eq_ok.mp h
    obtain ⟨mem, hmem, h⟩ := bind_eq_ok.mp h
    exact .inr ⟨body, bodies, block, mem, hb, index_eq_ok.mp hblock, hmem, termStep_eq_none h⟩

/-- The loop states of `interpret(B)` after `SIRInterpreter::new(B)`: the
caller's memory (the trace inputs included) and what `alloc` answers are
arbitrary. -/
inductive Reachable (sir : Sir) (B : Body) : LoopState → Prop
  | start {base : Addr} {si : SIRInterpreter} {mem : Mem} {s : LoopState} :
      SIRInterpreter.new B base = .ok si → si.interpretStart B mem = some s → Reachable sir B s
  | step {s s' : LoopState} {base : Addr} :
      Reachable sir B s → step sir base s = .ok (some s') → Reachable sir B s'

/-! ### The `call` test

`func_call` calls `foo(5)` into `_1` and returns; `foo` copies its argument
`_1` into `_0` and returns. Both bodies are laid out by hand, the `u8`s one
byte each. -/

def fooBody : Body :=
  ⟨[⟨[.store (.val ⟨0⟩ 0 (0, 0)) (.val ⟨1⟩ 0 (0, 0))], .return⟩], false, [0, 1], (2, 1)⟩

def funcCallBody : Body :=
  ⟨[⟨[], .call (.fn "foo") [.const (.int (.unsignedInt (.u8 5))) (0, 0)]
      (some (.val ⟨1⟩ 0 (0, 0), 1))⟩,
    ⟨[], .return⟩], false, [0, 8], (16, 8)⟩

def callSir : Sir where
  bodies sym := if sym = "func_call" then some funcCallBody
    else if sym = "foo" then some fooBody else none
  tys ty := if ty = (0, 0) then some (.unsignedInt .u8) else none

end Bh
end Yk
