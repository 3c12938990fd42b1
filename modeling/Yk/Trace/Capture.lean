/-
# Inlined activations never share a local

`TirTrace::new` flattens the activations a trace runs through into one
namespace of locals. The trace's own body keeps its locals `0..n₀`; every
inlined call gets the `n` locals from the accumulator on, `n` its callee's
local count (`activations`). Renaming adds the offset of the innermost open
call, and a callee's `$0` is the destination its caller named.

When every location of the trace runs in the function its calls and returns
have entered (`callConsistent`), each statement names only locals of the
activation it runs in, or that activation's destination, a local of an
enclosing one; an `Enter` also names its argument slots, in the range it opens
(`OpScoped`, `InScope`, kept by every step of the lowering: `Confined`,
`lowerLocs_confined`). The ranges of the activations lie one after another.
So no two activations share a local, and an inlined callee reaches its
caller's locals only through its destination (`tirTrace_new_capture_free`).
Guards are not renamed, and are left out.

The same invariant follows the body each open activation runs
(`activationBodies`) and where each recorded declaration comes from, for the
declarations of the trace (`Yk.Trace.Decls`).

Key definitions: `InRanges`, `openRanges`, `activations`, `activationBodies`,
`innermostDest`, `InInnermost`, `OpScoped`, `callConsistent`, `Confined`.
-/
import Yk.Trace.Scopes

namespace Yk
namespace Trace

open Pack

/-! ### Activations and their ranges -/

/-- `x` lies in one of the ranges `(offset, count)`. -/
def InRanges (x : Nat) (rs : List (Nat × Nat)) : Prop := ∃ a ∈ rs, a.1 ≤ x ∧ x < a.1 + a.2

/-- The ranges of the open activations, innermost first, after one more
operation: an `Enter` opens its callee's, a `Leave` closes the innermost. -/
def rangeStep (sir : Sir) (rs : List (Nat × Nat)) : TirOp → List (Nat × Nat)
  | .statement (.enter op _ _ off) => (off, calleeCount sir op) :: rs
  | .statement .leave => rs.tail
  | _ => rs

/-- The ranges open after `ops`, the trace's own body having `n0` locals. -/
def openRanges (sir : Sir) (n0 : Nat) (ops : List TirOp) : List (Nat × Nat) :=
  ops.foldl (rangeStep sir) [(0, n0)]

/-- Every activation of the trace: its own body's, then each inlined call's. -/
def activations (sir : Sir) (n0 : Nat) (ops : List TirOp) : List (Nat × Nat) :=
  (0, n0) :: (enters ops).map fun e => (e.2, calleeCount sir e.1)

/-- Every activation with the body it runs: the trace's own body `b0` at `0`,
then the callee of each `Enter` with SIR at the `Enter`'s offset. -/
def activationBodies (sir : Sir) (b0 : Body) (ops : List TirOp) : List (Nat × Body) :=
  (0, b0) :: (enters ops).filterMap fun e => (e.1.symbol.bind sir.bodies).map fun b => (e.2, b)

/-- The destination the innermost open call's `$0` stands for; none in the
trace's own body. -/
def innermostDest (ops : List TirOp) : Option Place := (openCalls ops).head?.bind Prod.snd

/-- `x` belongs to the activation running after `ops`: it lies in the innermost
open range, or it is the destination that activation's `$0` stands for, which
lies in an enclosing activation. -/
def InInnermost (sir : Sir) (n0 : Nat) (ops : List TirOp) (x : Local) : Prop :=
  InRanges x.idx ((openRanges sir n0 ops).take 1) ∨
    (∃ p ∈ innermostDest ops, x = p.local) ∧ InRanges x.idx ((openRanges sir n0 ops).drop 1)

/-- What an operation run after `pre` names. A statement other than an `Enter`
names what belongs to the activation it runs in; an `Enter` names its arguments
and destination there, and its argument slots in the range `(off, count)` it
opens. Guards are not renamed, and are left out. -/
def OpScoped (sir : Sir) (n0 : Nat) (pre : List TirOp) (o : TirOp) : Prop :=
  (∀ s, o = .statement s → o.enterOf = none → ∀ x ∈ o.locals, InInnermost sir n0 pre x) ∧
    ∀ op args dest off, o = .statement (.enter op args dest off) →
      (∀ x ∈ args.flatMap Operand.locals ++ (dest.map (·.local)).toList,
        InInnermost sir n0 pre x) ∧
      ∀ j < args.length, InRanges (off + j + 1) [(off, calleeCount sir op)]

/-- Every operation is scoped after the operations before it. -/
def InScope (sir : Sir) (n0 : Nat) (ops : List TirOp) : Prop :=
  ∀ i o, ops[i]? = some o → OpScoped sir n0 (ops.take i) o

/-- The local count of a symbol's body. -/
def symCount (sir : Sir) (sym : String) : Nat :=
  ((sir.bodies sym).map (·.localDecls.length)).getD 0

/-- The call stack, innermost symbol first, after a block ending in `term`: a
call of a symbol with SIR enters it, a return leaves the innermost function. -/
def callsAfter (sir : Sir) (stk : List String) : Terminator → List String
  | .call op _ _ =>
    match op.symbol with
    | some sym => if (sir.bodies sym).isSome then sym :: stk else stk
    | none => stk
  | .return => stk.tail
  | _ => stk

/-- Every location runs in the function on top of the call stack that the
calls and returns before it build. -/
def callConsistent (sir : Sir) : List String → List SirLoc → Bool
  | _, [] => true
  | stk, loc :: rest => stk.head? == some loc.symbolName &&
    match (sir.bodies loc.symbolName).bind (·.blocks[loc.bbIdx]?) with
    | some block => callConsistent sir (callsAfter sir stk block.term) rest
    | none => true

variable {sir : Sir} {n0 : Nat}

theorem InRanges.mono {x : Nat} {rs rs' : List (Nat × Nat)} (h : InRanges x rs)
    (hsub : ∀ a ∈ rs, a ∈ rs') : InRanges x rs' :=
  let ⟨a, ha, h⟩ := h
  ⟨a, hsub a ha, h⟩

theorem rangeStep_neutral {op : TirOp} (hn : op.Neutral) (rs : List (Nat × Nat)) :
    rangeStep sir rs op = rs := by
  obtain ⟨he, hl⟩ := hn
  rcases op with (_ | _ | ⟨_, _, _, _⟩ | _ | _ | _ | _ | _) | _ <;>
    first | rfl | exact absurd rfl hl | cases he

theorem foldl_rangeStep_of_neutral {new : List TirOp} (hn : ∀ op ∈ new, op.Neutral)
    (rs : List (Nat × Nat)) : new.foldl (rangeStep sir) rs = rs := by
  induction new generalizing rs with
  | nil => rfl
  | cons op new ih =>
    rw [List.foldl_cons, rangeStep_neutral (hn op (List.mem_cons_self _ _)),
      ih fun op hop => hn op (List.mem_cons_of_mem _ hop)]

/-! ### What belongs to the innermost activation -/

variable {ops new : List TirOp} {x : Local}

theorem openRanges_append_neutral (hn : ∀ op ∈ new, op.Neutral) :
    openRanges sir n0 (ops ++ new) = openRanges sir n0 ops := by
  rw [openRanges, List.foldl_append, foldl_rangeStep_of_neutral hn]; rfl

theorem innermostDest_append_neutral (hn : ∀ op ∈ new, op.Neutral) :
    innermostDest (ops ++ new) = innermostDest ops := by
  rw [innermostDest, openCalls_append, foldl_openStep_of_neutral hn]; rfl

theorem openRanges_cons_neutral {l : TirOp} (hl : l.Neutral) :
    openRanges sir n0 (l :: ops) = openRanges sir n0 ops := by
  rw [openRanges, List.foldl_cons, rangeStep_neutral hl]; rfl

theorem innermostDest_cons_neutral {l : TirOp} (hl : l.Neutral) :
    innermostDest (l :: ops) = innermostDest ops := by
  rw [innermostDest, openCalls, List.foldl_cons, openStep_neutral hl]; rfl

/-- The innermost destination of the open calls, read off the renamer's
destinations when they agree. -/
theorem innermostDest_eq {rs : List Place} (h : (openCalls ops).map Prod.snd = rs.map some) :
    innermostDest ops = rs.head? := by
  have hh := congrArg List.head? h
  rw [List.head?_map, List.head?_map] at hh
  rw [innermostDest]
  cases hc : (openCalls ops).head? <;> cases hr : rs.head? <;> simp_all

theorem InInnermost.inRanges (h : InInnermost sir n0 ops x) :
    InRanges x.idx (openRanges sir n0 ops) :=
  h.elim (·.mono fun _ => List.mem_of_mem_take) (·.2.mono fun _ => List.mem_of_mem_drop)

/-- `OpScoped` reads the operations before only through the open ranges and the
innermost destination. -/
theorem OpScoped.congr {pre pre' : List TirOp} {o : TirOp}
    (hr : openRanges sir n0 pre' = openRanges sir n0 pre)
    (hd : innermostDest pre' = innermostDest pre) :
    OpScoped sir n0 pre' o ↔ OpScoped sir n0 pre o := by
  simp only [OpScoped, InInnermost, hr, hd]

/-- An operation that opens and closes no call is scoped when its statement
names only what belongs to the innermost activation. -/
theorem OpScoped.of_neutral {pre : List TirOp} {o : TirOp} (hn : o.Neutral)
    (h : ∀ s, o = .statement s → ∀ x ∈ o.locals, InInnermost sir n0 pre x) :
    OpScoped sir n0 pre o :=
  ⟨fun s hs _ => h s hs, fun _ _ _ _ he => by subst he; cases hn.1⟩

/-- Every local a scoped statement names lies in a range open before it or once
it has run. -/
theorem OpScoped.inRanges {pre : List TirOp} {s : Statement}
    (h : OpScoped sir n0 pre (.statement s)) (hx : x ∈ (TirOp.statement s).locals) :
    InRanges x.idx (openRanges sir n0 pre) ∨
      InRanges x.idx (openRanges sir n0 (pre ++ [.statement s])) := by
  cases s
  case enter op args dest off =>
    rw [TirOp.locals, List.mem_append] at hx
    rcases hx with hx | hx
    · exact .inl ((h.2 op args dest off rfl).1 x hx).inRanges
    · obtain ⟨j, hj, rfl⟩ := List.mem_map.mp hx
      refine .inr (((h.2 op args dest off rfl).2 j (List.mem_range.mp hj)).mono fun a ha => ?_)
      rw [openRanges, List.foldl_append, ← openRanges, List.mem_singleton.mp ha]
      exact List.mem_cons_self _ _
  all_goals exact .inl (h.1 _ rfl rfl x hx).inRanges

/-- Operations appended, each scoped after what comes before it. -/
theorem InScope.append (h : InScope sir n0 ops)
    (hnew : ∀ j o, new[j]? = some o → OpScoped sir n0 (ops ++ new.take j) o) :
    InScope sir n0 (ops ++ new) := by
  intro i o hi
  by_cases hlt : i < ops.length
  · rw [List.getElem?_append_left hlt] at hi
    rw [List.take_append_of_le_length hlt.le]
    exact h i o hi
  · rw [List.getElem?_append_right (by omega)] at hi
    rw [List.take_append_eq_append_take, List.take_of_length_le (by omega)]
    exact hnew _ o hi

theorem InScope.snoc {o : TirOp} (h : InScope sir n0 ops) (ho : OpScoped sir n0 ops o) :
    InScope sir n0 (ops ++ [o]) :=
  h.append fun j o' hj => by
    cases j with
    | zero =>
      obtain rfl : o = o' := by simpa using hj
      simpa using ho
    | succ j => simp at hj

/-- Operations that open and close no call, each scoped where they start. -/
theorem InScope.append_neutral (h : InScope sir n0 ops) (hn : ∀ op ∈ new, op.Neutral)
    (hs : ∀ op ∈ new, OpScoped sir n0 ops op) : InScope sir n0 (ops ++ new) :=
  h.append fun j o hj => by
    have hn' : ∀ op ∈ new.take j, op.Neutral := fun op hop => hn op (List.mem_of_mem_take hop)
    exact (OpScoped.congr (openRanges_append_neutral hn') (innermostDest_append_neutral hn')).mpr
      (hs o (List.mem_iff_getElem?.mpr ⟨j, hj⟩))

/-- Dropping a neutral first operation and any tail keeps every operation
scoped. -/
theorem InScope.of_cons_append {l : TirOp} {more : List TirOp}
    (h : InScope sir n0 (l :: ops ++ more)) (hl : l.Neutral) : InScope sir n0 ops := by
  intro i o hi
  have hlt := (List.getElem?_eq_some_iff.mp hi).1
  have h' := h (i + 1) o (by rw [List.cons_append, List.getElem?_cons_succ,
    List.getElem?_append_left hlt, hi])
  rwa [List.cons_append, List.take_succ_cons, List.take_append_of_le_length hlt.le,
    OpScoped.congr (openRanges_cons_neutral hl) (innermostDest_cons_neutral hl)] at h'

/-! ### Renaming stays in the innermost activation -/

/-- Renaming in a block of `b`, after `ops`, hands out only what belongs to the
innermost activation: the renamer's offset opens it, with room for `b`'s
locals, and the renamer's innermost destination is its destination, in an
enclosing activation. -/
def Confines (sir : Sir) (n0 : Nat) (ops : List TirOp) (b : Body) (r : VarRenamer) : Prop :=
  (∃ n, (openRanges sir n0 ops).take 1 = [(r.offset, n)] ∧ b.localDecls.length ≤ n) ∧
    innermostDest ops = r.returns.head? ∧
    ∀ p ∈ r.returns.head?, InRanges p.local.idx ((openRanges sir n0 ops).drop 1)

variable {b : Body} {r r' : VarRenamer}

/-- What renaming in a block of `b` hands out belongs to the innermost
activation. -/
theorem VarRenamer.Gives.inInnermost (hx : VarRenamer.Gives b r r' x)
    (hc : Confines sir n0 ops b r) : InInnermost sir n0 ops x := by
  rcases hx with ⟨l, hl, hxl, -, -⟩ | ⟨p, hp, rfl⟩
  · obtain ⟨n, hn, hle⟩ := hc.1
    exact .inl ⟨_, hn ▸ List.mem_singleton_self _, by simp [hxl], by simp [hxl]; omega⟩
  · exact .inr ⟨⟨p, hc.2.1 ▸ hp, rfl⟩, hc.2.2 p hp⟩

/-! ### The lowering keeps every statement in scope -/

/-- The open activations' ranges, innermost first: the renamer's offsets, each
with the local count of the function at that depth of the call stack. -/
def stackRanges (sir : Sir) (stk : List String) (r : VarRenamer) : List (Nat × Nat) :=
  r.stack.zip (stk.map (symCount sir))

/-- The lowering after `ops`, with the call stack `stk`, from a first body `b0`:
the renamer's offsets open the ranges of the operations' open activations, sized
by the functions on the call stack; each pending destination lies in an
activation outside its call, and they are the open calls' destinations; every
operation so far is scoped; each open activation runs its function's body; and
every recorded declaration is an activation's, for the local renamed to its
name. -/
structure Confined (sir : Sir) (b0 : Body) (stk : List String) (ops : List TirOp)
    (r : VarRenamer) : Prop where
  offset : r.stack.head? = some r.offset
  length : r.stack.length = stk.length
  ranges : openRanges sir b0.localDecls.length ops = stackRanges sir stk r
  returns : ∀ j (hj : j < r.returns.length),
    InRanges r.returns[j].local.idx ((stackRanges sir stk r).drop (j + 1))
  dests : (openCalls ops).map Prod.snd = r.returns.map some
  stmts : InScope sir b0.localDecls.length ops
  bodies : ∀ p ∈ r.stack.zip stk, ∀ b, sir.bodies p.2 = some b →
    (p.1, b) ∈ activationBodies sir b0 ops
  decls : ∀ x d, r.usedDecls x = some d →
    ∃ a ∈ activationBodies sir b0 ops, VarRenamer.RenamesLocal a.2 a.1 r x

variable {b0 : Body} {stk : List String}

/-- `Confined` reads the renamer's offsets, destinations and declarations. -/
theorem Confined.congr (h : Confined sir b0 stk ops r) (hs : r'.stack = r.stack)
    (ho : r'.offset = r.offset) (hr : r'.returns = r.returns)
    (hd : r'.usedDecls = r.usedDecls) : Confined sir b0 stk ops r' := by
  have hsr : stackRanges sir stk r' = stackRanges sir stk r := by rw [stackRanges, hs]; rfl
  exact ⟨hs ▸ ho ▸ h.offset, hs ▸ h.length, hsr ▸ h.ranges, hr ▸ hsr ▸ h.returns, hr ▸ h.dests,
    h.stmts, hs ▸ h.bodies, fun x d hx =>
      (h.decls x d (hd ▸ hx)).imp fun _ ha => ⟨ha.1, ha.2.congr (congrFun hd x)⟩⟩

/-- The function on top of the call stack runs at the renamer's offset. -/
theorem Confined.stack_cons {sym : String} (h : Confined sir b0 stk ops r)
    (hsym : stk.head? = some sym) : ∃ os ss, r.stack = r.offset :: os ∧ stk = sym :: ss := by
  obtain ⟨o, os, hst⟩ : ∃ o os, r.stack = o :: os := by
    cases hs : r.stack with
    | nil => have := h.offset; rw [hs] at this; cases this
    | cons o os => exact ⟨o, os, rfl⟩
  obtain ⟨ss, rfl⟩ : ∃ ss, stk = sym :: ss := by
    cases stk with
    | nil => cases hsym
    | cons s ss => cases hsym; exact ⟨ss, rfl⟩
  have ho : o = r.offset := by simpa [hst] using h.offset
  exact ⟨os, ss, ho ▸ hst, rfl⟩

/-- The innermost open activation runs the body of the function on top of the
call stack. -/
theorem Confined.top {sym : String} (h : Confined sir b0 stk ops r) (hsym : stk.head? = some sym)
    (hb : sir.bodies sym = some b) : (r.offset, b) ∈ activationBodies sir b0 ops := by
  obtain ⟨os, ss, hst, rfl⟩ := h.stack_cons hsym
  exact h.bodies (r.offset, sym) (by rw [hst]; exact List.mem_cons_self _ _) b hb

/-- In a location of the function on top of the call stack, renaming hands out
only what belongs to the innermost activation. -/
theorem Confined.confines {sym : String} (h : Confined sir b0 stk ops r)
    (hsym : stk.head? = some sym) (hb : sir.bodies sym = some b) :
    Confines sir b0.localDecls.length ops b r := by
  obtain ⟨os, ss, hst, rfl⟩ := h.stack_cons hsym
  refine ⟨⟨symCount sir sym, by simp [h.ranges, stackRanges, hst], by simp [symCount, hb]⟩,
    innermostDest_eq h.dests, fun p hp => ?_⟩
  obtain ⟨hj, rfl⟩ : ∃ hj : 0 < r.returns.length, r.returns[0] = p := by
    cases hr : r.returns with
    | nil => rw [hr] at hp; cases hp
    | cons q qs => rw [hr] at hp; cases hp; exact ⟨by simp, rfl⟩
  rw [h.ranges]
  exact h.returns 0 hj

/-- Renaming in a block of the function on top of the call stack: what it
records is that body's, at the innermost activation. -/
theorem Confined.renames {sym : String} (h : Confined sir b0 stk ops r)
    (hsym : stk.head? = some sym) (hb : sir.bodies sym = some b)
    (hR : VarRenamer.Renames b r r') : Confined sir b0 stk ops r' := by
  have hs := hR.scopes
  simp only [VarRenamer.scopes, Prod.mk.injEq] at hs
  have hsr : stackRanges sir stk r' = stackRanges sir stk r := by rw [stackRanges, hs.1]; rfl
  refine ⟨hs.1 ▸ hs.2.1 ▸ h.offset, hs.1 ▸ h.length, hsr ▸ h.ranges,
    hs.2.2.2 ▸ hsr ▸ h.returns, hs.2.2.2 ▸ h.dests, h.stmts, hs.1 ▸ h.bodies, fun x d hx => ?_⟩
  rcases hR.decls x with e | hx'
  · exact (h.decls x d (e.symm.trans hx)).imp fun _ ha => ⟨ha.1, ha.2.congr e⟩
  · exact ⟨(r.offset, b), h.top hsym hb, hx'⟩

/-- Operations that open and close no call, each scoped where they start. -/
theorem Confined.append_neutral (h : Confined sir b0 stk ops r)
    (hn : ∀ op ∈ new, op.Neutral) (hs : ∀ op ∈ new, OpScoped sir b0.localDecls.length ops op) :
    Confined sir b0 stk (ops ++ new) r := by
  have hoc : openCalls (ops ++ new) = openCalls ops := by
    rw [openCalls_append, foldl_openStep_of_neutral hn]
  have hab : activationBodies sir b0 (ops ++ new) = activationBodies sir b0 ops := by
    rw [activationBodies, activationBodies, enters_append, enters_of_neutral hn, List.append_nil]
  exact ⟨h.offset, h.length, (openRanges_append_neutral hn).trans h.ranges, h.returns,
    hoc ▸ h.dests, h.stmts.append_neutral hn hs, hab ▸ h.bodies, hab ▸ h.decls⟩

/-- A block's guard: not renamed, and left out. -/
theorem Confined.append_guard (h : Confined sir b0 stk ops r) (g? : Option Guard) :
    Confined sir b0 stk (ops ++ (g?.map TirOp.guard).toList) r :=
  h.append_neutral (guards_neutral g?) fun op hop =>
    OpScoped.of_neutral (guards_neutral g? op hop) fun s hs => by cases g? <;> simp_all

/-- An inlined call: its `Enter` opens the callee's range at the accumulator, the
callee goes on the call stack, and its arguments' slots lie in its range and are
declared as the callee's. -/
theorem Confined.enter {sym : String} {callbody : Body} {op : CallOperand} {args : List Operand}
    {dest : Place} {r₃ r₄ : VarRenamer} (h : Confined sir b0 stk ops r)
    (hsym : op.symbol = some sym) (hcb : sir.bodies sym = some callbody)
    (hargs : ∀ x ∈ args.flatMap Operand.locals, InInnermost sir b0.localDecls.length ops x)
    (hdest : InInnermost sir b0.localDecls.length ops dest.local)
    (h₃ : r.enter callbody.localDecls.length dest = .ok r₃)
    (h₄ : registerArgSlots callbody r₃ ((List.range args.length).map (· + 1)) = .ok r₄) :
    Confined sir b0 (sym :: stk) (ops ++ [.statement (.enter op args (some dest) r₄.offset)]) r₄ := by
  obtain ⟨a, -, -, hr₃⟩ := VarRenamer.enter_eq_ok.mp h₃
  have hs₃ : r₃.stack = a :: r.stack ∧ r₃.offset = a ∧ r₃.returns = dest :: r.returns ∧
      r₃.usedDecls = r.usedDecls := by
    subst hr₃; exact ⟨rfl, rfl, rfl, rfl⟩
  obtain ⟨hr₄, hslots⟩ := registerArgSlots_spec h₄
  have ho₄ : r₄.offset = a := hr₄.offset.trans hs₃.2.1
  have hcount : calleeCount sir op = symCount sir sym := by simp [calleeCount, symCount, hsym]
  have hsr : stackRanges sir (sym :: stk) r₃ = (a, calleeCount sir op) :: stackRanges sir stk r := by
    rw [stackRanges, hs₃.1, hcount]; rfl
  have hab : activationBodies sir b0 (ops ++ [.statement (.enter op args (some dest) a)]) =
      activationBodies sir b0 ops ++ [(a, callbody)] := by
    simp [activationBodies, enters_append, enters, TirOp.enterOf, hsym, hcb]
  rw [ho₄]
  refine Confined.renames
    ⟨by rw [hs₃.1, hs₃.2.1]; rfl, by simp [hs₃.1, h.length], ?_, ?_, ?_, ?_, ?_, ?_⟩
    (show (sym :: stk).head? = some sym from rfl) hcb hr₄
  · rw [hsr, openRanges, List.foldl_append, ← openRanges, h.ranges]; rfl
  · rw [hsr]
    intro j hj
    simp only [hs₃.2.2.1] at hj ⊢
    cases j with
    | zero => exact h.ranges ▸ hdest.inRanges
    | succ j => exact h.returns j (by simpa using hj)
  · rw [openCalls_append, hs₃.2.2.1, List.map_cons, ← h.dests]; rfl
  · refine h.stmts.snoc ⟨fun _ hs he => (by cases hs; cases he), fun op' args' dest' off' he => ?_⟩
    cases he
    refine ⟨List.forall_mem_append.mpr ⟨hargs, List.forall_mem_singleton.mpr hdest⟩, fun j hj => ?_⟩
    obtain ⟨l, hl, hxl, -, -⟩ := hslots (j + 1) (List.mem_map_of_mem _ (List.mem_range.mpr hj))
    refine ⟨(a, calleeCount sir op), List.mem_singleton_self _, by omega, ?_⟩
    simp only [hcount, symCount, hcb, Option.map_some', Option.getD_some]
    dsimp only at hxl
    omega
  · rw [hab, hs₃.1]
    intro p hp b hb
    rcases List.mem_cons.mp hp with rfl | hp
    · rw [hcb] at hb
      cases hb
      exact List.mem_append_right _ (List.mem_singleton_self _)
    · exact List.mem_append_left _ (h.bodies p hp b hb)
  · exact fun x d hx => (h.decls x d (hs₃.2.2.2 ▸ hx)).imp fun _ ha =>
      ⟨hab ▸ List.mem_append_left _ ha.1, ha.2.congr (congrFun hs₃.2.2.2 x)⟩

/-- A `Leave`: the innermost activation closes, and its function leaves the call
stack. -/
theorem Confined.leave (h : Confined sir b0 stk ops r) (hr : r.leave = .ok r') :
    Confined sir b0 stk.tail (ops ++ [.statement .leave]) r' := by
  obtain ⟨v, vs, hv, hr'⟩ := VarRenamer.leave_eq_ok.mp hr
  have hs' : r'.stack = r.stack.tail ∧ r'.offset = v ∧ r'.returns = r.returns.tail ∧
      r'.usedDecls = r.usedDecls := by
    subst hr'; exact ⟨rfl, rfl, rfl, rfl⟩
  have hsr : stackRanges sir stk.tail r' = (stackRanges sir stk r).tail := by
    simp [stackRanges, hs'.1, List.map_tail]
  have hab : activationBodies sir b0 (ops ++ [.statement .leave]) = activationBodies sir b0 ops := by
    simp [activationBodies, enters_append, enters, TirOp.enterOf]
  refine ⟨by simp [hs'.1, hs'.2.1, hv], by simp [hs'.1, h.length], ?_, ?_, ?_, ?_, ?_, ?_⟩
  · rw [hsr, openRanges, List.foldl_append, ← openRanges, h.ranges]; rfl
  · intro j hj
    rw [hsr, List.drop_tail]
    subst hr'
    have := h.returns (j + 1) (by simp at hj; omega)
    simpa [List.getElem_tail] using this
  · rw [openCalls_append, hs'.2.2.1, List.map_tail, ← h.dests]
    exact List.map_tail _ _
  · exact h.stmts.snoc ⟨fun _ _ _ x hx => by simp [TirOp.locals] at hx, fun _ _ _ _ he => nomatch he⟩
  · rw [hab, hs'.1, ← List.tail_zip]
    exact fun p hp => h.bodies p (List.mem_of_mem_tail hp)
  · exact fun x d hx => (h.decls x d (hs'.2.2.2 ▸ hx)).imp fun _ ha =>
      ⟨hab ▸ ha.1, ha.2.congr (congrFun hs'.2.2.2 x)⟩

/-- What the terminator adds keeps the lowering confined, the call stack moving as
the terminator says. -/
theorem termOp_confined {sym : String} {term : Terminator} {op? : Option TirOp}
    (h : Confined sir b0 stk ops r) (hsym : stk.head? = some sym) (hb : sir.bodies sym = some b)
    (ht : termOp sir b r term = .ok (op?, r')) :
    Confined sir b0 (callsAfter sir stk term) (ops ++ op?.toList) r' := by
  have hc := h.confines hsym hb
  rcases termOp_spec ht with
    ⟨op, args, p, bb, retVal, newargs, r₂, rfl, hR, hret, hargs, hcall⟩ | ⟨rfl, hl, rfl⟩ |
    ⟨hnc, hnr, rfl, rfl⟩
  · have h₂ := h.renames hsym hb hR
    have hret' := hret.inInnermost hc
    have hargs' := fun x hx => (hargs x hx).inInnermost hc
    rcases hcall with ⟨callee, callbody, r₃, hop, hcb, h₃, h₄, rfl⟩ | ⟨callee, hop, hcb, rfl, rfl⟩
    · have hstk : callsAfter sir stk (.call op args (some (p, bb))) = callee :: stk := by
        simp [callsAfter, hop, hcb]
      rw [hstk, Option.toList_some]
      exact h₂.enter hop hcb hargs' hret' h₃ h₄
    · have hstk : callsAfter sir stk (.call op args (some (p, bb))) = stk := by
        simp [callsAfter, hop, hcb]
      have hn : (TirOp.statement (.call op newargs (some retVal))).Neutral := ⟨rfl, nofun⟩
      rw [hstk, Option.toList_some]
      refine h₂.append_neutral (List.forall_mem_singleton.mpr hn)
        (List.forall_mem_singleton.mpr (OpScoped.of_neutral hn fun s hs => ?_))
      cases hs
      exact List.forall_mem_append.mpr ⟨hargs', List.forall_mem_singleton.mpr hret'⟩
  · exact h.leave hl
  · have hstk : callsAfter sir stk term = stk := by
      cases term <;> first | rfl | exact absurd rfl (hnc _ _ _) | exact absurd rfl hnr
    rw [hstk]
    simpa using h

/-- A block of the function on top of the call stack. -/
theorem lowerBlock_confined {sym : String} {bb : BasicBlockIndex} {next : Option SirLoc}
    {ops' : List TirOp} (h : Confined sir b0 stk ops r) (hsym : stk.head? = some sym)
    (hb : sir.bodies sym = some b) (hl : lowerBlock sir b bb next ops r = .ok (ops', r')) :
    ∃ block, b.blocks[bb]? = some block ∧
      Confined sir b0 (callsAfter sir stk block.term) ops' r' := by
  obtain ⟨block, ops₁, r₁, op?, g?, hblock, hp, ht, -, rfl⟩ := lowerBlock_eq_ok.mp hl
  obtain ⟨new, rfl, hR, hnew⟩ := pushStmts_spec hp
  have hc := h.confines hsym hb
  have h₁ : Confined sir b0 stk (ops ++ new) r₁ :=
    (h.append_neutral (fun op hop => (hnew op hop).1) fun op hop =>
      OpScoped.of_neutral (hnew op hop).1 fun s hs x hx =>
        ((hnew op hop).2 s hs x hx).inInnermost hc).renames hsym hb hR
  exact ⟨block, hblock, (termOp_confined h₁ hsym hb ht).append_guard g?⟩

/-! ### The loop -/

variable {st st' : LowerState}

/-- `init_acc` touches only the accumulator. -/
theorem Confined.initAcc (h : Confined sir b0 stk ops r) (n : Nat) :
    Confined sir b0 stk ops (r.initAcc n) := by
  unfold VarRenamer.initAcc
  split
  · exact h.congr rfl rfl rfl rfl
  · exact h

/-- A location of the function on top of the call stack: its block's terminator
moves the call stack. -/
theorem lowerLoc_confined {loc : SirLoc} {next : Option SirLoc}
    (h : Confined sir b0 stk st.ops st.rnm) (hsym : stk.head? = some loc.symbolName)
    (hl : lowerLoc sir st loc next = .ok st') :
    ∃ block, (sir.bodies loc.symbolName).bind (·.blocks[loc.bbIdx]?) = some block ∧
      Confined sir b0 (callsAfter sir stk block.term) st'.ops st'.rnm := by
  obtain ⟨body, hbody, hb, -⟩ := lowerLoc_eq_ok.mp hl
  obtain ⟨block, hblock, hconf⟩ :=
    lowerBlock_confined (h.initAcc body.localDecls.length) hsym hbody hb
  exact ⟨block, by rw [hbody, Option.some_bind, hblock], hconf⟩

/-- Every run of the loop over call-consistent locations stays confined. -/
theorem lowerLocs_confined {locs after : List SirLoc}
    (h : Confined sir b0 stk st.ops st.rnm) (hcons : callConsistent sir stk locs = true)
    (hl : lowerLocs sir locs after st = .ok st') :
    ∃ stk', Confined sir b0 stk' st'.ops st'.rnm := by
  obtain ⟨stk', h', -⟩ := lowerLocs_induction
    (fun locs st => ∃ stk, Confined sir b0 stk st.ops st.rnm ∧ callConsistent sir stk locs = true)
    (fun loc rest st st' ⟨stk, h, hcons⟩ hl => by
      simp only [callConsistent, Bool.and_eq_true, beq_iff_eq] at hcons
      obtain ⟨block, hblock, h'⟩ := lowerLoc_confined h hcons.1 hl
      rw [hblock] at hcons
      exact ⟨_, h', hcons.2⟩)
    ⟨stk, h, hcons⟩ hl
  exact ⟨stk', h'⟩

/-- Before the first location only the trace's own body is open, and nothing is
declared. -/
theorem confined_init {sym : String} (hb0 : sir.bodies sym = some b0) :
    Confined sir b0 [sym] [] VarRenamer.new := by
  refine ⟨rfl, rfl, by simp [openRanges, stackRanges, VarRenamer.new, symCount, hb0],
    fun _ hj => absurd hj (Nat.not_lt_zero _), rfl, fun _ _ h => by simp at h,
    fun p hp b hb => ?_, fun _ _ hx => nomatch hx⟩
  simp only [VarRenamer.new, List.zip_cons_cons, List.zip_nil_right, List.mem_singleton] at hp
  subst hp
  rw [hb0] at hb
  cases hb
  exact List.mem_singleton_self _

/-! ### Open ranges are activations, laid one after another -/

theorem rangeStep_mem {rs : List (Nat × Nat)} {op : TirOp} {a : Nat × Nat}
    (ha : a ∈ rangeStep sir rs op) :
    a ∈ rs ∨ ∃ e, op.enterOf = some e ∧ a = (e.2, calleeCount sir e.1) := by
  unfold rangeStep at ha
  split at ha
  · rcases List.mem_cons.mp ha with rfl | ha
    · exact .inr ⟨_, rfl, rfl⟩
    · exact .inl ha
  · exact .inl (List.mem_of_mem_tail ha)
  · exact .inl ha

theorem foldl_rangeStep_mem {ops : List TirOp} {rs : List (Nat × Nat)} {a : Nat × Nat}
    (ha : a ∈ ops.foldl (rangeStep sir) rs) :
    a ∈ rs ∨ ∃ e ∈ enters ops, a = (e.2, calleeCount sir e.1) := by
  induction ops generalizing rs with
  | nil => exact .inl ha
  | cons op ops ih =>
    have hsub : enters ops ⊆ enters (op :: ops) :=
      ((List.sublist_cons_self op ops).filterMap _).subset
    rcases ih ha with ha | ⟨e, he, rfl⟩
    · rcases rangeStep_mem ha with ha | ⟨e, he, rfl⟩
      · exact .inl ha
      · exact .inr ⟨e, List.mem_filterMap.mpr ⟨op, List.mem_cons_self _ _, he⟩, rfl⟩
    · exact .inr ⟨e, hsub he, rfl⟩

/-- Every range open after a prefix of the operations is an activation. -/
theorem openRanges_take_mem {ops : List TirOp} (i : Nat) {a : Nat × Nat}
    (ha : a ∈ openRanges sir n0 (ops.take i)) : a ∈ activations sir n0 ops := by
  have hsub : enters (ops.take i) ⊆ enters ops := ((List.take_sublist i ops).filterMap _).subset
  rcases foldl_rangeStep_mem ha with ha | ⟨e, he, rfl⟩
  · exact List.mem_cons.mpr (.inl (List.mem_singleton.mp ha))
  · exact List.mem_cons_of_mem _ (List.mem_map_of_mem _ (hsub he))

/-- Running offsets lay the ranges one after another, from the first at `0`. -/
theorem RunningOffsets.pairwise {f : CallOperand → Nat} {a0 : Nat} {es : List (CallOperand × Nat)}
    (h : RunningOffsets f a0 es) :
    ((0, a0) :: es.map fun e => (e.2, f e.1)).Pairwise fun a c => a.1 + a.2 ≤ c.1 := by
  have hk : ∀ k (hk : k < es.length), es[k].2 = a0 + ((es.map fun e => f e.1).take k).sum :=
    fun k hk => by rw [h k hk, List.map_take]
  rw [List.pairwise_cons, List.pairwise_map, List.pairwise_iff_getElem]
  refine ⟨fun c hc => ?_, fun j k hj hk' hjk => ?_⟩
  · obtain ⟨e, he, rfl⟩ := List.mem_map.mp hc
    obtain ⟨k, hk', rfl⟩ := List.getElem_of_mem he
    show 0 + a0 ≤ es[k].2
    rw [hk k hk']
    omega
  · have h1 := List.sum_take_succ (es.map fun e => f e.1) j (by simpa using hj)
    have h2 := List.monotone_sum_take (es.map fun e => f e.1) (show j + 1 ≤ k by omega)
    simp only [List.getElem_map] at h1 h2
    show es[j].2 + f es[j].1 ≤ es[k].2
    rw [hk j hj, hk k hk']
    omega

/-- A body with fewer than `2 ^ 32` locals keeps its count through `as u32`. -/
theorem calleeCount_lt (hsmall : ∀ sym b, sir.bodies sym = some b → b.localDecls.length < 4294967296)
    (op : CallOperand) : calleeCount sir op < 4294967296 := by
  unfold calleeCount
  cases hb : op.symbol.bind sir.bodies with
  | none => decide
  | some b =>
    obtain ⟨sym, -, hb⟩ := Option.bind_eq_some.mp hb
    exact hsmall sym b hb

/-- In ranges laid one after another, a local lies in at most one of them. -/
theorem eq_of_mem_of_pairwise {α : Type} {off len : α → Nat} {l : List α}
    (hl : l.Pairwise fun a c => off a + len a ≤ off c) {a c : α} (ha : a ∈ l) (hc : c ∈ l)
    {x : Nat} (hxa : off a ≤ x ∧ x < off a + len a) (hxc : off c ≤ x ∧ x < off c + len c) :
    a = c := by
  by_contra hne
  have hsym : l.Pairwise fun a c => off a + len a ≤ off c ∨ off c + len c ≤ off a := hl.imp .inl
  have := hsym.forall (by intro a c h; exact h.symm) ha hc hne
  omega

theorem activations_append (n0 : Nat) (ops more : List TirOp) :
    activations sir n0 (ops ++ more) =
      activations sir n0 ops ++ (enters more).map fun e => (e.2, calleeCount sir e.1) := by
  simp [activations, enters_append]

theorem activationBodies_append (b0 : Body) (ops more : List TirOp) :
    activationBodies sir b0 (ops ++ more) = activationBodies sir b0 ops ++
      (enters more).filterMap fun e => (e.1.symbol.bind sir.bodies).map fun b => (e.2, b) := by
  simp [activationBodies, enters_append]

/-- The ranges of the `Enter`s with SIR, in order, among those of all `Enter`s. -/
theorem enterBodies_sublist (es : List (CallOperand × Nat)) :
    List.Sublist ((es.filterMap fun e => (e.1.symbol.bind sir.bodies).map fun b => (e.2, b)).map
      fun c => (c.1, c.2.localDecls.length)) (es.map fun e => (e.2, calleeCount sir e.1)) := by
  induction es with
  | nil => exact List.Sublist.slnil
  | cons e es ih =>
    rw [List.filterMap_cons, List.map_cons]
    cases hb : e.1.symbol.bind sir.bodies with
    | none =>
      simp only [hb, Option.map_none']
      exact ih.cons _
    | some b =>
      have hc : calleeCount sir e.1 = b.localDecls.length := by simp [calleeCount, hb]
      simp only [hb, Option.map_some', List.map_cons, hc]
      exact ih.cons₂ _

theorem activationBodies_sublist (b0 : Body) (ops : List TirOp) :
    List.Sublist ((activationBodies sir b0 ops).map fun c => (c.1, c.2.localDecls.length))
      (activations sir b0.localDecls.length ops) :=
  (enterBodies_sublist (enters ops)).cons₂ _

/-- Activations with a body lie one after another when all activations do. -/
theorem activationBodies_pairwise
    (h : (activations sir b0.localDecls.length ops).Pairwise fun a c => a.1 + a.2 ≤ c.1) :
    (activationBodies sir b0 ops).Pairwise fun a c => a.1 + a.2.localDecls.length ≤ c.1 :=
  List.pairwise_map.mp (h.sublist (activationBodies_sublist b0 ops))

/-- The activations of a run of the loop from the trace's first location lie one
after another. -/
theorem lowerLocs_activations_pairwise {loc : SirLoc} {rest : List SirLoc} {st : LowerState}
    (hb0 : sir.bodies loc.symbolName = some b0)
    (hsmall : ∀ sym b, sir.bodies sym = some b → b.localDecls.length < 4294967296)
    (hst : lowerLocs sir (loc :: rest) [] LowerState.init = .ok st) :
    (activations sir b0.localDecls.length st.ops).Pairwise fun a c => a.1 + a.2 ≤ c.1 := by
  rw [lowerLocs, List.append_nil] at hst
  obtain ⟨st₁, h₁, hrest⟩ := bind_eq_ok.mp hst
  have hoff := (lowerLocs_scoped (lowerLoc_init_scoped h₁ hb0) hrest).offsets
  rw [Nat.mod_eq_of_lt (hsmall _ _ hb0)] at hoff
  exact (hoff.congr fun e _ => Nat.mod_eq_of_lt (calleeCount_lt hsmall e.1)).pairwise

/-! ### The trace -/

/-- **Inlined activations never share a local.** In every trace `TirTrace::new`
returns, from a first location in a body of `n0` locals, whose locations each
run in the function its calls and returns have entered, and whose bodies have
fewer than `2 ^ 32` locals each: the activations' ranges lie one after another;
every local a statement other than an `Enter` names belongs to the activation
it runs in (the innermost one open before it): it lies in that activation's
range, or it is the destination its `$0` stands for, in an enclosing one; and
an `Enter` names its arguments and destination in the activation it runs in,
and its argument slots in the range it opens. -/
theorem tirTrace_new_capture_free {loc : SirLoc} {rest : List SirLoc} {b0 : Body} {t : TirTrace}
    (hb0 : sir.bodies loc.symbolName = some b0)
    (hsmall : ∀ sym b, sir.bodies sym = some b → b.localDecls.length < 4294967296)
    (hcons : callConsistent sir [loc.symbolName] (loc :: rest) = true)
    (ht : TirTrace.new sir (loc :: rest) = .ok t) :
    (activations sir b0.localDecls.length t.ops).Pairwise (fun a c => a.1 + a.2 ≤ c.1) ∧
      (∀ i s, t.ops[i]? = some (.statement s) → (TirOp.statement s).enterOf = none →
        ∀ x ∈ (TirOp.statement s).locals, InInnermost sir b0.localDecls.length (t.ops.take i) x) ∧
      ∀ i op args dest off, t.ops[i]? = some (.statement (.enter op args dest off)) →
        (∀ x ∈ args.flatMap Operand.locals ++ (dest.map (·.local)).toList,
          InInnermost sir b0.localDecls.length (t.ops.take i) x) ∧
        ∀ j < args.length, InRanges (off + j + 1) [(off, calleeCount sir op)] := by
  obtain ⟨st, hst, htrim, -, -⟩ := tirTrace_new_eq_ok.mp ht
  obtain ⟨l, t₁, t₂, t₃, t₄, t₅, e, hops, -⟩ := trim_eq_ok.mp htrim
  have hinit : Confined sir b0 [loc.symbolName] LowerState.init.ops LowerState.init.rnm :=
    confined_init hb0
  obtain ⟨_, hconf⟩ := lowerLocs_confined hinit hcons hst
  have hin := hconf.stmts
  rw [hops] at hin
  have hs := hin.of_cons_append ⟨rfl, nofun⟩
  refine ⟨?_, fun i s hi => (hs i _ hi).1 s rfl,
    fun i op args dest off hi => (hs i _ hi).2 op args dest off rfl⟩
  have h := lowerLocs_activations_pairwise hb0 hsmall hst
  have hact : activations sir b0.localDecls.length st.ops =
      activations sir b0.localDecls.length (t.ops ++ [t₁, t₂, t₃, t₄, t₅, e]) := by
    rw [hops]; rfl
  rw [hact, activations_append] at h
  exact h.sublist (List.sublist_append_left _ _)

theorem sampleSir_small : ∀ sym b, sampleSir.bodies sym = some b →
    b.localDecls.length < 4294967296 := by
  intro sym b h
  simp only [sampleSir] at h
  split_ifs at h <;> (cases h; decide)

/-- The sample trace: `main`'s eight locals, then `callee`'s three from `8`. -/
theorem tirTrace_new_capture_free_sample :
    ∃ t, TirTrace.new sampleSir sampleTrace = .ok t ∧
      callConsistent sampleSir ["main"] sampleTrace = true ∧
      (activations sampleSir 8 t.ops).Pairwise (fun a c => a.1 + a.2 ≤ c.1) ∧
      (∀ i s, t.ops[i]? = some (.statement s) → (TirOp.statement s).enterOf = none →
        ∀ x ∈ (TirOp.statement s).locals, InInnermost sampleSir 8 (t.ops.take i) x) ∧
      ∀ i op args dest off, t.ops[i]? = some (.statement (.enter op args dest off)) →
        (∀ x ∈ args.flatMap Operand.locals ++ (dest.map (·.local)).toList,
          InInnermost sampleSir 8 (t.ops.take i) x) ∧
        ∀ j < args.length, InRanges (off + j + 1) [(off, calleeCount sampleSir op)] := by
  obtain ⟨t, ht⟩ : ∃ t, TirTrace.new sampleSir sampleTrace = .ok t := ⟨_, rfl⟩
  obtain ⟨b0, hb0, h8⟩ : ∃ b0, sampleSir.bodies (SirLoc.symbolName ⟨"main", 0⟩) = some b0 ∧
      b0.localDecls.length = 8 := ⟨_, rfl, rfl⟩
  have hcons : callConsistent sampleSir ["main"] sampleTrace = true := rfl
  have h := tirTrace_new_capture_free hb0 sampleSir_small hcons ht
  rw [h8] at h
  exact ⟨t, ht, hcons, h⟩

end Trace
end Yk
