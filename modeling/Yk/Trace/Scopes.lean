/-
# The renamer's scopes over a whole trace

Every `Enter` the lowering emits opens an inlined call and carries its offset
and renamed destination; a `Leave` closes the innermost open call
(`openCalls`). At the head of every turn of the loop the renamer agrees with
the operations emitted so far (`Scoped`): its stack holds the open calls'
offsets, its return places their destinations, and its accumulator the first
body's local count plus the callees' counts of every `Enter` so far. A block
keeps this (`lowerBlock_scoped`), and so does a run of the loop
(`lowerLocs_scoped`).

So in every trace `TirTrace::new` returns, the `k`-th `Enter` carries the first
body's local count plus those of the callees entered before it, no prefix has
more `Leave`s than `Enter`s, and at the head of every turn the renamer's offset
and destinations are those of the calls open there (`tirTrace_new_scopes`).

Key definitions: `enters`, `openCalls`, `Bracketed`, `RunningOffsets`, `Scoped`.
-/
import Mathlib.Algebra.Order.BigOperators.Group.List
import Mathlib.Algebra.Order.Ring.Nat
import Yk.Trace.Steps

namespace Yk
namespace Trace

open Pack

/-! ### Calls opened and closed by operations -/

/-- The `Enter`s of `ops` in order, each with its offset. -/
def enters (ops : List TirOp) : List (CallOperand × Nat) := ops.filterMap TirOp.enterOf

def enterCount (ops : List TirOp) : Nat := (enters ops).length

def leaveCount (ops : List TirOp) : Nat := ops.count (.statement .leave)

/-- No prefix of `ops` closes more calls than it opens. -/
def Bracketed (ops : List TirOp) : Prop :=
  ∀ n, leaveCount (ops.take n) ≤ enterCount (ops.take n)

/-- The open calls, innermost first, after one more operation: an `Enter` opens
one at its offset with its destination, a `Leave` closes the innermost. -/
def openStep (calls : List (Nat × Option Place)) : TirOp → List (Nat × Option Place)
  | .statement (.enter _ _ dest off) => (off, dest) :: calls
  | .statement .leave => calls.tail
  | _ => calls

def openCalls (ops : List TirOp) : List (Nat × Option Place) := ops.foldl openStep []

/-- The offset of the innermost open call; `0` outside every inlined call. -/
def innermostOffset (ops : List TirOp) : Nat := ((openCalls ops).head?.map Prod.fst).getD 0

/-- The local count of a callee that has SIR. -/
def calleeCount (sir : Sir) (op : CallOperand) : Nat :=
  ((op.symbol.bind sir.bodies).map (·.localDecls.length)).getD 0

/-- The `k`-th `Enter` carries `a0` plus the counts `f` gives the callees of the
`Enter`s before it. -/
def RunningOffsets (f : CallOperand → Nat) (a0 : Nat) (es : List (CallOperand × Nat)) : Prop :=
  ∀ k (hk : k < es.length), es[k].2 = a0 + ((es.take k).map fun e => f e.1).sum

theorem enters_append (a b : List TirOp) : enters (a ++ b) = enters a ++ enters b :=
  List.filterMap_append ..

theorem leaveCount_append (a b : List TirOp) : leaveCount (a ++ b) = leaveCount a + leaveCount b :=
  List.count_append ..

theorem openCalls_append (a b : List TirOp) : openCalls (a ++ b) = b.foldl openStep (openCalls a) :=
  List.foldl_append ..

section Neutral

variable {new : List TirOp}

theorem openStep_neutral {op : TirOp} (h : op.Neutral) (calls : List (Nat × Option Place)) :
    openStep calls op = calls := by
  obtain ⟨he, hl⟩ := h
  cases op with
  | statement s => cases s <;> simp_all [openStep, TirOp.enterOf]
  | guard g => rfl

theorem enters_of_neutral (hn : ∀ op ∈ new, op.Neutral) : enters new = [] :=
  List.filterMap_eq_nil_iff.mpr fun op h => (hn op h).1

theorem leaveCount_of_neutral (hn : ∀ op ∈ new, op.Neutral) : leaveCount new = 0 :=
  List.count_eq_zero.mpr fun h => (hn _ h).2 rfl

theorem foldl_openStep_of_neutral (hn : ∀ op ∈ new, op.Neutral) (calls : List (Nat × Option Place)) :
    new.foldl openStep calls = calls := by
  induction new generalizing calls with
  | nil => rfl
  | cons op ops ih =>
    rw [List.foldl_cons, openStep_neutral (hn op (List.mem_cons_self _ _))]
    exact ih (fun o h => hn o (List.mem_cons_of_mem _ h)) calls

end Neutral

/-! ### Bracketing and running offsets -/

theorem Bracketed.total {ops : List TirOp} (h : Bracketed ops) : leaveCount ops ≤ enterCount ops := by
  simpa using h ops.length

/-- Appending keeps the bracketing when every prefix of what is appended does. -/
theorem Bracketed.append {ops new : List TirOp} (h : Bracketed ops)
    (hnew : ∀ n, leaveCount (ops ++ new.take n) ≤ enterCount (ops ++ new.take n)) :
    Bracketed (ops ++ new) := by
  intro n
  rw [List.take_append_eq_append_take]
  by_cases hn : n ≤ ops.length
  · rw [Nat.sub_eq_zero_of_le hn, List.take_zero, List.append_nil]
    exact h n
  · rw [List.take_of_length_le (by omega)]
    exact hnew _

theorem Bracketed.snoc {ops : List TirOp} {op : TirOp} (h : Bracketed ops)
    (hop : leaveCount (ops ++ [op]) ≤ enterCount (ops ++ [op])) : Bracketed (ops ++ [op]) :=
  h.append fun n => by
    cases n with
    | zero => simpa using h.total
    | succ n => simpa using hop

/-- Dropping a neutral first operation and any tail keeps the bracketing. -/
theorem Bracketed.of_cons_append {op : TirOp} {ops more : List TirOp}
    (h : Bracketed (op :: ops ++ more)) (hop : op.Neutral) : Bracketed ops := by
  intro n
  have hk := h (min n ops.length + 1)
  have htake : ops.take (min n ops.length) = ops.take n :=
    List.take_eq_take.mpr (by rw [Nat.min_assoc, Nat.min_self])
  rw [List.cons_append, List.take_succ_cons,
    List.take_append_of_le_length (Nat.min_le_right _ _), htake] at hk
  rwa [leaveCount, List.count_cons_of_ne (Ne.symm hop.2), enterCount, enters,
    List.filterMap_cons_none hop.1] at hk

section RunningOffsets

variable {f g : CallOperand → Nat} {a0 : Nat} {es : List (CallOperand × Nat)}

theorem RunningOffsets.snoc (h : RunningOffsets f a0 es) {e : CallOperand × Nat}
    (he : e.2 = a0 + (es.map fun e => f e.1).sum) : RunningOffsets f a0 (es ++ [e]) := by
  intro k hk
  rw [List.length_append, List.length_singleton] at hk
  rcases Nat.lt_succ_iff_lt_or_eq.mp hk with hk | rfl
  · rw [List.getElem_append_left hk, List.take_append_of_le_length hk.le]
    exact h k hk
  · rw [List.getElem_append_right (le_refl _), List.take_left' rfl]
    simpa using he

theorem RunningOffsets.of_append {es' : List (CallOperand × Nat)}
    (h : RunningOffsets f a0 (es ++ es')) : RunningOffsets f a0 es := by
  intro k hk
  have hk' := h k (by rw [List.length_append]; omega)
  rwa [List.getElem_append_left hk, List.take_append_of_le_length hk.le] at hk'

theorem RunningOffsets.congr (h : RunningOffsets f a0 es) (hfg : ∀ e ∈ es, f e.1 = g e.1) :
    RunningOffsets g a0 es := by
  intro k hk
  rw [h k hk, List.map_congr_left fun e he => hfg e (List.mem_of_mem_take he)]

end RunningOffsets

/-! ### The invariant of the loop -/

/-- The renamer agrees with the operations emitted so far, in a trace whose
first body has `a0` locals (`as u32`). -/
structure Scoped (sir : Sir) (a0 : Nat) (ops : List TirOp) (r : VarRenamer) : Prop where
  acc : r.acc = some (a0 + ((enters ops).map fun e => calleeCount sir e.1 % 4294967296).sum)
  stack : r.stack = (openCalls ops).map Prod.fst ++ [0]
  offset : r.offset = innermostOffset ops
  returns : r.returns.map some = (openCalls ops).map Prod.snd
  depth : (openCalls ops).length + leaveCount ops = enterCount ops
  bracketed : Bracketed ops
  offsets : RunningOffsets (calleeCount sir · % 4294967296) a0 (enters ops)

variable {sir : Sir} {a0 : Nat} {ops : List TirOp} {r r' : VarRenamer}

theorem scoped_init (n : Nat) : Scoped sir (n % 4294967296) [] (VarRenamer.new.initAcc n) :=
  ⟨rfl, rfl, rfl, rfl, rfl, fun _ => by simp [leaveCount, enterCount, enters],
    fun _ hk => absurd hk (Nat.not_lt_zero _)⟩

/-- `Scoped` reads only the renamer's scopes. -/
theorem Scoped.of_scopes (h : Scoped sir a0 ops r) (hr : r'.scopes = r.scopes) :
    Scoped sir a0 ops r' := by
  simp only [VarRenamer.scopes, Prod.mk.injEq] at hr
  obtain ⟨hs, ho, ha, hret⟩ := hr
  exact ⟨ha.trans h.acc, hs.trans h.stack, ho.trans h.offset, hret ▸ h.returns, h.depth,
    h.bracketed, h.offsets⟩

theorem Scoped.append_neutral {new : List TirOp} (h : Scoped sir a0 ops r)
    (hn : ∀ op ∈ new, op.Neutral) : Scoped sir a0 (ops ++ new) r := by
  have ho : openCalls (ops ++ new) = openCalls ops := by
    rw [openCalls_append, foldl_openStep_of_neutral hn]
  have he : enters (ops ++ new) = enters ops := by
    rw [enters_append, enters_of_neutral hn, List.append_nil]
  have hl : leaveCount (ops ++ new) = leaveCount ops := by
    rw [leaveCount_append, leaveCount_of_neutral hn, Nat.add_zero]
  refine ⟨he ▸ h.acc, ho ▸ h.stack, ?_, ho ▸ h.returns, ?_, ?_, he ▸ h.offsets⟩
  · rw [innermostOffset, ho]; exact h.offset
  · rw [ho, hl, enterCount, he]; exact h.depth
  · refine h.bracketed.append fun n => ?_
    have hn' : ∀ op ∈ new.take n, op.Neutral := fun op hop => hn op (List.mem_of_mem_take hop)
    rw [leaveCount_append, enterCount, enters_append, leaveCount_of_neutral hn',
      enters_of_neutral hn', List.append_nil]
    exact h.bracketed.total

/-- An `Enter` of a callee of `n` locals, at the offset `enter` moves to. -/
theorem Scoped.enter {n : Nat} {dest : Place} {op : CallOperand} {args : List Operand}
    (h : Scoped sir a0 ops r) (hr : r.enter n dest = .ok r') (hn : calleeCount sir op = n) :
    Scoped sir a0 (ops ++ [.statement (.enter op args (some dest) r'.offset)]) r' := by
  obtain ⟨a, ha, -, rfl⟩ := VarRenamer.enter_eq_ok.mp hr
  have hsum := h.acc
  rw [ha, Option.some.injEq] at hsum
  have ho : openCalls (ops ++ [.statement (.enter op args (some dest) a)]) =
      (a, some dest) :: openCalls ops := by rw [openCalls_append]; rfl
  have he : enters (ops ++ [.statement (.enter op args (some dest) a)]) = enters ops ++ [(op, a)] := by
    rw [enters_append]; rfl
  have hl : leaveCount (ops ++ [.statement (.enter op args (some dest) a)]) = leaveCount ops := by
    simp [leaveCount_append, leaveCount]
  have hd := h.depth
  have hb := h.bracketed.total
  refine ⟨?_, ?_, ?_, ?_, ?_, ?_, ?_⟩
  · rw [he, List.map_append, List.sum_append, hsum]
    simp [hn, Nat.add_assoc]
  · simp only [ho, h.stack]; rfl
  · simp only [innermostOffset, ho]; rfl
  · simp only [ho, List.map_cons, h.returns]
  · rw [ho, hl, enterCount, he, List.length_append, List.length_singleton, List.length_cons]
    rw [enterCount] at hd
    omega
  · refine h.bracketed.snoc ?_
    rw [hl, enterCount, he, List.length_append, List.length_singleton]
    rw [enterCount] at hb
    omega
  · rw [he]; exact h.offsets.snoc hsum

/-- A `Leave`: `leave` succeeds only inside an open call, and reverts to the
enclosing one. -/
theorem Scoped.leave (h : Scoped sir a0 ops r) (hr : r.leave = .ok r') :
    Scoped sir a0 (ops ++ [.statement .leave]) r' := by
  obtain ⟨v, vs, hv, rfl⟩ := VarRenamer.leave_eq_ok.mp hr
  obtain ⟨c, cs, hc⟩ : ∃ c cs, openCalls ops = c :: cs := by
    cases hoc : openCalls ops with
    | nil => rw [h.stack, hoc] at hv; cases hv
    | cons c cs => exact ⟨c, cs, rfl⟩
  have ho : openCalls (ops ++ [.statement .leave]) = cs := by rw [openCalls_append, hc]; rfl
  have he : enters (ops ++ [.statement .leave]) = enters ops := by
    rw [enters_append]; exact List.append_nil _
  have hl : leaveCount (ops ++ [.statement .leave]) = leaveCount ops + 1 := by
    simp [leaveCount_append, leaveCount]
  have hs : r.stack.tail = cs.map Prod.fst ++ [0] := by rw [h.stack, hc]; rfl
  have hd := h.depth
  rw [hc, List.length_cons] at hd
  refine ⟨he ▸ h.acc, ho ▸ hs, ?_, ?_, ?_, ?_, he ▸ h.offsets⟩
  · rw [hs] at hv
    rw [innermostOffset, ho]
    cases cs <;> cases hv <;> rfl
  · rw [ho, List.map_tail, h.returns, hc]; rfl
  · rw [ho, hl, enterCount, he, ← enterCount]; omega
  · refine h.bracketed.snoc ?_
    rw [hl, enterCount, he, ← enterCount]; omega

/-! ### One block, and the loop -/

/-- What the terminator adds keeps the renamer in step: an `Enter` at the offset
`enter` moves to, after the argument slots are registered. -/
theorem termOp_scoped {body : Body} {term : Terminator} {op? : Option TirOp}
    (h : Scoped sir a0 ops r) (ht : termOp sir body r term = .ok (op?, r')) :
    Scoped sir a0 (ops ++ op?.toList) r' := by
  rcases termOp_spec ht with ⟨op, _, _, _, retVal, _, r₂, -, hR, -, -, hcall⟩ | ⟨-, hl, rfl⟩ |
    ⟨-, -, rfl, rfl⟩
  · have h₂ := h.of_scopes hR.scopes
    rcases hcall with ⟨sym, callbody, r₃, hsym, hcb, h₃, h₄, rfl⟩ | ⟨-, -, -, rfl, rfl⟩
    · have hR₄ := (registerArgSlots_spec h₄).1
      rw [Option.toList_some, hR₄.offset]
      exact (h₂.enter h₃ (by simp [calleeCount, hsym, hcb])).of_scopes hR₄.scopes
    · exact h₂.append_neutral (List.forall_mem_singleton.mpr ⟨rfl, nofun⟩)
  · exact h.leave hl
  · simpa using h

theorem lowerBlock_scoped {body : Body} {bb : BasicBlockIndex} {next : Option SirLoc}
    {ops' : List TirOp} (h : Scoped sir a0 ops r)
    (hb : lowerBlock sir body bb next ops r = .ok (ops', r')) : Scoped sir a0 ops' r' := by
  obtain ⟨_, ops₁, r₁, op?, g?, -, hp, ht, -, rfl⟩ := lowerBlock_eq_ok.mp hb
  obtain ⟨new, rfl, hR, hnew⟩ := pushStmts_spec hp
  have h₁ := (h.append_neutral fun op hop => (hnew op hop).1).of_scopes hR.scopes
  exact (termOp_scoped h₁ ht).append_neutral (guards_neutral g?)

variable {st st' : LowerState}

theorem lowerLoc_scoped {loc : SirLoc} {next : Option SirLoc} (h : Scoped sir a0 st.ops st.rnm)
    (hl : lowerLoc sir st loc next = .ok st') : Scoped sir a0 st'.ops st'.rnm := by
  obtain ⟨body, -, hb, -⟩ := lowerLoc_eq_ok.mp hl
  have hinit : st.rnm.initAcc body.localDecls.length = st.rnm := by
    simp [VarRenamer.initAcc, h.acc]
  rw [hinit] at hb
  exact lowerBlock_scoped h hb

/-- The first location sets the accumulator to its body's local count. -/
theorem lowerLoc_init_scoped {loc : SirLoc} {next : Option SirLoc} {b0 : Body}
    (hl : lowerLoc sir LowerState.init loc next = .ok st') (hb0 : sir.bodies loc.symbolName = some b0) :
    Scoped sir (b0.localDecls.length % 4294967296) st'.ops st'.rnm := by
  obtain ⟨body, hbody, hb, -⟩ := lowerLoc_eq_ok.mp hl
  rw [hb0, Option.some.injEq] at hbody
  subst hbody
  exact lowerBlock_scoped (scoped_init _) hb

/-- **Every run of the loop keeps the renamer in step with its operations.** -/
theorem lowerLocs_scoped {locs after : List SirLoc} (h : Scoped sir a0 st.ops st.rnm)
    (hl : lowerLocs sir locs after st = .ok st') : Scoped sir a0 st'.ops st'.rnm :=
  lowerLocs_induction (fun _ st => Scoped sir a0 st.ops st.rnm)
    (fun _ _ _ _ h hl => lowerLoc_scoped h hl) h hl

/-! ### The trace -/

/-- **Inlined calls get consecutive offsets and are well bracketed.** In every
trace `TirTrace::new` returns whose first body has `n0` locals and whose
callees' local counts add up with `n0` to less than `2 ^ 32`: the `k`-th
`Enter` carries `n0` plus the local counts of the callees of the `Enter`s
before it; no prefix of the operations has more `Leave`s than `Enter`s; and at
the head of every turn of the loop the renamer's offset is the innermost open
call's (`0` outside every call) and its return places are the open calls'
destinations, innermost first. -/
theorem tirTrace_new_scopes {loc : SirLoc} {rest : List SirLoc} {b0 : Body} {t : TirTrace}
    (hb0 : sir.bodies loc.symbolName = some b0) (ht : TirTrace.new sir (loc :: rest) = .ok t)
    (hbound : b0.localDecls.length + ((enters t.ops).map fun e => calleeCount sir e.1).sum <
      4294967296) :
    RunningOffsets (calleeCount sir) b0.localDecls.length (enters t.ops) ∧ Bracketed t.ops ∧
      ∀ j, ∃ st, lowerLocs sir ((loc :: rest).take j) ((loc :: rest).drop j) LowerState.init =
        .ok st ∧ st.rnm.offset = innermostOffset st.ops ∧
        st.rnm.returns.map some = (openCalls st.ops).map Prod.snd := by
  obtain ⟨st, hst, htrim, -, -⟩ := tirTrace_new_eq_ok.mp ht
  rw [lowerLocs, List.append_nil] at hst
  obtain ⟨st₁, h₁, hrest⟩ := bind_eq_ok.mp hst
  have hs₁ := lowerLoc_init_scoped h₁ hb0
  have hs := lowerLocs_scoped hs₁ hrest
  obtain ⟨l, t₁, t₂, t₃, t₄, t₅, e, hops, -⟩ := trim_eq_ok.mp htrim
  rw [hops] at hs
  refine ⟨?_, hs.bracketed.of_cons_append ⟨rfl, nofun⟩, fun j => ?_⟩
  · have hoff : RunningOffsets (calleeCount sir · % 4294967296) (b0.localDecls.length % 4294967296)
        (enters t.ops) := by
      have h := hs.offsets
      rw [enters_append] at h
      exact h.of_append
    have hlt : ∀ e ∈ enters t.ops, calleeCount sir e.1 < 4294967296 := fun e he =>
      lt_of_le_of_lt (List.le_sum_of_mem (List.mem_map_of_mem (fun e => calleeCount sir e.1) he))
        (by omega)
    rw [Nat.mod_eq_of_lt (by omega)] at hoff
    exact hoff.congr fun e he => Nat.mod_eq_of_lt (hlt e he)
  · cases j with
    | zero => exact ⟨_, rfl, rfl, rfl⟩
    | succ j =>
      have hsplit := lowerLocs_append sir (rest.take j) (rest.drop j) [] st₁
      rw [List.take_append_drop, hrest] at hsplit
      obtain ⟨stj, hj, -⟩ := bind_eq_ok.mp hsplit.symm
      rw [List.append_nil] at hj
      have hsj := lowerLocs_scoped hs₁ hj
      refine ⟨stj, ?_, hsj.offset, hsj.returns⟩
      rw [List.take_succ_cons, List.drop_succ_cons, lowerLocs, List.take_append_drop, h₁]
      exact hj

/-- The sample trace: one `Enter`, at offset `8`, the local count of `main`. -/
theorem tirTrace_new_scopes_sample :
    ∃ t, TirTrace.new sampleSir sampleTrace = .ok t ∧
      8 + ((enters t.ops).map fun e => calleeCount sampleSir e.1).sum < 4294967296 ∧
      RunningOffsets (calleeCount sampleSir) 8 (enters t.ops) ∧ Bracketed t.ops ∧
      ∀ j, ∃ st, lowerLocs sampleSir (sampleTrace.take j) (sampleTrace.drop j) LowerState.init =
        .ok st ∧ st.rnm.offset = innermostOffset st.ops ∧
        st.rnm.returns.map some = (openCalls st.ops).map Prod.snd := by
  obtain ⟨t, ht⟩ : ∃ t, TirTrace.new sampleSir sampleTrace = .ok t := ⟨_, rfl⟩
  have hops : t.ops =
      [.statement (.enter (.fn "callee") [] (some (.ofLocal ⟨2⟩)) 8),
       .guard ⟨.ofLocal ⟨1⟩, .integer 0⟩,
       .statement (.assign (.ofLocal ⟨2⟩) (.use (.place (.ofLocal ⟨9⟩)))),
       .statement .leave] :=
    Except.ok.inj ((congrArg (Except.map TirTrace.ops) ht).symm.trans rfl)
  have hbound : 8 + ((enters t.ops).map fun e => calleeCount sampleSir e.1).sum < 4294967296 := by
    rw [hops]; decide
  obtain ⟨b0, hb0, h8⟩ : ∃ b0, sampleSir.bodies (SirLoc.symbolName ⟨"main", 0⟩) = some b0 ∧
      b0.localDecls.length = 8 := ⟨_, rfl, rfl⟩
  have h := tirTrace_new_scopes hb0 ht (by rw [h8]; exact hbound)
  rw [h8] at h
  exact ⟨t, ht, hbound, h⟩

end Trace
end Yk
