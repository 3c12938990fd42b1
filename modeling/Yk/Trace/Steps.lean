/-
# What one step of the lowering does

Each function the loop of `TirTrace::new` runs gets one lemma saying all it can
do, in terms of what renaming does (`VarRenamer.Renames`, `VarRenamer.Gives`):
a renamed statement (`renameStmt_spec`) and the statements of a block
(`pushStmts_spec`) open and close no call and name only what renaming in the
block hands out; registering an inlined callee's argument slots records the
callee's declarations (`registerArgSlots_spec`); a terminator adds an `Enter`, a
native `Call`, a `Leave` or nothing (`termOp_spec`); and a block is these in
order, then its guard (`lowerBlock_eq_ok`). Whatever one location keeps, a run
of the loop keeps (`lowerLocs_induction`).

The invariants of the lowering (`Scoped`, `Confined`, `Declared`) are derived
from these lemmas alone, and none of them unfolds the lowering again.

Key definitions: `TirOp.enterOf`, `TirOp.Neutral`.
-/
import Yk.Trace.Renaming

namespace Yk
namespace Trace

open Pack VarRenamer

/-! ### Operations that open or close a call -/

/-- The callee of an `Enter` and the offset it carries. -/
def TirOp.enterOf : TirOp → Option (CallOperand × Nat)
  | .statement (.enter op _ _ off) => some (op, off)
  | _ => none

/-- An operation that neither opens nor closes a call. -/
def TirOp.Neutral (op : TirOp) : Prop := op.enterOf = none ∧ op ≠ .statement .leave

/-- A block's guard opens and closes no call. -/
theorem guards_neutral (g? : Option Guard) : ∀ op ∈ (g?.map TirOp.guard).toList, op.Neutral := by
  cases g? <;> simp [TirOp.Neutral, TirOp.enterOf]

variable {sir : Sir} {b : Body} {r r' : VarRenamer}

/-! ### Statements -/

/-- A renamed statement opens and closes no call, and names only what renaming
in the block hands out. -/
theorem renameStmt_spec {s s' : Statement} (h : renameStmt r b s = .ok (s', r')) :
    Renames b r r' ∧ (∀ x ∈ (TirOp.statement s').locals, Gives b r r' x) ∧
      (TirOp.statement s').Neutral := by
  cases s with
  | storageLive l | storageDead l =>
    obtain ⟨⟨l', r₁⟩, h₁, h⟩ := bind_eq_ok.mp h
    cases h
    obtain ⟨hr, hx⟩ := renameLocal_spec h₁
    exact ⟨hr, by simpa [TirOp.locals] using Or.inl hx, rfl, nofun⟩
  | assign p rv =>
    obtain ⟨⟨p', r₁⟩, h₁, h⟩ := bind_eq_ok.mp h
    obtain ⟨⟨rv', r₂⟩, h₂, h⟩ := bind_eq_ok.mp h
    cases h
    obtain ⟨hr₁, hx₁⟩ := renamePlace_spec h₁
    obtain ⟨hr₂, hx₂⟩ := renameRvalue_spec h₂
    have h' : Renames b r r' ∧ ∀ x ∈ [p'.local] ++ Rvalue.locals rv', Gives b r r' x :=
      hr₁.append (by simpa using hx₁) hr₂ hx₂
    exact ⟨h'.1, h'.2, rfl, nofun⟩
  | nop | unimplemented _ =>
    cases h
    exact ⟨.refl b r, by simp [TirOp.locals], rfl, nofun⟩
  | enter _ _ _ _ | leave | call _ _ _ => cases h

/-- The statements of a block, pushed after `ops`: each opens and closes no
call and names only what renaming in the block hands out. -/
theorem pushStmts_spec {ss : List Statement} {ops ops' : List TirOp}
    (h : pushStmts b ss ops r = .ok (ops', r')) :
    ∃ new, ops' = ops ++ new ∧ Renames b r r' ∧ ∀ op ∈ new,
      op.Neutral ∧ ∀ s, op = .statement s → ∀ x ∈ op.locals, Gives b r r' x := by
  induction ss generalizing ops r with
  | nil =>
    cases h
    exact ⟨[], (List.append_nil _).symm, .refl _ _, fun _ h => absurd h (List.not_mem_nil _)⟩
  | cons s ss ih =>
    obtain ⟨⟨s', r₁⟩, h₁, h⟩ := bind_eq_ok.mp h
    obtain ⟨hr₁, hx₁, hn₁⟩ := renameStmt_spec h₁
    obtain ⟨new, rfl, hr, hnew⟩ := ih h
    refine ⟨.statement s' :: new, by simp, hr₁.trans hr, fun op hop => ?_⟩
    rcases List.mem_cons.mp hop with rfl | hop
    · exact ⟨hn₁, fun _ _ x hx => (hx₁ x hx).mono hr₁ hr⟩
    · exact ⟨(hnew op hop).1, fun s hs x hx => ((hnew op hop).2 s hs x hx).of_renames hr₁⟩

/-! ### Terminators and blocks -/

/-- Registering an inlined callee's argument slots records the callee's
declarations of its locals `lidxs` under `offset + lidx`. -/
theorem registerArgSlots_spec {callbody : Body} {lidxs : List Nat}
    (h : registerArgSlots callbody r lidxs = .ok r') :
    Renames callbody r r' ∧
      ∀ lidx ∈ lidxs, RenamesLocal callbody r.offset r' ⟨r.offset + lidx⟩ := by
  induction lidxs generalizing r with
  | nil =>
    cases h
    exact ⟨.refl _ _, nofun⟩
  | cons lidx rest ih =>
    obtain ⟨d, hd, h⟩ := bind_eq_ok.mp h
    obtain ⟨m, hm, h⟩ := bind_eq_ok.mp h
    obtain ⟨l, hl, h⟩ := bind_eq_ok.mp h
    rw [(toU32_eq_ok hm).2] at hl
    obtain ⟨hlt, rfl⟩ := addU32_eq_ok.mp hl
    obtain ⟨hr₁, hx₁⟩ := usedDecl_renames r ⟨r.offset + lidx⟩ (index_eq_ok.mp hd) rfl hlt
    obtain ⟨hr', hx'⟩ := ih h
    refine ⟨hr₁.trans hr', fun i hi => ?_⟩
    rcases List.mem_cons.mp hi with rfl | hi
    · exact hx₁.mono hr' hr₁.offset
    · exact hr₁.offset ▸ hx' i hi

/-- **What a terminator adds.** A call renames its destination and then its
arguments; a callee with SIR is entered, its argument slots registered, and
becomes an `Enter` at the new offset, one without SIR a native `Call`. A
return leaves the innermost call. Any other terminator adds nothing. -/
theorem termOp_spec {term : Terminator} {op? : Option TirOp}
    (ht : termOp sir b r term = .ok (op?, r')) :
    (∃ op args p bb retVal newargs r₂, term = .call op args (some (p, bb)) ∧
      Renames b r r₂ ∧ Gives b r r₂ retVal.local ∧
      (∀ x ∈ newargs.flatMap Operand.locals, Gives b r r₂ x) ∧
      ((∃ sym callbody r₃, op.symbol = some sym ∧ sir.bodies sym = some callbody ∧
          r₂.enter callbody.localDecls.length retVal = .ok r₃ ∧
          registerArgSlots callbody r₃ ((List.range newargs.length).map (· + 1)) = .ok r' ∧
          op? = some (.statement (.enter op newargs (some retVal) r'.offset))) ∨
        (∃ sym, op.symbol = some sym ∧ sir.bodies sym = none ∧ r' = r₂ ∧
          op? = some (.statement (.call op newargs (some retVal)))))) ∨
    (term = .return ∧ r.leave = .ok r' ∧ op? = some (.statement .leave)) ∨
    ((∀ op args dest, term ≠ .call op args dest) ∧ term ≠ .return ∧ op? = none ∧ r' = r) := by
  cases term with
  | call op args dest =>
    rcases dest with _ | ⟨p, bb⟩
    · simp [termOp, bind_eq_ok] at ht
    rw [termOp.eq_1] at ht
    obtain ⟨⟨retVal, r₁⟩, h₁, ht⟩ := bind_eq_ok.mp ht
    obtain ⟨hR₁, hx₁⟩ := renamePlace_spec h₁
    dsimp only at ht
    split at ht
    · rename_i sym hsym
      obtain ⟨⟨newargs, r₂⟩, h₂, ht⟩ := bind_eq_ok.mp ht
      obtain ⟨hR₂, hx₂⟩ := renameArgs_spec h₂
      refine .inl ⟨op, args, p, bb, retVal, newargs, r₂, rfl, hR₁.trans hR₂, hx₁.mono hR₁ hR₂,
        fun x hx => (hx₂ x hx).of_renames hR₁, ?_⟩
      dsimp only at ht
      split at ht
      · rename_i callbody hcb
        obtain ⟨r₃, h₃, ht⟩ := bind_eq_ok.mp ht
        obtain ⟨r₄, h₄, ht⟩ := bind_eq_ok.mp ht
        cases ht
        exact .inl ⟨sym, callbody, r₃, hsym, hcb, h₃, h₄, rfl⟩
      · rename_i hcb
        cases ht
        exact .inr ⟨sym, hsym, hcb, rfl, rfl⟩
    · cases ht
  | «return» =>
    simp only [termOp] at ht
    obtain ⟨r₁, h₁, ht⟩ := bind_eq_ok.mp ht
    cases ht
    exact .inr (.inl ⟨rfl, h₁, rfl⟩)
  | goto | switchInt _ _ _ _ | unreachable | drop | dropAndReplace | assert _ _ | unimplemented =>
    cases ht
    exact .inr (.inr ⟨nofun, nofun, rfl, rfl⟩)

/-- A block: its statements, what its terminator adds, then its guard. -/
theorem lowerBlock_eq_ok {bb : BasicBlockIndex} {next : Option SirLoc} {ops ops' : List TirOp} :
    lowerBlock sir b bb next ops r = .ok (ops', r') ↔
      ∃ block ops₁ r₁ op? g?, b.blocks[bb]? = some block ∧
        pushStmts b block.stmts ops r = .ok (ops₁, r₁) ∧
        termOp sir b r₁ block.term = .ok (op?, r') ∧ termGuard block.term next = .ok g? ∧
        ops' = ops₁ ++ op?.toList ++ (g?.map TirOp.guard).toList := by
  simp only [lowerBlock, bind_eq_ok, index_eq_ok, pure_eq_ok, Prod.exists, Prod.mk.injEq]
  constructor
  · rintro ⟨block, hb, ops₁, r₁, h₁, op?, r₂, h₂, g?, hg, rfl, rfl⟩
    exact ⟨block, ops₁, r₁, op?, g?, hb, h₁, h₂, hg, rfl⟩
  · rintro ⟨block, ops₁, r₁, op?, g?, hb, h₁, h₂, hg, rfl⟩
    exact ⟨block, hb, ops₁, r₁, h₁, op?, r', h₂, g?, hg, rfl, rfl⟩

/-! ### The loop -/

/-- **Induction along the loop.** What every location keeps, with the
locations still to lower, a run of the loop keeps. -/
theorem lowerLocs_induction (P : List SirLoc → LowerState → Prop) {locs after : List SirLoc}
    {st st' : LowerState}
    (hstep : ∀ loc rest st st', P (loc :: rest) st →
      lowerLoc sir st loc (rest ++ after).head? = .ok st' → P rest st')
    (h : P locs st) (hl : lowerLocs sir locs after st = .ok st') : P [] st' := by
  induction locs generalizing st with
  | nil =>
    cases hl
    exact h
  | cons loc rest ih =>
    rw [lowerLocs] at hl
    obtain ⟨st₁, h₁, hl⟩ := bind_eq_ok.mp hl
    exact ih (hstep loc rest st st₁ h h₁) hl

end Trace
end Yk
