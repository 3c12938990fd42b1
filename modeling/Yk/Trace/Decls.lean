/-
# Every local a trace's statement refers to has a declaration

`types.rs` tells a consumer of TIR which locals a statement may define
(`maybe_defined_locals`: an assignment's place, a call's destination, and the
argument slots `start_idx + 1 ..` an `Enter` fills) and which it uses
(`used_locals`); `referenced_locals` is both. The code generator looks each of
them up in the trace's `local_decls`.

The renamer records a declaration for every local it renames and every argument
slot it registers, under a name that fits a `u32`, and each open call's
destination has one (`VarRenamer.Ready`). Every step of the lowering keeps that,
and keeps every statement's locals declared (`Declared`, `lowerLocs_declared`).
So in every trace `TirTrace::new` returns, `referenced_locals` of a statement
cannot overflow and names only declared locals
(`tirTrace_new_referenced_declared`). A guard's place is no statement's, and may
have no declaration (`tirTrace_localDecls_mismatch`).

When every location runs in the function its calls and returns have entered,
every declaration the renamer records is an activation's, for the local renamed
to its name (`Confined.decls`). As activations do not overlap, a local a
statement names gets the declaration of its local in the one activation holding
it (`tirTrace_new_localDecls_faithful`).

`StorageLive`, which this `types.rs` lacks, defines and uses nothing, as
`StorageDead`.

Key definitions: `Statement.maybeDefinedLocals`, `Statement.usedLocals`,
`Statement.referencedLocals`, `VarRenamer.Ready`, `Declared`, `activationBodies`.
-/
import Yk.Trace.Capture

namespace Yk
namespace Pack

/-! ### `maybe_defined_locals`, `used_locals`, `referenced_locals` -/

def Place.pushMaybeDefinedLocals (p : Place) (locals : List Local) : List Local :=
  locals ++ [p.local]

def Place.pushUsedLocals (p : Place) (locals : List Local) : List Local :=
  locals ++ [p.local]

def Operand.pushUsedLocals : Operand → List Local → List Local
  | .place plc, locals => plc.pushUsedLocals locals
  | .constant _, locals => locals

def Rvalue.pushUsedLocals : Rvalue → List Local → List Local
  | .use opnd, locals => opnd.pushUsedLocals locals
  | .binaryOp _ opnd1 opnd2, locals => opnd2.pushUsedLocals (opnd1.pushUsedLocals locals)
  | .checkedBinaryOp _ opnd1 opnd2, locals => opnd2.pushUsedLocals (opnd1.pushUsedLocals locals)
  | .ref plc, locals => plc.pushUsedLocals locals
  | .unimplemented _, locals => locals

/-- The loop of `maybe_defined_locals` over an `Enter`'s arguments: it pushes
`start_idx + u32::try_from(idx).unwrap() + 1` for each `idx`. -/
def enterDefinedLocals (startIdx : Nat) : List Nat → List Local → Except Panic (List Local)
  | [], ret => pure ret
  | idx :: rest, ret => do
    let l ← addU32 (← addU32 startIdx (← toU32 idx)) 1
    enterDefinedLocals startIdx rest (ret ++ [⟨l⟩])

/-- `maybe_defined_locals`: an `Enter` defines its argument slots, not its
destination, which an inlined assignment defines. -/
def Statement.maybeDefinedLocals : Statement → Except Panic (List Local)
  | .nop => pure []
  | .assign place _ => pure (place.pushMaybeDefinedLocals [])
  | .enter _ args _ startIdx => enterDefinedLocals startIdx (List.range args.length) []
  | .leave => pure []
  | .storageLive _ => pure []
  | .storageDead _ => pure []
  | .call _ _ dest =>
    match dest with
    | some dest => pure (dest.pushMaybeDefinedLocals [])
    | none => pure []
  | .unimplemented _ => pure []

/-- `used_locals`: an `Enter` uses no argument, the inlined statements do. -/
def Statement.usedLocals : Statement → List Local
  | .nop => []
  | .assign place rval => place.pushUsedLocals (rval.pushUsedLocals [])
  | .enter .. => []
  | .leave => []
  | .storageLive _ => []
  | .storageDead _ => []
  | .call _ args _ => args.foldl (fun ret a => a.pushUsedLocals ret) []
  | .unimplemented _ => []

def Statement.referencedLocals (s : Statement) : Except Panic (List Local) := do
  let ret ← s.maybeDefinedLocals
  pure (ret ++ s.usedLocals)

end Pack

namespace Trace

open Pack

/-! ### The referenced locals are the statement's locals -/

theorem Operand.pushUsedLocals_eq (o : Operand) (ls : List Local) :
    o.pushUsedLocals ls = ls ++ Operand.locals o := by
  cases o <;> simp [Pack.Operand.pushUsedLocals, Operand.locals, Place.pushUsedLocals]

theorem Rvalue.pushUsedLocals_eq (rv : Rvalue) (ls : List Local) :
    rv.pushUsedLocals ls = ls ++ Rvalue.locals rv := by
  cases rv <;> simp [Pack.Rvalue.pushUsedLocals, Rvalue.locals, Operand.pushUsedLocals_eq,
    Place.pushUsedLocals]

theorem foldl_pushUsedLocals (args : List Operand) (ls : List Local) :
    args.foldl (fun ret a => a.pushUsedLocals ret) ls = ls ++ args.flatMap Operand.locals := by
  induction args generalizing ls with
  | nil => simp
  | cons a args ih =>
    rw [List.foldl_cons, ih, Operand.pushUsedLocals_eq, List.flatMap_cons, List.append_assoc]

theorem enterDefinedLocals_eq {startIdx : Nat} {idxs : List Nat} (ret : List Local)
    (h : ∀ idx ∈ idxs, startIdx + idx + 1 < 4294967296) :
    enterDefinedLocals startIdx idxs ret = .ok (ret ++ idxs.map fun idx => ⟨startIdx + idx + 1⟩) := by
  induction idxs generalizing ret with
  | nil => simp [enterDefinedLocals, pure, Except.pure]
  | cons idx rest ih =>
    have hi := h idx (List.mem_cons_self _ _)
    simp only [enterDefinedLocals, toU32, addU32, if_pos (show idx < 4294967296 by omega),
      if_pos (show startIdx + idx < 4294967296 by omega), if_pos hi, pure_bind]
    rw [ih _ fun i hi => h i (List.mem_cons_of_mem _ hi)]
    simp

/-- **The code's referenced locals are the statement's own.** When every
local of a statement fits a `u32`, `referenced_locals` does not
overflow, and it names only locals the statement refers to. -/
theorem referencedLocals_spec {s : Statement}
    (h : ∀ x ∈ (TirOp.statement s).locals, x.idx < 4294967296) :
    ∃ ls, s.referencedLocals = .ok ls ∧ ∀ l ∈ ls, l ∈ (TirOp.statement s).locals := by
  cases s with
  | assign p rv =>
    refine ⟨_, rfl, fun l hl => ?_⟩
    simp only [Statement.usedLocals, Statement.maybeDefinedLocals, Place.pushMaybeDefinedLocals,
      Place.pushUsedLocals, Rvalue.pushUsedLocals_eq, List.mem_append, List.mem_singleton,
      List.not_mem_nil, false_or] at hl
    simp only [TirOp.locals, List.mem_cons]
    rcases hl with hl | hl | hl
    exacts [.inl hl, .inr hl, .inl hl]
  | enter op args dest off =>
    have hslots : ∀ i ∈ List.range args.length, off + i + 1 < 4294967296 := fun i hi =>
      h _ (List.mem_append_right _ (List.mem_map_of_mem (fun i : Nat => (⟨off + i + 1⟩ : Local)) hi))
    refine ⟨_, by simp only [Statement.referencedLocals, Statement.maybeDefinedLocals,
      enterDefinedLocals_eq _ hslots]; rfl, fun l hl => ?_⟩
    simp only [Statement.usedLocals, List.append_nil, List.nil_append] at hl
    simp only [TirOp.locals, List.mem_append]
    exact .inr hl
  | call op args dest =>
    cases dest <;> refine ⟨_, rfl, fun l hl => ?_⟩ <;>
      simp_all [Statement.usedLocals, Statement.maybeDefinedLocals, foldl_pushUsedLocals,
        Place.pushMaybeDefinedLocals, TirOp.locals, or_comm]
  | nop | leave | storageLive _ | storageDead _ | unimplemented _ =>
    exact ⟨[], rfl, nofun⟩

/-! ### The renamer declares what it hands out -/

namespace VarRenamer

/-- `l` has a recorded declaration. -/
def Declares (r : VarRenamer) (l : Local) : Prop := (r.usedDecls l).isSome

/-- What the renamer keeps of its declarations: every name it recorded one
under fits a `u32`, and every open call's destination has one. -/
structure Ready (r : VarRenamer) : Prop where
  bounded : ∀ l, r.Declares l → l.idx < 4294967296
  returns : ∀ p ∈ r.returns, r.Declares p.local

/-- `r'` keeps every declaration of `r`. -/
def Grows (r r' : VarRenamer) : Prop := ∀ l, r.Declares l → r'.Declares l

theorem Grows.trans {r₁ r₂ r₃ : VarRenamer} (h₁ : Grows r₁ r₂) (h₂ : Grows r₂ r₃) :
    Grows r₁ r₃ :=
  fun l hl => h₂ l (h₁ l hl)

variable {r r' : VarRenamer} {b : Body} {x : Local}

theorem RenamesLocal.declares {off : Nat} (hx : RenamesLocal b off r' x) : r'.Declares x := by
  obtain ⟨l, hl, -, -, hd⟩ := hx
  simp [Declares, hd, hl]

theorem Renames.grows (h : Renames b r r') : Grows r r' := fun x hx =>
  (h.decls x).elim (fun e => by rw [Declares, e]; exact hx) RenamesLocal.declares

/-- Renaming keeps the renamer ready: what it records is under a renamed name. -/
theorem Renames.ready (h : Renames b r r') (hr : r.Ready) : r'.Ready := by
  refine ⟨fun x hx => ?_, fun p hp => h.grows _ (hr.returns p (h.returns ▸ hp))⟩
  rcases h.decls x with e | ⟨l, -, -, hlt, -⟩
  · exact hr.bounded x (by rw [Declares, ← e]; exact hx)
  · exact hlt

/-- What renaming hands out is declared: a renamed local, or the innermost
destination. -/
theorem Gives.declares (hx : Gives b r r' x) (hr : r.Ready) (h : Renames b r r') :
    r'.Declares x := by
  rcases hx with hx | ⟨p, hp, rfl⟩
  · exact hx.declares
  · exact h.grows _ (hr.returns p (List.mem_of_mem_head? hp))

theorem Ready.initAcc (h : r.Ready) (n : Nat) : (r.initAcc n).Ready ∧ Grows r (r.initAcc n) := by
  unfold VarRenamer.initAcc
  split
  · exact ⟨⟨h.bounded, h.returns⟩, fun _ h => h⟩
  · exact ⟨h, fun _ h => h⟩

/-- `enter` pushes a declared destination. -/
theorem Ready.enter {n : Nat} {dest : Place} (h : r.Ready) (hd : r.Declares dest.local)
    (he : r.enter n dest = .ok r') : r'.Ready ∧ Grows r r' := by
  obtain ⟨a, -, -, rfl⟩ := enter_eq_ok.mp he
  exact ⟨⟨h.bounded, fun p hp => (List.mem_cons.mp hp).elim (fun e => e ▸ hd) (h.returns p)⟩,
    fun _ h => h⟩

theorem Ready.leave (h : r.Ready) (hl : r.leave = .ok r') : r'.Ready ∧ Grows r r' := by
  obtain ⟨v, vs, -, rfl⟩ := leave_eq_ok.mp hl
  exact ⟨⟨h.bounded, fun p hp => h.returns p (List.mem_of_mem_tail hp)⟩, fun _ h => h⟩

end VarRenamer

open VarRenamer

variable {sir : Sir} {r r' : VarRenamer} {b : Body}

/-! ### The lowering keeps every statement's locals declared -/

/-- The lowering after `ops`: the renamer is ready, and every local of every
statement so far has a declaration. -/
structure Declared (ops : List TirOp) (r : VarRenamer) : Prop where
  ready : r.Ready
  stmts : ∀ op ∈ ops, ∀ s, op = .statement s → ∀ x ∈ op.locals, r.Declares x

variable {ops : List TirOp}

theorem Declared.grow (h : Declared ops r) (hr : r'.Ready) (hg : Grows r r') : Declared ops r' :=
  ⟨hr, fun op hop s hs x hx => hg x (h.stmts op hop s hs x hx)⟩

theorem Declared.append {new : List TirOp} (h : Declared ops r)
    (hnew : ∀ op ∈ new, ∀ s, op = .statement s → ∀ x ∈ op.locals, r.Declares x) :
    Declared (ops ++ new) r :=
  ⟨h.ready, fun op hop => (List.mem_append.mp hop).elim (h.stmts op) (hnew op)⟩

theorem Declared.snoc {s : Statement} (h : Declared ops r)
    (hs : ∀ x ∈ (TirOp.statement s).locals, r.Declares x) : Declared (ops ++ [.statement s]) r :=
  h.append fun op hop _ _ => by
    obtain rfl := List.mem_singleton.mp hop
    exact hs

/-- An `Enter` names its renamed arguments and destination, declared while
its caller's block was renamed, and its argument slots, declared as the callee
is entered. -/
theorem termOp_declared {term : Terminator} {op? : Option TirOp} (h : Declared ops r)
    (ht : termOp sir b r term = .ok (op?, r')) : Declared (ops ++ op?.toList) r' := by
  rcases termOp_spec ht with ⟨_, _, _, _, retVal, newargs, r₂, -, hR, hret, hargs, hcall⟩ |
    ⟨-, hl, rfl⟩ | ⟨-, -, rfl, rfl⟩
  · have hr₂ := hR.ready h.ready
    have hret₂ := hret.declares h.ready hR
    have hargs₂ := fun x hx => (hargs x hx).declares h.ready hR
    rcases hcall with ⟨_, callbody, r₃, -, -, h₃, h₄, rfl⟩ | ⟨_, -, -, rfl, rfl⟩
    · obtain ⟨hR₄, hslots⟩ := registerArgSlots_spec h₄
      obtain ⟨hr₃, hg₃⟩ := hr₂.enter hret₂ h₃
      have hg := hg₃.trans hR₄.grows
      refine (h.grow (hR₄.ready hr₃) (hR.grows.trans hg)).snoc <| List.forall_mem_append.mpr
        ⟨List.forall_mem_append.mpr ⟨fun x hx => hg x (hargs₂ x hx),
          List.forall_mem_singleton.mpr (hg _ hret₂)⟩, fun x hx => ?_⟩
      obtain ⟨i, hi, rfl⟩ := List.mem_map.mp hx
      rw [hR₄.offset]
      exact (hslots (i + 1) (List.mem_map_of_mem _ hi)).declares
    · exact (h.grow hr₂ hR.grows).snoc
        (List.forall_mem_append.mpr ⟨hargs₂, List.forall_mem_singleton.mpr hret₂⟩)
  · obtain ⟨hr₁, hg₁⟩ := h.ready.leave hl
    exact (h.grow hr₁ hg₁).snoc (by simp [TirOp.locals])
  · simpa using h

theorem lowerBlock_declared {bb : BasicBlockIndex} {next : Option SirLoc} {ops' : List TirOp}
    (h : Declared ops r) (hb : lowerBlock sir b bb next ops r = .ok (ops', r')) :
    Declared ops' r' := by
  obtain ⟨_, ops₁, r₁, op?, g?, -, hp, ht, -, rfl⟩ := lowerBlock_eq_ok.mp hb
  obtain ⟨new, rfl, hR, hnew⟩ := pushStmts_spec hp
  have h₁ := (h.grow (hR.ready h.ready) hR.grows).append fun op hop s hs x hx =>
    ((hnew op hop).2 s hs x hx).declares h.ready hR
  refine (termOp_declared h₁ ht).append ?_
  cases g? <;> simp

variable {st st' : LowerState}

theorem lowerLoc_declared {loc : SirLoc} {next : Option SirLoc} (h : Declared st.ops st.rnm)
    (hl : lowerLoc sir st loc next = .ok st') : Declared st'.ops st'.rnm := by
  obtain ⟨body, -, hb, -⟩ := lowerLoc_eq_ok.mp hl
  obtain ⟨hr, hg⟩ := h.ready.initAcc body.localDecls.length
  exact lowerBlock_declared (h.grow hr hg) hb

/-- Every run of the loop keeps every statement's locals declared. -/
theorem lowerLocs_declared {locs after : List SirLoc} (h : Declared st.ops st.rnm)
    (hl : lowerLocs sir locs after st = .ok st') : Declared st'.ops st'.rnm :=
  lowerLocs_induction (fun _ st => Declared st.ops st.rnm)
    (fun _ _ _ _ h hl => lowerLoc_declared h hl) h hl

theorem declared_init : Declared LowerState.init.ops LowerState.init.rnm :=
  ⟨⟨fun _ h => (nomatch h), fun _ h => (nomatch h)⟩, fun _ h => (nomatch h)⟩

/-! ### The trace -/

/-- **Every local a trace's statement refers to has a declaration.** In every
trace `TirTrace::new` returns, `referenced_locals` of each statement succeeds
(no `u32` overflow) and every local it lists has a declaration in the trace's
`local_decls`. -/
theorem tirTrace_new_referenced_declared {trace : List SirLoc} {t : TirTrace}
    (ht : TirTrace.new sir trace = .ok t) :
    ∀ op ∈ t.ops, ∀ s, op = .statement s →
      ∃ ls, s.referencedLocals = .ok ls ∧ ∀ l ∈ ls, (t.localDecls l).isSome := by
  obtain ⟨st, hst, htrim, -, hdecls⟩ := tirTrace_new_eq_ok.mp ht
  obtain ⟨l, t₁, t₂, t₃, t₄, t₅, e, hops, -⟩ := trim_eq_ok.mp htrim
  have hd := lowerLocs_declared declared_init hst
  intro op hop s hs
  have hloc := hd.stmts op (by rw [hops]; exact List.mem_cons_of_mem _ (List.mem_append_left _ hop))
    s hs
  subst hs
  obtain ⟨ls, hls, hsub⟩ := referencedLocals_spec fun x hx => hd.ready.bounded x (hloc x hx)
  refine ⟨ls, hls, fun l hl => ?_⟩
  rw [hdecls]
  exact hloc l (hsub l hl)

/-- The sample trace: its `Enter` and its assignment `$2 = $9`. -/
theorem tirTrace_new_referenced_declared_sample :
    ∃ t, TirTrace.new sampleSir sampleTrace = .ok t ∧
      ∀ op ∈ t.ops, ∀ s, op = .statement s →
        ∃ ls, s.referencedLocals = .ok ls ∧ ∀ l ∈ ls, (t.localDecls l).isSome :=
  let ⟨t, ht⟩ : ∃ t, TirTrace.new sampleSir sampleTrace = .ok t := ⟨_, rfl⟩
  ⟨t, ht, tirTrace_new_referenced_declared ht⟩

/-- **Every local a trace's statement names has the declaration of its local in
the one activation holding it.** In every trace `TirTrace::new` returns whose
locations each run in the function its calls and returns have entered, and whose
bodies have fewer than `2 ^ 32` locals each, every local `x` a statement names
lies in the range of exactly one activation `(off, body)`, the trace's own body
or an inlined callee's, and the trace's `local_decls` give `x` the declaration
`body` gives its local `x - off`. -/
theorem tirTrace_new_localDecls_faithful {loc : SirLoc} {rest : List SirLoc} {b0 : Body}
    {t : TirTrace} (hb0 : sir.bodies loc.symbolName = some b0)
    (hsmall : ∀ sym b, sir.bodies sym = some b → b.localDecls.length < 4294967296)
    (hcons : callConsistent sir [loc.symbolName] (loc :: rest) = true)
    (ht : TirTrace.new sir (loc :: rest) = .ok t) :
    ∀ op ∈ t.ops, ∀ s, op = .statement s → ∀ x ∈ op.locals,
      ∃ a ∈ activationBodies sir b0 t.ops,
        (∃ l < a.2.localDecls.length, x.idx = a.1 + l ∧ t.localDecls x = a.2.localDecls[l]?) ∧
        ∀ c ∈ activationBodies sir b0 t.ops, c.1 ≤ x.idx → x.idx < c.1 + c.2.localDecls.length →
          c = a := by
  obtain ⟨st, hst, htrim, -, hdecls⟩ := tirTrace_new_eq_ok.mp ht
  obtain ⟨l, t₁, t₂, t₃, t₄, t₅, e, hops, -⟩ := trim_eq_ok.mp htrim
  have hinit : Confined sir b0 [loc.symbolName] LowerState.init.ops LowerState.init.rnm :=
    confined_init hb0
  obtain ⟨_, hconf⟩ := lowerLocs_confined hinit hcons hst
  have hdecl := lowerLocs_declared declared_init hst
  -- the activations of the loop's operations: the trace's, then those `trim` drops
  have hsplit : ∀ {α : Type} (f : List TirOp → List α),
      (∀ more, f (.statement (.storageDead l) :: more) = f more) →
        f st.ops = f (t.ops ++ [t₁, t₂, t₃, t₄, t₅, e]) :=
    fun f hf => by rw [hops, List.cons_append, hf]
  have hact := lowerLocs_activations_pairwise hb0 hsmall hst
  rw [hsplit (activations sir b0.localDecls.length) fun _ => rfl, activations_append,
    List.pairwise_append] at hact
  intro op hop s hs x hx
  subst hs
  obtain ⟨i, hi⟩ := List.mem_iff_getElem?.mp hop
  -- `x` lies in a range open before the statement or once it has run
  have hin := hconf.stmts
  rw [hops] at hin
  have htake : t.ops.take (i + 1) = t.ops.take i ++ [.statement s] := by
    rw [List.take_succ, hi]; rfl
  obtain ⟨a, ha', hxa⟩ : ∃ a ∈ activations sir b0.localDecls.length t.ops,
      a.1 ≤ x.idx ∧ x.idx < a.1 + a.2 := by
    rcases (hin.of_cons_append ⟨rfl, nofun⟩ i _ hi).inRanges hx with ⟨a, ha, hxa⟩ | ⟨a, ha, hxa⟩
    · exact ⟨a, openRanges_take_mem i ha, hxa⟩
    · exact ⟨a, openRanges_take_mem (i + 1) (htake ▸ ha), hxa⟩
  -- its declaration is an activation's
  obtain ⟨d, hd⟩ := Option.isSome_iff_exists.mp <| hdecl.stmts _
    (by rw [hops]; exact List.mem_cons_of_mem _ (List.mem_append_left _ hop)) s rfl x hx
  obtain ⟨c, hc, l', hl', hxl, -, hcl⟩ := hconf.decls x d hd
  rw [hsplit (activationBodies sir b0) fun _ => rfl, activationBodies_append] at hc
  have hc' : c ∈ activationBodies sir b0 t.ops := by
    refine (List.mem_append.mp hc).resolve_right fun hc => ?_
    have hce := (enterBodies_sublist _).subset
      (List.mem_map_of_mem (fun c => (c.1, c.2.localDecls.length)) hc)
    have := hact.2.2 a ha' _ hce
    dsimp only at this
    omega
  refine ⟨c, hc', ⟨l', hl', hxl, by rw [hdecls]; exact hcl⟩, fun c' hc'' hx1 hx2 => ?_⟩
  exact eq_of_mem_of_pairwise (activationBodies_pairwise hact.1) hc'' hc' ⟨hx1, hx2⟩
    ⟨by omega, by omega⟩

/-- The sample trace: `$2` is `main`'s `_2`, and `$9` the callee's `_1`. -/
theorem tirTrace_new_localDecls_faithful_sample :
    ∃ b0 t, sampleSir.bodies "main" = some b0 ∧ TirTrace.new sampleSir sampleTrace = .ok t ∧
      ∀ op ∈ t.ops, ∀ s, op = .statement s → ∀ x ∈ op.locals,
        ∃ a ∈ activationBodies sampleSir b0 t.ops,
          (∃ l < a.2.localDecls.length, x.idx = a.1 + l ∧ t.localDecls x = a.2.localDecls[l]?) ∧
          ∀ c ∈ activationBodies sampleSir b0 t.ops, c.1 ≤ x.idx →
            x.idx < c.1 + c.2.localDecls.length → c = a := by
  obtain ⟨t, ht⟩ : ∃ t, TirTrace.new sampleSir sampleTrace = .ok t := ⟨_, rfl⟩
  obtain ⟨b0, hb0⟩ : ∃ b0, sampleSir.bodies (SirLoc.symbolName ⟨"main", 0⟩) = some b0 := ⟨_, rfl⟩
  have hcons : callConsistent sampleSir ["main"] sampleTrace = true := rfl
  exact ⟨b0, t, hb0, ht, tirTrace_new_localDecls_faithful hb0 sampleSir_small hcons ht⟩

end Trace
end Yk
