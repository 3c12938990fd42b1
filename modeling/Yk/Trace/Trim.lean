/-
# Trimming the tracer's remnants, and the trace's local declarations

`trim` succeeds exactly on operations that start with a `StorageDead` and end
with three `StorageLive`s, an `Assign(_, false)`, an `Assign` and an `Enter` of
`stop_tracing`, and it returns what lies between (`trim_eq_ok`). So the trace
`TirTrace::new` returns is the loop's operations less those seven
(`tirTrace_new_eq_ok`).

The declarations of the trace are those the renamer recorded while the loop
ran, the trimmed operations' locals included, while a guard's place is never
recorded (`tirTrace_localDecls_mismatch`).
-/
import Yk.Trace.Tir

namespace Yk
namespace Trace

open Pack

theorem append_singleton_inj {α : Type} {L L' : List α} {a b : α} :
    L ++ [a] = L' ++ [b] ↔ L = L' ∧ a = b := by
  rw [← List.concat_eq_append, ← List.concat_eq_append, List.concat_inj]

theorem popIf_eq_ok {p : TirOp → Bool} {msg : String} {ops ops' : List TirOp} :
    popIf p msg ops = .ok ops' ↔ ∃ op, ops = ops' ++ [op] ∧ p op := by
  rcases List.eq_nil_or_concat' ops with rfl | ⟨L, b, rfl⟩
  · simp [popIf]
  · simp only [popIf, List.getLast?_concat, List.dropLast_concat, append_singleton_inj]
    by_cases hb : p b
    · simp only [hb, ↓reduceIte, pure_eq_ok]
      exact ⟨fun h => ⟨b, ⟨h, rfl⟩, hb⟩, fun ⟨_, ⟨h, _⟩, _⟩ => h⟩
    · simp only [hb, throw_eq_ok, false_iff, not_exists, not_and, Bool.false_eq_true, ↓reduceIte]
      rintro op ⟨-, rfl⟩
      simpa using hb

theorem popStopTracing_eq_ok {ops ops' : List TirOp} :
    popStopTracing ops = .ok ops' ↔ ∃ e, ops = ops' ++ [e] ∧ isStopTracingEnter e := by
  rcases List.eq_nil_or_concat' ops with rfl | ⟨L, b, rfl⟩
  · simp [popStopTracing]
  · have hiff : (∃ e, L ++ [b] = ops' ++ [e] ∧ isStopTracingEnter e) ↔
        L = ops' ∧ isStopTracingEnter b := by
      simp only [append_singleton_inj]
      exact ⟨fun ⟨_, ⟨h, he⟩, hs⟩ => ⟨h, he ▸ hs⟩, fun ⟨h, hs⟩ => ⟨b, ⟨h, rfl⟩, hs⟩⟩
    rw [hiff]
    unfold popStopTracing isStopTracingEnter
    simp only [List.getLast?_concat, List.dropLast_concat]
    split
    · split <;> simp_all
    · simp_all

theorem removeStorageDead_eq_ok {ops ops' : List TirOp} :
    removeStorageDead ops = .ok ops' ↔ ∃ l, ops = .statement (.storageDead l) :: ops' := by
  unfold removeStorageDead
  split <;> simp_all

/-- **Trimming removes exactly the tracer's remnants.** `trim` succeeds just
when the operations are a `StorageDead`, then what it returns, then three
`StorageLive`s, an `Assign(_, false)`, an `Assign` and an `Enter` of
`stop_tracing`. -/
theorem trim_eq_ok {ops ops' : List TirOp} : trim ops = .ok ops' ↔
    ∃ l t₁ t₂ t₃ t₄ t₅ e, ops = .statement (.storageDead l) :: ops' ++ [t₁, t₂, t₃, t₄, t₅, e] ∧
      isStorageLive t₁ ∧ isStorageLive t₂ ∧ isStorageLive t₃ ∧ isAssignFalse t₄ ∧
      isAssign t₅ ∧ isStopTracingEnter e := by
  simp only [trim, bind_eq_ok, popStopTracing_eq_ok, popIf_eq_ok, removeStorageDead_eq_ok]
  constructor
  · rintro ⟨_, ⟨e, rfl, he⟩, _, ⟨t₅, rfl, h₅⟩, _, ⟨t₄, rfl, h₄⟩, _, ⟨t₃, rfl, h₃⟩,
      _, ⟨t₂, rfl, h₂⟩, _, ⟨t₁, rfl, h₁⟩, l, rfl⟩
    exact ⟨l, t₁, t₂, t₃, t₄, t₅, e, by simp, h₁, h₂, h₃, h₄, h₅, he⟩
  · rintro ⟨l, t₁, t₂, t₃, t₄, t₅, e, rfl, h₁, h₂, h₃, h₄, h₅, he⟩
    let pre := TirOp.statement (.storageDead l) :: ops'
    exact ⟨pre ++ [t₁, t₂, t₃, t₄, t₅], ⟨e, by simp [pre], he⟩,
      pre ++ [t₁, t₂, t₃, t₄], ⟨t₅, by simp, h₅⟩, pre ++ [t₁, t₂, t₃], ⟨t₄, by simp, h₄⟩,
      pre ++ [t₁, t₂], ⟨t₃, by simp, h₃⟩, pre ++ [t₁], ⟨t₂, by simp, h₂⟩, pre, ⟨t₁, rfl, h₁⟩,
      l, rfl⟩

/-- `TirTrace::new` returns the loop's last state, its operations trimmed. -/
theorem tirTrace_new_eq_ok {sir : Sir} {trace : List SirLoc} {t : TirTrace} :
    TirTrace.new sir trace = .ok t ↔ ∃ st, lowerLocs sir trace [] LowerState.init = .ok st ∧
      trim st.ops = .ok t.ops ∧ t.traceInputsLocal = st.traceInputsLocal ∧
      t.localDecls = st.rnm.done := by
  simp only [TirTrace.new, bind_eq_ok, liftPanic_eq_ok]
  constructor
  · rintro ⟨st, hst, ops, hops, h⟩
    cases h
    exact ⟨st, hst, hops, rfl, rfl⟩
  · rintro ⟨st, hst, hops, h1, h2⟩
    exact ⟨st, hst, t.ops, hops, by cases t; simp_all [pure, Except.pure]⟩

/-! ### The locals of the trace -/

def Operand.locals : Operand → List Local
  | .place p => [p.local]
  | .constant _ => []

def Rvalue.locals : Rvalue → List Local
  | .use o => Operand.locals o
  | .binaryOp _ o1 o2 | .checkedBinaryOp _ o1 o2 => Operand.locals o1 ++ Operand.locals o2
  | .ref p => [p.local]
  | .unimplemented _ => []

/-- The locals an operation refers to: those of its places and operands (the
arguments and destination of an `Enter` or a `Call` included), the argument
locals an `Enter` defines (`maybe_defined_locals`), and a guard's place. -/
def TirOp.locals : TirOp → List Local
  | .statement (.assign p rv) => p.local :: Rvalue.locals rv
  | .statement (.enter _ args dest off) =>
    args.flatMap Operand.locals ++ (dest.map (·.local)).toList ++
      (List.range args.length).map fun i => ⟨off + i + 1⟩
  | .statement (.call _ args dest) => args.flatMap Operand.locals ++ (dest.map (·.local)).toList
  | .statement (.storageLive l) | .statement (.storageDead l) => [l]
  | .statement _ => []
  | .guard g => [g.val.local]

/-- In the sample trace the guard checks `$1`, which has no declaration, and
`$4`, which only the trimmed `StorageLive`s refer to, has one. -/
theorem tirTrace_localDecls_mismatch :
    ∃ t, TirTrace.new sampleSir sampleTrace = .ok t ∧
      (TirOp.guard ⟨.ofLocal ⟨1⟩, .integer 0⟩ ∈ t.ops ∧ t.localDecls ⟨1⟩ = none) ∧
      (t.localDecls ⟨4⟩ = some ⟨(0, 0)⟩ ∧ ∀ op ∈ t.ops, ⟨4⟩ ∉ op.locals) := by
  obtain ⟨t, ht⟩ : ∃ t, TirTrace.new sampleSir sampleTrace = .ok t := ⟨_, rfl⟩
  have hops : t.ops =
      [.statement (.enter (.fn "callee") [] (some (.ofLocal ⟨2⟩)) 8),
       .guard ⟨.ofLocal ⟨1⟩, .integer 0⟩,
       .statement (.assign (.ofLocal ⟨2⟩) (.use (.place (.ofLocal ⟨9⟩)))),
       .statement .leave] :=
    Except.ok.inj ((congrArg (Except.map TirTrace.ops) ht).symm.trans rfl)
  have h1 : t.localDecls ⟨1⟩ = none :=
    Except.ok.inj ((congrArg (Except.map fun t : TirTrace => t.localDecls ⟨1⟩) ht).symm.trans rfl)
  have h4 : t.localDecls ⟨4⟩ = some ⟨(0, 0)⟩ :=
    Except.ok.inj ((congrArg (Except.map fun t : TirTrace => t.localDecls ⟨4⟩) ht).symm.trans rfl)
  exact ⟨t, ht, ⟨by rw [hops]; decide, h1⟩, h4, by rw [hops]; decide⟩

end Trace
end Yk
