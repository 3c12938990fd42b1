/-
# The interpreter's stacks move together

At the head of every turn of `interpret`'s loop there is one frame for every
body on the body stack, each made by `create_frame` from the body at its depth,
and one resume point fewer (`Lockstep`). A turn keeps this (`step_lockstep`),
so every state the loop reaches has it (`reachable_lockstep`). So the active
frame, in which every statement and argument resolves its places, has the
offset table of the body whose block runs, and a `Return` with a resume point
finds the caller's frame below the callee's. The entry body stays at the
bottom of the body stack (`Reachable.bottom`), so the loop ends only at a
`Return` of the entry body, with only its frame left (`reachable_step_none`).
-/
import Yk.Bh.Interp

namespace Yk
namespace Bh

open Pack (bind_eq_ok)

/-- `f` is a frame `create_frame` makes for `b`. -/
def FrameOf (f : StackFrame) (b : Body) : Prop := ∃ base, createFrame b base = .ok f

theorem FrameOf.offsets {f : StackFrame} {b : Body} (h : FrameOf f b) : f.offsets = b.offsets := by
  obtain ⟨base, h⟩ := h
  obtain ⟨_, -, rfl⟩ := createFrame_eq_ok.mp h
  rfl

/-- The three stacks of the loop move together. -/
structure Lockstep (s : LoopState) : Prop where
  frames : List.Forall₂ FrameOf s.frames s.bodies
  returns : s.bodies.length = s.returns.length + 1

variable {sir : Sir} {B : Body} {s s' : LoopState}

theorem lockstep_start {base : Addr} {si : SIRInterpreter} {mem : Mem}
    (hnew : SIRInterpreter.new B base = .ok si) (hs : si.interpretStart B mem = some s) :
    Lockstep s := by
  obtain ⟨frame, hframe, h⟩ := bind_eq_ok.mp hnew
  cases h
  unfold SIRInterpreter.interpretStart at hs
  split at hs
  · cases hs
  · cases hs
    exact ⟨.cons ⟨base, hframe⟩ .nil, rfl⟩

/-- A turn keeps the stacks together: a `Call` pushes onto all three, a
`Return` pops all three. -/
theorem step_lockstep {base : Addr} (hs : Lockstep s) (h : step sir base s = .ok (some s')) :
    Lockstep s' := by
  obtain ⟨body, bodies, block, mem, hb, -, -, ht⟩ := step_eq_some h
  rcases termStep_eq_some ht with
    ⟨_, _, _, _, _, _, _, -, -, hframe, -, -, rfl⟩ | ⟨-, v, rs, old, fs, hret, hfr, hv⟩
  · exact ⟨.cons ⟨base, hframe⟩ hs.frames, by simp [hs.returns]⟩
  · have hf := hs.frames
    rw [hfr, hb] at hf
    have hl := hs.returns
    rw [hb, hret] at hl
    have hpop : s'.frames = fs ∧ s'.bodies = bodies ∧ s'.returns = rs := by
      rcases hv with ⟨-, rfl⟩ | ⟨-, -, -, -, -, rfl⟩ <;> simp [hb]
    refine ⟨?_, ?_⟩
    · rw [hpop.1, hpop.2.1]
      exact (List.forall₂_cons.mp hf).2
    · rw [hpop.2.1, hpop.2.2]
      simpa using hl

theorem Reachable.lockstep (h : Reachable sir B s) : Lockstep s := by
  induction h with
  | start hnew hs => exact lockstep_start hnew hs
  | step _ hstep ih => exact step_lockstep ih hstep

/-- The active frame exists and has the offsets of the body whose block runs;
with a resume point pending, the caller's frame lies below it. -/
theorem Lockstep.top (h : Lockstep s) : ∃ f fs b bs, s.frames = f :: fs ∧ s.bodies = b :: bs ∧
    f.offsets = b.offsets ∧ (s.returns ≠ [] → fs ≠ []) := by
  obtain ⟨hf, hl⟩ := h
  rcases hb : s.bodies with _ | ⟨b, bs⟩
  · rw [hb] at hl
    simp at hl
  rw [hb] at hf hl
  obtain ⟨f, fs, hfb, hrest, hfr⟩ := List.forall₂_cons_right_iff.mp hf
  refine ⟨f, fs, b, bs, hfr, rfl, hfb.offsets, fun hr => ?_⟩
  have hlen := hrest.length_eq
  have : s.returns.length ≠ 0 := by simpa using hr
  simp only [List.length_cons] at hl
  rintro rfl
  simp at hlen
  omega

/-- **The interpreter's three stacks move in lock-step.** In every state of
`interpret(B)`'s loop after `SIRInterpreter::new(B)`, there are as many frames
as bodies and one resume point fewer, the frame at each depth was made by
`create_frame` from the body at that depth, and so the active frame exists, has
the offset table of the body whose block runs, and, with a resume point
pending, has the caller's frame below it. -/
theorem reachable_lockstep (h : Reachable sir B s) :
    s.frames.length = s.bodies.length ∧ s.bodies.length = s.returns.length + 1 ∧
      List.Forall₂ FrameOf s.frames s.bodies ∧
      ∃ f fs b bs, s.frames = f :: fs ∧ s.bodies = b :: bs ∧ f.offsets = b.offsets ∧
        (s.returns ≠ [] → fs ≠ []) :=
  ⟨h.lockstep.frames.length_eq, h.lockstep.returns, h.lockstep.frames, h.lockstep.top⟩

/-- The `call` test inside `foo`: two frames, two bodies, one resume point. -/
theorem reachable_lockstep_call :
    ∃ s, Reachable callSir funcCallBody s ∧ s.frames.length = 2 ∧
      (s.frames.length = s.bodies.length ∧ s.bodies.length = s.returns.length + 1 ∧
        List.Forall₂ FrameOf s.frames s.bodies ∧
        ∃ f fs b bs, s.frames = f :: fs ∧ s.bodies = b :: bs ∧ f.offsets = b.offsets ∧
          (s.returns ≠ [] → fs ≠ [])) := by
  obtain ⟨s, hs, h2⟩ : ∃ s, Reachable callSir funcCallBody s ∧ s.frames.length = 2 :=
    ⟨_, .step (@Reachable.start _ _ 0x1000 _ (fun _ => 0) _ rfl rfl)
      (show step callSir 0x2000 _ = .ok (some _) from rfl), rfl⟩
  exact ⟨s, hs, h2, reachable_lockstep hs⟩

/-! ### Where the loop ends -/

/-- A turn keeps the entry body at the bottom of the body stack. -/
theorem step_bottom {base : Addr} (hl : Lockstep s) (hb : s.bodies.getLast? = some B)
    (h : step sir base s = .ok (some s')) : s'.bodies.getLast? = some B := by
  obtain ⟨body, bodies, block, mem, hbs, -, -, ht⟩ := step_eq_some h
  rcases termStep_eq_some ht with
    ⟨_, _, _, _, _, _, _, -, -, -, -, -, rfl⟩ | ⟨-, v, rs, _, _, hret, -, hv⟩
  · rw [hbs] at hb ⊢
    rwa [List.getLast?_cons_cons]
  · have hpop : s'.bodies = bodies := by
      rcases hv with ⟨-, rfl⟩ | ⟨-, -, -, -, -, rfl⟩ <;> simp [hbs]
    have hlen := hl.returns
    rw [hbs, hret] at hlen
    rw [hbs] at hb
    rcases bodies with _ | ⟨b, bs⟩
    · simp at hlen
    · rwa [hpop, ← List.getLast?_cons_cons]

theorem Reachable.bottom (h : Reachable sir B s) : s.bodies.getLast? = some B := by
  induction h with
  | start _ hs =>
    unfold SIRInterpreter.interpretStart at hs
    split at hs <;> cases hs
    rfl
  | step hr hstep ih => exact step_bottom hr.lockstep ih hstep

/-- **`interpret` ends only when the entry body returns.** A turn that ends
the loop of `interpret(B)` runs a block of `B` itself that ends in `Return`,
with no resume point pending and only the frame `SIRInterpreter::new` made for
`B` left. -/
theorem reachable_step_none {base : Addr} (h : Reachable sir B s)
    (hs : step sir base s = .ok none) :
    s.bodies = [B] ∧ s.returns = [] ∧ (∃ f, s.frames = [f] ∧ FrameOf f B) ∧
      ∃ block mem, B.blocks[s.bbidx]? = some block ∧ block.term = .return ∧
        execStmts sir s.frames s.mem block.stmts = .ok mem := by
  obtain ⟨hf, hl⟩ := h.lockstep
  have hb := h.bottom
  rcases step_eq_none hs with he | ⟨body, bodies, block, mem, hbs, hblock, hmem, hterm, hret⟩
  · rw [he] at hl
    simp at hl
  · rw [hbs, hret] at hl
    obtain rfl : bodies = [] := by simpa using hl
    rw [hbs] at hb hf
    obtain rfl : body = B := by simpa using hb
    obtain ⟨f, fs, hfb, hrest, hfr⟩ := List.forall₂_cons_right_iff.mp hf
    obtain rfl := List.forall₂_nil_right_iff.mp hrest
    exact ⟨hbs, hret, ⟨f, hfr, hfb⟩, block, mem, hblock, hterm, hmem⟩

/-- The `call` test ends after `foo` returns into `func_call`'s second block. -/
theorem reachable_step_none_call :
    ∃ s, Reachable callSir funcCallBody s ∧ step callSir 0 s = .ok none ∧
      (s.bodies = [funcCallBody] ∧ s.returns = [] ∧
        (∃ f, s.frames = [f] ∧ FrameOf f funcCallBody) ∧
        ∃ block mem, funcCallBody.blocks[s.bbidx]? = some block ∧ block.term = .return ∧
          execStmts callSir s.frames s.mem block.stmts = .ok mem) := by
  obtain ⟨s, hs, hn⟩ : ∃ s, Reachable callSir funcCallBody s ∧ step callSir 0 s = .ok none :=
    ⟨_, .step (.step (@Reachable.start _ _ 0x1000 _ (fun _ => 0) _ rfl rfl)
      (show step callSir 0x2000 _ = .ok (some _) from rfl))
      (show step callSir 0 _ = .ok (some _) from rfl), rfl⟩
  exact ⟨s, hs, hn, reachable_step_none hs hn⟩

end Bh
end Yk
