/-
# Guards of `SwitchInt` branches

A `SwitchInt` on values `v₀, v₁, …` with targets `b₀, b₁, …` and a fallback
goes to `bᵢ` on `vᵢ` and to the fallback on any other value (`switchSucc`).
`TirTrace::new` learns the branch the run took from the next location and
guards on the value of the first edge to that block, or on none of the values
for the fallback edge (`switchGuard`).

The guard never lets through a value that leaves the recorded path
(`switchGuard_sound`), and it lets the recorded value through when no two
edges share a block and the fallback is no edge's block (`switchGuard_complete`).
When two values share a block, the guard names the first value only and
rejects a run that took the branch on the second, also in a whole trace
lowered by `TirTrace::new` (`switch_guard_shared_target`).
-/
import Mathlib.Data.List.Nodup
import Yk.Trace.Tir

namespace Yk
namespace Trace

open Pack

/-- The block a `SwitchInt` goes to on the value `v`. -/
def switchSucc (values : List SerU128) (targetBbs : List BasicBlockIndex)
    (otherwiseBb : BasicBlockIndex) (v : BitVec 128) : BasicBlockIndex :=
  match values.findIdx? (·.val == v) with
  | some i => targetBbs.getD i otherwiseBb
  | none => otherwiseBb

/-- Whether a guard of this kind lets the value `w` through (a Boolean is `0`
or `1`). -/
def GuardKind.accepts : GuardKind → BitVec 128 → Prop
  | .integer c, w => w = c
  | .otherInteger cs, w => w ∉ cs
  | .boolean b, w => w = if b then 1 else 0

instance (k : GuardKind) (w : BitVec 128) : Decidable (k.accepts w) :=
  match k with
  | .integer c => inferInstanceAs (Decidable (w = c))
  | .otherInteger cs => inferInstanceAs (Decidable (w ∉ cs))
  | .boolean b => inferInstanceAs (Decidable (w = if b then 1 else 0))

variable {values : List SerU128} {targetBbs : List BasicBlockIndex}
  {otherwiseBb nextBlk : BasicBlockIndex} {discr : Place} {g : Guard}

/-- With distinct values, the first index holding `values[i]`'s value is `i`. -/
theorem findIdx?_val_of_nodup (hvals : (values.map SerU128.val).Nodup) {i : Nat}
    (hi : i < values.length) :
    values.findIdx? (·.val == values[i].val) = some i := by
  rw [List.findIdx?_eq_some_iff_getElem]
  refine ⟨hi, by simp, fun j hj heq => ?_⟩
  have hj' : j < (values.map SerU128.val).length := by simp; omega
  have hi' : i < (values.map SerU128.val).length := by simpa using hi
  have := hvals.getElem_inj_iff.mp (by simpa using heq :
    (values.map SerU128.val)[j] = (values.map SerU128.val)[i])
  omega

/-- The first index holding `xs[i]` is `i`, when `xs` has no duplicates. -/
theorem findIdx?_eq_of_nodup {xs : List BasicBlockIndex} (hxs : xs.Nodup) {i : Nat}
    (hi : i < xs.length) : xs.findIdx? (· == xs[i]) = some i := by
  rw [List.findIdx?_eq_some_iff_getElem]
  refine ⟨hi, by simp, fun j hj heq => ?_⟩
  have hj' : j < xs.length := hj.trans hi
  have := hxs.getElem_inj_iff.mp (by simpa using heq : xs[j] = xs[i])
  omega

/-- **A `SwitchInt` guard is sound.** With distinct values, every value the
guard lets through sends the switch to the block the trace went to. -/
theorem switchGuard_sound (hvals : (values.map SerU128.val).Nodup)
    (h : switchGuard discr values targetBbs otherwiseBb nextBlk = .ok g) :
    g.val = discr ∧ ∀ w, g.kind.accepts w → switchSucc values targetBbs otherwiseBb w = nextBlk := by
  unfold switchGuard at h
  split at h
  · rename_i idx hidx
    obtain ⟨hlt, hnext, -⟩ := List.findIdx?_eq_some_iff_getElem.mp hidx
    obtain ⟨v, hv, h⟩ := bind_eq_ok.mp h
    cases h
    obtain ⟨hvl, rfl⟩ := List.getElem?_eq_some_iff.mp (index_eq_ok.mp hv)
    refine ⟨rfl, fun w hw => ?_⟩
    simp only [GuardKind.accepts] at hw
    subst hw
    simp only [switchSucc, findIdx?_val_of_nodup hvals hvl, List.getD_eq_getElem?_getD,
      List.getElem?_eq_getElem hlt, Option.getD_some]
    simpa using hnext
  · split at h
    · cases h
      refine ⟨rfl, fun w hw => ?_⟩
      have : values.findIdx? (·.val == w) = none := by
        simp only [GuardKind.accepts, List.mem_map, not_exists, not_and] at hw
        simpa using fun x hx heq => hw x hx heq
      simp [switchSucc, this, *]
    · cases h

/-- `switch [1 → bb5, 2 → bb6], otherwise bb7`, the run going to `bb6`. -/
theorem switchGuard_sound_two :
    ([SerU128.new 1, SerU128.new 2].map SerU128.val).Nodup ∧
      ∃ g, switchGuard ⟨⟨1⟩, []⟩ [SerU128.new 1, SerU128.new 2] [5, 6] 7 6 = .ok g ∧
        g.val = ⟨⟨1⟩, []⟩ ∧
        ∀ w, g.kind.accepts w → switchSucc [SerU128.new 1, SerU128.new 2] [5, 6] 7 w = 6 := by
  have hvals : ([SerU128.new 1, SerU128.new 2].map SerU128.val).Nodup := by decide
  obtain ⟨g, hg⟩ : ∃ g, switchGuard ⟨⟨1⟩, []⟩ [SerU128.new 1, SerU128.new 2] [5, 6] 7 6 = .ok g :=
    ⟨_, rfl⟩
  exact ⟨hvals, g, hg, switchGuard_sound hvals hg⟩

/-- **A `SwitchInt` guard passes the recorded run,** when no two edges share a
block and the fallback is not an edge's block: the guard for the branch the
value `v` takes exists and lets `v` through. -/
theorem switchGuard_complete (hlen : values.length = targetBbs.length)
    (htargets : targetBbs.Nodup) (hother : otherwiseBb ∉ targetBbs) (v : BitVec 128) :
    ∃ g, switchGuard discr values targetBbs otherwiseBb
      (switchSucc values targetBbs otherwiseBb v) = .ok g ∧ g.kind.accepts v := by
  cases hv : values.findIdx? (·.val == v) with
  | some i =>
    obtain ⟨hi, hvi, -⟩ := List.findIdx?_eq_some_iff_getElem.mp hv
    have hti : i < targetBbs.length := hlen ▸ hi
    have hsucc : switchSucc values targetBbs otherwiseBb v = targetBbs[i] := by
      simp [switchSucc, hv, List.getD_eq_getElem?_getD, List.getElem?_eq_getElem hti]
    refine ⟨⟨discr, .integer values[i].val⟩, ?_, (beq_iff_eq.mp hvi).symm⟩
    simp [hsucc, switchGuard, findIdx?_eq_of_nodup htargets hti, index,
      List.getElem?_eq_getElem hi, pure, Except.pure, bind, Except.bind]
  | none =>
    have hsucc : switchSucc values targetBbs otherwiseBb v = otherwiseBb := by
      simp [switchSucc, hv]
    have hno : targetBbs.findIdx? (· == otherwiseBb) = none :=
      List.findIdx?_eq_none_iff.mpr fun x hx => by
        simp only [beq_eq_false_iff_ne, ne_eq]
        rintro rfl
        exact hother hx
    refine ⟨⟨discr, .otherInteger (values.map SerU128.val)⟩, ?_, ?_⟩
    · simp [hsucc, switchGuard, hno, pure, Except.pure]
    · simpa [GuardKind.accepts] using List.findIdx?_eq_none_iff.mp hv

/-- The same switch on the value `2`. -/
theorem switchGuard_complete_two :
    [SerU128.new 1, SerU128.new 2].length = [5, 6].length ∧ [5, 6].Nodup ∧ 7 ∉ [5, 6] ∧
      ∃ g, switchGuard ⟨⟨1⟩, []⟩ [SerU128.new 1, SerU128.new 2] [5, 6] 7
        (switchSucc [SerU128.new 1, SerU128.new 2] [5, 6] 7 2) = .ok g ∧ g.kind.accepts 2 :=
  ⟨rfl, by decide, by decide, switchGuard_complete rfl (by decide) (by decide) 2⟩

/-- A trace through a switch whose two values share a block: `main`'s `bb0`
kills `_3` and ends in `switch _1 [1 → bb5, 2 → bb5], otherwise bb7`; its `bb5`
stops the tracer with the shape `trim` expects. The other blocks are not run. -/
def sharedTargetSir : Sir where
  bodies sym :=
    if sym = "main" then some
      ⟨[⟨[.storageDead ⟨3⟩], .switchInt (.ofLocal ⟨1⟩) [SerU128.new 1, SerU128.new 2] [5, 5] 7⟩] ++
        List.replicate 4 ⟨[], .return⟩ ++
        [⟨[.storageLive ⟨4⟩, .storageLive ⟨5⟩, .storageLive ⟨6⟩,
          .assign (.ofLocal ⟨7⟩) (.use (.constant (.bool false))),
          .assign (.ofLocal ⟨7⟩) (.use (.place (.ofLocal ⟨4⟩)))],
          .call (.fn "stop_tracing") [] (some (.ofLocal ⟨7⟩, 6))⟩] ++
        List.replicate 2 ⟨[], .return⟩,
        some ⟨1⟩, List.replicate 8 ⟨(0, 0)⟩⟩
    else if sym = "stop_tracing" then some ⟨[], none, [⟨(0, 2)⟩]⟩
    else none

/-- Two values with one block, `switch [1 → bb5, 2 → bb5], otherwise bb7`, on
the value `2`: the run goes to `bb5`, and the guard `TirTrace::new` emits for
it is `integer(1)`, which rejects `2`; a whole run through the switch to `bb5`
is lowered to that guard alone. -/
theorem switch_guard_shared_target :
    switchSucc [SerU128.new 1, SerU128.new 2] [5, 5] 7 2 = 5 ∧
    termGuard (.switchInt ⟨⟨1⟩, []⟩ [SerU128.new 1, SerU128.new 2] [5, 5] 7) (some ⟨"f", 5⟩) =
      .ok (some ⟨⟨⟨1⟩, []⟩, .integer 1⟩) ∧
    (TirTrace.new sharedTargetSir [⟨"main", 0⟩, ⟨"main", 5⟩]).map TirTrace.ops =
      .ok [.guard ⟨⟨⟨1⟩, []⟩, .integer 1⟩] ∧
    ¬ GuardKind.accepts (.integer 1) 2 :=
  ⟨by decide, rfl, rfl, by decide⟩

end Trace
end Yk
