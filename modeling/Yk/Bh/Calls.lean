/-
# Stores, calls and returns of the interpreter

A `Store` copies the bytes of its source, read in the active frame, or writes
its constant, to its destination and changes no other byte (`store_spec`).
A `Call` makes a fresh frame for the callee and copies argument `i` into its
local `i + 1`: the bytes of the place the argument names in the caller's frame,
or the constant's bytes (`argBytes`). When the callee's slots for the arguments
lie in the frame apart from each other, and reading the arguments does not look
into the fresh frame, every slot then holds its argument (`copyArgs_spec`).

While the call is open the caller's frames, bodies and resume points lie
untouched below the callee's (`CallOpen`, kept by every turn that stays deeper,
`CallOpen.step`), so the turn that comes back to the caller's depth is the
callee's `Return`: it restores the caller's stacks and block, and copies the
callee's local `0` into the destination, resolved in the caller's frame,
changing no other byte (`CallOpen.ret`). Together: `call_return`.
-/
import Yk.Bh.Interp

namespace Yk
namespace Bh

open Pack (Panic Local Constant BasicBlockIndex TypeId bind_eq_ok pure_eq_ok index_eq_ok toU32_eq_ok)

variable {sir : Sir}

/-! ### The bytes an argument passes -/

/-- The bytes `write_const` stores for a constant. -/
def constBytes (sir : Sir) : Constant → Except Panic (List (BitVec 8))
  | .int (.unsignedInt (.u8 v)) => pure [v]
  | .tuple t => do
    let size ← sir.tySize t
    if size = 0 then pure [] else throw .todo
  | _ => throw .todo

/-- The bytes an argument passes: `size(ty)` bytes of the place it names in the
caller's frame, or its constant's. -/
def argBytes (sir : Sir) (caller : StackFrame) (mem : Mem) :
    IPlace → Except Panic (List (BitVec 8))
  | arg@(.val _ _ ty) | arg@(.indirect _ _ ty) => do
    let src ← caller.iplaceToPtr mem arg
    let size ← sir.tySize ty
    pure (mem.read src size)
  | .const val _ => constBytes sir val
  | .unimplemented _ => throw .unreachable

theorem writeConst_eq_ok {mem mem' : Mem} {dst : Addr} {c : Constant}
    (h : StackFrame.writeConst sir mem dst c = .ok mem') :
    ∃ bs, constBytes sir c = .ok bs ∧ mem' = mem.write dst bs := by
  cases c with
  | int ci =>
    rcases ci with (_ | v | _ | _ | _ | _) | _ <;> cases h
    exact ⟨[v], rfl, rfl⟩
  | tuple t =>
    obtain ⟨n, hn, h⟩ := bind_eq_ok.mp h
    split at h
    · cases h
      subst n
      refine ⟨[], ?_, (write_nil _ _).symm⟩
      show (sir.tySize t >>= fun size => if size = 0 then pure [] else throw .todo) = _
      rw [hn]
      rfl
    · cases h
  | bool _ | unimplemented _ => cases h

/-- Copying one argument writes its bytes at the slot. -/
theorem copyArg_eq_ok {caller : StackFrame} {mem mem' : Mem} {dst : Addr} {arg : IPlace}
    (h : StackFrame.copyArg sir caller mem dst arg = .ok mem') :
    ∃ bs, argBytes sir caller mem arg = .ok bs ∧ mem' = mem.write dst bs := by
  cases arg with
  | val l off ty | indirect ptr off ty =>
    obtain ⟨src, hsrc, h⟩ := bind_eq_ok.mp h
    obtain ⟨n, hn, h⟩ := bind_eq_ok.mp h
    cases h
    refine ⟨_, ?_, rfl⟩
    show (caller.iplaceToPtr mem _ >>= fun src => sir.tySize ty >>= fun size => pure _) = _
    rw [hsrc, hn]
    rfl
  | const c ty => exact writeConst_eq_ok h
  | unimplemented _ => cases h

theorem tySize_lt {ty : TypeId} {n : Nat} (h : sir.tySize ty = .ok n) : n < 2147483648 := by
  obtain ⟨t, -, h⟩ := bind_eq_ok.mp h
  exact Pack.Ty.size_lt h

theorem argBytes_length_lt {caller : StackFrame} {mem : Mem} {a : IPlace} {bs : List (BitVec 8)}
    (h : argBytes sir caller mem a = .ok bs) : bs.length < 2147483648 := by
  cases a with
  | val _ _ ty | indirect _ _ ty =>
    obtain ⟨_, -, h⟩ := bind_eq_ok.mp h
    obtain ⟨n, hn, h⟩ := bind_eq_ok.mp h
    cases h
    rw [length_read]
    exact tySize_lt hn
  | const c _ =>
    cases c with
    | int ci =>
      rcases ci with (_ | v | _ | _ | _ | _) | _ <;> cases h
      simp
    | tuple t =>
      obtain ⟨n, -, h⟩ := bind_eq_ok.mp h
      split at h <;> cases h
      simp
    | bool _ | unimplemented _ => cases h
  | unimplemented _ => cases h

/-- A `Store` resolves its destination and copies its source there as
`copy_args` copies an argument. -/
theorem store_eq_ok {f : StackFrame} {mem mem' : Mem} {dest src : IPlace}
    (h : f.store sir mem dest src = .ok mem') :
    ∃ dst, f.iplaceToPtr mem dest = .ok dst ∧ StackFrame.copyArg sir f mem dst src = .ok mem' := by
  cases src with
  | val l off ty | indirect ptr off ty =>
    obtain ⟨sp, hsp, h⟩ := bind_eq_ok.mp h
    obtain ⟨dp, hdp, h⟩ := bind_eq_ok.mp h
    refine ⟨dp, hdp, ?_⟩
    show (f.iplaceToPtr mem _ >>= fun src => sir.tySize ty >>= fun size => pure _) = _
    rw [hsp]
    exact h
  | const c ty => exact bind_eq_ok.mp h
  | unimplemented _ => cases h

/-- **`Store` copies the bytes of its source to its destination.** The bytes
written are those `copy_args` would pass for the source, read in the same
frame before the write (a `memmove`, so overlapping places are copied
whole), and no other byte changes. -/
theorem store_spec {f : StackFrame} {mem mem' : Mem} {dest src : IPlace}
    (h : f.store sir mem dest src = .ok mem') :
    ∃ dst bs, f.iplaceToPtr mem dest = .ok dst ∧ argBytes sir f mem src = .ok bs ∧
      mem'.read dst bs.length = bs ∧ ∀ x, ¬ InRange dst bs.length x → mem' x = mem x := by
  obtain ⟨dst, hdst, h⟩ := store_eq_ok h
  obtain ⟨bs, hbs, rfl⟩ := copyArg_eq_ok h
  have hlen := argBytes_length_lt hbs
  exact ⟨dst, bs, hdst, hbs, read_write_self _ _ (by omega), fun _ hx => write_of_not_inRange hx⟩

/-- `foo`'s statement `_0 = _1` over a frame whose `_1` holds `7`. -/
theorem store_spec_sample :
    ∃ mem', sampleFrame.store callSir (fun x => if x = 0x1010 then 7 else 0)
        (.val ⟨0⟩ 0 (0, 0)) (.val ⟨1⟩ 0 (0, 0)) = .ok mem' ∧
      ∃ dst bs, sampleFrame.iplaceToPtr (fun x => if x = 0x1010 then 7 else 0)
          (.val ⟨0⟩ 0 (0, 0)) = .ok dst ∧
        argBytes callSir sampleFrame (fun x => if x = 0x1010 then 7 else 0)
          (.val ⟨1⟩ 0 (0, 0)) = .ok bs ∧
        mem'.read dst bs.length = bs ∧ ∀ x, ¬ InRange dst bs.length x →
          mem' x = (fun x => if x = 0x1010 then 7 else 0) x := by
  obtain ⟨mem', h⟩ : ∃ mem', sampleFrame.store callSir (fun x => if x = 0x1010 then 7 else 0)
      (.val ⟨0⟩ 0 (0, 0)) (.val ⟨1⟩ 0 (0, 0)) = .ok mem' := ⟨_, rfl⟩
  exact ⟨mem', h, store_spec h⟩

theorem localPtr_eq_ok {f : StackFrame} {l : Local} {p : Addr} (h : f.localPtr l = .ok p) :
    ∃ o, f.offsets[l.idx]? = some o ∧ p = f.locals + BitVec.ofNat 64 o := by
  obtain ⟨o, ho, h⟩ := bind_eq_ok.mp h
  exact ⟨o, index_eq_ok.mp ho, (pure_eq_ok.mp h).symm⟩

theorem Layout.size_lt (l : Layout) : l.size < 18446744073709551616 := by
  have := l.size_fits
  omega

/-! ### Copying the arguments -/

section CopyArgs

variable {f caller : StackFrame} {mem : Mem}

/-- Argument `i` of `rest` goes to local `k + i + 1` of `f`: its bytes fit in the
frame from that local's offset on, and no two arguments' slots overlap. -/
def SlotsFrom (sir : Sir) (f caller : StackFrame) (mem : Mem) (k : Nat) (rest : List IPlace) :
    Prop :=
  ∀ i j (hi : i < rest.length) (hj : j < rest.length) bi bj oi oj,
    argBytes sir caller mem rest[i] = .ok bi → argBytes sir caller mem rest[j] = .ok bj →
    f.offsets[k + i + 1]? = some oi → f.offsets[k + j + 1]? = some oj →
    oi + bi.length ≤ f.layout.size ∧ (i ≠ j → oi + bi.length ≤ oj ∨ oj + bj.length ≤ oi)

/-- Reading the arguments in the caller's frame does not look at the bytes of
the frame `f`. -/
def ReadsOutside (sir : Sir) (f caller : StackFrame) (mem : Mem) (args : List IPlace) : Prop :=
  ∀ m : Mem, (∀ x, ¬ InRange f.locals f.layout.size x → m x = mem x) →
    ∀ arg ∈ args, argBytes sir caller m arg = argBytes sir caller mem arg

/-- `x` lies in the slot of one of the arguments `rest`, the first going to local
`k + 1`. -/
def InSlot (sir : Sir) (f caller : StackFrame) (mem : Mem) (k : Nat) (rest : List IPlace)
    (x : Addr) : Prop :=
  ∃ j, ∃ hj : j < rest.length, ∃ bs o, argBytes sir caller mem rest[j] = .ok bs ∧
    f.offsets[k + j + 1]? = some o ∧ o ≤ (x - f.locals).toNat ∧ (x - f.locals).toNat < o + bs.length

theorem SlotsFrom.tail {k : Nat} {a : IPlace} {rest : List IPlace}
    (h : SlotsFrom sir f caller mem k (a :: rest)) : SlotsFrom sir f caller mem (k + 1) rest := by
  intro i j hi hj bi bj oi oj hbi hbj hoi hoj
  have := h (i + 1) (j + 1) (by simp [hi]) (by simp [hj]) bi bj oi oj hbi hbj
    (by rw [← hoi]; congr 2; omega) (by rw [← hoj]; congr 2; omega)
  exact ⟨this.1, fun hij => this.2 (by omega)⟩

theorem InSlot.cons {k : Nat} {a : IPlace} {rest : List IPlace} {x : Addr}
    (h : InSlot sir f caller mem (k + 1) rest x) : InSlot sir f caller mem k (a :: rest) x := by
  obtain ⟨j, hj, bs, o, hbs, ho, h1, h2⟩ := h
  exact ⟨j + 1, by simp [hj], bs, o, hbs, by rw [← ho]; congr 2; omega, h1, h2⟩

/-- **Copying the arguments, from argument `k` on.** Outside the frame `f`
memory stays as it was; outside the arguments' slots it is unchanged; and each
slot holds its argument's bytes, as they were before the copy. -/
theorem copyArgsFrom_spec {k : Nat} {rest : List IPlace} {m m' : Mem}
    (h : f.copyArgsFrom sir caller k rest m = .ok m')
    (hm : ∀ x, ¬ InRange f.locals f.layout.size x → m x = mem x)
    (hreads : ReadsOutside sir f caller mem rest) (hslots : SlotsFrom sir f caller mem k rest) :
    (∀ x, ¬ InRange f.locals f.layout.size x → m' x = mem x) ∧
    (∀ x, ¬ InSlot sir f caller mem k rest x → m' x = m x) ∧
    ∀ j (hj : j < rest.length), ∃ dst bs, f.localPtr ⟨k + j + 1⟩ = .ok dst ∧
      argBytes sir caller mem rest[j] = .ok bs ∧ m'.read dst bs.length = bs := by
  induction rest generalizing k m with
  | nil =>
    cases h
    exact ⟨hm, fun _ _ => rfl, fun j hj => absurd hj (Nat.not_lt_zero _)⟩
  | cons a rest ih =>
    obtain ⟨l, hl, h⟩ := bind_eq_ok.mp h
    obtain ⟨dst, hdst, h⟩ := bind_eq_ok.mp h
    obtain ⟨m₁, hm₁, h⟩ := bind_eq_ok.mp h
    obtain ⟨-, rfl⟩ := toU32_eq_ok hl
    obtain ⟨o, ho, rfl⟩ := localPtr_eq_ok hdst
    obtain ⟨bs, hbs, rfl⟩ := copyArg_eq_ok hm₁
    rw [hreads m hm a (List.mem_cons_self _ _)] at hbs
    have ho' : f.offsets[k + 0 + 1]? = some o := ho
    have hfit := (hslots 0 0 (by simp) (by simp) bs bs o o hbs hbs ho' ho').1
    have hsize := f.layout.size_lt
    have hin : ∀ x, InRange (f.locals + BitVec.ofNat 64 o) bs.length x ↔
        o ≤ (x - f.locals).toNat ∧ (x - f.locals).toNat < o + bs.length :=
      fun x => inRange_add_iff (by omega)
    have hm₁' : ∀ x, ¬ InRange f.locals f.layout.size x →
        m.write (f.locals + BitVec.ofNat 64 o) bs x = mem x := fun x hx => by
      rw [write_of_not_inRange (fun hx' => hx ((hin x).mp hx' |>.2.trans_le hfit)), hm x hx]
    obtain ⟨h1, h2, h3⟩ := ih h hm₁' (fun m hm' arg harg => hreads m hm' arg
      (List.mem_cons_of_mem _ harg)) hslots.tail
    refine ⟨h1, fun x hx => ?_, fun j hj => ?_⟩
    · rw [h2 x (fun hx' => hx hx'.cons)]
      exact write_of_not_inRange fun hx' => hx ⟨0, by simp, bs, o, hbs, ho', (hin x).mp hx'⟩
    · cases j with
      | zero =>
        refine ⟨_, _, hdst, hbs, ?_⟩
        rw [read_congr fun t ht => h2 _ ?_]
        · exact read_write_self _ _ (by omega)
        · rintro ⟨j', hj', bj, oj, hbj, hoj, hlo, hhi⟩
          have hoj' : f.offsets[k + (j' + 1) + 1]? = some oj := by rw [← hoj]; congr 2; omega
          have hsep := (hslots 0 (j' + 1) (by simp) (by simp [hj']) bs bj o oj hbs hbj ho' hoj').2
            (by omega)
          rw [toNat_add_add_sub_self _ (by omega)] at hlo hhi
          omega
      | succ j =>
        obtain ⟨dst', bs', hdst', hbs', hread⟩ := h3 j (by simpa using hj)
        exact ⟨dst', bs', by rw [← hdst']; congr 3; omega, hbs', hread⟩

/-- **`copy_args` puts every argument in its slot.** -/
theorem copyArgs_spec {args : List IPlace} {mem' : Mem}
    (h : f.copyArgs sir caller mem args = .ok mem')
    (hreads : ReadsOutside sir f caller mem args) (hslots : SlotsFrom sir f caller mem 0 args) :
    ∀ i (hi : i < args.length), ∃ dst bs, f.localPtr ⟨i + 1⟩ = .ok dst ∧
      argBytes sir caller mem args[i] = .ok bs ∧ mem'.read dst bs.length = bs := by
  intro i hi
  obtain ⟨dst, bs, hdst, hbs, hread⟩ :=
    (copyArgsFrom_spec h (fun _ _ => rfl) hreads hslots).2.2 i hi
  exact ⟨dst, bs, by rw [← hdst, Nat.zero_add], hbs, hread⟩

end CopyArgs

/-! ### Returning to the caller -/

/-- A run of the loop that stays deeper than `d` frames. -/
inductive RunAbove (sir : Sir) (d : Nat) : LoopState → LoopState → Prop
  | refl {s : LoopState} : d < s.frames.length → RunAbove sir d s s
  | step {s s' s'' : LoopState} {base : Addr} :
      RunAbove sir d s s' → step sir base s' = .ok (some s'') → d < s''.frames.length →
      RunAbove sir d s s''

/-- The call that pushed the frame `f`, the body `callee` and the resume point
`ret` onto the stacks of `s` is open in `s'`: the stacks of `s` lie below them,
untouched. -/
def CallOpen (s : LoopState) (f : StackFrame) (callee : Body)
    (ret : Option (IPlace × BasicBlockIndex)) (s' : LoopState) : Prop :=
  ∃ X Y Z, s'.frames = X ++ f :: s.frames ∧ s'.bodies = Y ++ callee :: s.bodies ∧
    s'.returns = Z ++ ret :: s.returns ∧ X.length = Z.length ∧ Y.length = Z.length

section Return

variable {s s' s'' : LoopState} {f : StackFrame} {callee : Body}
  {r : Option (IPlace × BasicBlockIndex)} {base : Addr}

/-- A `Return` pops one frame, one body and one resume point. -/
theorem return_pops {mem : Mem} {v : Option (IPlace × BasicBlockIndex)}
    {rs : List (Option (IPlace × BasicBlockIndex))} {fs : List StackFrame}
    (hv : (v = none ∧ s'' = ⟨⟨fs, s'.bbidx⟩, s'.bodies.tail, rs, mem⟩) ∨
      ∃ dest bb mem', v = some (dest, bb) ∧ writeReturn sir f fs mem dest = .ok mem' ∧
        s'' = ⟨⟨fs, bb⟩, s'.bodies.tail, rs, mem'⟩) :
    s''.frames = fs ∧ s''.bodies = s'.bodies.tail ∧ s''.returns = rs := by
  rcases hv with ⟨-, rfl⟩ | ⟨-, -, -, -, -, rfl⟩ <;> exact ⟨rfl, rfl, rfl⟩

/-- Popping the stacks of an open call takes off the callee's own frame and
resume point, leaving the caller's stacks, or leaves the call open. -/
theorem CallOpen.pop {old : StackFrame} {fs : List StackFrame}
    {v : Option (IPlace × BasicBlockIndex)} {rs : List (Option (IPlace × BasicBlockIndex))}
    (h : CallOpen s f callee r s') (hfr : s'.frames = old :: fs) (hret : s'.returns = v :: rs) :
    (fs = s.frames ∧ s'.bodies.tail = s.bodies ∧ rs = s.returns ∧ old = f ∧ v = r) ∨
    ∃ X Y Z, fs = X ++ f :: s.frames ∧ s'.bodies.tail = Y ++ callee :: s.bodies ∧
      rs = Z ++ r :: s.returns ∧ X.length = Z.length ∧ Y.length = Z.length := by
  obtain ⟨X, Y, Z, hX, hY, hZ, hXZ, hYZ⟩ := h
  rw [hfr] at hX
  rw [hret] at hZ
  rcases Z with _ | ⟨z, Z⟩
  · obtain rfl := List.length_eq_zero.mp hXZ
    obtain rfl := List.length_eq_zero.mp hYZ
    obtain ⟨rfl, rfl⟩ := List.cons.inj hX
    obtain ⟨rfl, rfl⟩ := List.cons.inj hZ
    exact .inl ⟨rfl, by rw [hY]; rfl, rfl, rfl, rfl⟩
  · obtain ⟨x, X, rfl⟩ := List.exists_cons_of_length_eq_add_one hXZ
    obtain ⟨y, Y, rfl⟩ := List.exists_cons_of_length_eq_add_one hYZ
    obtain ⟨-, rfl⟩ := List.cons.inj hX
    obtain ⟨-, rfl⟩ := List.cons.inj hZ
    exact .inr ⟨X, Y, Z, rfl, by rw [hY]; rfl, rfl, Nat.succ.inj hXZ, Nat.succ.inj hYZ⟩

/-- A turn that stays deeper than the caller keeps the call open. -/
theorem CallOpen.step (h : CallOpen s f callee r s') (hs : step sir base s' = .ok (some s''))
    (hd : s.frames.length < s''.frames.length) : CallOpen s f callee r s'' := by
  obtain ⟨_, _, _, _, -, -, -, ht⟩ := step_eq_some hs
  rcases termStep_eq_some ht with
    ⟨_, _, dest, c, frame, _, _, -, -, -, -, -, rfl⟩ | ⟨-, v, rs, old, fs, hret, hfr, hv⟩
  · obtain ⟨X, Y, Z, hX, hY, hZ, hXZ, hYZ⟩ := h
    exact ⟨frame :: X, c :: Y, dest :: Z, by simp [hX], by simp [hY], by simp [hZ],
      by simp [hXZ], by simp [hYZ]⟩
  · obtain ⟨h1, h2, h3⟩ := return_pops hv
    rcases h.pop hfr hret with ⟨rfl, -⟩ | ⟨X, Y, Z, hX, hY, hZ, hXZ, hYZ⟩
    · rw [h1] at hd
      exact absurd hd (lt_irrefl _)
    · exact ⟨X, Y, Z, h1.trans hX, h2.trans hY, h3.trans hZ, hXZ, hYZ⟩

theorem RunAbove.callOpen {s₁ s₂ : LoopState} (hrun : RunAbove sir s.frames.length s₁ s₂)
    (h : CallOpen s f callee r s₁) : CallOpen s f callee r s₂ := by
  induction hrun with
  | refl _ => exact h
  | step _ hs hd ih => exact ih.step hs hd

theorem placeSize_lt {p : IPlace} {n : Nat} (h : sir.placeSize p = .ok n) : n < 2147483648 := by
  unfold Sir.placeSize at h
  split at h
  · exact tySize_lt h
  · cases h

/-- Writing the return value copies the `size(ty(dest))` bytes of the popped
frame's local `0` to `dest`, resolved in the frame below, and nothing else. -/
theorem writeReturn_spec {old : StackFrame} {frames : List StackFrame} {mem mem' : Mem}
    {dest : IPlace} (h : writeReturn sir old frames mem dest = .ok mem') :
    ∃ ret caller dst n, old.localPtr ⟨0⟩ = .ok ret ∧ topFrame frames = .ok caller ∧
      caller.iplaceToPtr mem dest = .ok dst ∧ sir.placeSize dest = .ok n ∧
      mem'.read dst n = mem.read ret n ∧ ∀ x, ¬ InRange dst n x → mem' x = mem x := by
  obtain ⟨ret, hret, h⟩ := bind_eq_ok.mp h
  obtain ⟨caller, hcaller, h⟩ := bind_eq_ok.mp h
  obtain ⟨dst, hdst, h⟩ := bind_eq_ok.mp h
  obtain ⟨n, hn, h⟩ := bind_eq_ok.mp h
  cases h
  have hlen := length_read mem ret n
  have hn' := placeSize_lt hn
  have hread := @read_write_self mem dst (mem.read ret n) (by omega)
  rw [hlen] at hread
  exact ⟨ret, caller, dst, n, hret, hcaller, hdst, hn, hread,
    fun _ hx => write_of_not_inRange (by rwa [hlen])⟩

/-- **The turn back to the caller's depth is the callee's `Return`.** It
restores the caller's frames, bodies, resume points and the resume block, and
copies the callee's local `0`, as the block's statements left it, into the
destination resolved in the caller's frame. -/
theorem CallOpen.ret {p : IPlace} {b : BasicBlockIndex}
    (h : CallOpen s f callee (some (p, b)) s') (hs : Bh.step sir base s' = .ok (some s''))
    (hd : s''.frames.length ≤ s.frames.length) :
    s''.frames = s.frames ∧ s''.bodies = s.bodies ∧ s''.returns = s.returns ∧ s''.bbidx = b ∧
      ∃ body block mem₂, s'.bodies.head? = some body ∧ body.blocks[s'.bbidx]? = some block ∧
        block.term = .return ∧ execStmts sir s'.frames s'.mem block.stmts = .ok mem₂ ∧
        writeReturn sir f s.frames mem₂ p = .ok s''.mem := by
  obtain ⟨body, bodies, block, mem₂, hb, hblock, hstmts, ht⟩ := step_eq_some hs
  rcases termStep_eq_some ht with
    ⟨_, _, _, _, _, _, _, -, -, -, -, -, rfl⟩ | ⟨hterm, v, rs, old, fs, hret, hfr, hv⟩
  · obtain ⟨X, -, -, hX, -⟩ := h
    simp [hX] at hd
    omega
  · obtain ⟨h1, -, -⟩ := return_pops hv
    rcases h.pop hfr hret with ⟨rfl, hY, rfl, rfl, rfl⟩ | ⟨X, -, -, hX, -⟩
    · rcases hv with ⟨h0, -⟩ | ⟨dest, bb, mem', hv, hw, rfl⟩
      · cases h0
      · cases hv
        exact ⟨rfl, hY, rfl, rfl, body, block, mem₂, by rw [hb]; rfl, hblock, hterm, hstmts, hw⟩
    · rw [h1, hX, List.length_append, List.length_cons] at hd
      omega

end Return

/-- **Call/return is correct.** Take a turn whose block, after its statements
left memory `mem₀`, ends in a `Call` of `fname` with arguments `args` and
destination `p`, resuming at `b`. The turn pushes a fresh frame `f` for the
callee's body, its body, and sets `bbidx` to `0`; when the callee's argument
slots lie in `f` apart from each other and reading the arguments does not look
into `f`, local `i + 1` of `f` holds the bytes of argument `i`, read in the
caller's frame or given by its constant. The turn that next brings the stack
back to the caller's depth restores the caller's frames, bodies and resume
points and sets `bbidx` to `b`; it is a `Return` that writes the `size(ty(p))`
bytes of the callee's local `0` at `p`, resolved in the caller's frame, and
changes no other byte. -/
theorem call_return {s s₁ : LoopState} {base : Addr} {body : Body} {block : BasicBlock}
    {mem₀ : Mem} {fname : String} {args : List IPlace} {p : IPlace} {b : BasicBlockIndex}
    (hbody : s.bodies.head? = some body) (hblock : body.blocks[s.bbidx]? = some block)
    (hstmts : execStmts sir s.frames s.mem block.stmts = .ok mem₀)
    (hterm : block.term = .call (.fn fname) args (some (p, b)))
    (hcall : step sir base s = .ok (some s₁))
    (hargs : ∀ callee f caller, sir.bodies fname = some callee → createFrame callee base = .ok f →
      s.frames.head? = some caller →
      SlotsFrom sir f caller mem₀ 0 args ∧ ReadsOutside sir f caller mem₀ args) :
    ∃ callee f caller, sir.bodies fname = some callee ∧ createFrame callee base = .ok f ∧
      s.frames.head? = some caller ∧
      s₁.frames = f :: s.frames ∧ s₁.bodies = callee :: s.bodies ∧ s₁.bbidx = 0 ∧
      (∀ i (hi : i < args.length), ∃ dst bs, f.localPtr ⟨i + 1⟩ = .ok dst ∧
        argBytes sir caller mem₀ args[i] = .ok bs ∧ s₁.mem.read dst bs.length = bs) ∧
      ∀ s₂ s₃ base', RunAbove sir s.frames.length s₁ s₂ → step sir base' s₂ = .ok (some s₃) →
        s₃.frames.length ≤ s.frames.length →
        s₃.frames = s.frames ∧ s₃.bodies = s.bodies ∧ s₃.returns = s.returns ∧ s₃.bbidx = b ∧
        ∃ body₂ block₂ mem₂ dst ret n, s₂.bodies.head? = some body₂ ∧
          body₂.blocks[s₂.bbidx]? = some block₂ ∧ block₂.term = .return ∧
          execStmts sir s₂.frames s₂.mem block₂.stmts = .ok mem₂ ∧
          caller.iplaceToPtr mem₂ p = .ok dst ∧ f.localPtr ⟨0⟩ = .ok ret ∧
          sir.placeSize p = .ok n ∧ s₃.mem.read dst n = mem₂.read ret n ∧
          ∀ x, ¬ InRange dst n x → s₃.mem x = mem₂ x := by
  obtain ⟨_, _, _, _, hb, hblock', hstmts', ht⟩ := step_eq_some hcall
  obtain rfl := Option.some.inj (hbody.symm.trans (by rw [hb]; rfl))
  obtain rfl := Option.some.inj (hblock.symm.trans hblock')
  obtain rfl := Except.ok.inj (hstmts.symm.trans hstmts')
  rw [hterm] at ht
  rcases termStep_eq_some ht with
    ⟨fname', args', dest, callee, f, caller, mem₁, hcall', hcallee, hf, hcaller, hcopy, rfl⟩ |
    ⟨h, -⟩
  · obtain ⟨⟨rfl⟩, rfl, rfl⟩ := Terminator.call.inj hcall'
    have hcaller' : s.frames.head? = some caller := by
      revert hcaller; cases s.frames <;> simp [topFrame]
    obtain ⟨hslots, hreads⟩ := hargs callee f caller hcallee hf hcaller'
    refine ⟨callee, f, caller, hcallee, hf, hcaller', rfl, rfl, rfl,
      copyArgs_spec hcopy hreads hslots, fun s₂ s₃ base' hrun hs hd => ?_⟩
    have hopen : CallOpen s f callee (some (p, b)) s₂ :=
      hrun.callOpen ⟨[], [], [], rfl, rfl, rfl, rfl, rfl⟩
    obtain ⟨h1, h2, h3, h4, body₂, block₂, mem₂, hb₂, hblock₂, hterm₂, hstmts₂, hw⟩ :=
      hopen.ret hs hd
    obtain ⟨ret, caller', dst, n, hret, hcaller₂, hdst, hn, hread, hframe⟩ := writeReturn_spec hw
    rw [hcaller, Except.ok.injEq] at hcaller₂
    subst hcaller₂
    exact ⟨h1, h2, h3, h4, body₂, block₂, mem₂, dst, ret, n, hb₂, hblock₂, hterm₂, hstmts₂,
      hdst, hret, hn, hread, hframe⟩
  · cases h

/-- The call of `foo` in the `call` test: the constant `5` lands in `foo`'s
local `1`, and `foo`'s `Return` writes its local `0` to the caller's local `1`. -/
theorem call_return_foo :
    ∃ s s₁, Reachable callSir funcCallBody s ∧ step callSir 0x2000 s = .ok (some s₁) ∧
      ∃ callee f caller, callSir.bodies "foo" = some callee ∧
        createFrame callee 0x2000 = .ok f ∧ s.frames.head? = some caller ∧
        s₁.frames = f :: s.frames ∧ s₁.bodies = callee :: s.bodies ∧ s₁.bbidx = 0 ∧
        (∀ i (hi : i < [IPlace.const (.int (.unsignedInt (.u8 5))) (0, 0)].length),
          ∃ dst bs, f.localPtr ⟨i + 1⟩ = .ok dst ∧
          argBytes callSir caller s.mem [IPlace.const (.int (.unsignedInt (.u8 5))) (0, 0)][i] =
            .ok bs ∧ s₁.mem.read dst bs.length = bs) ∧
        ∀ s₂ s₃ base', RunAbove callSir s.frames.length s₁ s₂ →
          step callSir base' s₂ = .ok (some s₃) → s₃.frames.length ≤ s.frames.length →
          s₃.frames = s.frames ∧ s₃.bodies = s.bodies ∧ s₃.returns = s.returns ∧ s₃.bbidx = 1 ∧
          ∃ body₂ block₂ mem₂ dst ret n, s₂.bodies.head? = some body₂ ∧
            body₂.blocks[s₂.bbidx]? = some block₂ ∧ block₂.term = .return ∧
            execStmts callSir s₂.frames s₂.mem block₂.stmts = .ok mem₂ ∧
            caller.iplaceToPtr mem₂ (.val ⟨1⟩ 0 (0, 0)) = .ok dst ∧
            f.localPtr ⟨0⟩ = .ok ret ∧ callSir.placeSize (.val ⟨1⟩ 0 (0, 0)) = .ok n ∧
            s₃.mem.read dst n = mem₂.read ret n ∧ ∀ x, ¬ InRange dst n x → s₃.mem x = mem₂ x := by
  refine ⟨_, _, @Reachable.start _ _ 0x1000 _ (fun _ => 0) _ rfl rfl, rfl, ?_⟩
  refine call_return rfl rfl rfl rfl rfl fun callee f caller hc hf _ => ?_
  cases hc
  cases hf
  refine ⟨fun i j hi hj bi bj oi oj hbi hbj hoi hoj => ?_, fun m _ arg harg => ?_⟩
  · obtain rfl : i = 0 := by simpa using hi
    obtain rfl : j = 0 := by simpa using hj
    cases hbi
    cases hoi
    exact ⟨by decide, fun h => absurd rfl h⟩
  · rw [List.mem_singleton] at harg
    subst harg
    rfl

end Bh
end Yk
