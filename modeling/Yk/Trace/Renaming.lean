/-
# What one renaming step does

Renaming in a block of a body `b` changes nothing of the renamer but its recorded
declarations, and every declaration it records is `b`'s, for a local `l` of `b`,
under the name `offset + l`, which fits a `u32` (`VarRenamer.Renames`). Every
local it hands out is such a renamed local of `b`, or the innermost open call's
destination, which stands for `$0` (`VarRenamer.Gives`).

One spec lemma per renaming function says so (`renameLocal_spec`,
`renamePlace_spec`, `renameOperand_spec`, `renameRvalue_spec`,
`renameArgs_spec`); the steps of the lowering are specified from these
(`Yk.Trace.Steps`).

Key definitions: `VarRenamer.RenamesLocal`, `VarRenamer.Renames`,
`VarRenamer.Gives`.
-/
import Yk.Trace.Trim

namespace Yk
namespace Trace

open Pack

namespace VarRenamer

/-- `x` is the local `l` of `b` renamed by the offset `off`, and `r'` holds `b`'s
declaration of `l` for it. -/
def RenamesLocal (b : Body) (off : Nat) (r' : VarRenamer) (x : Local) : Prop :=
  ∃ l < b.localDecls.length, x.idx = off + l ∧ x.idx < 4294967296 ∧
    r'.usedDecls x = b.localDecls[l]?

/-- Renaming in a block of `b` took `r` to `r'`: the scopes are as they were, and
every declaration that changed is `b`'s for the local renamed to it. -/
structure Renames (b : Body) (r r' : VarRenamer) : Prop where
  scopes : r'.scopes = r.scopes
  decls : ∀ x, r'.usedDecls x = r.usedDecls x ∨ RenamesLocal b r.offset r' x

/-- A local renaming in a block of `b` hands out: a renamed local of `b`, or the
innermost open call's destination. -/
def Gives (b : Body) (r r' : VarRenamer) (x : Local) : Prop :=
  RenamesLocal b r.offset r' x ∨ ∃ p ∈ r.returns.head?, x = p.local

variable {b : Body} {r r₁ r' : VarRenamer} {x : Local}

theorem Renames.refl (b : Body) (r : VarRenamer) : Renames b r r := ⟨rfl, fun _ => .inl rfl⟩

theorem Renames.offset (h : Renames b r r') : r'.offset = r.offset :=
  congrArg (fun s => s.2.1) h.scopes

theorem Renames.returns (h : Renames b r r') : r'.returns = r.returns :=
  congrArg (fun s => s.2.2.2) h.scopes

theorem RenamesLocal.congr {off : Nat} (hx : RenamesLocal b off r₁ x)
    (hd : r'.usedDecls x = r₁.usedDecls x) : RenamesLocal b off r' x :=
  let ⟨l, hl, hxl, hlt, h⟩ := hx
  ⟨l, hl, hxl, hlt, hd.trans h⟩

/-- A renamed local keeps its declaration while the same body goes on renaming
under the same offset. -/
theorem RenamesLocal.mono {off : Nat} (hx : RenamesLocal b off r₁ x) (h : Renames b r₁ r')
    (ho : r₁.offset = off) : RenamesLocal b off r' x := by
  rcases h.decls x with h' | ⟨l', -, hxl', -, hd'⟩
  · exact hx.congr h'
  · obtain ⟨l, hl, hxl, hlt, -⟩ := hx
    exact ⟨l, hl, hxl, hlt, by rw [hd', show l' = l by omega]⟩

theorem Renames.trans (h₁ : Renames b r r₁) (h₂ : Renames b r₁ r') : Renames b r r' := by
  refine ⟨h₂.scopes.trans h₁.scopes, fun x => ?_⟩
  rcases h₂.decls x with e | hx
  · rcases h₁.decls x with e' | hx
    · exact .inl (e.trans e')
    · exact .inr (hx.mono h₂ h₁.offset)
  · exact .inr (h₁.offset ▸ hx)

theorem Gives.mono (hx : Gives b r r₁ x) (h₁ : Renames b r r₁) (h₂ : Renames b r₁ r') :
    Gives b r r' x :=
  hx.imp_left fun hx => hx.mono h₂ h₁.offset

/-- What a later step hands out, seen from before an earlier one. -/
theorem Gives.of_renames (hx : Gives b r₁ r' x) (h₁ : Renames b r r₁) : Gives b r r' x := by
  rw [Gives, ← h₁.offset, ← h₁.returns]
  exact hx

theorem usedDecl_renames (r : VarRenamer) {l : Nat} {d : LocalDecl} (x : Local)
    (hd : b.localDecls[l]? = some d) (hx : x.idx = r.offset + l) (hlt : x.idx < 4294967296) :
    Renames b r (r.usedDecl x d) ∧ RenamesLocal b r.offset (r.usedDecl x d) x := by
  have hx' : RenamesLocal b r.offset (r.usedDecl x d) x :=
    ⟨l, (List.getElem?_eq_some_iff.mp hd).1, hx, hlt, by simp [usedDecl, hd]⟩
  refine ⟨⟨rfl, fun y => ?_⟩, hx'⟩
  by_cases h : y = x
  · exact .inr (h ▸ hx')
  · exact .inl (by simp [usedDecl, h])

/-! ### One spec lemma per renaming function -/

theorem renameLocal_spec {l l' : Local} (h : r.renameLocal l b = .ok (l', r')) :
    Renames b r r' ∧ RenamesLocal b r.offset r' l' := by
  obtain ⟨v, hv, h⟩ := bind_eq_ok.mp h
  obtain ⟨d, hd, h⟩ := bind_eq_ok.mp h
  cases h
  obtain ⟨hlt, rfl⟩ := addU32_eq_ok.mp hv
  exact usedDecl_renames r ⟨l.idx + r.offset⟩ (index_eq_ok.mp hd) (Nat.add_comm _ _) hlt

/-- Renaming `$0` hands out the innermost destination and records nothing. -/
theorem renamePlace_spec {p p' : Place} (h : r.renamePlace p b = .ok (p', r')) :
    Renames b r r' ∧ Gives b r r' p'.local := by
  unfold renamePlace at h
  split at h
  · split at h
    · rename_i v vs hret
      cases h
      exact ⟨.refl b r, .inr ⟨p', by rw [hret]; rfl, rfl⟩⟩
    · cases h
  · obtain ⟨⟨l, r₁⟩, h₁, h⟩ := bind_eq_ok.mp h
    cases h
    exact (renameLocal_spec h₁).imp_right .inl

theorem renameOperand_spec {o o' : Operand} (h : r.renameOperand o b = .ok (o', r')) :
    Renames b r r' ∧ ∀ x ∈ Operand.locals o', Gives b r r' x := by
  cases o with
  | place p =>
    obtain ⟨⟨p₁, r₁⟩, h₁, h⟩ := bind_eq_ok.mp h
    cases h
    obtain ⟨hr, hx⟩ := renamePlace_spec h₁
    exact ⟨hr, by simpa [Operand.locals] using hx⟩
  | constant c =>
    cases h
    exact ⟨.refl b r, by simp [Operand.locals]⟩

/-- Two renamings in a row: what the first handed out stays given. -/
theorem Renames.append {xs ys : List Local} {r₂ : VarRenamer}
    (h₁ : Renames b r r₁) (hxs : ∀ x ∈ xs, Gives b r r₁ x)
    (h₂ : Renames b r₁ r₂) (hys : ∀ y ∈ ys, Gives b r₁ r₂ y) :
    Renames b r r₂ ∧ ∀ x ∈ xs ++ ys, Gives b r r₂ x := by
  refine ⟨h₁.trans h₂, fun x hx => ?_⟩
  rcases List.mem_append.mp hx with hx | hx
  · exact (hxs x hx).mono h₁ h₂
  · exact (hys x hx).of_renames h₁

theorem renameRvalue_spec {rv rv' : Rvalue} (h : r.renameRvalue rv b = .ok (rv', r')) :
    Renames b r r' ∧ ∀ x ∈ Rvalue.locals rv', Gives b r r' x := by
  cases rv with
  | use o =>
    obtain ⟨⟨o₁, r₁⟩, h₁, h⟩ := bind_eq_ok.mp h
    cases h
    exact renameOperand_spec h₁
  | binaryOp op o1 o2 | checkedBinaryOp op o1 o2 =>
    obtain ⟨⟨o₁, r₁⟩, h₁, h⟩ := bind_eq_ok.mp h
    obtain ⟨⟨o₂, r₂⟩, h₂, h⟩ := bind_eq_ok.mp h
    cases h
    obtain ⟨hr₁, hx₁⟩ := renameOperand_spec h₁
    obtain ⟨hr₂, hx₂⟩ := renameOperand_spec h₂
    exact hr₁.append hx₁ hr₂ hx₂
  | ref p =>
    obtain ⟨⟨p₁, r₁⟩, h₁, h⟩ := bind_eq_ok.mp h
    cases h
    obtain ⟨hr, hx⟩ := renamePlace_spec h₁
    exact ⟨hr, by simpa [Rvalue.locals] using hx⟩
  | unimplemented s =>
    cases h
    exact ⟨.refl b r, by simp [Rvalue.locals]⟩

theorem renameArgs_spec {os os' : List Operand} (h : renameArgs r os b = .ok (os', r')) :
    Renames b r r' ∧ ∀ x ∈ os'.flatMap Operand.locals, Gives b r r' x := by
  induction os generalizing r os' with
  | nil =>
    cases h
    exact ⟨.refl _ _, by simp⟩
  | cons o os ih =>
    obtain ⟨⟨o₁, r₁⟩, h₁, h⟩ := bind_eq_ok.mp h
    obtain ⟨⟨os₁, r₂⟩, h₂, h⟩ := bind_eq_ok.mp h
    cases h
    obtain ⟨hr₁, hx₁⟩ := renameOperand_spec h₁
    obtain ⟨hr₂, hx₂⟩ := ih h₂
    rw [List.flatMap_cons]
    exact hr₁.append hx₁ hr₂ hx₂

end VarRenamer

end Trace
end Yk
