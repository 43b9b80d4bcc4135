import ZeCo.FusedForwardKernels

namespace ZeCo.Fused

open Matrix Recurrence

variable {R : Type*} {N C dk dv B B' : ℕ}

@[ext]
structure Records (N C dk dv : ℕ) (R : Type*) where
  snaps : Matrix (Fin (N * dk)) (Fin dv) R
  cp : Matrix (Fin (N * dk)) (Fin 1) R
  bs : Matrix (Fin (N * C)) (Fin dk) R

section Kernel

variable [Field R] (exp log : R → R) (nb nv nc : ℕ) {Z : ℕ}

def recomputeChunk (A K : Matrix (Fin (N * C)) (Fin dk) R) (V : Matrix (Fin (N * C)) (Fin dv) R)
    (tril : Matrix (Fin C) (Fin C) R) (zero : Matrix (Fin dk) (Fin dv) R)
    (zc : Matrix (Fin C) (Fin Z) R) (dof vof n : ℕ)
    (x : Records N C dk dv R × Matrix (Fin B) (Fin B') R × Matrix (Fin B) (Fin 1) R) :
    Records N C dk dv R × Matrix (Fin B) (Fin B') R × Matrix (Fin B) (Fin 1) R :=
  let sRun := x.2.1
  let cRun := x.2.2
  let off := n * C
  let soff := n * dk
  let snaps := storeTile sRun (soff + dof) vof x.1.snaps
  let cp := storeTile cRun (soff + dof) 0 x.1.cp
  let kB := loadTile C B K off dof
  let laB := (loadTile C B A off dof).map log
  let zb := loadTile C B zc 0 0
  let bB := (logDecay log nc tril A off dof zb).map exp
  let bs := storeTile bB off dof x.1.bs
  let gammaB := chunkGamma exp laB
  let kbtB := (quotient kB bB)ᵀ
  let zkv := loadTile B B' zero dof vof
  let kvB := keyValue nc kbtB V off vof zkv
  let sNew := rowExpandMul (sRun + kvB) gammaB
  let cNew := cRun ⊙ gammaB
  ({ snaps, cp, bs }, sNew, cNew)

def glaRecompute (A K : Matrix (Fin (N * C)) (Fin dk) R) (V : Matrix (Fin (N * C)) (Fin dv) R)
    (tril : Matrix (Fin C) (Fin C) R) (zero : Matrix (Fin dk) (Fin dv) R)
    (onev : Matrix (Fin dk) (Fin 1) R) (zc : Matrix (Fin C) (Fin Z) R)
    (x : Records N C dk dv R × Matrix (Fin dk) (Fin dv) R) :
    Records N C dk dv R × Matrix (Fin dk) (Fin dv) R :=
  Loop.up nb (fun j x =>
    let dof := j * (dk / nb)
    Loop.up nv (fun w x =>
      let vof := w * (dv / nv)
      let s0 := loadTile (dk / nb) (dv / nv) zero dof vof
      let c0 := loadTile (dk / nb) 1 onev dof 0
      let y := Loop.up N (fun n => recomputeChunk exp log nc A K V tril zero zc dof vof n)
        (x.1, s0, c0)
      (y.1, storeTile y.2.1 dof vof x.2)) x) x

end Kernel

def recordsOf [CommRing R] (K : Matrix (Fin (N * C)) (Fin dk) R)
    (V : Matrix (Fin (N * C)) (Fin dv) R) (A : Matrix (Fin (N * C)) (Fin dk) R) :
    Records N C dk dv R where
  snaps := flattenSeq fun n : Fin N => stateAt K V A 0 (n * C)
  cp := flattenSeq fun n : Fin N => toCol fun d => decay (gate A d) 0 (n * C)
  bs := flattenSeq fun n : Fin N => cumprod (chunk A n)

variable (K : Matrix (Fin (N * C)) (Fin dk) ℝ) (V : Matrix (Fin (N * C)) (Fin dv) ℝ)

section Walk

variable (A : Matrix (Fin (N * C)) (Fin dk) ℝ)

def recomputeRecord (B B' dof vof : ℕ) (n : Fin N) (x : Records N C dk dv ℝ) :
    Records N C dk dv ℝ where
  snaps := storeTile (carried K V A B B' dof vof n).1 (n * dk + dof) vof x.snaps
  cp := storeTile (carried K V A B B' dof vof n).2 (n * dk + dof) 0 x.cp
  bs := storeTile (loadTile C B (cumprod (chunk A n)) 0 dof) (n * C) dof x.bs

def recomputeTile (B B' dof vof : ℕ) (x : Records N C dk dv ℝ × Matrix (Fin dk) (Fin dv) ℝ) :
    Records N C dk dv ℝ × Matrix (Fin dk) (Fin dv) ℝ :=
  (Loop.up N (recomputeRecord K V A B B' dof vof) x.1,
    storeTile (carried K V A B B' dof vof N).1 dof vof x.2)

theorem recomputeTile_snaps {dof : ℕ} (hdof : dof + B ≤ dk) (vof : ℕ) :
    Writes (fun x => x.1.snaps) (recordsOf K V A).snaps
      (fun i e => ∃ n : Fin N, InTile B B' (n * dk + dof) vof i e)
      (recomputeTile K V A B B' dof vof) := by
  have h : Writes Records.snaps (recordsOf K V A).snaps _ _ :=
    Writes.up (f := recomputeRecord K V A B B' dof vof) fun n => writes_tile fun x =>
      congrArg (fun M => storeTile M _ _ x.snaps) (carried_snap K V n hdof vof)
  exact fun x => h x.1

theorem recomputeTile_cp {dof : ℕ} (hdof : dof + B ≤ dk) (vof : ℕ) :
    Writes (fun x => x.1.cp) (recordsOf K V A).cp
      (fun i j => ∃ n : Fin N, InTile B 1 (n * dk + dof) 0 i j)
      (recomputeTile K V A B B' dof vof) := by
  have h : Writes Records.cp (recordsOf K V A).cp _ _ :=
    Writes.up (f := recomputeRecord K V A B B' dof vof) fun n => writes_tile fun x =>
      congrArg (fun M => storeTile M _ _ x.cp) (carried_decay K V n hdof vof)
  exact fun x => h x.1

theorem recomputeTile_bs (dof vof : ℕ) :
    Writes (fun x => x.1.bs) (recordsOf K V A).bs
      (fun i d => ∃ n : Fin N, InTile C B (n * C) dof i d) (recomputeTile K V A B B' dof vof) := by
  have h : Writes Records.bs (recordsOf K V A).bs _ _ :=
    Writes.up (f := recomputeRecord K V A B B' dof vof) fun n => writes_tile fun x => by
      rw [loadTile_chunk_start, recordsOf, chunk_flattenSeq]
      rfl
  exact fun x => h x.1

theorem recomputeTile_tot (dof vof : ℕ) :
    Writes Prod.snd (stateAt K V A 0 (N * C)) (fun d e => InTile B B' dof vof d e)
      (recomputeTile K V A B B' dof vof) :=
  writes_tile fun _ => rfl

end Walk

section Spec

variable {A : Matrix (Fin (N * C)) (Fin dk) ℝ} (hA : ∀ t d, 0 < A t d) {Z : ℕ}
include hA

theorem recomputeWalk_eq {nc : ℕ} (hnc : nc ∣ C) {dof : ℕ} (hdof : dof + B ≤ dk) (B' vof : ℕ)
    (x : Records N C dk dv ℝ) :
    Loop.up N (fun n => recomputeChunk Real.exp Real.log nc A K V (tril C) 0
      (0 : Matrix (Fin C) (Fin Z) ℝ) dof vof n)
      (x, loadTile B B' (0 : Matrix (Fin dk) (Fin dv) ℝ) dof vof,
        loadTile B 1 (of fun _ _ => 1 : Matrix (Fin dk) (Fin 1) ℝ) dof 0) =
    (Loop.up N (recomputeRecord K V A B B' dof vof) x, carried K V A B B' dof vof N) := by
  rw [loadTile_zero, loadTile_const _ hdof (Nat.zero_add 1).le, ← carried_start K V hdof]
  apply Loop.up_carry (carried K V A B B' dof vof)
  intro n x
  simp only [recomputeChunk, loadTile_zero]
  rw [← carried_succ K V hA hnc hdof vof n, decay_tile hA n hdof hnc]
  rfl

theorem glaRecompute_eq {nb nv nc : ℕ} (hnb : nb ∣ dk) (hnv : nv ∣ dv) (hpos : 0 < nv)
    (hnc : nc ∣ C) (x : Records N C dk dv ℝ × Matrix (Fin dk) (Fin dv) ℝ) :
    glaRecompute Real.exp Real.log nb nv nc A K V (tril C) 0 (of fun _ _ => 1)
      (0 : Matrix (Fin C) (Fin Z) ℝ) x = (recordsOf K V A, stateAt K V A 0 (N * C)) := by
  have hb := Nat.mul_div_cancel' hnb
  have hv := Nat.mul_div_cancel' hnv
  have hdof (j : Fin nb) := block_end_le hb j
  have hx : glaRecompute Real.exp Real.log nb nv nc A K V (tril C) 0 (of fun _ _ => 1)
      (0 : Matrix (Fin C) (Fin Z) ℝ) x = Loop.up nb (fun j => Loop.up nv fun w =>
        recomputeTile K V A (dk / nb) (dv / nv) (j * (dk / nb)) (w * (dv / nv))) x := by
    have hwalk (j : Fin nb) := recomputeWalk_eq (Z := Z) K V hA hnc (hdof j) (dv / nv)
    simp only [glaRecompute, hwalk]
    rfl
  rw [hx]
  refine Prod.ext (Records.ext ?_ ?_ ?_) ?_
  · refine (Writes.up fun j => Writes.up fun w => recomputeTile_snaps K V A (hdof j) _).eq ?_ x
    intro i e
    obtain ⟨n, j, w, hi⟩ := exists_chunk_block_tile hnb hnv i e
    exact ⟨j, w, n, hi⟩
  · refine (Writes.up fun j => Writes.up fun w => recomputeTile_cp K V A (hdof j) _).eq ?_ x
    intro i e
    obtain ⟨n, j, hi⟩ := exists_chunk_block_column hnb i e
    exact ⟨j, ⟨0, hpos⟩, n, hi⟩
  · refine (Writes.up fun j => Writes.up fun w => recomputeTile_bs K V A _ _).eq ?_ x
    intro i d
    obtain ⟨n, j, hi⟩ := exists_chunk_tile hnb i d
    exact ⟨j, ⟨0, hpos⟩, n, hi⟩
  · refine (Writes.up fun j => Writes.up fun w => recomputeTile_tot K V A _ _).eq ?_ x
    exact exists_tile hnb hnv

end Spec

end ZeCo.Fused
