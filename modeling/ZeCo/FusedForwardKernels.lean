import ZeCo.LogGates
import ZeCo.Tiles

namespace ZeCo.Fused

open Matrix Recurrence

variable {R : Type*} {N C dk dv B B' : ℕ}

@[ext]
structure Stage1Tensors (N dk dv : ℕ) (R : Type*) where
  snaps : Matrix (Fin (N * dk)) (Fin dv) R
  decays : Matrix (Fin (N * dk)) (Fin 1) R
  tot : Matrix (Fin dk) (Fin dv) R

section Kernels

variable [Field R] (exp log : R → R) (nb nv nc : ℕ)

def logDecay (tril : Matrix (Fin C) (Fin C) R) (A : Matrix (Fin (N * C)) (Fin dk) R) (off dof : ℕ)
    (zb : Matrix (Fin C) (Fin B) R) : Matrix (Fin C) (Fin B) R :=
  Loop.up nc (fun r bAcc =>
    let rof := r * (C / nc)
    let trilR := loadTile C (C / nc) tril 0 rof
    let laR := (loadTile (C / nc) B A (off + rof) dof).map log
    bAcc + trilR * laR) zb

def keyValue (kbt : Matrix (Fin B) (Fin C) R) (V : Matrix (Fin (N * C)) (Fin dv) R) (off vof : ℕ)
    (zkv : Matrix (Fin B) (Fin B') R) : Matrix (Fin B) (Fin B') R :=
  Loop.up nc (fun r2 kvAcc =>
    let rof2 := r2 * (C / nc)
    let vR := loadTile (C / nc) B' V (off + rof2) vof
    let kbtR := loadTile B (C / nc) kbt 0 rof2
    kvAcc + kbtR * vR) zkv

def chunkGamma (la : Matrix (Fin C) (Fin B) R) : Matrix (Fin B) (Fin 1) R :=
  (toCol (colSum la)).map exp

def stage1Chunk (A K : Matrix (Fin (N * C)) (Fin dk) R) (V : Matrix (Fin (N * C)) (Fin dv) R)
    (tril : Matrix (Fin C) (Fin C) R) (dof vof n : ℕ)
    (x : Stage1Tensors N dk dv R × Matrix (Fin B) (Fin B') R × Matrix (Fin B) (Fin 1) R) :
    Stage1Tensors N dk dv R × Matrix (Fin B) (Fin B') R × Matrix (Fin B) (Fin 1) R :=
  let sRun := x.2.1
  let gRun := x.2.2
  let off := n * C
  let soff := n * dk
  let snaps := storeTile sRun (soff + dof) vof x.1.snaps
  let decays := storeTile gRun (soff + dof) 0 x.1.decays
  let kB := loadTile C B K off dof
  let aB := loadTile C B A off dof
  let laB := aB.map log
  let zb := laB.map (· * 0)
  let bB := (logDecay log nc tril A off dof zb).map exp
  let gammaB := chunkGamma exp laB
  let kbtB := (quotient kB bB)ᵀ
  let zkv := sRun.map (· * 0)
  let kvB := keyValue nc kbtB V off vof zkv
  let sNew := rowExpandMul (sRun + kvB) gammaB
  let gNew := gRun ⊙ gammaB
  ({ x.1 with snaps, decays }, sNew, gNew)

def glaStage1 (A K : Matrix (Fin (N * C)) (Fin dk) R) (V : Matrix (Fin (N * C)) (Fin dv) R)
    (tril : Matrix (Fin C) (Fin C) R) (zero : Matrix (Fin dk) (Fin dv) R)
    (x : Stage1Tensors N dk dv R) : Stage1Tensors N dk dv R :=
  Loop.up nb (fun j x =>
    let dof := j * (dk / nb)
    let aSeed := loadTile C (dk / nb) A 0 dof
    let g0 := (toCol (colSum (aSeed.map (· * 0)))).map (· + 1)
    Loop.up nv (fun w x =>
      let vof := w * (dv / nv)
      let s0 := loadTile (dk / nb) (dv / nv) zero dof vof
      let y := Loop.up N (fun n => stage1Chunk exp log nc A K V tril dof vof n) (x, s0, g0)
      { y.1 with tot := storeTile y.2.1 dof vof y.1.tot }) x) x

def intraChunk (tril : Matrix (Fin C) (Fin C) R) (V : Matrix (Fin (N * C)) (Fin dv) R)
    (off vof : ℕ) (qtB : Matrix (Fin C) (Fin B) R) (kbtB : Matrix (Fin B) (Fin C) R)
    (oSt : Matrix (Fin C) (Fin B') R) : Matrix (Fin C) (Fin B') R :=
  Loop.up nc (fun r2 oIn =>
    let rof2 := r2 * (C / nc)
    let tril2 := loadTile C (C / nc) tril 0 rof2
    let vR := loadTile (C / nc) B' V (off + rof2) vof
    let kbtR := loadTile B (C / nc) kbtB 0 rof2
    let x := (qtB * kbtR) ⊙ tril2
    oIn + x * vR) oSt

def stage2Block (Q K : Matrix (Fin (N * C)) (Fin dk) R) (V : Matrix (Fin (N * C)) (Fin dv) R)
    (A : Matrix (Fin (N * C)) (Fin dk) R) (tril : Matrix (Fin C) (Fin C) R)
    (Srecv : Matrix (Fin dk) (Fin dv) R) (Ssnap : Matrix (Fin (N * dk)) (Fin dv) R)
    (Gsnap : Matrix (Fin (N * dk)) (Fin 1) R) (n vof dof : ℕ) (B : ℕ)
    (oAcc : Matrix (Fin C) (Fin B') R) : Matrix (Fin C) (Fin B') R :=
  let off := n * C
  let soff := n * dk
  let qB := loadTile C B Q off dof
  let kB := loadTile C B K off dof
  let zb := qB.map (· * 0)
  let bB := (logDecay log nc tril A off dof zb).map exp
  let qtB := qB ⊙ bB
  let kbtB := (quotient kB bB)ᵀ
  let sSnap := loadTile B B' Ssnap (soff + dof) vof
  let gBlk := loadTile B 1 Gsnap (soff + dof) 0
  let bBlk := loadTile B B' Srecv dof vof
  let sBlk := rowExpandMul bBlk gBlk + sSnap
  let oSt := oAcc + qtB * sBlk
  intraChunk nc tril V off vof qtB kbtB oSt

def glaStage2 (Q K : Matrix (Fin (N * C)) (Fin dk) R) (V : Matrix (Fin (N * C)) (Fin dv) R)
    (A : Matrix (Fin (N * C)) (Fin dk) R) (tril : Matrix (Fin C) (Fin C) R)
    (Srecv : Matrix (Fin dk) (Fin dv) R) (Ssnap : Matrix (Fin (N * dk)) (Fin dv) R)
    (Gsnap : Matrix (Fin (N * dk)) (Fin 1) R) (zc : Matrix (Fin C) (Fin dv) R)
    (O : Matrix (Fin (N * C)) (Fin dv) R) : Matrix (Fin (N * C)) (Fin dv) R :=
  Loop.up N (fun n out =>
    let off := n * C
    Loop.up nv (fun w out =>
      let vof := w * (dv / nv)
      let oi0 := loadTile C (dv / nv) zc 0 0
      let oAcc := Loop.up nb (fun j oAcc =>
        stage2Block exp log nc Q K V A tril Srecv Ssnap Gsnap n vof (j * (dk / nb)) (dk / nb)
          oAcc) oi0
      storeTile oAcc off vof out) out) O

end Kernels

theorem map_mul_zero {m n : ℕ} [MulZeroClass R] (X : Matrix (Fin m) (Fin n) R) :
    X.map (· * 0) = 0 := by
  ext i j
  exact mul_zero _

section Blocks

variable [Field R] {nc : ℕ} (hnc : nc ∣ C) (n : Fin N)
include hnc

theorem logDecay_eq (log : R → R) (tril : Matrix (Fin C) (Fin C) R)
    (A : Matrix (Fin (N * C)) (Fin dk) R) {dof : ℕ} (hdof : dof + B ≤ dk)
    (zb : Matrix (Fin C) (Fin B) R) : logDecay log nc tril A (n * C) dof zb =
      zb + loadTile C B (tril * (chunk A n).map log) 0 dof := by
  have hC := Nat.mul_div_cancel' hnc
  have hrow (r : Fin nc) : (loadTile (C / nc) B A (n * C + r * (C / nc)) dof).map log =
      loadTile (C / nc) B ((chunk A n).map log) (r * (C / nc)) dof := by
    rw [loadTile_chunk _ _ (block_end_le hC r), loadTile_map _ _ (block_end_le hC r) hdof]
  simp only [logDecay, hrow]
  exact up_tiles_mul hC tril _ 0 dof zb

theorem keyValue_eq (Z : Matrix (Fin dk) (Fin C) R) (V : Matrix (Fin (N * C)) (Fin dv) R)
    (dof vof : ℕ) (zkv : Matrix (Fin B) (Fin B') R) :
    keyValue nc (loadTile B C Z dof 0) V (n * C) vof zkv =
      zkv + loadTile B B' (Z * chunk V n) dof vof := by
  have hC := Nat.mul_div_cancel' hnc
  have hv (r : Fin nc) : loadTile (C / nc) B' V (n * C + r * (C / nc)) vof =
      loadTile (C / nc) B' (chunk V n) (r * (C / nc)) vof :=
    loadTile_chunk _ _ (block_end_le hC r)
  have hk (r : Fin nc) : loadTile B (C / nc) (loadTile B C Z dof 0) 0 (r * (C / nc)) =
      loadTile B (C / nc) Z dof (r * (C / nc)) := by
    rw [loadTile_loadTile _ (Nat.zero_add B).le (block_end_le hC r), Nat.zero_add, Nat.add_zero]
  simp only [keyValue, hv, hk]
  exact up_tiles_mul hC Z _ dof vof zkv

theorem intraChunk_eq (tril : Matrix (Fin C) (Fin C) R) (V : Matrix (Fin (N * C)) (Fin dv) R)
    (vof : ℕ) (qtB : Matrix (Fin C) (Fin B) R) (kbtB : Matrix (Fin B) (Fin C) R)
    (oSt : Matrix (Fin C) (Fin B') R) : intraChunk nc tril V (n * C) vof qtB kbtB oSt =
      oSt + loadTile C B' (((qtB * kbtB) ⊙ tril) * chunk V n) 0 vof := by
  have hC := Nat.mul_div_cancel' hnc
  have hv (r : Fin nc) : loadTile (C / nc) B' V (n * C + r * (C / nc)) vof =
      loadTile (C / nc) B' (chunk V n) (r * (C / nc)) vof :=
    loadTile_chunk _ _ (block_end_le hC r)
  have hx (r : Fin nc) : (qtB * loadTile B (C / nc) kbtB 0 (r * (C / nc))) ⊙
      loadTile C (C / nc) tril 0 (r * (C / nc)) =
        loadTile C (C / nc) ((qtB * kbtB) ⊙ tril) 0 (r * (C / nc)) := by
    rw [loadTile_hadamard, loadTile_mul, loadTile_full]
  simp only [intraChunk, hv, hx]
  exact up_tiles_mul hC _ _ 0 vof oSt

end Blocks

section Gates

variable {A : Matrix (Fin (N * C)) (Fin dk) ℝ} (hA : ∀ t d, 0 < A t d) (n : Fin N) {dof : ℕ}
  (hdof : dof + B ≤ dk)
include hA hdof

theorem decay_tile {nc : ℕ} (hnc : nc ∣ C) : (logDecay Real.log nc (tril C) A (n * C) dof
    (0 : Matrix (Fin C) (Fin B) ℝ)).map Real.exp = loadTile C B (cumprod (chunk A n)) 0 dof := by
  have ha : ∀ t d, 0 < chunk A n t d := fun _ _ => hA _ _
  rw [logDecay_eq hnc n _ _ _ hdof, zero_add, ← loadTile_map _ _ (Nat.zero_add C).le hdof,
    exp_tril_log ha]

theorem gamma_tile : chunkGamma Real.exp ((loadTile C B A (n * C) dof).map Real.log) =
    loadTile B 1 (toCol fun d => decay (gate (chunk A n) d) 0 C) dof 0 := by
  have hg : (toCol (colSum ((chunk A n).map Real.log))).map Real.exp =
      toCol fun d => decay (gate (chunk A n) d) 0 C := by
    ext d j
    exact exp_colSum_log (fun t d => hA _ _) d
  rw [chunkGamma, loadTile_chunk_start, ← loadTile_map _ _ (Nat.zero_add C).le hdof,
    toCol_colSum_tile, ← loadTile_map _ _ hdof (Nat.zero_add 1).le, hg]

end Gates

def stage1Of [CommRing R] (K : Matrix (Fin (N * C)) (Fin dk) R)
    (V : Matrix (Fin (N * C)) (Fin dv) R) (A : Matrix (Fin (N * C)) (Fin dk) R) :
    Stage1Tensors N dk dv R where
  snaps := flattenSeq fun n : Fin N => stateAt K V A 0 (n * C)
  decays := flattenSeq fun n : Fin N => toCol fun d => decay (gate A d) 0 (n * C)
  tot := stateAt K V A 0 (N * C)

section Stage1

variable (K : Matrix (Fin (N * C)) (Fin dk) ℝ) (V : Matrix (Fin (N * C)) (Fin dv) ℝ)
  {A : Matrix (Fin (N * C)) (Fin dk) ℝ}

def carried (A : Matrix (Fin (N * C)) (Fin dk) ℝ) (B B' dof vof m : ℕ) :
    Matrix (Fin B) (Fin B') ℝ × Matrix (Fin B) (Fin 1) ℝ :=
  (loadTile B B' (stateAt K V A 0 (m * C)) dof vof,
    loadTile B 1 (toCol fun d => decay (gate A d) 0 (m * C)) dof 0)

theorem carried_snap (n : Fin N) {dof : ℕ} (hdof : dof + B ≤ dk) (vof : ℕ) :
    (carried K V A B B' dof vof n).1 = loadTile B B'
      (flattenSeq fun n : Fin N => stateAt K V A 0 (n * C)) (n * dk + dof) vof :=
  (loadTile_flattenSeq (fun n : Fin N => stateAt K V A 0 (n * C)) n hdof).symm

theorem carried_decay (n : Fin N) {dof : ℕ} (hdof : dof + B ≤ dk) (vof : ℕ) :
    (carried K V A B B' dof vof n).2 = loadTile B 1
      (flattenSeq fun n : Fin N => toCol fun d => decay (gate A d) 0 (n * C)) (n * dk + dof) 0 :=
  (loadTile_flattenSeq (fun n : Fin N => toCol fun d => decay (gate A d) 0 (n * C)) n hdof).symm

theorem carried_start {dof : ℕ} (hdof : dof + B ≤ dk) (vof : ℕ) :
    carried K V A B B' dof vof 0 = (0, of fun _ _ => 1) := by
  have h1 : (toCol fun d => decay (gate A d) 0 0 : Matrix (Fin dk) (Fin 1) ℝ) =
      of fun _ _ => 1 := by
    ext i j
    exact decay_zero (gate A i) 0
  rw [carried, Nat.zero_mul, stateAt_zero, loadTile_zero, h1,
    loadTile_const _ hdof (Nat.zero_add 1).le]

variable (hA : ∀ t d, 0 < A t d)
include hA

theorem carried_succ {nc : ℕ} (hnc : nc ∣ C) {dof : ℕ} (hdof : dof + B ≤ dk) (vof : ℕ) (n : Fin N) :
    let x := carried K V A B B' dof vof n
    let bB := (logDecay Real.log nc (tril C) A (n * C) dof 0).map Real.exp
    let gammaB := chunkGamma Real.exp ((loadTile C B A (n * C) dof).map Real.log)
    let kbtB := (quotient (loadTile C B K (n * C) dof) bB)ᵀ
    (rowExpandMul (x.1 + keyValue nc kbtB V (n * C) vof 0) gammaB, x.2 ⊙ gammaB) =
      carried K V A B B' dof vof (n + 1) := by
  intro x bB gammaB kbtB
  have ha : ∀ t d, chunk A n t d ≠ 0 := fun _ _ => (hA _ _).ne'
  have hs : (n.val + 1) * C = n * C + C := by rw [Nat.add_mul, Nat.one_mul]
  have hg : (fun d => decay (gate A d) 0 ((n + 1) * C)) =
      (fun d => decay (gate A d) 0 (n * C)) * fun d => decay (gate (chunk A n) d) 0 C :=
    funext fun d => decay_chunk A n d
  apply Prod.ext
  · simp only [x, bB, gammaB, kbtB, carried]
    rw [decay_tile hA n hdof hnc, gamma_tile hA n hdof, loadTile_chunk_start, ← loadTile_quotient,
      ← loadTile_transpose, keyValue_eq hnc n, zero_add, ← loadTile_add, ← loadTile_rowScale,
      chunk_state_scaled _ _ ha,
      stateAt_slice (chunk_slice K n) (chunk_slice V n) (chunk_slice A n) 0 le_rfl, hs]
  · simp only [x, gammaB, carried]
    rw [gamma_tile hA n hdof, hg, loadTile_toCol_mul]

def stage1Record (A : Matrix (Fin (N * C)) (Fin dk) ℝ) (B B' dof vof n : ℕ)
    (x : Stage1Tensors N dk dv ℝ) : Stage1Tensors N dk dv ℝ :=
  { x with
    snaps := storeTile (carried K V A B B' dof vof n).1 (n * dk + dof) vof x.snaps
    decays := storeTile (carried K V A B B' dof vof n).2 (n * dk + dof) 0 x.decays }

def stage1Tile (A : Matrix (Fin (N * C)) (Fin dk) ℝ) (B B' dof vof : ℕ)
    (x : Stage1Tensors N dk dv ℝ) : Stage1Tensors N dk dv ℝ :=
  let y := Loop.up N (fun n => stage1Record K V A B B' dof vof n) x
  { y with tot := storeTile (carried K V A B B' dof vof N).1 dof vof y.tot }

theorem stage1Walk_eq {nc : ℕ} (hnc : nc ∣ C) {dof : ℕ} (hdof : dof + B ≤ dk) (B' vof : ℕ)
    (x : Stage1Tensors N dk dv ℝ) :
    Loop.up N (fun n => stage1Chunk Real.exp Real.log nc A K V (tril C) dof vof n)
      (x, loadTile B B' (0 : Matrix (Fin dk) (Fin dv) ℝ) dof vof,
        (toCol (colSum ((loadTile C B A 0 dof).map (· * 0)))).map (· + 1)) =
    (Loop.up N (fun n => stage1Record K V A B B' dof vof n) x, carried K V A B B' dof vof N) := by
  have h0 : (loadTile B B' (0 : Matrix (Fin dk) (Fin dv) ℝ) dof vof,
      (toCol (colSum ((loadTile C B A 0 dof).map (· * 0)))).map (· + 1)) =
        carried K V A B B' dof vof 0 := by
    rw [carried_start K V hdof, loadTile_zero, map_mul_zero]
    congr 1
    ext i j
    simp
  rw [h0]
  apply Loop.up_carry (carried K V A B B' dof vof)
  intro n x
  simp only [stage1Chunk, map_mul_zero]
  rw [← carried_succ K V hA hnc hdof vof n]
  rfl

omit hA

theorem stage1Tile_snaps {dof : ℕ} (hdof : dof + B ≤ dk) (vof : ℕ) :
    Writes Stage1Tensors.snaps (stage1Of K V A).snaps
      (fun i e => ∃ n : Fin N, InTile B B' (n * dk + dof) vof i e)
      (stage1Tile K V A B B' dof vof) := by
  apply Writes.congr (f := Loop.up N fun n => stage1Record K V A B B' dof vof n) _ fun _ => rfl
  exact Writes.up fun n => writes_tile fun x =>
    congrArg (fun M => storeTile M _ _ x.snaps) (carried_snap K V n hdof vof)

theorem stage1Tile_decays {dof : ℕ} (hdof : dof + B ≤ dk) (vof : ℕ) :
    Writes Stage1Tensors.decays (stage1Of K V A).decays
      (fun i j => ∃ n : Fin N, InTile B 1 (n * dk + dof) 0 i j)
      (stage1Tile K V A B B' dof vof) := by
  apply Writes.congr (f := Loop.up N fun n => stage1Record K V A B B' dof vof n) _ fun _ => rfl
  exact Writes.up fun n => writes_tile fun x =>
    congrArg (fun M => storeTile M _ _ x.decays) (carried_decay K V n hdof vof)

theorem stage1Tile_tot (dof vof : ℕ) :
    Writes Stage1Tensors.tot (stage1Of K V A).tot (fun d e => InTile B B' dof vof d e)
      (stage1Tile K V A B B' dof vof) := by
  apply writes_tile
  intro x
  have hx := Loop.up_keeps (f := fun n : Fin N => stage1Record K V A B B' dof vof n)
    Stage1Tensors.tot (fun _ _ => rfl) x
  exact congrArg (storeTile (carried K V A B B' dof vof N).1 dof vof) hx

include hA

theorem glaStage1_eq {nb nv nc : ℕ} (hnb : nb ∣ dk) (hnv : nv ∣ dv) (hpos : 0 < nv) (hnc : nc ∣ C)
    (x : Stage1Tensors N dk dv ℝ) :
    glaStage1 Real.exp Real.log nb nv nc A K V (tril C) 0 x = stage1Of K V A := by
  have hb := Nat.mul_div_cancel' hnb
  have hdof (j : Fin nb) := block_end_le hb j
  have hx : glaStage1 Real.exp Real.log nb nv nc A K V (tril C) 0 x =
      Loop.up nb (fun j => Loop.up nv fun w =>
        stage1Tile K V A (dk / nb) (dv / nv) (j * (dk / nb)) (w * (dv / nv))) x := by
    have hwalk (j : Fin nb) := stage1Walk_eq K V hA hnc (hdof j) (dv / nv)
    simp only [glaStage1, hwalk]
    rfl
  rw [hx]
  apply Stage1Tensors.ext
  · refine (Writes.up fun j => Writes.up fun w => stage1Tile_snaps K V (hdof j) _).eq ?_ x
    intro i e
    obtain ⟨n, j, w, hi⟩ := exists_chunk_block_tile hnb hnv i e
    exact ⟨j, w, n, hi⟩
  · refine (Writes.up fun j => Writes.up fun w => stage1Tile_decays K V (hdof j) _).eq ?_ x
    intro i e
    obtain ⟨n, j, hi⟩ := exists_chunk_block_column hnb i e
    exact ⟨j, ⟨0, hpos⟩, n, hi⟩
  · refine (Writes.up fun j => Writes.up fun w => stage1Tile_tot K V _ _).eq ?_ x
    exact exists_tile hnb hnv

end Stage1

section Stage2

variable (Q K : Matrix (Fin (N * C)) (Fin dk) ℝ) (V : Matrix (Fin (N * C)) (Fin dv) ℝ)
  {A : Matrix (Fin (N * C)) (Fin dk) ℝ} (Srecv : Matrix (Fin dk) (Fin dv) ℝ)
  (hA : ∀ t d, 0 < A t d)
include hA

theorem stage2Block_eq {nc : ℕ} (hnc : nc ∣ C) (n : Fin N) {dof : ℕ} (hdof : dof + B ≤ dk)
    (vof : ℕ) (oAcc : Matrix (Fin C) (Fin B') ℝ) :
    let qt := chunk Q n ⊙ cumprod (chunk A n)
    let kb := quotient (chunk K n) (cumprod (chunk A n))
    stage2Block Real.exp Real.log nc Q K V A (tril C) Srecv (stage1Of K V A).snaps
      (stage1Of K V A).decays n vof dof B oAcc = oAcc + (loadTile C B qt 0 dof *
        loadTile B B' (stateAt K V A Srecv (n * C)) dof vof + loadTile C B'
          (((loadTile C B qt 0 dof * loadTile B C kbᵀ dof 0) ⊙ tril C) * chunk V n) 0 vof) := by
  intro qt kb
  have hstate : rowExpandMul (loadTile B B' Srecv dof vof)
      (loadTile B 1 (stage1Of K V A).decays (n * dk + dof) 0) +
        loadTile B B' (stage1Of K V A).snaps (n * dk + dof) vof =
          loadTile B B' (stateAt K V A Srecv (n * C)) dof vof := by
    rw [stage1Of, loadTile_flattenSeq _ n hdof, loadTile_flattenSeq _ n hdof, ← loadTile_rowScale,
      ← loadTile_add, add_comm, ← stateAt_eq_add]
  simp only [stage2Block, map_mul_zero, hstate]
  rw [decay_tile hA n hdof hnc, loadTile_chunk_start, loadTile_chunk_start, ← loadTile_hadamard,
    ← loadTile_quotient, ← loadTile_transpose, intraChunk_eq hnc n, add_assoc]

theorem stage2_tile {nb nc : ℕ} (hnb : nb ∣ dk) (hnc : nc ∣ C) (n : Fin N) (vof : ℕ) :
    let qt := chunk Q n ⊙ cumprod (chunk A n)
    let kb := quotient (chunk K n) (cumprod (chunk A n))
    Loop.up nb (fun j oAcc => stage2Block Real.exp Real.log nc Q K V A (tril C) Srecv
      (stage1Of K V A).snaps (stage1Of K V A).decays n vof (j * (dk / nb)) (dk / nb) oAcc)
      (0 : Matrix (Fin C) (Fin B') ℝ) = loadTile C B'
        (qt * stateAt K V A Srecv (n * C) + ((qt * kbᵀ) ⊙ tril C) * chunk V n) 0 vof := by
  intro qt kb
  have hb := Nat.mul_div_cancel' hnb
  have hscores := sum_tiles_mul (m := C) (n := C) hb qt kbᵀ 0 0
  rw [loadTile_full] at hscores
  simp only [stage2Block_eq Q K V Srecv hA hnc n (block_end_le hb _)]
  rw [up_add, zero_add, Finset.sum_add_distrib, sum_tiles_mul hb, ← loadTile_sum, ← Matrix.sum_mul,
    sum_hadamard, hscores, loadTile_add]

theorem stage2_chunk (n : Fin N) : let qt := chunk Q n ⊙ cumprod (chunk A n)
    let kb := quotient (chunk K n) (cumprod (chunk A n))
    qt * stateAt K V A Srecv (n * C) + ((qt * kbᵀ) ⊙ tril C) * chunk V n =
      chunk (of fun l => outputAt Q K V A Srecv l) n := by
  intro qt kb
  have ha : ∀ t d, chunk A n t d ≠ 0 := fun _ _ => (hA _ _).ne'
  funext t
  rw [chunk_output _ _ _ ha]
  exact outputAt_slice (chunk_slice Q n) (chunk_slice K n) (chunk_slice V n) (chunk_slice A n) Srecv
    t _

theorem glaStage2_eq {nb nv nc : ℕ} (hnb : nb ∣ dk) (hnv : nv ∣ dv) (hnc : nc ∣ C)
    (O : Matrix (Fin (N * C)) (Fin dv) ℝ) :
    glaStage2 Real.exp Real.log nb nv nc Q K V A (tril C) Srecv (stage1Of K V A).snaps
      (stage1Of K V A).decays 0 O = of fun l => outputAt Q K V A Srecv l := by
  set F : Matrix (Fin (N * C)) (Fin dv) ℝ := of fun l => outputAt Q K V A Srecv l
  have htile (n : Fin N) (w : Fin nv) : Loop.up nb (fun j oAcc =>
      stage2Block Real.exp Real.log nc Q K V A (tril C) Srecv (stage1Of K V A).snaps
        (stage1Of K V A).decays n (w * (dv / nv)) (j * (dk / nb)) (dk / nb) oAcc)
      (loadTile C (dv / nv) (0 : Matrix (Fin C) (Fin dv) ℝ) 0 0) =
        loadTile C (dv / nv) F (n * C) (w * (dv / nv)) := by
    rw [loadTile_zero, stage2_tile Q K V Srecv hA hnb hnc, stage2_chunk Q K V Srecv hA,
      loadTile_chunk_start]
  simp only [glaStage2, htile]
  refine (Writes.up fun n => Writes.up fun w => writes_storeTile F C (dv / nv) (n * C)
    (w * (dv / nv))).eq ?_ O
  exact exists_chunk_tile hnv

end Stage2

end ZeCo.Fused
