import ZeCo.FusedRecompute
import ZeCo.GlaBackward

namespace ZeCo.Fused

open Matrix Recurrence

variable {R : Type*} {N C dk dv B Z : ℕ}

@[ext]
structure Adjoints (N C dk dv : ℕ) (R : Type*) where
  dQ : Matrix (Fin (N * C)) (Fin dk) R
  dKo : Matrix (Fin (N * C)) (Fin dk) R
  dVo : Matrix (Fin (N * C)) (Fin dv) R
  dgcso : Matrix (Fin (N * C)) (Fin dk) R
  dH : Matrix (Fin (N * dk)) (Fin dv) R
  dCp : Matrix (Fin (N * dk)) (Fin 1) R

section Kernel

variable [Field R] (nb nv nc : ℕ)

def interChunk (dO : Matrix (Fin (N * C)) (Fin dv) R) (Srecv : Matrix (Fin dk) (Fin dv) R)
    (Ssnap : Matrix (Fin (N * dk)) (Fin dv) R) (n dof : ℕ) (qtB : Matrix (Fin C) (Fin B) R)
    (cprev : Matrix (Fin B) (Fin 1) R)
    (x : Matrix (Fin (N * dk)) (Fin dv) R × Matrix (Fin C) (Fin B) R × Matrix (Fin B) (Fin 1) R) :
    Matrix (Fin (N * dk)) (Fin dv) R × Matrix (Fin C) (Fin B) R × Matrix (Fin B) (Fin 1) R :=
  Loop.up nv (fun w x =>
    let off := n * C
    let soff := n * dk
    let vof := w * (dv / nv)
    let doW := loadTile C (dv / nv) dO off vof
    let srecv := loadTile B (dv / nv) Srecv dof vof
    let hmat := loadTile B (dv / nv) Ssnap (soff + dof) vof + rowExpandMul srecv cprev
    let dqN := x.2.1 + doW * hmatᵀ
    let dhN := qtBᵀ * doW
    let oh := storeTile dhN (soff + dof) vof x.1
    let dcN := x.2.2 + toCol (rowSum (dhN ⊙ srecv))
    (oh, dqN, dcN)) x

def keyRowSums (dO V : Matrix (Fin (N * C)) (Fin dv) R) (tril2 : Matrix (Fin C) (Fin (C / nc)) R)
    (n rof2 : ℕ) (kbR : Matrix (Fin (C / nc)) (Fin B) R) (qtB : Matrix (Fin C) (Fin B) R)
    (x : Matrix (Fin C) (Fin B) R × Matrix (Fin (C / nc)) (Fin B) R) :
    Matrix (Fin C) (Fin B) R × Matrix (Fin (C / nc)) (Fin B) R :=
  Loop.up nv (fun w2 x =>
    let off := n * C
    let vof2 := w2 * (dv / nv)
    let doW2 := loadTile C (dv / nv) dO off vof2
    let vR := loadTile (C / nc) (dv / nv) V (off + rof2) vof2
    let dsc := (doW2 * vRᵀ) ⊙ tril2
    (x.1 + dsc * kbR, x.2 + dscᵀ * qtB)) x

def withinChunk (dO V : Matrix (Fin (N * C)) (Fin dv) R) (tril : Matrix (Fin C) (Fin C) R)
    (zc : Matrix (Fin C) (Fin Z) R) (n dof : ℕ) (qtB kbB bB : Matrix (Fin C) (Fin B) R)
    (x : Matrix (Fin (N * C)) (Fin dk) R × Matrix (Fin C) (Fin B) R) :
    Matrix (Fin (N * C)) (Fin dk) R × Matrix (Fin C) (Fin B) R :=
  Loop.up nc (fun r2 x =>
    let off := n * C
    let rof2 := r2 * (C / nc)
    let tril2 := loadTile C (C / nc) tril 0 rof2
    let kbR := loadTile (C / nc) B kbB rof2 0
    let bR := loadTile (C / nc) B bB rof2 0
    let dk0 := loadTile (C / nc) B zc 0 0
    let y := keyRowSums nv nc dO V tril2 n rof2 kbR qtB (x.2, dk0)
    (storeTile (quotient y.2 bR) (off + rof2) dof x.1, y.1)) x

def gradOBlock (Q K : Matrix (Fin (N * C)) (Fin dk) R) (V dO : Matrix (Fin (N * C)) (Fin dv) R)
    (tril : Matrix (Fin C) (Fin C) R) (record : Records N C dk dv R)
    (Srecv : Matrix (Fin dk) (Fin dv) R) (zc : Matrix (Fin C) (Fin Z) R)
    (zerov : Matrix (Fin dk) (Fin 1) R) (n dof B : ℕ) (x : Adjoints N C dk dv R) :
    Adjoints N C dk dv R :=
  let off := n * C
  let soff := n * dk
  let qB := loadTile C B Q off dof
  let kB := loadTile C B K off dof
  let bB := loadTile C B record.bs off dof
  let qtB := qB ⊙ bB
  let kbB := quotient kB bB
  let cprev := loadTile B 1 record.cp (soff + dof) 0
  let dq0 := loadTile C B zc 0 0
  let dc0 := loadTile B 1 zerov 0 0
  let y := interChunk nv dO Srecv record.snaps n dof qtB cprev (x.dH, dq0, dc0)
  let oc := storeTile y.2.2 (soff + dof) 0 x.dCp
  let z := withinChunk nv nc dO V tril zc n dof qtB kbB bB (x.dKo, y.2.1)
  let dqOut := z.2 ⊙ bB
  let oq := storeTile dqOut off dof x.dQ
  -- the key-row loop wrote this head block's `dK_o` in pieces
  let dkoB := loadTile C B z.1 off dof
  let og := storeTile (dqOut ⊙ qB - dkoB ⊙ kB) off dof x.dgcso
  { x with dQ := oq, dKo := z.1, dgcso := og, dH := y.1, dCp := oc }

def gradOPass1 (Q K : Matrix (Fin (N * C)) (Fin dk) R) (V dO : Matrix (Fin (N * C)) (Fin dv) R)
    (tril : Matrix (Fin C) (Fin C) R) (record : Records N C dk dv R)
    (Srecv : Matrix (Fin dk) (Fin dv) R) (zc : Matrix (Fin C) (Fin Z) R)
    (zerov : Matrix (Fin dk) (Fin 1) R) (x : Adjoints N C dk dv R) : Adjoints N C dk dv R :=
  Loop.up N (fun n x => Loop.up nb (fun j x =>
    gradOBlock nv nc Q K V dO tril record Srecv zc zerov n (j * (dk / nb)) (dk / nb) x) x) x

def gradOValues (Q K : Matrix (Fin (N * C)) (Fin dk) R) (dO : Matrix (Fin (N * C)) (Fin dv) R)
    (tril : Matrix (Fin C) (Fin C) R) (Bs : Matrix (Fin (N * C)) (Fin dk) R)
    (zc : Matrix (Fin C) (Fin Z) R) (ov : Matrix (Fin (N * C)) (Fin dv) R) :
    Matrix (Fin (N * C)) (Fin dv) R :=
  Loop.up N (fun n2 ov => Loop.up nc (fun r3 ov =>
    let of2 := n2 * C
    let rf3 := r3 * (C / nc)
    let sc0 := loadTile C (C / nc) zc 0 0
    let scF := Loop.up nb (fun j3 scA =>
      let df3 := j3 * (dk / nb)
      let b3 := loadTile C (dk / nb) Bs of2 df3
      let qt3 := loadTile C (dk / nb) Q of2 df3 ⊙ b3
      let kb3 := quotient (loadTile C (dk / nb) K of2 df3) b3
      let kbt3 := loadTile (dk / nb) (C / nc) kb3ᵀ 0 rf3
      scA + qt3 * kbt3) sc0
    let scM := scF ⊙ loadTile C (C / nc) tril 0 rf3
    let sct := scMᵀ
    Loop.up nv (fun w3 ov =>
      let vf3 := w3 * (dv / nv)
      let do3 := loadTile C (dv / nv) dO of2 vf3
      storeTile (sct * do3) (of2 + rf3) vf3 ov) ov) ov) ov

def gradOBoundary (oh : Matrix (Fin (N * dk)) (Fin dv) R) (Cprev : Matrix (Fin (N * dk)) (Fin 1) R)
    (zero osr : Matrix (Fin dk) (Fin dv) R) : Matrix (Fin dk) (Fin dv) R :=
  Loop.up nb (fun j2 osr => Loop.up nv (fun w4 osr =>
    let df2 := j2 * (dk / nb)
    let vf4 := w4 * (dv / nv)
    let a0 := loadTile (dk / nb) (dv / nv) zero df2 vf4
    let aFin := Loop.up N (fun n3 aAcc =>
      let sf2 := n3 * dk
      let dhR := loadTile (dk / nb) (dv / nv) oh (sf2 + df2) vf4
      let cpR := loadTile (dk / nb) 1 Cprev (sf2 + df2) 0
      aAcc + rowExpandMul dhR cpR) a0
    storeTile aFin df2 vf4 osr) osr) osr

def glaGradO (Q K : Matrix (Fin (N * C)) (Fin dk) R) (V dO : Matrix (Fin (N * C)) (Fin dv) R)
    (tril : Matrix (Fin C) (Fin C) R) (record : Records N C dk dv R)
    (Srecv zero : Matrix (Fin dk) (Fin dv) R) (zc : Matrix (Fin C) (Fin Z) R)
    (zerov : Matrix (Fin dk) (Fin 1) R)
    (x : Adjoints N C dk dv R × Matrix (Fin dk) (Fin dv) R) :
    Adjoints N C dk dv R × Matrix (Fin dk) (Fin dv) R :=
  let y := gradOPass1 nb nv nc Q K V dO tril record Srecv zc zerov x.1
  let ov := gradOValues nb nv nc Q K dO tril record.bs zc y.dVo
  let osr := gradOBoundary nb nv y.dH record.cp zero x.2
  ({ y with dVo := ov }, osr)

end Kernel

section Target

variable [Field R] (Q K : Matrix (Fin (N * C)) (Fin dk) R) (V dO : Matrix (Fin (N * C)) (Fin dv) R)
  (Srecv : Matrix (Fin dk) (Fin dv) R) (A : Matrix (Fin (N * C)) (Fin dk) R)

def adjointsOf : Adjoints N C dk dv R where
  dQ := flattenSeq fun n : Fin N => (gradOAt Q K V dO Srecv A n).dQ
  dKo := flattenSeq fun n : Fin N => (gradOAt Q K V dO Srecv A n).dK
  dVo := flattenSeq fun n : Fin N => (gradOAt Q K V dO Srecv A n).dV
  dgcso := flattenSeq fun n : Fin N =>
    (gradOAt Q K V dO Srecv A n).db ⊙ cumprod (chunk A n)
  dH := flattenSeq fun n : Fin N => (gradOAt Q K V dO Srecv A n).dSPrev
  dCp := flattenSeq fun n : Fin N => toCol (gradOAt Q K V dO Srecv A n).dCPrev

def histAt (n : Fin N) : Matrix (Fin dk) (Fin dv) R :=
  stateAt K V A 0 (n * C) + rowScale (fun d => decay (gate A d) 0 (n * C)) Srecv

def scoreGradAt (n : Fin N) : Matrix (Fin C) (Fin C) R :=
  (chunk dO n * (chunk V n)ᵀ) ⊙ tril C

variable (n : Fin N)

theorem bs_tile (dof : ℕ) : loadTile C B (recordsOf K V A).bs (n * C) dof =
    loadTile C B (cumprod (chunk A n)) 0 dof := by
  rw [loadTile_chunk_start, recordsOf, chunk_flattenSeq]

theorem query_tile (dof : ℕ) :
    loadTile C B Q (n * C) dof ⊙ loadTile C B (recordsOf K V A).bs (n * C) dof =
      loadTile C B (cacheAt Q K V A n).qt 0 dof := by
  rw [bs_tile, loadTile_chunk_start, ← loadTile_hadamard]
  rfl

theorem key_tile (dof : ℕ) :
    quotient (loadTile C B K (n * C) dof) (loadTile C B (recordsOf K V A).bs (n * C) dof) =
      loadTile C B (cacheAt Q K V A n).kIntra 0 dof := by
  rw [bs_tile, loadTile_chunk_start, ← loadTile_quotient]
  rfl

theorem hist_tile {dof : ℕ} (hdof : dof + B ≤ dk) (B' vof : ℕ) :
    loadTile B B' (recordsOf K V A).snaps (n * dk + dof) vof +
      rowExpandMul (loadTile B B' Srecv dof vof)
        (loadTile B 1 (recordsOf K V A).cp (n * dk + dof) 0) =
      loadTile B B' (histAt K V Srecv A n) dof vof := by
  rw [recordsOf, loadTile_flattenSeq _ n hdof, loadTile_flattenSeq _ n hdof, ← loadTile_rowScale,
    ← loadTile_add]
  rfl

theorem dH_tile {dof : ℕ} (B' vof : ℕ) :
    (loadTile C B (cacheAt Q K V A n).qt 0 dof)ᵀ * loadTile C B' dO (n * C) vof =
      loadTile B B' (gradOAt Q K V dO Srecv A n).dSPrev dof vof := by
  rw [loadTile_chunk_start, ← loadTile_transpose, ← loadTile_mul]
  rfl

section Inter

variable {nv dof : ℕ} (hnv : nv ∣ dv) (hdof : dof + B ≤ dk)
  (x : Matrix (Fin (N * dk)) (Fin dv) R × Matrix (Fin C) (Fin B) R × Matrix (Fin B) (Fin 1) R)
include hdof

theorem interChunk_dH : Writes Prod.fst (adjointsOf Q K V dO Srecv A).dH
    (fun i e => ∃ w : Fin nv, InTile B (dv / nv) (n * dk + dof) (w * (dv / nv)) i e)
    (interChunk nv dO Srecv (recordsOf K V A).snaps n dof
      (loadTile C B (cacheAt Q K V A n).qt 0 dof)
      (loadTile B 1 (recordsOf K V A).cp (n * dk + dof) 0)) := by
  refine Writes.up fun w => writes_tile fun x => ?_
  simp only [dH_tile Q K V dO Srecv A n]
  rw [adjointsOf, loadTile_flattenSeq _ n hdof]

include hnv

theorem interChunk_dQ : (interChunk nv dO Srecv (recordsOf K V A).snaps n dof
    (loadTile C B (cacheAt Q K V A n).qt 0 dof)
    (loadTile B 1 (recordsOf K V A).cp (n * dk + dof) 0) x).2.1 =
      x.2.1 + loadTile C B (chunk dO n * (histAt K V Srecv A n)ᵀ) 0 dof := by
  rw [← sum_tiles_mul (Nat.mul_div_cancel' hnv)]
  refine up_accumulates (fun x : Matrix _ _ R × Matrix _ _ R × Matrix _ _ R => x.2.1) _
    (fun w x => ?_) x
  simp only [hist_tile K V Srecv A n hdof, loadTile_chunk_start, loadTile_transpose]

omit hdof in
theorem interChunk_dCp : (interChunk nv dO Srecv (recordsOf K V A).snaps n dof
    (loadTile C B (cacheAt Q K V A n).qt 0 dof)
    (loadTile B 1 (recordsOf K V A).cp (n * dk + dof) 0) x).2.2 =
      x.2.2 + loadTile B 1 (toCol (gradOAt Q K V dO Srecv A n).dCPrev) dof 0 := by
  have hd : (gradOAt Q K V dO Srecv A n).dCPrev =
      rowSum ((gradOAt Q K V dO Srecv A n).dSPrev ⊙ Srecv) := rfl
  rw [hd, ← sum_tiles_rowSum (Nat.mul_div_cancel' hnv)]
  refine up_accumulates (fun x : Matrix _ _ R × Matrix _ _ R × Matrix _ _ R => x.2.2) _
    (fun w x => ?_) x
  simp only [dH_tile Q K V dO Srecv A n, loadTile_hadamard]

end Inter

section Within

variable {nv nc dof : ℕ} (hnv : nv ∣ dv) (hnc : nc ∣ C)
include hnv

theorem scoreGrad_tiles {r c : ℕ} (hr : r + c ≤ C) :
    ∑ w : Fin nv, (loadTile C (dv / nv) dO (n * C) (w * (dv / nv)) *
      (loadTile c (dv / nv) V (n * C + r) (w * (dv / nv)))ᵀ) ⊙ loadTile C c (tril C) 0 r =
        loadTile C c (scoreGradAt V dO n) 0 r := by
  rw [sum_hadamard, scoreGradAt, loadTile_hadamard, ← sum_tiles_mul (Nat.mul_div_cancel' hnv)]
  simp only [loadTile_chunk V n hr, loadTile_chunk_start, loadTile_transpose]

theorem keyRowSums_eq (r : Fin nc) (hr : r * (C / nc) + C / nc ≤ C)
    (kbR : Matrix (Fin (C / nc)) (Fin B) R) (qtB : Matrix (Fin C) (Fin B) R)
    (x : Matrix (Fin C) (Fin B) R × Matrix (Fin (C / nc)) (Fin B) R) :
    let dsc := loadTile C (C / nc) (scoreGradAt V dO n) 0 (r * (C / nc))
    keyRowSums nv nc dO V (loadTile C (C / nc) (tril C) 0 (r * (C / nc))) n (r * (C / nc)) kbR qtB
      x = (x.1 + dsc * kbR, x.2 + dscᵀ * qtB) := by
  intro dsc
  simp only [dsc, ← scoreGrad_tiles V dO n hnv hr, Matrix.sum_mul, transpose_sum]
  apply Prod.ext
  · exact up_accumulates Prod.fst _ (fun _ _ => rfl) x
  · exact up_accumulates Prod.snd _ (fun _ _ => rfl) x

include hnc

theorem withinChunk_dQ (x : Matrix (Fin (N * C)) (Fin dk) R × Matrix (Fin C) (Fin B) R) :
    (withinChunk nv nc dO V (tril C) (0 : Matrix (Fin C) (Fin Z) R) n dof
      (loadTile C B (cacheAt Q K V A n).qt 0 dof) (loadTile C B (cacheAt Q K V A n).kIntra 0 dof)
      (loadTile C B (cumprod (chunk A n)) 0 dof) x).2 =
        x.2 + loadTile C B (scoreGradAt V dO n * (cacheAt Q K V A n).kIntra) 0 dof := by
  have hC := Nat.mul_div_cancel' hnc
  rw [← sum_tiles_mul hC]
  refine up_accumulates Prod.snd _ (fun r x => ?_) x
  simp only [keyRowSums_eq V dO n hnv r (block_end_le hC r)]
  rw [loadTile_loadTile _ (block_end_le hC r) (Nat.zero_add B).le, Nat.zero_add, Nat.add_zero]

theorem withinChunk_dKo : Writes Prod.fst (adjointsOf Q K V dO Srecv A).dKo
    (fun i d => ∃ r : Fin nc, InTile (C / nc) B (n * C + r * (C / nc)) dof i d)
    (withinChunk nv nc dO V (tril C) (0 : Matrix (Fin C) (Fin Z) R) n dof
      (loadTile C B (cacheAt Q K V A n).qt 0 dof) (loadTile C B (cacheAt Q K V A n).kIntra 0 dof)
      (loadTile C B (cumprod (chunk A n)) 0 dof)) := by
  have hC := Nat.mul_div_cancel' hnc
  refine Writes.up fun r => writes_tile fun x => ?_
  simp only [keyRowSums_eq V dO n hnv r (block_end_le hC r)]
  rw [loadTile_loadTile _ (block_end_le hC r) (Nat.zero_add B).le, loadTile_zero, zero_add,
    ← loadTile_transpose, ← loadTile_mul, Nat.zero_add, Nat.add_zero, ← loadTile_quotient,
    adjointsOf, loadTile_flattenSeq _ n (block_end_le hC r)]
  rfl

end Within

section Pass1

variable {nv nc dof : ℕ} (hnv : nv ∣ dv) (hnc : nc ∣ C) (hdof : dof + B ≤ dk)
  (hA : ∀ t d, A t d ≠ 0)
include hnv hnc hdof hA

theorem gradOBlock_eq (x : Adjoints N C dk dv R) :
    let target := adjointsOf Q K V dO Srecv A
    let qtB := loadTile C B (cacheAt Q K V A n).qt 0 dof
    let kbB := loadTile C B (cacheAt Q K V A n).kIntra 0 dof
    let y := interChunk nv dO Srecv (recordsOf K V A).snaps n dof qtB
      (loadTile B 1 (recordsOf K V A).cp (n * dk + dof) 0) (x.dH, 0, 0)
    let z := withinChunk nv nc dO V (tril C) (0 : Matrix (Fin C) (Fin Z) R) n dof qtB kbB
      (loadTile C B (cumprod (chunk A n)) 0 dof) (x.dKo, y.2.1)
    gradOBlock nv nc Q K V dO (tril C) (recordsOf K V A) Srecv (0 : Matrix (Fin C) (Fin Z) R) 0 n
      dof B x = { x with
        dQ := storeTile (loadTile C B target.dQ (n * C) dof) (n * C) dof x.dQ
        dKo := z.1
        dgcso := storeTile (loadTile C B target.dgcso (n * C) dof) (n * C) dof x.dgcso
        dH := y.1
        dCp := storeTile (loadTile B 1 target.dCp (n * dk + dof) 0) (n * dk + dof) 0 x.dCp } := by
  intro target qtB kbB y z
  have hdQ : z.2 ⊙ loadTile C B (cumprod (chunk A n)) 0 dof =
      loadTile C B target.dQ (n * C) dof := by
    simp only [z, y, qtB, kbB]
    rw [withinChunk_dQ Q K V dO A n hnv hnc, interChunk_dQ Q K V dO Srecv A n hnv hdof, zero_add,
      ← loadTile_add, ← loadTile_hadamard]
    simp only [target]
    rw [adjointsOf, loadTile_flattenSeq_start]
    rfl
  have hdCp : y.2.2 = loadTile B 1 target.dCp (n * dk + dof) 0 := by
    simp only [y, qtB, target]
    rw [interChunk_dCp Q K V dO Srecv A n hnv, zero_add, adjointsOf,
      loadTile_flattenSeq _ n hdof]
  have hdKo : loadTile C B z.1 (n * C) dof = loadTile C B target.dKo (n * C) dof := by
    apply (withinChunk_dKo Q K V dO Srecv A n hnv hnc).loadTile_eq
    rintro i d ⟨⟨hi, hi'⟩, hd⟩
    obtain ⟨r, hr⟩ := exists_block_from (Nat.mul_div_cancel' hnc) hi hi'
    exact ⟨r, hr, hd⟩
  have hdgcs : loadTile C B target.dQ (n * C) dof ⊙ loadTile C B Q (n * C) dof -
      loadTile C B target.dKo (n * C) dof ⊙ loadTile C B K (n * C) dof =
        loadTile C B target.dgcso (n * C) dof := by
    have ha : ∀ t d, chunk A n t d ≠ 0 := fun _ _ => hA _ _
    simp only [target, adjointsOf]
    rw [loadTile_flattenSeq_start, loadTile_flattenSeq_start, loadTile_flattenSeq_start,
      loadTile_chunk_start, loadTile_chunk_start, ← loadTile_hadamard, ← loadTile_hadamard,
      ← loadTile_sub]
    congr 1
    exact (chunkGradO_db_log _ _ _ _ _ _ _ ha).symm
  simp only [gradOBlock, loadTile_zero]
  rw [query_tile, key_tile Q, bs_tile]
  simp only [y, z, qtB, kbB] at hdQ hdCp hdKo ⊢
  rw [hdQ, hdCp, hdKo, hdgcs]

theorem gradOBlock_dQ : Writes Adjoints.dQ (adjointsOf Q K V dO Srecv A).dQ
    (fun i d => InTile C B (n * C) dof i d) (gradOBlock nv nc Q K V dO (tril C) (recordsOf K V A)
      Srecv (0 : Matrix (Fin C) (Fin Z) R) 0 n dof B) :=
  writes_tile fun x => by rw [gradOBlock_eq Q K V dO Srecv A n hnv hnc hdof hA]

theorem gradOBlock_dgcso : Writes Adjoints.dgcso (adjointsOf Q K V dO Srecv A).dgcso
    (fun i d => InTile C B (n * C) dof i d) (gradOBlock nv nc Q K V dO (tril C) (recordsOf K V A)
      Srecv (0 : Matrix (Fin C) (Fin Z) R) 0 n dof B) :=
  writes_tile fun x => by rw [gradOBlock_eq Q K V dO Srecv A n hnv hnc hdof hA]

theorem gradOBlock_dCp : Writes Adjoints.dCp (adjointsOf Q K V dO Srecv A).dCp
    (fun i j => InTile B 1 (n * dk + dof) 0 i j) (gradOBlock nv nc Q K V dO (tril C)
      (recordsOf K V A) Srecv (0 : Matrix (Fin C) (Fin Z) R) 0 n dof B) :=
  writes_tile fun x => by rw [gradOBlock_eq Q K V dO Srecv A n hnv hnc hdof hA]

theorem gradOBlock_dKo : Writes Adjoints.dKo (adjointsOf Q K V dO Srecv A).dKo
    (fun i d => ∃ r : Fin nc, InTile (C / nc) B (n * C + r * (C / nc)) dof i d)
    (gradOBlock nv nc Q K V dO (tril C) (recordsOf K V A) Srecv (0 : Matrix (Fin C) (Fin Z) R) 0 n
      dof B) := by
  intro x
  rw [gradOBlock_eq Q K V dO Srecv A n hnv hnc hdof hA]
  exact withinChunk_dKo Q K V dO Srecv A n hnv hnc (x.dKo, _)

theorem gradOBlock_dH : Writes Adjoints.dH (adjointsOf Q K V dO Srecv A).dH
    (fun i e => ∃ w : Fin nv, InTile B (dv / nv) (n * dk + dof) (w * (dv / nv)) i e)
    (gradOBlock nv nc Q K V dO (tril C) (recordsOf K V A) Srecv (0 : Matrix (Fin C) (Fin Z) R) 0 n
      dof B) := by
  intro x
  rw [gradOBlock_eq Q K V dO Srecv A n hnv hnc hdof hA]
  exact interChunk_dH Q K V dO Srecv A n hdof (x.dH, _, _)

omit hdof

theorem gradOPass1_eq {nb : ℕ} (hnb : nb ∣ dk) (x : Adjoints N C dk dv R) :
    gradOPass1 nb nv nc Q K V dO (tril C) (recordsOf K V A) Srecv (0 : Matrix (Fin C) (Fin Z) R) 0
      x = { adjointsOf Q K V dO Srecv A with dVo := x.dVo } := by
  have hb := Nat.mul_div_cancel' hnb
  have hdof (j : Fin nb) := block_end_le hb j
  apply Adjoints.ext
  · refine (Writes.up fun n => Writes.up fun j =>
      gradOBlock_dQ Q K V dO Srecv A n hnv hnc (hdof j) hA).eq ?_ x
    exact exists_chunk_tile hnb
  · refine (Writes.up fun n => Writes.up fun j =>
      gradOBlock_dKo Q K V dO Srecv A n hnv hnc (hdof j) hA).eq ?_ x
    intro i d
    obtain ⟨n, r, j, hi⟩ := exists_chunk_block_tile hnc hnb i d
    exact ⟨n, j, r, hi⟩
  · apply Loop.up_keeps Adjoints.dVo
    intro n x
    apply Loop.up_keeps Adjoints.dVo
    exact fun _ _ => rfl
  · refine (Writes.up fun n => Writes.up fun j =>
      gradOBlock_dgcso Q K V dO Srecv A n hnv hnc (hdof j) hA).eq ?_ x
    exact exists_chunk_tile hnb
  · refine (Writes.up fun n => Writes.up fun j =>
      gradOBlock_dH Q K V dO Srecv A n hnv hnc (hdof j) hA).eq ?_ x
    exact exists_chunk_block_tile hnb hnv
  · refine (Writes.up fun n => Writes.up fun j =>
      gradOBlock_dCp Q K V dO Srecv A n hnv hnc (hdof j) hA).eq ?_ x
    exact exists_chunk_block_column hnb

end Pass1

section Pass2

variable {nb nv nc : ℕ} (hnb : nb ∣ dk) (hnv : nv ∣ dv) (hnc : nc ∣ C)
include hnb

theorem score_tile {r c : ℕ} (hr : r + c ≤ C) : Loop.up nb (fun j scA => scA +
    loadTile C (dk / nb) (cacheAt Q K V A n).qt 0 (j * (dk / nb)) *
      loadTile (dk / nb) c (loadTile C (dk / nb) (cacheAt Q K V A n).kIntra 0 (j * (dk / nb)))ᵀ 0 r)
      (0 : Matrix (Fin C) (Fin c) R) ⊙ loadTile C c (tril C) 0 r =
        loadTile C c (cacheAt Q K V A n).scores 0 r := by
  have hb := Nat.mul_div_cancel' hnb
  have hkbt (j : Fin nb) : loadTile (dk / nb) c
      (loadTile C (dk / nb) (cacheAt Q K V A n).kIntra 0 (j * (dk / nb)))ᵀ 0 r =
        loadTile (dk / nb) c (cacheAt Q K V A n).kIntraᵀ (j * (dk / nb)) r := by
    rw [← loadTile_transpose, loadTile_loadTile _ (Nat.zero_add _).le hr, Nat.zero_add,
      Nat.add_zero]
  simp only [hkbt]
  rw [up_tiles_mul hb, zero_add, ← loadTile_hadamard]
  rfl

include hnv hnc

theorem gradOValues_eq (ov : Matrix (Fin (N * C)) (Fin dv) R) :
    gradOValues nb nv nc Q K dO (tril C) (recordsOf K V A).bs (0 : Matrix (Fin C) (Fin Z) R) ov =
      (adjointsOf Q K V dO Srecv A).dVo := by
  have hC := Nat.mul_div_cancel' hnc
  have htile (n : Fin N) (r : Fin nc) (w : Fin nv) :
      (loadTile C (C / nc) (cacheAt Q K V A n).scores 0 (r * (C / nc)))ᵀ *
        loadTile C (dv / nv) dO (n * C) (w * (dv / nv)) =
      loadTile (C / nc) (dv / nv) (adjointsOf Q K V dO Srecv A).dVo (n * C + r * (C / nc))
        (w * (dv / nv)) := by
    rw [loadTile_chunk_start, ← loadTile_transpose, ← loadTile_mul, adjointsOf,
      loadTile_flattenSeq _ n (block_end_le hC r)]
    rfl
  have hscore (n : Fin N) (r : Fin nc) := score_tile Q K V A n hnb (block_end_le hC r)
  simp only [gradOValues, query_tile, key_tile Q, loadTile_zero, hscore, htile]
  refine (Writes.up fun n => Writes.up fun r => Writes.up fun w => writes_storeTile _ (C / nc)
    (dv / nv) (n * C + r * (C / nc)) (w * (dv / nv))).eq ?_ ov
  exact exists_chunk_block_tile hnc hnv

end Pass2

section Pass3

theorem sum_dSRecv :
    ∑ n : Fin N, (gradOAt Q K V dO Srecv A n).dSRecv = adjointAt Q A dO 0 0 := by
  ext d e
  have hsum := sum_blocks (rfl : N * C = N * C)
    fun j => decay (gate A d) 0 (j + 1) * demand Q dO d e j
  rw [adjointAt_apply, adjoint_zero_eq_sum, Matrix.zero_apply, mul_zero, add_zero, Matrix.sum_apply,
    Finset.sum_range, ← hsum]
  apply Finset.sum_congr rfl
  intro n _
  rw [gradOAt_dSRecv, Finset.sum_range]

variable {nb nv : ℕ} (hnb : nb ∣ dk) (hnv : nv ∣ dv)
include hnb hnv

theorem gradOBoundary_eq (osr : Matrix (Fin dk) (Fin dv) R) :
    gradOBoundary nb nv (adjointsOf Q K V dO Srecv A).dH (recordsOf K V A).cp 0 osr =
      adjointAt Q A dO 0 0 := by
  have hb := Nat.mul_div_cancel' hnb
  have hpart (n : Fin N) (j : Fin nb) (w : Fin nv) :
      rowExpandMul (loadTile (dk / nb) (dv / nv) (adjointsOf Q K V dO Srecv A).dH
        (n * dk + j * (dk / nb)) (w * (dv / nv)))
        (loadTile (dk / nb) 1 (recordsOf K V A).cp (n * dk + j * (dk / nb)) 0) =
      loadTile (dk / nb) (dv / nv) (gradOAt Q K V dO Srecv A n).dSRecv (j * (dk / nb))
        (w * (dv / nv)) := by
    rw [adjointsOf, recordsOf, loadTile_flattenSeq _ n (block_end_le hb j),
      loadTile_flattenSeq _ n (block_end_le hb j), ← loadTile_rowScale]
    rfl
  simp only [gradOBoundary, loadTile_zero, hpart, up_add, zero_add, ← loadTile_sum,
    sum_dSRecv Q K V dO Srecv A]
  refine (Writes.up fun j => Writes.up fun w => writes_storeTile _ (dk / nb) (dv / nv)
    (j * (dk / nb)) (w * (dv / nv))).eq ?_ osr
  exact exists_tile hnb hnv

end Pass3

theorem glaGradO_eq {nb nv nc : ℕ} (hnb : nb ∣ dk) (hnv : nv ∣ dv) (hnc : nc ∣ C)
    (hA : ∀ t d, A t d ≠ 0) (x : Adjoints N C dk dv R × Matrix (Fin dk) (Fin dv) R) :
    glaGradO nb nv nc Q K V dO (tril C) (recordsOf K V A) Srecv 0
      (0 : Matrix (Fin C) (Fin Z) R) 0 x =
        (adjointsOf Q K V dO Srecv A, adjointAt Q A dO 0 0) := by
  rw [glaGradO, gradOPass1_eq Q K V dO Srecv A hnv hnc hA hnb]
  simp only
  rw [gradOValues_eq Q K V dO Srecv A hnb hnv hnc, gradOBoundary_eq Q K V dO Srecv A hnb hnv]

end Target

end ZeCo.Fused
