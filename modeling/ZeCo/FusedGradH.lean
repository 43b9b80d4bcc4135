import ZeCo.FusedGradO

namespace ZeCo.Fused

open Matrix Recurrence

variable {R : Type*} {N C dk dv B B' Z : ℕ}

@[ext]
structure StateGrads (N C dk dv : ℕ) (R : Type*) where
  dK : Matrix (Fin (N * C)) (Fin dk) R
  dV : Matrix (Fin (N * C)) (Fin dv) R
  dA : Matrix (Fin (N * C)) (Fin dk) R
  dSl : Matrix (Fin (N * dk)) (Fin dv) R
  dCv : Matrix (Fin (N * dk)) (Fin 1) R

section Kernel

variable [Field R] (exp log : R → R) (nb nv nc : ℕ)

def reverseStep (A : Matrix (Fin (N * C)) (Fin dk) R) (dH : Matrix (Fin (N * dk)) (Fin dv) R)
    (dCp : Matrix (Fin (N * dk)) (Fin 1) R) (dof vof m : ℕ)
    (x : (Matrix (Fin (N * dk)) (Fin dv) R × Matrix (Fin (N * dk)) (Fin 1) R) ×
      Matrix (Fin B) (Fin B') R × Matrix (Fin B) (Fin 1) R) :
    (Matrix (Fin (N * dk)) (Fin dv) R × Matrix (Fin (N * dk)) (Fin 1) R) ×
      Matrix (Fin B) (Fin B') R × Matrix (Fin B) (Fin 1) R :=
  let dsloc := x.2.1
  let dcvec := x.2.2
  let off := (N - 1 - m) * C
  let soff := (N - 1 - m) * dk
  let la := (loadTile C B A off dof).map log
  let gamma := chunkGamma exp la
  let dslP := rowExpandMul dsloc gamma
  let dcvP := dcvec ⊙ gamma
  let osl := storeTile dslP (soff + dof) vof x.1.1
  let ocv := storeTile dcvP (soff + dof) 0 x.1.2
  let dslocN := dslP + loadTile B B' dH (soff + dof) vof
  let dcvecN := dcvP + loadTile B 1 dCp (soff + dof) 0
  ((osl, ocv), dslocN, dcvecN)

def gradHWalk (A : Matrix (Fin (N * C)) (Fin dk) R) (dH : Matrix (Fin (N * dk)) (Fin dv) R)
    (dCp : Matrix (Fin (N * dk)) (Fin 1) R) (dStot : Matrix (Fin dk) (Fin dv) R)
    (dgam : Matrix (Fin dk) (Fin 1) R)
    (x : Matrix (Fin (N * dk)) (Fin dv) R × Matrix (Fin (N * dk)) (Fin 1) R) :
    Matrix (Fin (N * dk)) (Fin dv) R × Matrix (Fin (N * dk)) (Fin 1) R :=
  Loop.up nb (fun j x => Loop.up nv (fun w x =>
    let dof := j * (dk / nb)
    let vof := w * (dv / nv)
    let ds0 := loadTile (dk / nb) (dv / nv) dStot dof vof
    let dc0 := loadTile (dk / nb) 1 dgam dof 0
    (Loop.up N (fun m => reverseStep exp log A dH dCp dof vof m) (x, ds0, dc0)).1) x) x

def stateSums (V : Matrix (Fin (N * C)) (Fin dv) R) (osl Ssnap : Matrix (Fin (N * dk)) (Fin dv) R)
    (n dof2 : ℕ) (x : Matrix (Fin C) (Fin B) R × Matrix (Fin B) (Fin 1) R) :
    Matrix (Fin C) (Fin B) R × Matrix (Fin B) (Fin 1) R :=
  Loop.up nv (fun w2 x =>
    let off := n * C
    let soff := n * dk
    let vf2 := w2 * (dv / nv)
    let dslP := loadTile B (dv / nv) osl (soff + dof2) vf2
    let vW := loadTile C (dv / nv) V off vf2
    let sprev := loadTile B (dv / nv) Ssnap (soff + dof2) vf2
    (x.1 + vW * dslPᵀ, x.2 + toCol (rowSum (dslP ⊙ sprev)))) x

def gradHBlock (K : Matrix (Fin (N * C)) (Fin dk) R) (V : Matrix (Fin (N * C)) (Fin dv) R)
    (A : Matrix (Fin (N * C)) (Fin dk) R) (triu : Matrix (Fin C) (Fin C) R)
    (record : Records N C dk dv R) (dKo dgcso : Matrix (Fin (N * C)) (Fin dk) R)
    (osl : Matrix (Fin (N * dk)) (Fin dv) R) (ocv : Matrix (Fin (N * dk)) (Fin 1) R)
    (zc : Matrix (Fin C) (Fin Z) R) (zerov : Matrix (Fin dk) (Fin 1) R) (n dof2 B : ℕ)
    (x : Matrix (Fin (N * C)) (Fin dk) R × Matrix (Fin (N * C)) (Fin dk) R) :
    Matrix (Fin (N * C)) (Fin dk) R × Matrix (Fin (N * C)) (Fin dk) R :=
  let off := n * C
  let soff := n * dk
  let kB := loadTile C B K off dof2
  let aB := loadTile C B A off dof2
  let bB := loadTile C B record.bs off dof2
  let cprev := loadTile B 1 record.cp (soff + dof2) 0
  let dk0 := loadTile C B zc 0 0
  let c10 := loadTile B 1 zerov 0 0
  let s := stateSums nv V osl record.snaps n dof2 (dk0, c10)
  let dkH := quotient s.1 bB
  let dkk := dkH ⊙ kB
  let c2 := loadTile B 1 ocv (soff + dof2) 0 ⊙ cprev
  let corr := toRow s.2 + toRow c2 + colSum dkk
  let dgcs := loadTile C B dgcso off dof2 - dkk
  let zr := loadTile C B zc 0 0
  let rcFin := Loop.up nc (fun r2 rcAcc =>
    let rf2 := r2 * (C / nc)
    let triuR := loadTile C (C / nc) triu 0 rf2
    let dgR := loadTile (C / nc) B dgcs rf2 0
    rcAcc + triuR * dgR) zr
  let oaa := storeTile (quotient (rcFin + everyRow C corr) aB) off dof2 x.2
  let okk := storeTile (loadTile C B dKo off dof2 + dkH) off dof2 x.1
  (okk, oaa)

def gradHKeys (K : Matrix (Fin (N * C)) (Fin dk) R) (V : Matrix (Fin (N * C)) (Fin dv) R)
    (A : Matrix (Fin (N * C)) (Fin dk) R) (triu : Matrix (Fin C) (Fin C) R)
    (record : Records N C dk dv R) (dKo dgcso : Matrix (Fin (N * C)) (Fin dk) R)
    (osl : Matrix (Fin (N * dk)) (Fin dv) R) (ocv : Matrix (Fin (N * dk)) (Fin 1) R)
    (zc : Matrix (Fin C) (Fin Z) R) (zerov : Matrix (Fin dk) (Fin 1) R)
    (x : Matrix (Fin (N * C)) (Fin dk) R × Matrix (Fin (N * C)) (Fin dk) R) :
    Matrix (Fin (N * C)) (Fin dk) R × Matrix (Fin (N * C)) (Fin dk) R :=
  Loop.up N (fun n x => Loop.up nb (fun j2 x =>
    gradHBlock nv nc K V A triu record dKo dgcso osl ocv zc zerov n (j2 * (dk / nb)) (dk / nb)
      x) x) x

def gradHValues (K : Matrix (Fin (N * C)) (Fin dk) R) (Bs : Matrix (Fin (N * C)) (Fin dk) R)
    (dVo : Matrix (Fin (N * C)) (Fin dv) R) (osl : Matrix (Fin (N * dk)) (Fin dv) R)
    (ovv : Matrix (Fin (N * C)) (Fin dv) R) : Matrix (Fin (N * C)) (Fin dv) R :=
  Loop.up N (fun n2 ovv => Loop.up nv (fun w3 ovv =>
    let of2 := n2 * C
    let sf2 := n2 * dk
    let vf3 := w3 * (dv / nv)
    let dv0 := loadTile C (dv / nv) dVo of2 vf3
    let dvF := Loop.up nb (fun j3 dvA =>
      let df3 := j3 * (dk / nb)
      let kb3 := quotient (loadTile C (dk / nb) K of2 df3) (loadTile C (dk / nb) Bs of2 df3)
      let dsl3 := loadTile (dk / nb) (dv / nv) osl (sf2 + df3) vf3
      dvA + kb3 * dsl3) dv0
    storeTile dvF of2 vf3 ovv) ovv) ovv

def glaGradH (K : Matrix (Fin (N * C)) (Fin dk) R) (V : Matrix (Fin (N * C)) (Fin dv) R)
    (A : Matrix (Fin (N * C)) (Fin dk) R) (triu : Matrix (Fin C) (Fin C) R)
    (record : Records N C dk dv R) (adj : Adjoints N C dk dv R) (dStot : Matrix (Fin dk) (Fin dv) R)
    (dgam : Matrix (Fin dk) (Fin 1) R) (zc : Matrix (Fin C) (Fin Z) R)
    (zerov : Matrix (Fin dk) (Fin 1) R) (x : StateGrads N C dk dv R) : StateGrads N C dk dv R :=
  let walk := gradHWalk exp log nb nv A adj.dH adj.dCp dStot dgam (x.dSl, x.dCv)
  let keys := gradHKeys nb nv nc K V A triu record adj.dKo adj.dgcso walk.1 walk.2 zc zerov
    (x.dK, x.dA)
  let ovv := gradHValues nb nv K record.bs adj.dVo walk.1 x.dV
  { dK := keys.1, dV := ovv, dA := keys.2, dSl := walk.1, dCv := walk.2 }

end Kernel

section Target

variable [Field R] (Q K : Matrix (Fin (N * C)) (Fin dk) R) (V dO : Matrix (Fin (N * C)) (Fin dv) R)
  (Srecv dStot : Matrix (Fin dk) (Fin dv) R) (dgam : Fin dk → R)
  (A : Matrix (Fin (N * C)) (Fin dk) R)

def scaledAdjointAt (n : Fin N) : Matrix (Fin dk) (Fin dv) R :=
  rowScale (lastRow (cumprod (chunk A n))) (adjointAt Q A dO dStot ((n + 1) * C))

def scaledDecayAt (n : Fin N) : Fin dk → R :=
  decayAdjointAt Q dO Srecv dStot dgam A ((n + 1) * C) * lastRow (cumprod (chunk A n))

def stateGradsOf : StateGrads N C dk dv R where
  dK := flattenSeq fun n : Fin N =>
    (gradOAt Q K V dO Srecv A n).dK + (gradHAt Q K V dO Srecv dStot dgam A n).dK
  dV := flattenSeq fun n : Fin N =>
    (gradOAt Q K V dO Srecv A n).dV + (gradHAt Q K V dO Srecv dStot dgam A n).dV
  dA := flattenSeq fun n : Fin N => quotient (flipRows (cumsum (flipRows
    ((gradHAt Q K V dO Srecv dStot dgam A n).db ⊙ cumprod (chunk A n))))) (chunk A n)
  dSl := flattenSeq fun n : Fin N => scaledAdjointAt Q dO dStot A n
  dCv := flattenSeq fun n : Fin N => toCol (scaledDecayAt Q dO Srecv dStot dgam A n)

def reverseCarry (B B' dof vof m : ℕ) : Matrix (Fin B) (Fin B') R × Matrix (Fin B) (Fin 1) R :=
  (loadTile B B' (adjointAt Q A dO dStot ((N - m) * C)) dof vof,
    loadTile B 1 (toCol (decayAdjointAt Q dO Srecv dStot dgam A ((N - m) * C))) dof 0)

def reverseRecord (B B' dof vof m : ℕ)
    (x : Matrix (Fin (N * dk)) (Fin dv) R × Matrix (Fin (N * dk)) (Fin 1) R) :
    Matrix (Fin (N * dk)) (Fin dv) R × Matrix (Fin (N * dk)) (Fin 1) R :=
  let target := stateGradsOf Q K V dO Srecv dStot dgam A
  let soff := (N - 1 - m) * dk
  (storeTile (loadTile B B' target.dSl (soff + dof) vof) (soff + dof) vof x.1,
    storeTile (loadTile B 1 target.dCv (soff + dof) 0) (soff + dof) 0 x.2)

variable (n : Fin N)

theorem gradHAt_dK : (gradHAt Q K V dO Srecv dStot dgam A n).dK =
    quotient (chunk V n * (scaledAdjointAt Q dO dStot A n)ᵀ) (cumprod (chunk A n)) := by
  ext t d
  simp only [gradHAt, chunkGradH, cacheAt, cacheOf, scaledAdjointAt, hadamard_apply, quotient_apply,
    everyRow_apply, mul_apply, transpose_apply, rowScale_apply, Finset.sum_mul, Finset.sum_div]
  apply Finset.sum_congr rfl
  intro e _
  ring

theorem gradHAt_dV : (gradHAt Q K V dO Srecv dStot dgam A n).dV =
    (cacheAt Q K V A n).kIntra * scaledAdjointAt Q dO dStot A n := by
  ext t e
  simp only [gradHAt, chunkGradH, cacheAt, cacheOf, scaledAdjointAt, hadamard_apply, quotient_apply,
    everyRow_apply, mul_apply, rowScale_apply]
  apply Finset.sum_congr rfl
  intro d _
  ring

/-- Adding the gradient of `gamma` to every row of the reverse cumulative sum is adding it to the
last row before the sum. -/
theorem gateGrad_chunk (hA : ∀ t d, A t d ≠ 0) (hC : 0 < C) :
    let dkk := (gradHAt Q K V dO Srecv dStot dgam A n).dK ⊙ chunk K n
    let corr := rowSum (scaledAdjointAt Q dO dStot A n ⊙ stateAt K V A 0 (n * C)) +
      (scaledDecayAt Q dO Srecv dStot dgam A n * fun d => decay (gate A d) 0 (n * C)) + colSum dkk
    (triu C : Matrix (Fin C) (Fin C) R) *
        ((gradOAt Q K V dO Srecv A n).db ⊙ cumprod (chunk A n) - dkk) + everyRow C corr =
      flipRows (cumsum (flipRows
        ((gradHAt Q K V dO Srecv dStot dgam A n).db ⊙ cumprod (chunk A n)))) := by
  intro dkk corr
  have ha : ∀ t d, chunk A n t d ≠ 0 := fun _ _ => hA _ _
  have hlog := chunkGradH_db_log (chunk Q n) (chunk K n) (chunk V n) (stateAt K V A 0 (n * C))
    (adjointAt Q A dO dStot ((n + 1) * C)) (fun d => decay (gate A d) 0 (n * C))
    (decayAdjointAt Q dO Srecv dStot dgam A ((n + 1) * C)) ha hC (gradOAt Q K V dO Srecv A n).db
  have hrows : (gradOAt Q K V dO Srecv A n).db ⊙ cumprod (chunk A n) - dkk =
      (gradOAt Q K V dO Srecv A n).db ⊙ cumprod (chunk A n) +
        (-(gradHAt Q K V dO Srecv dStot dgam A n).dK) ⊙ chunk K n := by
    ext t d
    simp only [dkk, Matrix.sub_apply, Matrix.add_apply, hadamard_apply, Matrix.neg_apply]
    ring
  have hcorr : corr = (rowSum (adjointAt Q A dO dStot ((n + 1) * C) ⊙ stateAt K V A 0 (n * C)) +
      decayAdjointAt Q dO Srecv dStot dgam A ((n + 1) * C) * fun d => decay (gate A d) 0 (n * C)) *
        lastRow (cumprod (chunk A n)) + colSum dkk := by
    funext d
    simp only [corr, scaledAdjointAt, scaledDecayAt, Pi.add_apply, Pi.mul_apply, rowSum_apply,
      hadamard_apply, rowScale_apply, add_mul, Finset.sum_mul]
    congr 2
    · apply Finset.sum_congr rfl
      intro e _
      ring
    · ring
  rw [triu_mul, ← flipRows_cumsum_addLastRow, hrows, hcorr]
  exact congrArg (fun X => flipRows (cumsum (flipRows X))) hlog.symm

section Pass2

variable {nv nc dof : ℕ} (hnv : nv ∣ dv) (hnc : nc ∣ C) (hdof : dof + B ≤ dk)
  (hA : ∀ t d, A t d ≠ 0)
include hnv hdof

theorem stateSums_eq (x : Matrix (Fin C) (Fin B) R × Matrix (Fin B) (Fin 1) R) :
    stateSums nv V (stateGradsOf Q K V dO Srecv dStot dgam A).dSl (recordsOf K V A).snaps n dof x =
      (x.1 + loadTile C B (chunk V n * (scaledAdjointAt Q dO dStot A n)ᵀ) 0 dof,
        x.2 + loadTile B 1
          (toCol (rowSum (scaledAdjointAt Q dO dStot A n ⊙ stateAt K V A 0 (n * C)))) dof 0) := by
  have hv := Nat.mul_div_cancel' hnv
  have hdsl (w : Fin nv) : loadTile B (dv / nv) (stateGradsOf Q K V dO Srecv dStot dgam A).dSl
      (n * dk + dof) (w * (dv / nv)) =
        loadTile B (dv / nv) (scaledAdjointAt Q dO dStot A n) dof (w * (dv / nv)) :=
    loadTile_flattenSeq (fun n : Fin N => scaledAdjointAt Q dO dStot A n) n hdof
  have hsnap (w : Fin nv) : loadTile B (dv / nv) (recordsOf K V A).snaps (n * dk + dof)
      (w * (dv / nv)) = loadTile B (dv / nv) (stateAt K V A 0 (n * C)) dof (w * (dv / nv)) :=
    loadTile_flattenSeq (fun n : Fin N => stateAt K V A 0 (n * C)) n hdof
  rw [← sum_tiles_mul hv, ← sum_tiles_rowSum hv]
  apply Prod.ext
  · refine up_accumulates Prod.fst _ (fun w x => ?_) x
    simp only [hdsl, loadTile_chunk_start, loadTile_transpose]
  · refine up_accumulates Prod.snd _ (fun w x => ?_) x
    simp only [hdsl, hsnap, loadTile_hadamard]

include hnc hA

theorem gradHBlock_eq (hC : 0 < C)
    (x : Matrix (Fin (N * C)) (Fin dk) R × Matrix (Fin (N * C)) (Fin dk) R) :
    let target := stateGradsOf Q K V dO Srecv dStot dgam A
    let adj := adjointsOf Q K V dO Srecv A
    gradHBlock nv nc K V A (triu C) (recordsOf K V A) adj.dKo adj.dgcso target.dSl target.dCv
      (0 : Matrix (Fin C) (Fin Z) R) 0 n dof B x =
        (storeTile (loadTile C B target.dK (n * C) dof) (n * C) dof x.1,
          storeTile (loadTile C B target.dA (n * C) dof) (n * C) dof x.2) := by
  intro target adj
  have hblocks := Nat.mul_div_cancel' hnc
  set dkk := (gradHAt Q K V dO Srecv dStot dgam A n).dK ⊙ chunk K n
  have hdK : quotient (loadTile C B (chunk V n * (scaledAdjointAt Q dO dStot A n)ᵀ) 0 dof)
      (loadTile C B (cumprod (chunk A n)) 0 dof) =
        loadTile C B (gradHAt Q K V dO Srecv dStot dgam A n).dK 0 dof := by
    rw [gradHAt_dK, loadTile_quotient]
  have hdkk : loadTile C B (gradHAt Q K V dO Srecv dStot dgam A n).dK 0 dof ⊙
      loadTile C B (chunk K n) 0 dof = loadTile C B dkk 0 dof := by rw [loadTile_hadamard]
  have hc2 : loadTile B 1 target.dCv (n * dk + dof) 0 ⊙
      loadTile B 1 (recordsOf K V A).cp (n * dk + dof) 0 =
        loadTile B 1 (toCol (scaledDecayAt Q dO Srecv dStot dgam A n *
          fun d => decay (gate A d) 0 (n * C))) dof 0 := by
    simp only [target]
    rw [stateGradsOf, recordsOf, loadTile_flattenSeq _ n hdof, loadTile_flattenSeq _ n hdof,
      loadTile_toCol_mul]
  have hrc (Y : Matrix (Fin C) (Fin dk) R) : Loop.up nc (fun r2 rcAcc => rcAcc +
      loadTile C (C / nc) (triu C : Matrix (Fin C) (Fin C) R) 0 (r2 * (C / nc)) *
        loadTile (C / nc) B (loadTile C B Y 0 dof) (r2 * (C / nc)) 0) 0 =
          loadTile C B ((triu C : Matrix (Fin C) (Fin C) R) * Y) 0 dof := by
    rw [← zero_add (loadTile C B ((triu C : Matrix (Fin C) (Fin C) R) * Y) 0 dof),
      ← up_tiles_mul hblocks]
    congr 1
    funext r rcAcc
    rw [loadTile_loadTile _ (block_end_le hblocks r) (Nat.zero_add B).le, Nat.zero_add,
      Nat.add_zero]
  have hbs : chunk (recordsOf K V A).bs n = cumprod (chunk A n) := by
    rw [recordsOf, chunk_flattenSeq]
  have hdKo : chunk adj.dKo n = (gradOAt Q K V dO Srecv A n).dK := by
    simp only [adj]
    rw [adjointsOf, chunk_flattenSeq]
  have hdg : chunk adj.dgcso n = (gradOAt Q K V dO Srecv A n).db ⊙ cumprod (chunk A n) := by
    simp only [adj]
    rw [adjointsOf, chunk_flattenSeq]
  simp only [target, adj] at hc2 hdKo hdg ⊢
  simp only [gradHBlock, loadTile_zero, stateSums_eq Q K V dO Srecv dStot dgam A n hnv hdof,
    zero_add, loadTile_chunk_start, hbs, hdKo, hdg, hdK, hdkk, hc2, ← loadTile_sub, hrc,
    colSum_tile, toRow_add, ← loadTile_add, toCol_add, everyRow_tile, ← loadTile_quotient,
    dkk, gateGrad_chunk Q K V dO Srecv dStot dgam A n hA hC]
  simp only [stateGradsOf, chunk_flattenSeq]

omit hdof

theorem gradHKeys_eq {nb : ℕ} (hnb : nb ∣ dk) (hC : 0 < C)
    (x : Matrix (Fin (N * C)) (Fin dk) R × Matrix (Fin (N * C)) (Fin dk) R) :
    let target := stateGradsOf Q K V dO Srecv dStot dgam A
    let adj := adjointsOf Q K V dO Srecv A
    gradHKeys nb nv nc K V A (triu C) (recordsOf K V A) adj.dKo adj.dgcso target.dSl target.dCv
      (0 : Matrix (Fin C) (Fin Z) R) 0 x = (target.dK, target.dA) := by
  intro target adj
  have hb := Nat.mul_div_cancel' hnb
  have hblock (n : Fin N) (j : Fin nb) :=
    gradHBlock_eq (Z := Z) Q K V dO Srecv dStot dgam A n hnv hnc (block_end_le hb j) hA hC
  apply Prod.ext
  · exact (Writes.up fun n => Writes.up fun j => writes_tile (v := Prod.fst) (F := target.dK)
      (m := C) (n := dk / nb) (r := n * C) (c := j * (dk / nb)) fun x => by
        rw [hblock n j x]).eq (exists_chunk_tile hnb) x
  · exact (Writes.up fun n => Writes.up fun j => writes_tile (v := Prod.snd) (F := target.dA)
      (m := C) (n := dk / nb) (r := n * C) (c := j * (dk / nb)) fun x => by
        rw [hblock n j x]).eq (exists_chunk_tile hnb) x

end Pass2

section Pass3

variable {nb nv : ℕ} (hnb : nb ∣ dk) (hnv : nv ∣ dv)
include hnb hnv

theorem gradHValues_eq (ovv : Matrix (Fin (N * C)) (Fin dv) R) :
    gradHValues nb nv K (recordsOf K V A).bs (adjointsOf Q K V dO Srecv A).dVo
      (stateGradsOf Q K V dO Srecv dStot dgam A).dSl ovv =
        (stateGradsOf Q K V dO Srecv dStot dgam A).dV := by
  have hb := Nat.mul_div_cancel' hnb
  have hdsl (n : Fin N) (j : Fin nb) (w : Fin nv) :
      loadTile (dk / nb) (dv / nv) (stateGradsOf Q K V dO Srecv dStot dgam A).dSl
        (n * dk + j * (dk / nb)) (w * (dv / nv)) =
      loadTile (dk / nb) (dv / nv) (scaledAdjointAt Q dO dStot A n) (j * (dk / nb))
        (w * (dv / nv)) :=
    loadTile_flattenSeq (fun n : Fin N => scaledAdjointAt Q dO dStot A n) n (block_end_le hb j)
  have htile (n : Fin N) (w : Fin nv) :
      loadTile C (dv / nv) (adjointsOf Q K V dO Srecv A).dVo (n * C) (w * (dv / nv)) +
        loadTile C (dv / nv) ((cacheAt Q K V A n).kIntra * scaledAdjointAt Q dO dStot A n) 0
          (w * (dv / nv)) =
      loadTile C (dv / nv) (stateGradsOf Q K V dO Srecv dStot dgam A).dV (n * C)
        (w * (dv / nv)) := by
    rw [adjointsOf, stateGradsOf, loadTile_flattenSeq_start, loadTile_flattenSeq_start,
      ← loadTile_add, gradHAt_dV]
  simp only [gradHValues, key_tile Q, hdsl, up_tiles_mul hb, htile]
  refine (Writes.up fun n => Writes.up fun w => writes_storeTile _ C (dv / nv) (n * C)
    (w * (dv / nv))).eq ?_ ovv
  exact exists_chunk_tile hnv

end Pass3

end Target

section Walk

variable (Q K : Matrix (Fin (N * C)) (Fin dk) ℝ) (V dO : Matrix (Fin (N * C)) (Fin dv) ℝ)
  (Srecv dStot : Matrix (Fin dk) (Fin dv) ℝ) (dgam : Fin dk → ℝ)
  {A : Matrix (Fin (N * C)) (Fin dk) ℝ}

theorem reverseCarry_start (A : Matrix (Fin (N * C)) (Fin dk) ℝ) (dof vof : ℕ) :
    reverseCarry Q dO Srecv dStot dgam A B B' dof vof 0 =
    (loadTile B B' dStot dof vof, loadTile B 1 (toCol dgam) dof 0) := by
  have hd : decayAdjointAt Q dO Srecv dStot dgam A (N * C) = dgam := by
    funext d
    simp [decayAdjointAt, decayExcess]
  rw [reverseCarry, Nat.sub_zero, adjointAt_last, hd]

variable (hA : ∀ t d, 0 < A t d) (hC : 0 < C)
include hA hC

theorem reverseStep_eq (m : Fin N) {dof : ℕ} (hdof : dof + B ≤ dk) (vof : ℕ)
    (x : Matrix (Fin (N * dk)) (Fin dv) ℝ × Matrix (Fin (N * dk)) (Fin 1) ℝ) :
    reverseStep Real.exp Real.log A (adjointsOf Q K V dO Srecv A).dH
      (adjointsOf Q K V dO Srecv A).dCp dof vof m
      (x, reverseCarry Q dO Srecv dStot dgam A B B' dof vof m) =
        (reverseRecord Q K V dO Srecv dStot dgam A B B' dof vof m x,
          reverseCarry Q dO Srecv dStot dgam A B B' dof vof (m + 1)) := by
  set target := stateGradsOf Q K V dO Srecv dStot dgam A with htarget
  have hrev : N - 1 - m.val = m.rev := by
    rw [Fin.val_rev]
    omega
  have hleave : N - m.val = m.rev + 1 := by
    rw [Fin.val_rev]
    omega
  have henter : N - (m.val + 1) = m.rev := by
    rw [Fin.val_rev]
  have hgamma : (fun d => decay (gate (chunk A m.rev) d) 0 C) = lastRow (cumprod (chunk A m.rev)) :=
    funext fun d => (lastRow_cumprod (chunk A m.rev) hC d).symm
  have hS : rowExpandMul (loadTile B B' (adjointAt Q A dO dStot ((m.rev + 1) * C)) dof vof)
      (loadTile B 1 (toCol (lastRow (cumprod (chunk A m.rev)))) dof 0) =
        loadTile B B' target.dSl (m.rev * dk + dof) vof := by
    rw [← loadTile_rowScale]
    exact (loadTile_flattenSeq (fun n : Fin N => scaledAdjointAt Q dO dStot A n) _ hdof).symm
  have hc : loadTile B 1 (toCol (decayAdjointAt Q dO Srecv dStot dgam A ((m.rev + 1) * C))) dof 0 ⊙
      loadTile B 1 (toCol (lastRow (cumprod (chunk A m.rev)))) dof 0 =
        loadTile B 1 target.dCv (m.rev * dk + dof) 0 := by
    rw [← loadTile_toCol_mul]
    exact (loadTile_flattenSeq
      (fun n : Fin N => toCol (scaledDecayAt Q dO Srecv dStot dgam A n)) _ hdof).symm
  have hnextS : loadTile B B' target.dSl (m.rev * dk + dof) vof +
      loadTile B B' (adjointsOf Q K V dO Srecv A).dH (m.rev * dk + dof) vof =
        loadTile B B' (adjointAt Q A dO dStot (m.rev * C)) dof vof := by
    rw [htarget, stateGradsOf, adjointsOf, loadTile_flattenSeq _ _ hdof,
      loadTile_flattenSeq _ _ hdof, ← loadTile_add, scaledAdjointAt,
      adjointAt_chunk_start Q K V dO Srecv dStot A hC]
  have hnextc : loadTile B 1 target.dCv (m.rev * dk + dof) 0 +
      loadTile B 1 (adjointsOf Q K V dO Srecv A).dCp (m.rev * dk + dof) 0 =
        loadTile B 1 (toCol (decayAdjointAt Q dO Srecv dStot dgam A (m.rev * C))) dof 0 := by
    rw [htarget, stateGradsOf, adjointsOf, loadTile_flattenSeq _ _ hdof,
      loadTile_flattenSeq _ _ hdof, ← loadTile_add, toCol_add, scaledDecayAt,
      decayAdjointAt_chunk Q K V dO Srecv dStot dgam A hC]
  simp only [reverseStep, reverseCarry, reverseRecord, hrev, ← htarget, hleave, henter,
    gamma_tile hA m.rev hdof, hgamma, hS, hc, hnextS, hnextc]

theorem gradHWalk_eq {nb nv : ℕ} (hnb : nb ∣ dk) (hnv : nv ∣ dv) (hpos : 0 < nv)
    (x : Matrix (Fin (N * dk)) (Fin dv) ℝ × Matrix (Fin (N * dk)) (Fin 1) ℝ) :
    let target := stateGradsOf Q K V dO Srecv dStot dgam A
    gradHWalk Real.exp Real.log nb nv A (adjointsOf Q K V dO Srecv A).dH
      (adjointsOf Q K V dO Srecv A).dCp dStot (toCol dgam) x = (target.dSl, target.dCv) := by
  intro target
  have hb := Nat.mul_div_cancel' hnb
  have hx : gradHWalk Real.exp Real.log nb nv A (adjointsOf Q K V dO Srecv A).dH
      (adjointsOf Q K V dO Srecv A).dCp dStot (toCol dgam) x =
      Loop.up nb (fun j => Loop.up nv fun w =>
        Loop.up N fun m => reverseRecord Q K V dO Srecv dStot dgam A (dk / nb) (dv / nv)
          (j * (dk / nb)) (w * (dv / nv)) m) x := by
    have hwalk (j : Fin nb) (w : Fin nv)
        (x : Matrix (Fin (N * dk)) (Fin dv) ℝ × Matrix (Fin (N * dk)) (Fin 1) ℝ) :=
      Loop.up_carry (reverseCarry Q dO Srecv dStot dgam A (dk / nb) (dv / nv) (j * (dk / nb))
        (w * (dv / nv))) _ (fun m x => reverseStep_eq Q K V dO Srecv dStot dgam hA hC m
          (block_end_le hb j) (w * (dv / nv)) x) x
    simp only [gradHWalk, ← reverseCarry_start Q dO Srecv dStot dgam A, hwalk]
  have hrow (i : Fin (N * dk)) : ∃ (j : Fin nb) (m : Fin N),
      (N - 1 - m) * dk + j * (dk / nb) ≤ i ∧
        i.val < (N - 1 - m) * dk + j * (dk / nb) + dk / nb := by
    obtain ⟨n, j, hi⟩ := exists_chunk_block hb i
    have hn : N - 1 - n.rev.val = n := by
      rw [Fin.val_rev]
      omega
    exact ⟨j, n.rev, by rw [hn]; exact hi⟩
  rw [hx]
  apply Prod.ext
  · refine (Writes.up fun j => Writes.up fun w => Writes.up fun m => writes_tile (v := Prod.fst)
      fun x => rfl).eq ?_ x
    intro i e
    obtain ⟨j, m, hi⟩ := hrow i
    obtain ⟨w, hw⟩ := exists_block (Nat.mul_div_cancel' hnv) e
    exact ⟨j, w, m, hi, hw⟩
  · refine (Writes.up fun j => Writes.up fun w => Writes.up fun m => writes_tile (v := Prod.snd)
      fun x => rfl).eq ?_ x
    intro i k
    obtain ⟨j, m, hi⟩ := hrow i
    exact ⟨j, ⟨0, hpos⟩, m, hi, Nat.zero_le _, by omega⟩

theorem glaGradH_eq {nb nv nc : ℕ} (hnb : nb ∣ dk) (hnv : nv ∣ dv) (hpos : 0 < nv) (hnc : nc ∣ C)
    (x : StateGrads N C dk dv ℝ) :
    glaGradH Real.exp Real.log nb nv nc K V A (triu C) (recordsOf K V A)
      (adjointsOf Q K V dO Srecv A) dStot (toCol dgam) (0 : Matrix (Fin C) (Fin Z) ℝ) 0 x =
        stateGradsOf Q K V dO Srecv dStot dgam A := by
  have hne : ∀ t d, A t d ≠ 0 := fun t d => (hA t d).ne'
  rw [glaGradH, gradHWalk_eq Q K V dO Srecv dStot dgam hA hC hnb hnv hpos]
  simp only
  rw [gradHKeys_eq Q K V dO Srecv dStot dgam A hnv hnc hne hnb hC,
    gradHValues_eq Q K V dO Srecv dStot dgam A hnb hnv]

end Walk

end ZeCo.Fused
