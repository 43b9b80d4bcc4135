import ZeCo.Loop
import ZeCo.Tensor

/-!
The sequential gated-linear-attention operator and its backward pass, and the chunk-wise scan of
one device. A device's `[L, .]` tensors have `L = N * C`, so the divisibility the sources assert
is in the shapes. `chunkGradO` and `chunkGradH` are one chunk of the two adjoint stages, and `GradO`
and `GradH` their accumulators.
-/

namespace ZeCo

open Matrix

variable {R : Type*} {T N C dk dv : ℕ}

structure Grads (T dk dv : ℕ) (R : Type*) where
  dQ : Matrix (Fin T) (Fin dk) R
  dK : Matrix (Fin T) (Fin dk) R
  dV : Matrix (Fin T) (Fin dv) R
  dA : Matrix (Fin T) (Fin dk) R

section Sequential

variable [Semiring R] (Q K : Matrix (Fin T) (Fin dk) R) (V : Matrix (Fin T) (Fin dv) R)
  (A : Matrix (Fin T) (Fin dk) R) (dO : Matrix (Fin T) (Fin dv) R)

def expectedGla : Matrix (Fin T) (Fin dv) R :=
  let S : Matrix (Fin dk) (Fin dv) R := 0
  let O : Matrix (Fin T) (Fin dv) R := 0
  (Loop.up T (fun t (S, O) =>
    let S := rowScale (A t) S + vecMulVec (K t) (V t)
    (S, updateRow O t (Q t ᵥ* S))) (S, O)).2

def stateHist : Fin T → Matrix (Fin dk) (Fin dv) R :=
  let S : Matrix (Fin dk) (Fin dv) R := 0
  (Loop.up T (fun t (S, hist) =>
    let S := rowScale (A t) S + vecMulVec (K t) (V t)
    (S, Function.update hist t S)) (S, fun _ => 0)).2

def expectedGlaBackward : Grads T dk dv R :=
  let hist := stateHist K V A
  let dS : Matrix (Fin dk) (Fin dv) R := 0
  (Loop.down T (fun t (dS, (g : Grads T dk dv R)) =>
    let dS := dS + vecMulVec (Q t) (dO t)
    let sPrev := if t.val = 0 then 0 else hist ⟨t - 1, pred_lt t⟩
    let g : Grads T dk dv R :=
      { dQ := updateRow g.dQ t (hist t *ᵥ dO t)
        dK := updateRow g.dK t (dS *ᵥ V t)
        dV := updateRow g.dV t (K t ᵥ* dS)
        dA := updateRow g.dA t (rowSum (dS ⊙ sPrev)) }
    (rowScale (A t) dS, g)) (dS, ⟨0, 0, 0, 0⟩)).2

end Sequential

structure ChunkScan (N C dk dv : ℕ) (R : Type*) where
  sPrev : Fin N → Matrix (Fin dk) (Fin dv) R
  cPrev : Fin N → Fin dk → R
  oIntra : Matrix (Fin (N * C)) (Fin dv) R
  sTotal : Matrix (Fin dk) (Fin dv) R
  gTotal : Fin dk → R

section Device

variable [Field R] (Qp Kp : Matrix (Fin (N * C)) (Fin dk) R)
  (Vp : Matrix (Fin (N * C)) (Fin dv) R) (Ap : Matrix (Fin (N * C)) (Fin dk) R)

def glaChunkScan : ChunkScan N C dk dv R :=
  Loop.up N (fun n x =>
    let q := chunk Qp n
    let k := chunk Kp n
    let v := chunk Vp n
    let a := chunk Ap n
    let b := cumprod a
    let gamma := lastRow b
    let qt := q ⊙ b
    let kbarIntra := quotient k b
    let scores := (qt * kbarIntraᵀ) ⊙ tril C
    let kbarState := k ⊙ quotient (everyRow C gamma) b
    { sPrev := Function.update x.sPrev n x.sTotal
      cPrev := Function.update x.cPrev n x.gTotal
      oIntra := setChunk x.oIntra n (scores * v)
      sTotal := rowScale gamma x.sTotal + kbarStateᵀ * v
      gTotal := x.gTotal * gamma })
    { sPrev := fun _ => 0, cPrev := fun _ => 0, oIntra := 0, sTotal := 0, gTotal := 1 }

def glaReconstruct (sPrev : Fin N → Matrix (Fin dk) (Fin dv) R) (cPrev : Fin N → Fin dk → R)
    (sRecv : Matrix (Fin dk) (Fin dv) R) (oIntra : Matrix (Fin (N * C)) (Fin dv) R) :
    Matrix (Fin (N * C)) (Fin dv) R :=
  Loop.up N (fun n O =>
    let q := chunk Qp n
    let a := chunk Ap n
    let b := cumprod a
    let qt := q ⊙ b
    let hist := sPrev n + rowScale (cPrev n) sRecv
    setChunk O n (qt * hist + chunk oIntra n)) 0

structure ChunkCache (C dk dv : ℕ) (R : Type*) where
  b : Matrix (Fin C) (Fin dk) R
  gamma : Fin dk → R
  sPrev : Matrix (Fin dk) (Fin dv) R
  cPrev : Fin dk → R
  scores : Matrix (Fin C) (Fin C) R
  kState : Matrix (Fin C) (Fin dk) R
  qt : Matrix (Fin C) (Fin dk) R
  kIntra : Matrix (Fin C) (Fin dk) R

def cacheOf (q k a : Matrix (Fin C) (Fin dk) R) (S : Matrix (Fin dk) (Fin dv) R) (c : Fin dk → R) :
    ChunkCache C dk dv R :=
  let b := cumprod a
  let gamma := lastRow b
  let qt := q ⊙ b
  let kIntra := quotient k b
  { b, gamma, sPrev := S, cPrev := c, scores := (qt * kIntraᵀ) ⊙ tril C
    kState := k ⊙ quotient (everyRow C gamma) b, qt, kIntra }

def recompute : Fin N → ChunkCache C dk dv R :=
  let S : Matrix (Fin dk) (Fin dv) R := 0
  let c : Fin dk → R := 1
  (Loop.up N (fun n (S, c, cache) =>
    let x := cacheOf (chunk Qp n) (chunk Kp n) (chunk Ap n) S c
    let S := rowScale x.gamma S + x.kStateᵀ * chunk Vp n
    (S, c * x.gamma, Function.update cache n x)) (S, c, fun _ => ⟨0, 0, 0, 0, 0, 0, 0, 0⟩)).2.2

structure ChunkGradO (C dk dv : ℕ) (R : Type*) where
  dQ : Matrix (Fin C) (Fin dk) R
  dK : Matrix (Fin C) (Fin dk) R
  dV : Matrix (Fin C) (Fin dv) R
  dSRecv : Matrix (Fin dk) (Fin dv) R
  db : Matrix (Fin C) (Fin dk) R
  dSPrev : Matrix (Fin dk) (Fin dv) R
  dCPrev : Fin dk → R

def chunkGradO (q : Matrix (Fin C) (Fin dk) R) (v : Matrix (Fin C) (Fin dv) R)
    (cache : ChunkCache C dk dv R) (sRecv : Matrix (Fin dk) (Fin dv) R)
    (dO : Matrix (Fin C) (Fin dv) R) : ChunkGradO C dk dv R :=
  let H := cache.sPrev + rowScale cache.cPrev sRecv
  let dQt := dO * Hᵀ
  let dH := cache.qtᵀ * dO
  let dsc := (dO * vᵀ) ⊙ tril C
  let dQt := dQt + dsc * cache.kIntra
  let dKintra := dscᵀ * cache.qt
  let db := quotient ((-dKintra) ⊙ cache.kIntra) cache.b
  let db := db + dQt ⊙ q
  { dQ := dQt ⊙ cache.b
    dK := quotient dKintra cache.b
    dV := cache.scoresᵀ * dO
    dSRecv := rowScale cache.cPrev dH
    db
    dSPrev := dH
    dCPrev := rowSum (dH ⊙ sRecv) }

structure GradO (N C dk dv : ℕ) (R : Type*) where
  dQ : Matrix (Fin (N * C)) (Fin dk) R
  dK : Matrix (Fin (N * C)) (Fin dk) R
  dV : Matrix (Fin (N * C)) (Fin dv) R
  dSRecv : Matrix (Fin dk) (Fin dv) R
  db : Fin N → Matrix (Fin C) (Fin dk) R
  dSPrev : Fin N → Matrix (Fin dk) (Fin dv) R
  dCPrev : Fin N → Fin dk → R

def gradO (cache : Fin N → ChunkCache C dk dv R) (sRecv : Matrix (Fin dk) (Fin dv) R)
    (dO : Matrix (Fin (N * C)) (Fin dv) R) : GradO N C dk dv R :=
  Loop.up N (fun n (x : GradO N C dk dv R) =>
    let g := chunkGradO (chunk Qp n) (chunk Vp n) (cache n) sRecv (chunk dO n)
    { dQ := addChunk x.dQ n g.dQ
      dK := addChunk x.dK n g.dK
      dV := addChunk x.dV n g.dV
      dSRecv := x.dSRecv + g.dSRecv
      db := Function.update x.db n g.db
      dSPrev := Function.update x.dSPrev n g.dSPrev
      dCPrev := Function.update x.dCPrev n g.dCPrev })
    { dQ := 0, dK := 0, dV := 0, dSRecv := 0, db := fun _ => 0, dSPrev := fun _ => 0
      dCPrev := fun _ => 0 }

structure ChunkGradH (C dk dv : ℕ) (R : Type*) where
  dK : Matrix (Fin C) (Fin dk) R
  dV : Matrix (Fin C) (Fin dv) R
  db : Matrix (Fin C) (Fin dk) R

def chunkGradH (k : Matrix (Fin C) (Fin dk) R) (v : Matrix (Fin C) (Fin dv) R)
    (cache : ChunkCache C dk dv R) (dSloc : Matrix (Fin dk) (Fin dv) R) (dcvec : Fin dk → R)
    (db : Matrix (Fin C) (Fin dk) R) : ChunkGradH C dk dv R :=
  let dKstate := v * dSlocᵀ
  let dgammaState := rowSum (dSloc ⊙ cache.sPrev)
  let dgammaC := dcvec * cache.cPrev
  let dgammaKstate := colSum (quotient (dKstate ⊙ k) cache.b)
  let db := db + quotient ((-dKstate) ⊙ cache.kState) cache.b
  let dgamma := dgammaState + dgammaC + dgammaKstate
  { dK := dKstate ⊙ quotient (everyRow C cache.gamma) cache.b
    dV := cache.kState * dSloc
    db := addLastRow db dgamma }

structure GradH (N C dk dv : ℕ) (R : Type*) where
  dSloc : Matrix (Fin dk) (Fin dv) R
  dcvec : Fin dk → R
  dK : Matrix (Fin (N * C)) (Fin dk) R
  dV : Matrix (Fin (N * C)) (Fin dv) R
  db : Fin N → Matrix (Fin C) (Fin dk) R

def gradH (cache : Fin N → ChunkCache C dk dv R) (x : GradO N C dk dv R)
    (dSTotal : Matrix (Fin dk) (Fin dv) R) (dgTotal : Fin dk → R) : GradH N C dk dv R :=
  Loop.down N (fun n (y : GradH N C dk dv R) =>
    let g := chunkGradH (chunk Kp n) (chunk Vp n) (cache n) y.dSloc y.dcvec (y.db n)
    let dSlocPrev := rowScale (cache n).gamma y.dSloc
    let dcvecPrev := y.dcvec * (cache n).gamma
    { dSloc := dSlocPrev + (if 0 < n.val then x.dSPrev n else 0)
      dcvec := dcvecPrev + (if 0 < n.val then x.dCPrev n else 0)
      dK := addChunk y.dK n g.dK
      dV := addChunk y.dV n g.dV
      db := Function.update y.db n g.db })
    { dSloc := dSTotal, dcvec := dgTotal, dK := x.dK, dV := x.dV, db := x.db }

def gateBackward (cache : Fin N → ChunkCache C dk dv R) (db : Fin N → Matrix (Fin C) (Fin dk) R) :
    Matrix (Fin (N * C)) (Fin dk) R :=
  Loop.up N (fun n dA =>
    let prod := db n ⊙ (cache n).b
    let rcs := flipRows (cumsum (flipRows prod))
    setChunk dA n (quotient rcs (chunk Ap n))) 0

def glaChunkBackward (sRecv : Matrix (Fin dk) (Fin dv) R) (dO : Matrix (Fin (N * C)) (Fin dv) R)
    (dSTotal : Matrix (Fin dk) (Fin dv) R) (dgTotal : Fin dk → R) :
    Grads (N * C) dk dv R × Matrix (Fin dk) (Fin dv) R :=
  let cache : Fin N → ChunkCache C dk dv R := recompute Qp Kp Vp Ap
  let x := gradO Qp Vp cache sRecv dO
  let y := gradH Kp Vp cache x dSTotal dgTotal
  ({ dQ := x.dQ, dK := y.dK, dV := y.dV, dA := gateBackward Ap cache y.db }, x.dSRecv)

end Device

end ZeCo
