import ZeCo.SimplerKernels

namespace ZeCo.SimplerKernels

open Matrix Buffer

variable {R : Type*}

structure GradOBuffers (R : Type*) where
  dQt : Buffer R
  dKin : Buffer R
  dVi : Buffer R
  dH : Buffer R

structure GradHBuffers (R : Type*) where
  dKstate : Buffer R
  dVs : Buffer R

section Orchestrations

variable [Ring R] (exp : R → R) (C dk dv N : ℕ)

def gradOChunk (q k v gcs snap dO tril : Buffer R) (n : ℕ) (x : GradOBuffers R) :
    GradOBuffers R :=
  let cdk := C * dk
  let cdv := C * dv
  let kv := dk * dv
  let qN := q.view (n * cdk)
  let kN := k.view (n * cdk)
  let vN := v.view (n * cdv)
  let gcsN := gcs.view (n * cdk)
  let hN := snap.view (n * kv)
  let dON := dO.view (n * cdv)
  let prep := chunkOPrep exp C dk qN kN gcsN
  let qt := flat prep.1
  let kin := flat prep.2
  let aqk := flat (matmul 2 C C dk qt kin)
  let scores := flat (chunkOElt 0 C C aqk tril)
  let dHN := matmul 1 dk dv C qt dON
  let dscRaw := flat (matmul 2 C C dv dON vN)
  let dsc := flat (chunkOElt 0 C C dscRaw tril)
  let dqtRecon := flat (matmul 2 C dk dv dON hN)
  let dqtIntra := flat (matmul 0 C dk C dsc kin)
  { dQt := x.dQt.store (n * cdk) (chunkOElt 1 C dk dqtRecon dqtIntra)
    dKin := x.dKin.store (n * cdk) (matmul 1 C dk C dsc qt)
    dVi := x.dVi.store (n * cdv) (matmul 1 C dv C scores dON)
    dH := x.dH.store (n * kv) dHN }

def gradOOrch (q k v gcs snap dO tril : Buffer R) (x : GradOBuffers R) : GradOBuffers R :=
  Loop.up N (fun n x => gradOChunk exp C dk dv q k v gcs snap dO tril n x) x

def gradHChunk (k v gcs dSloc : Buffer R) (n : ℕ) (x : GradHBuffers R) : GradHBuffers R :=
  let cdk := C * dk
  let cdv := C * dv
  let kv := dk * dv
  let kN := k.view (n * cdk)
  let vN := v.view (n * cdv)
  let gcsN := gcs.view (n * cdk)
  let gtotN := gcs.view (n * cdk + (C - 1) * dk)
  let dSlocN := dSloc.view (n * kv)
  let prep := chunkHPrep exp C dk gcsN gtotN kN
  let kstate := flat prep.1
  { dKstate := x.dKstate.store (n * cdk) (matmul 2 C dk dv vN dSlocN)
    dVs := x.dVs.store (n * cdv) (matmul 0 C dv dk kstate dSlocN) }

def gradHOrch (k v gcs dSloc : Buffer R) (x : GradHBuffers R) : GradHBuffers R :=
  Loop.up N (fun n x => gradHChunk exp C dk dv k v gcs dSloc n x) x

end Orchestrations

section Specs

variable [Ring R] (exp : R → R) {C dk dv N : ℕ} (Q : Matrix (Fin (N * C)) (Fin dk) R)
  {K G : Matrix (Fin (N * C)) (Fin dk) R} {V : Matrix (Fin (N * C)) (Fin dv) R}
  (S : Fin N → Matrix (Fin dk) (Fin dv) R) (dO : Matrix (Fin (N * C)) (Fin dv) R)
  (T : Matrix (Fin C) (Fin C) R)

structure GradOTiles (x : GradOBuffers R) (n : Fin N) (qt kin : Matrix (Fin C) (Fin dk) R)
    (v : Matrix (Fin C) (Fin dv) R) (H : Matrix (Fin dk) (Fin dv) R)
    (dO : Matrix (Fin C) (Fin dv) R) (T : Matrix (Fin C) (Fin C) R) : Prop where
  dQt : chunk (load (N * C) dk x.dQt) n = dO * Hᵀ + ((dO * vᵀ) ⊙ T) * kin
  dKin : chunk (load (N * C) dk x.dKin) n = ((dO * vᵀ) ⊙ T)ᵀ * qt
  dVi : chunk (load (N * C) dv x.dVi) n = ((qt * kinᵀ) ⊙ T)ᵀ * dO
  dH : load dk dv (x.dH.view (n * (dk * dv))) = qtᵀ * dO

theorem gradOOrch_tiles (x : GradOBuffers R) (n : Fin N) :
    GradOTiles (gradOOrch exp C dk dv N (flat Q) (flat K) (flat V) (flat G) (flat (flattenSeq S))
      (flat dO) (flat T) x) n (chunk Q n ⊙ (chunk G n).map exp)
      (chunk K n ⊙ (-chunk G n).map exp) (chunk V n) (S n) (chunk dO n) T := by
  constructor
  · rw [← load_chunk]
    apply (load_written GradOBuffers.dQt (fun _ _ => rfl) x n).trans
    simp only [chunkOElt, chunkOPrep, matmul, load_flat, load_chunk_flat, chunk_flattenSeq]
    rfl
  · rw [← load_chunk]
    apply (load_written GradOBuffers.dKin (fun _ _ => rfl) x n).trans
    simp only [chunkOElt, chunkOPrep, matmul, load_flat, load_chunk_flat]
    rfl
  · rw [← load_chunk]
    apply (load_written GradOBuffers.dVi (fun _ _ => rfl) x n).trans
    simp only [chunkOElt, chunkOPrep, matmul, load_flat, load_chunk_flat]
    rfl
  · apply (load_written GradOBuffers.dH (fun _ _ => rfl) x n).trans
    simp only [chunkOPrep, matmul, load_flat, load_chunk_flat]
    rfl

structure GradHTiles (x : GradHBuffers R) (n : Fin N) (kstate : Matrix (Fin C) (Fin dk) R)
    (v : Matrix (Fin C) (Fin dv) R) (dSloc : Matrix (Fin dk) (Fin dv) R) : Prop where
  dKstate : chunk (load (N * C) dk x.dKstate) n = v * dSlocᵀ
  dVs : chunk (load (N * C) dv x.dVs) n = kstate * dSloc

theorem gradHOrch_tiles (hC : 0 < C) (x : GradHBuffers R) (n : Fin N) :
    GradHTiles (gradHOrch exp C dk dv N (flat K) (flat V) (flat G) (flat (flattenSeq S)) x) n
      (kRest exp (chunk K n) (chunk G n)) (chunk V n) (S n) := by
  constructor
  · rw [← load_chunk]
    apply (load_written GradHBuffers.dKstate (fun _ _ => rfl) x n).trans
    simp only [matmul, load_chunk_flat, chunk_flattenSeq]
    rfl
  · rw [← load_chunk]
    apply (load_written GradHBuffers.dVs (fun _ _ => rfl) x n).trans
    simp only [chunkHPrep_kRest hC, matmul, load_flat, load_chunk_flat, chunk_flattenSeq]
    rfl

end Specs

end ZeCo.SimplerKernels
