import ZeCo.FlatBuffers

namespace ZeCo.SimplerKernels

open Matrix Buffer

variable {R : Type*}

section Kernels

variable [Ring R] (exp : R → R)

/-- `matmul_kernel`: mode 0 is NN, 1 is TN and 2 is NT. -/
def matmul (mode M N Kc : ℕ) (a b : Buffer R) : Matrix (Fin M) (Fin N) R :=
  if mode = 1 then (load Kc M a)ᵀ * load Kc N b
  else if mode = 2 then load M Kc a * (load N Kc b)ᵀ
  else load M Kc a * load Kc N b

def gateCumsum (C D : ℕ) (tril g : Buffer R) : Matrix (Fin C) (Fin D) R :=
  load C C tril * load C D g

def chunkHPrep (C K : ℕ) (gcs gtot k : Buffer R) :
    Matrix (Fin C) (Fin K) R × Matrix (Fin 1) (Fin K) R :=
  let coeff := (everyRow C (load 1 K gtot 0) - load C K gcs).map exp
  (load C K k ⊙ coeff, (load 1 K gtot).map exp)

def chunkHUpdate (isFirst K V : ℕ) (kv decay s : Buffer R) :
    Matrix (Fin K) (Fin V) R × Matrix (Fin K) (Fin V) R :=
  if isFirst ≠ 0 then (0, load K V kv)
  else (load K V s, rowScale (fun i => load K 1 decay i 0) (load K V s) + load K V kv)

def chunkOPrep (C K : ℕ) (q k gcs : Buffer R) :
    Matrix (Fin C) (Fin K) R × Matrix (Fin C) (Fin K) R :=
  (load C K q ⊙ (load C K gcs).map exp, load C K k ⊙ (-load C K gcs).map exp)

def chunkOElt (mode r c : ℕ) (a b : Buffer R) : Matrix (Fin r) (Fin c) R :=
  if mode = 1 then load r c a + load r c b else load r c a ⊙ load r c b

end Kernels

section Orchestrations

variable [Ring R] (exp : R → R) (C dk dv N : ℕ)

def gateCumsumOrch (tril g gCs : Buffer R) : Buffer R :=
  Loop.up N (fun n gCs =>
    let chunkElems := C * dk
    let off := n * chunkElems
    gCs.store off (gateCumsum C dk tril (g.view off))) gCs

def chunkHChunk (k v gcs : Buffer R) (n : ℕ) (x : Buffer R × Buffer R) : Buffer R × Buffer R :=
  let cdk := C * dk
  let cdv := C * dv
  let kv := dk * dv
  let kN := k.view (n * cdk)
  let vN := v.view (n * cdv)
  let gcsN := gcs.view (n * cdk)
  let gtotN := gcs.view (n * cdk + (C - 1) * dk)
  let prep := chunkHPrep exp C dk gcsN gtotN kN
  let krest := flat prep.1
  let decay := flat prep.2
  let kvN := flat (matmul 1 dk dv C krest vN)
  let update := chunkHUpdate (if n = 0 then 1 else 0) dk dv kvN decay x.1
  (x.1.store 0 update.2, x.2.store (n * kv) update.1)

def chunkHOrch (k v gcs sSnap S : Buffer R) : Buffer R :=
  (Loop.up N (fun n x => chunkHChunk exp C dk dv k v gcs n x) (S, sSnap)).2

def chunkOOrch (q k v gcs sSnap tril o : Buffer R) : Buffer R :=
  Loop.up N (fun n o =>
    let cdk := C * dk
    let cdv := C * dv
    let kv := dk * dv
    let qN := q.view (n * cdk)
    let kN := k.view (n * cdk)
    let vN := v.view (n * cdv)
    let gcsN := gcs.view (n * cdk)
    let sN := sSnap.view (n * kv)
    let prep := chunkOPrep exp C dk qN kN gcsN
    let qeff := flat prep.1
    let keff := flat prep.2
    let inter := flat (matmul 0 C dv dk qeff sN)
    let aqk := flat (matmul 2 C C dk qeff keff)
    let aqkm := flat (chunkOElt 0 C C aqk tril)
    let intra := flat (matmul 0 C dv C aqkm vN)
    o.store (n * cdv) (chunkOElt 1 C dv inter intra)) o

end Orchestrations

section Specs

variable [Ring R] {exp : R → R} {C dk dv N : ℕ}

theorem chunk_gateCumsumOrch (T : Matrix (Fin C) (Fin C) R) (G : Matrix (Fin (N * C)) (Fin dk) R)
    (gCs : Buffer R) (n : Fin N) :
    chunk (load (N * C) dk (gateCumsumOrch C dk N (flat T) (flat G) gCs)) n = T * chunk G n := by
  rw [← load_chunk]
  apply (load_tiles gCs (fun n : Fin N =>
    gateCumsum C dk (flat T) ((flat G).view (n * (C * dk)))) n).trans
  rw [gateCumsum, load_flat, load_chunk_flat]

def kRest (exp : R → R) (k g : Matrix (Fin C) (Fin dk) R) : Matrix (Fin C) (Fin dk) R :=
  k ⊙ (everyRow C (lastRow g) - g).map exp

theorem load_lastRow (hC : 0 < C) (G : Matrix (Fin (N * C)) (Fin dk) R) (n : Fin N) :
    load 1 dk ((flat G).view (n * (C * dk) + (C - 1) * dk)) 0 = lastRow (chunk G n) := by
  have hoff : n.val * (C * dk) + (C - 1) * dk = (token n (lastIndex hC) : Fin (N * C)) * dk := by
    simp only [token, lastIndex]
    ring
  rw [hoff, load_row]
  funext d
  rw [lastRow, dif_pos hC]
  rfl

variable {K G : Matrix (Fin (N * C)) (Fin dk) R} {V : Matrix (Fin (N * C)) (Fin dv) R}

theorem chunkHPrep_kRest (hC : 0 < C) (n : Fin N) :
    (chunkHPrep exp C dk ((flat G).view (n * (C * dk)))
      ((flat G).view (n * (C * dk) + (C - 1) * dk)) ((flat K).view (n * (C * dk)))).1 =
      kRest exp (chunk K n) (chunk G n) := by
  rw [chunkHPrep, load_lastRow hC, load_chunk_flat, load_chunk_flat, kRest]

theorem chunkHPrep_decay (hC : 0 < C) (n : Fin N) (d : Fin dk) :
    load dk 1 (flat (chunkHPrep exp C dk ((flat G).view (n * (C * dk)))
      ((flat G).view (n * (C * dk) + (C - 1) * dk)) ((flat K).view (n * (C * dk)))).2) d 0 =
      exp (lastRow (chunk G n) d) := by
  have hx : d.val * 1 + (0 : Fin 1).val = (0 : Fin 1) * dk + d := by simp
  rw [load_apply, hx, flat_apply, stream_fin]
  exact congrArg exp (congrFun (load_lastRow hC G n) d)

structure ChunkHSpec (state : ℕ → Matrix (Fin dk) (Fin dv) R) (m : ℕ) (x : Buffer R × Buffer R) :
    Prop where
  carried : 0 < m → load dk dv x.1 = state m
  snaps : ∀ n < m, load dk dv (x.2.view (n * (dk * dv))) = state n

section Run

variable (hC : 0 < C) (state : ℕ → Matrix (Fin dk) (Fin dv) R) (start : state 0 = 0)
  (step : ∀ n : Fin N, state (n + 1) = rowScale (fun d => exp (lastRow (chunk G n) d)) (state n) +
    (kRest exp (chunk K n) (chunk G n))ᵀ * chunk V n)
include hC start step

theorem chunkHChunk_spec (n : Fin N) {x : Buffer R × Buffer R} (ih : ChunkHSpec state n x) :
    ChunkHSpec state (n + 1) (chunkHChunk exp C dk dv (flat K) (flat V) (flat G) n x) := by
  have hkv : load dk dv (flat (matmul 1 dk dv C (flat (kRest exp (chunk K n) (chunk G n)))
      ((flat V).view (n * (C * dv))))) = (kRest exp (chunk K n) (chunk G n))ᵀ * chunk V n := by
    rw [load_flat, matmul, if_pos rfl, load_flat, load_chunk_flat]
  have hupdate : chunkHUpdate (if n.val = 0 then 1 else 0) dk dv
      (flat (matmul 1 dk dv C (flat (kRest exp (chunk K n) (chunk G n)))
        ((flat V).view (n * (C * dv)))))
      (flat (chunkHPrep exp C dk ((flat G).view (n * (C * dk)))
        ((flat G).view (n * (C * dk) + (C - 1) * dk)) ((flat K).view (n * (C * dk)))).2) x.1 =
      (state n, state (n + 1)) := by
    rw [step n]
    -- chunk 0 does not read the state buffer
    by_cases h0 : n.val = 0
    · rw [if_pos h0, chunkHUpdate, if_pos one_ne_zero, hkv, h0, start, rowScale_zero, zero_add]
    · rw [if_neg h0, chunkHUpdate, if_neg (not_not.mpr rfl), hkv, ih.carried (by omega)]
      simp only [chunkHPrep_decay hC]
  rw [chunkHChunk, chunkHPrep_kRest hC, hupdate]
  constructor
  · exact fun _ => load_store_zero x.1 (state (n + 1))
  · intro i hi
    by_cases h : i = n
    · rw [h]
      exact load_store_self x.2 _ (state n)
    · rw [load_store_tile x.2 (state n) h]
      exact ih.snaps i (by omega)

theorem chunkHOrch_spec (sSnap S : Buffer R) (n : Fin N) :
    load dk dv ((chunkHOrch exp C dk dv N (flat K) (flat V) (flat G) sSnap S).view
      (n * (dk * dv))) = state n := by
  have hrun := Loop.up_invariant (ChunkHSpec state)
    (f := fun (n : Fin N) => chunkHChunk exp C dk dv (flat K) (flat V) (flat G) n) (s := (S, sSnap))
    ⟨fun h => absurd h (Nat.lt_irrefl 0), fun n hn => absurd hn (Nat.not_lt_zero _)⟩
    (fun n x ih => chunkHChunk_spec hC state start step n ih)
  exact hrun.snaps n n.isLt

end Run

theorem chunk_chunkOOrch (Q : Matrix (Fin (N * C)) (Fin dk) R)
    (S : Fin N → Matrix (Fin dk) (Fin dv) R) (T : Matrix (Fin C) (Fin C) R) (o : Buffer R)
    (n : Fin N) :
    let qeff := chunk Q n ⊙ (chunk G n).map exp
    let keff := chunk K n ⊙ (-chunk G n).map exp
    chunk (load (N * C) dv (chunkOOrch exp C dk dv N (flat Q) (flat K) (flat V) (flat G)
      (flat (flattenSeq S)) (flat T) o)) n = qeff * S n + ((qeff * keffᵀ) ⊙ T) * chunk V n := by
  intro qeff keff
  rw [← load_chunk]
  simp only [chunkOOrch, load_tiles, chunkOElt, chunkOPrep, matmul, load_flat, load_chunk_flat,
    chunk_flattenSeq]
  rfl

end Specs

end ZeCo.SimplerKernels
