import ZeCo.GlaStates
import ZeCo.TorchRef

namespace ZeCo

open Matrix Finset Recurrence

variable {R : Type*} {P N L C T M dk dv d : ℕ}

def Slice [Zero R] (Y : Matrix (Fin M) (Fin d) R) (X : Matrix (Fin T) (Fin d) R) (o m : ℕ) : Prop :=
  ∀ t < m, ∀ j, stream Y t j = stream X (o + t) j

theorem chunk_slice [Zero R] (X : Matrix (Fin (N * C)) (Fin d) R) (n : Fin N) :
    Slice (chunk X n) X (n * C) C := fun _ h j => stream_chunk X n h j

theorem rank_slice [Zero R] (X : Fin P → Matrix (Fin L) (Fin d) R) (p : Fin P) :
    Slice (X p) (flattenSeq X) (p * L) L := fun _ h j => (stream_flattenSeq X p h j).symm

section Slices

variable [CommRing R] {Q K A : Matrix (Fin T) (Fin dk) R} {V dO : Matrix (Fin T) (Fin dv) R}
  {Q' K' A' : Matrix (Fin M) (Fin dk) R} {V' dO' : Matrix (Fin M) (Fin dv) R} {o m : ℕ}

theorem stateAt_slice (hK : Slice K' K o m) (hV : Slice V' V o m) (hA : Slice A' A o m)
    (S : Matrix (Fin dk) (Fin dv) R) {t : ℕ} (ht : t ≤ m) :
    stateAt K' V' A' (stateAt K V A S o) t = stateAt K V A S (o + t) := by
  ext d e
  rw [stateAt_apply, stateAt_apply, stateAt_apply, affine_add]
  apply affine_congr
  · intro j hj
    exact hA j (by omega) d
  · intro j hj
    simp only [inflow, hK j (by omega) d, hV j (by omega) e]

theorem outputAt_slice (hQ : Slice Q' Q o M) (hK : Slice K' K o M) (hV : Slice V' V o M)
    (hA : Slice A' A o M) (S : Matrix (Fin dk) (Fin dv) R) (t : Fin M) (h : o + t < T) :
    outputAt Q' K' V' A' (stateAt K V A S o) t = outputAt Q K V A S ⟨o + t, h⟩ := by
  have hq : Q' t = Q ⟨o + t, h⟩ := by
    funext j
    rw [← stream_fin Q' t j, hQ t t.isLt j, stream_of_lt Q h]
  rw [outputAt, outputAt, stateAt_slice hK hV hA S (by omega), hq]
  rfl

end Slices

theorem stateAt_eq_add [CommRing R] (K : Matrix (Fin T) (Fin dk) R) (V : Matrix (Fin T) (Fin dv) R)
    (A : Matrix (Fin T) (Fin dk) R) (S : Matrix (Fin dk) (Fin dv) R) (t : ℕ) :
    stateAt K V A S t = stateAt K V A 0 t + rowScale (fun d => decay (gate A d) 0 t) S := by
  ext d e
  rw [stateAt_apply, affine_eq_decay, Matrix.add_apply, rowScale_apply, stateAt_apply,
    Matrix.zero_apply]
  ring

section Chunk

variable [Field R] (q k : Matrix (Fin C) (Fin dk) R) (v : Matrix (Fin C) (Fin dv) R)
  (a : Matrix (Fin C) (Fin dk) R)

theorem cumprod_eq_decay (t : Fin C) (d : Fin dk) :
    cumprod a t d = decay (gate a d) 0 (t + 1) := cumprod_apply a t d

theorem lastRow_cumprod (hC : 0 < C) (d : Fin dk) :
    lastRow (cumprod a) d = decay (gate a d) 0 C := by
  rw [lastRow, dif_pos hC, cumprod_eq_decay]
  congr 1
  change C - 1 + 1 = C
  omega

variable {a} (ha : ∀ t d, a t d ≠ 0)
include ha

theorem gate_ne_zero (d : Fin dk) : ∀ t < C, gate a d t ≠ 0 := fun t ht => by
  rw [gate, stream_of_lt a ht]
  exact ha _ _

theorem chunk_state (hC : 0 < C) (S : Matrix (Fin dk) (Fin dv) R) :
    rowScale (lastRow (cumprod a)) S +
      (k ⊙ quotient (everyRow C (lastRow (cumprod a))) (cumprod a))ᵀ * v = stateAt k v a S C := by
  ext d e
  rw [stateAt_apply, affine_factored _ _ _ (gate_ne_zero ha d),
    ← Fin.sum_univ_eq_sum_range (fun j => inflow k v d e j / decay (gate a d) 0 (j + 1))]
  simp only [Matrix.add_apply, rowScale_apply, mul_apply, transpose_apply, hadamard_apply,
    quotient_apply, everyRow_apply, lastRow_cumprod a hC, cumprod_eq_decay, inflow, stream_fin,
    mul_add, mul_sum]
  congr 1
  apply sum_congr rfl
  intro t _
  ring

theorem chunk_state_scaled (S : Matrix (Fin dk) (Fin dv) R) :
    rowScale (fun d => decay (gate a d) 0 C) (S + (quotient k (cumprod a))ᵀ * v) =
      stateAt k v a S C := by
  ext d e
  rw [stateAt_apply, affine_factored _ _ _ (gate_ne_zero ha d),
    ← Fin.sum_univ_eq_sum_range (fun j => inflow k v d e j / decay (gate a d) 0 (j + 1))]
  simp only [rowScale_apply, Matrix.add_apply, mul_apply, transpose_apply, quotient_apply,
    cumprod_eq_decay, inflow, stream_fin]
  congr 2
  apply sum_congr rfl
  intro t _
  ring

theorem chunk_output (hist : Matrix (Fin dk) (Fin dv) R) (t : Fin C) :
    ((q ⊙ cumprod a) * hist + (((q ⊙ cumprod a) * (quotient k (cumprod a))ᵀ) ⊙ tril C) * v) t =
      outputAt q k v a hist t := by
  funext e
  have entry (d : Fin dk) : stateAt k v a hist (t + 1) d e = decay (gate a d) 0 (t + 1) * hist d e +
      ∑ s : Fin C, if s ≤ t then
        decay (gate a d) 0 (t + 1) * (k s d / decay (gate a d) 0 (s + 1)) * v s e else 0 := by
    have hs := sum_fin_le (fun s => decay (gate a d) 0 (t + 1) *
      (stream k s d / decay (gate a d) 0 (s + 1)) * stream v s e) t
    simp only [stream_fin] at hs
    rw [stateAt_apply, affine_factored _ _ _ fun j hj => gate_ne_zero ha d j (by omega), hs,
      mul_add,
      mul_sum]
    congr 1
    apply sum_congr rfl
    intro s _
    rw [inflow]
    ring
  simp only [outputAt, vecMul, dotProduct, entry, Matrix.add_apply, mul_apply, hadamard_apply,
    cumprod_eq_decay, transpose_apply, quotient_apply, tril_apply, mul_add, mul_sum, sum_mul,
    sum_add_distrib]
  rw [sum_comm (s := (univ : Finset (Fin C)))]
  congr 1
  · apply sum_congr rfl
    intro d _
    ring
  · apply sum_congr rfl
    intro d _
    apply sum_congr rfl
    intro s _
    split_ifs <;> ring

end Chunk

section Device

variable [Field R] (Qp Kp : Matrix (Fin (N * C)) (Fin dk) R)
  (Vp : Matrix (Fin (N * C)) (Fin dv) R) {Ap : Matrix (Fin (N * C)) (Fin dk) R}

theorem decay_chunk (A : Matrix (Fin (N * C)) (Fin dk) R) (n : Fin N) (d : Fin dk) :
    decay (gate A d) 0 ((n + 1) * C) =
      decay (gate A d) 0 (n * C) * decay (gate (chunk A n) d) 0 C := by
  rw [Nat.add_mul, Nat.one_mul, decay_add, Nat.zero_add, ← decay_shift (gate A d) (n * C)]
  congr 1
  exact decay_congr fun t ht => by
    rw [Nat.zero_add]
    exact (chunk_slice A n t ht d).symm

def intraOutput (A : Matrix (Fin (N * C)) (Fin dk) R) (n : Fin N) : Matrix (Fin C) (Fin dv) R :=
  (((chunk Qp n ⊙ cumprod (chunk A n)) * (quotient (chunk Kp n) (cumprod (chunk A n)))ᵀ) ⊙ tril C) *
    chunk Vp n

structure ScanSpec (A : Matrix (Fin (N * C)) (Fin dk) R) (m : ℕ) (x : ChunkScan N C dk dv R) :
    Prop where
  sPrev : ∀ n : Fin N, n.val < m → x.sPrev n = stateAt Kp Vp A 0 (n * C)
  cPrev : ∀ n : Fin N, n.val < m → x.cPrev n = fun d => decay (gate A d) 0 (n * C)
  oIntra : ∀ n : Fin N, n.val < m → chunk x.oIntra n = intraOutput Qp Kp Vp A n
  sTotal : x.sTotal = stateAt Kp Vp A 0 (m * C)
  gTotal : x.gTotal = fun d => decay (gate A d) 0 (m * C)

variable (ha : ∀ t d, Ap t d ≠ 0)
include ha

theorem glaChunkScan_spec (hC : 0 < C) : ScanSpec Qp Kp Vp Ap N (glaChunkScan Qp Kp Vp Ap) := by
  unfold glaChunkScan
  apply Loop.up_invariant (ScanSpec Qp Kp Vp Ap)
  · constructor
    case sTotal => rw [Nat.zero_mul, stateAt_zero]
    case gTotal =>
      funext d
      rw [Nat.zero_mul, decay_zero]
      rfl
    all_goals exact fun n hn => absurd hn (Nat.not_lt_zero _)
  · intro n x ih
    have hne : ∀ t d, chunk Ap n t d ≠ 0 := fun t d => ha _ _
    constructor
    case sPrev =>
      rw [ih.sTotal]
      exact Loop.written_slot (fun i : Fin N => stateAt Kp Vp Ap 0 (i * C)) ih.sPrev
    case cPrev =>
      rw [ih.gTotal]
      exact Loop.written_slot (fun (i : Fin N) d => decay (gate Ap d) 0 (i * C)) ih.cPrev
    case oIntra =>
      exact written_chunk _ ih.oIntra
    case sTotal =>
      dsimp only
      rw [ih.sTotal, chunk_state (chunk Kp n) (chunk Vp n) hne hC,
        stateAt_slice (chunk_slice Kp n) (chunk_slice Vp n) (chunk_slice Ap n) 0 le_rfl,
        Nat.add_mul, Nat.one_mul]
    case gTotal =>
      funext d
      dsimp only
      rw [ih.gTotal, Pi.mul_apply, lastRow_cumprod (chunk Ap n) hC, decay_chunk Ap n d]

theorem glaReconstruct_row (hC : 0 < C) (S : Matrix (Fin dk) (Fin dv) R) (l : Fin (N * C)) :
    glaReconstruct Qp Ap (glaChunkScan Qp Kp Vp Ap).sPrev (glaChunkScan Qp Kp Vp Ap).cPrev S
      (glaChunkScan Qp Kp Vp Ap).oIntra l = outputAt Qp Kp Vp Ap S l := by
  have hscan := glaChunkScan_spec Qp Kp Vp ha hC
  set x := glaChunkScan Qp Kp Vp Ap
  have hist (n : Fin N) : x.sPrev n + rowScale (x.cPrev n) S = stateAt Kp Vp Ap S (n * C) := by
    rw [hscan.sPrev n n.isLt, hscan.cPrev n n.isLt, ← stateAt_eq_add]
  have hchunk (n : Fin N) (t : Fin C) :
      chunk (glaReconstruct Qp Ap x.sPrev x.cPrev S x.oIntra) n t =
        outputAt (chunk Qp n) (chunk Kp n) (chunk Vp n) (chunk Ap n) (stateAt Kp Vp Ap S (n * C))
          t := by
    rw [glaReconstruct, up_setChunk, hist, hscan.oIntra n n.isLt]
    exact chunk_output _ _ _ (fun t d => ha _ _) _ t
  have hv : l.divNat.val * C + l.modNat.val = l.val := congrArg Fin.val (token_divNat_modNat l)
  have hrow := hchunk l.divNat l.modNat
  rw [outputAt_slice (chunk_slice Qp _) (chunk_slice Kp _) (chunk_slice Vp _) (chunk_slice Ap _) S
    l.modNat (by rw [hv]; exact l.isLt)] at hrow
  simp only [hv] at hrow
  exact (row_eq_chunk _ l).trans hrow

end Device

end ZeCo
