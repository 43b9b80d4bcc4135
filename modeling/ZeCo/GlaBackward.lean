import Mathlib.Algebra.BigOperators.Field
import ZeCo.GlaForward

namespace ZeCo

open Matrix Finset Recurrence

variable {R : Type*} {P N L C T M dk dv : ℕ}

section Chunk

variable [Field R] (q k : Matrix (Fin C) (Fin dk) R) (v : Matrix (Fin C) (Fin dv) R)
  {a : Matrix (Fin C) (Fin dk) R} (dO : Matrix (Fin C) (Fin dv) R)
  (S sRecv E : Matrix (Fin dk) (Fin dv) R) (c dc : Fin dk → R)

theorem chunkGradO_dSPrev :
    (chunkGradO q v (cacheOf q k a S c) sRecv dO).dSPrev = adjointAt q a dO 0 0 := by
  ext d e
  have hs := Fin.sum_univ_eq_sum_range (fun j => decay (gate a d) 0 (j + 1) * demand q dO d e j) C
  rw [adjointAt_apply, adjoint_zero_eq_sum, ← hs]
  simp only [chunkGradO, cacheOf, mul_apply, transpose_apply, hadamard_apply, cumprod_eq_decay,
    demand, stream_fin, Matrix.zero_apply, mul_zero, add_zero]
  apply sum_congr rfl
  intro t _
  ring

section Entries

variable (ha : ∀ t d, a t d ≠ 0)
include ha

theorem stateAt_entry (H : Matrix (Fin dk) (Fin dv) R) (t : Fin C) (d : Fin dk) (e : Fin dv) :
    stateAt k v a H (t + 1) d e = cumprod a t d *
      (H d e + ∑ s : Fin C, if s ≤ t then k s d * v s e / cumprod a s d else 0) := by
  have hs := sum_fin_le (fun s => inflow k v d e s / decay (gate a d) 0 (s + 1)) t
  simp only [inflow, stream_fin] at hs
  rw [stateAt_apply, affine_factored _ _ _ fun j hj => gate_ne_zero ha d j (by omega)]
  simp only [cumprod_eq_decay, hs, inflow]

theorem totalAt_entry (hC : 0 < C) (t : Fin C) (d : Fin dk) (e : Fin dv) :
    totalAt q a dO E t d e = ((∑ s : Fin C, if t ≤ s then cumprod a s d * (q s d * dO s e) else 0) +
      lastRow (cumprod a) d * E d e) / cumprod a t d := by
  have hs := sum_fin_ge (fun s => decay (gate a d) 0 (s + 1) * demand q dO d e s) t
  simp only [demand, stream_fin] at hs
  rw [totalAt_apply, adjointAt_apply, total_eq_div _ _ _ t.isLt (gate_ne_zero ha d)]
  simp only [cumprod_eq_decay, lastRow_cumprod a hC, hs, demand]

theorem chunkGradO_dQ (t : Fin C) :
    (chunkGradO q v (cacheOf q k a S c) sRecv dO).dQ t =
      stateAt k v a (S + rowScale c sRecv) (t + 1) *ᵥ dO t := by
  funext d
  simp only [chunkGradO, cacheOf, mulVec, dotProduct, stateAt_entry k v ha, Matrix.add_apply,
    hadamard_apply, mul_apply, transpose_apply, quotient_apply, tril_apply, sum_mul, mul_add,
    add_mul, mul_sum, sum_add_distrib, rowScale_apply]
  rw [sum_comm (s := (univ : Finset (Fin C)))]
  congr 1
  · congr 1
    all_goals exact sum_congr rfl fun e _ => by ring
  · apply sum_congr rfl
    intro e _
    apply sum_congr rfl
    intro s _
    split_ifs <;> ring

theorem cumprod_ne_zero (t : Fin C) (d : Fin dk) : cumprod a t d ≠ 0 := by
  rw [cumprod_eq_decay]
  exact decay_ne_zero fun j hj => by
    rw [Nat.zero_add]
    exact gate_ne_zero ha d j (by omega)

theorem chunkGrad_dK (hC : 0 < C) (db : Matrix (Fin C) (Fin dk) R) (t : Fin C) :
    ((chunkGradO q v (cacheOf q k a S c) sRecv dO).dK +
      (chunkGradH k v (cacheOf q k a S c) E dc db).dK) t = totalAt q a dO E t *ᵥ v t := by
  funext d
  simp only [chunkGradO, chunkGradH, cacheOf, mulVec, dotProduct, totalAt_entry q dO E ha hC,
    Matrix.add_apply, hadamard_apply, mul_apply, transpose_apply, quotient_apply, everyRow_apply,
    tril_apply, sum_mul, sum_div, add_div, add_mul, sum_add_distrib]
  rw [sum_comm (s := (univ : Finset (Fin C)))]
  congr 1
  · apply sum_congr rfl
    intro e _
    apply sum_congr rfl
    intro s _
    split_ifs <;> ring
  · apply sum_congr rfl
    intro e _
    ring

theorem chunkGrad_dV (hC : 0 < C) (db : Matrix (Fin C) (Fin dk) R) (t : Fin C) :
    ((chunkGradO q v (cacheOf q k a S c) sRecv dO).dV +
      (chunkGradH k v (cacheOf q k a S c) E dc db).dV) t = k t ᵥ* totalAt q a dO E t := by
  funext e
  simp only [chunkGradO, chunkGradH, cacheOf, vecMul, dotProduct, totalAt_entry q dO E ha hC,
    Matrix.add_apply, hadamard_apply, mul_apply, transpose_apply, quotient_apply, everyRow_apply,
    tril_apply, sum_mul, mul_sum, sum_div, add_div, mul_add, sum_add_distrib]
  rw [sum_comm (s := (univ : Finset (Fin C)))]
  congr 1
  · apply sum_congr rfl
    intro d _
    apply sum_congr rfl
    intro s _
    split_ifs <;> ring
  · apply sum_congr rfl
    intro d _
    ring

theorem chunkGrad_db (hC : 0 < C) (t : Fin C) (d : Fin dk) :
    (chunkGradH k v (cacheOf q k a S c) E dc
        (chunkGradO q v (cacheOf q k a S c) sRecv dO).db).db t d * cumprod a t d =
      (∑ e, (stateAt k v a (S + rowScale c sRecv) (t + 1) d e * demand q dO d e t -
        totalAt q a dO E t d e * inflow k v d e t)) +
      if t.val + 1 = C then
        (∑ e, E d e * stateAt k v a S C d e) + lastRow (cumprod a) d * (dc d * c d) else 0 := by
  have hb := cumprod_ne_zero ha t d
  have hq := congrFun (chunkGradO_dQ q k v dO S sRecv c ha t) d
  have hk := congrFun (chunkGrad_dK q k v dO S sRecv E c dc ha hC
    (chunkGradO q v (cacheOf q k a S c) sRecv dO).db t) d
  have hflow : (∑ e, (stateAt k v a (S + rowScale c sRecv) (t + 1) d e * demand q dO d e t -
      totalAt q a dO E t d e * inflow k v d e t)) =
      q t d * (stateAt k v a (S + rowScale c sRecv) (t + 1) *ᵥ dO t) d -
        k t d * (totalAt q a dO E t *ᵥ v t) d := by
    simp only [mulVec, dotProduct, mul_sum, ← sum_sub_distrib, demand, inflow, stream_fin]
    apply sum_congr rfl
    intro e _
    ring
  -- `gamma` is the last row of `b`, so its gradient lands there
  have hgamma : lastRow (cumprod a) d * (rowSum (E ⊙ S) d +
      colSum (quotient ((v * Eᵀ) ⊙ k) (cumprod a)) d) = ∑ e, E d e * stateAt k v a S C d e := by
    rw [← chunk_state k v ha hC]
    simp only [rowSum_apply, colSum_apply, quotient_apply, hadamard_apply, Matrix.add_apply,
      rowScale_apply, mul_apply, transpose_apply, everyRow_apply, sum_mul, mul_add, mul_sum,
      sum_div, sum_add_distrib]
    rw [sum_comm (s := (univ : Finset (Fin C)))]
    congr 1
    · apply sum_congr rfl
      intro e _
      ring
    · apply sum_congr rfl
      intro e _
      apply sum_congr rfl
      intro s _
      ring
  rw [hflow, ← hq, ← hk, ← hgamma]
  simp only [chunkGradH, chunkGradO, cacheOf, addLastRow, of_apply, Matrix.add_apply,
    hadamard_apply, quotient_apply, Matrix.neg_apply, everyRow_apply, Pi.add_apply, Pi.mul_apply]
  split_ifs with hlast
  · have hl : lastRow (cumprod a) d = cumprod a t d := by
      rw [lastRow_cumprod a hC, cumprod_eq_decay, hlast]
    rw [hl]
    field_simp
    ring
  · field_simp
    ring

theorem chunkGradO_db_log : (chunkGradO q v (cacheOf q k a S c) sRecv dO).db ⊙ cumprod a =
    (chunkGradO q v (cacheOf q k a S c) sRecv dO).dQ ⊙ q -
      (chunkGradO q v (cacheOf q k a S c) sRecv dO).dK ⊙ k := by
  ext t d
  have hb := cumprod_ne_zero ha t d
  simp only [chunkGradO, cacheOf, hadamard_apply, quotient_apply, Matrix.add_apply,
    Matrix.sub_apply, Matrix.neg_apply]
  field_simp
  ring

theorem chunkGradH_db_log (hC : 0 < C) (db : Matrix (Fin C) (Fin dk) R) :
    let g := chunkGradH k v (cacheOf q k a S c) E dc db
    g.db ⊙ cumprod a = addLastRow (db ⊙ cumprod a + (-g.dK) ⊙ k)
      ((rowSum (E ⊙ S) + dc * c) * lastRow (cumprod a) + colSum (g.dK ⊙ k)) := by
  intro g
  ext t d
  have hb := cumprod_ne_zero ha t d
  have hk : ∑ s : Fin C, (v * Eᵀ) s d * (lastRow (cumprod a) d / cumprod a s d) * k s d =
      lastRow (cumprod a) d * ∑ s : Fin C, (v * Eᵀ) s d * k s d / cumprod a s d := by
    rw [mul_sum]
    apply sum_congr rfl
    intro s _
    ring
  simp only [g, chunkGradH, cacheOf, addLastRow, of_apply, hadamard_apply, Matrix.add_apply,
    Matrix.neg_apply, quotient_apply, everyRow_apply, Pi.add_apply, Pi.mul_apply, rowSum_apply,
    colSum_apply, hk]
  split_ifs with hlast
  · have hl : lastRow (cumprod a) d = cumprod a t d := by
      rw [lastRow_cumprod a hC, cumprod_eq_decay, hlast]
    rw [hl]
    field_simp
  · field_simp

theorem chunkGrad_dA (hC : 0 < C) (t : Fin C) (d : Fin dk) :
    quotient (flipRows (cumsum (flipRows ((chunkGradH k v (cacheOf q k a S c) E dc
        (chunkGradO q v (cacheOf q k a S c) sRecv dO).db).db ⊙ cumprod a)))) a t d =
      rowSum (totalAt q a dO E t ⊙ stateAt k v a (S + rowScale c sRecv) t) d +
        (dc d - rowSum (E ⊙ sRecv) d) * (c d * lastRow (cumprod a) d) / a t d := by
  set H := S + rowScale c sRecv with hH
  set X := (chunkGradH k v (cacheOf q k a S c) E dc
        (chunkGradO q v (cacheOf q k a S c) sRecv dO).db).db ⊙ cumprod a
  set last := (∑ e, E d e * stateAt k v a S C d e) + lastRow (cumprod a) d * (dc d * c d)
  have hX : ∀ s ∈ Ico t.val C, stream X s d =
      (∑ e, (stateAt k v a H (s + 1) d e * demand q dO d e s -
        totalAt q a dO E s d e * inflow k v d e s)) +
        if s + 1 = C then last else 0 := fun s hs => by
    rw [stream_of_lt X (mem_Ico.mp hs).2]
    exact chunkGrad_db q k v dO S sRecv E c dc ha hC ⟨s, (mem_Ico.mp hs).2⟩ d
  have hlast : ∑ s ∈ Ico t.val C, (if s + 1 = C then last else 0) = last := by
    have ht := t.isLt
    rw [sum_eq_single_of_mem (C - 1) (by rw [mem_Ico]; omega) fun s hs hne => if_neg (by omega),
      if_pos (by omega)]
  have hflow : ∑ s ∈ Ico t.val C, ∑ e, (stateAt k v a H (s + 1) d e * demand q dO d e s -
      totalAt q a dO E s d e * inflow k v d e s) =
      ∑ e, (adjointAt q a dO E t d e * stateAt k v a H t d e -
        E d e * stateAt k v a H C d e) := by
    rw [sum_comm]
    exact sum_congr rfl fun e _ => telescope (gate a d) (inflow k v d e) (demand q dO d e) (H d e)
      (E d e) t.isLt.le
  have hend (e : Fin dv) : stateAt k v a H C d e =
      stateAt k v a S C d e + lastRow (cumprod a) d * (c d * sRecv d e) := by
    rw [stateAt_eq_add k v a H, stateAt_eq_add k v a S, lastRow_cumprod a hC, hH]
    simp only [Matrix.add_apply, rowScale_apply]
    ring
  rw [quotient_apply, flipRows_cumsum_flipRows, sum_congr rfl hX, sum_add_distrib, hflow, hlast]
  simp only [hend, adjointAt_step, rowScale_apply, rowSum_apply, hadamard_apply]
  have hat := ha t d
  rw [div_eq_iff hat, add_mul, div_mul_cancel₀ _ hat]
  have hdA : ∑ e, a t d * totalAt q a dO E t d e * stateAt k v a H t d e =
      (∑ e, totalAt q a dO E t d e * stateAt k v a H t d e) * a t d := by
    rw [sum_mul]
    apply sum_congr rfl
    intro e _
    ring
  have hrecv : ∑ e, E d e * (lastRow (cumprod a) d * (c d * sRecv d e)) =
      (∑ e, E d e * sRecv d e) * (c d * lastRow (cumprod a) d) := by
    rw [sum_mul]
    apply sum_congr rfl
    intro e _
    ring
  simp only [last, mul_add, sum_sub_distrib, sum_add_distrib, hdA, hrecv]
  ring

end Entries

end Chunk

section Slices

variable [CommRing R] {Q K A : Matrix (Fin T) (Fin dk) R} {V dO : Matrix (Fin T) (Fin dv) R}
  {Q' K' A' : Matrix (Fin M) (Fin dk) R} {V' dO' : Matrix (Fin M) (Fin dv) R} {o : ℕ}

theorem adjointAt_slice (hQ : Slice Q' Q o M) (hA : Slice A' A o M) (hdO : Slice dO' dO o M)
    (E : Matrix (Fin dk) (Fin dv) R) (hT : o + M ≤ T) {t : ℕ} (ht : t ≤ M) :
    adjointAt Q' A' dO' (adjointAt Q A dO E (o + M)) t = adjointAt Q A dO E (o + t) := by
  ext d e
  simp only [adjointAt_apply]
  rw [adjoint_split _ _ _ hT (Nat.add_le_add_left ht o), ← adjoint_shift _ _ _ o ht]
  apply adjoint_congr _ _ ht
  · intro j hj
    exact hA j hj d
  · intro j hj
    simp only [demand, hQ j hj d, hdO j hj e]

theorem totalAt_slice (hQ : Slice Q' Q o M) (hA : Slice A' A o M) (hdO : Slice dO' dO o M)
    (E : Matrix (Fin dk) (Fin dv) R) (hT : o + M ≤ T) (t : Fin M) :
    totalAt Q' A' dO' (adjointAt Q A dO E (o + M)) t = totalAt Q A dO E (o + t) := by
  ext d e
  rw [totalAt_apply, totalAt_apply, adjointAt_slice hQ hA hdO E hT t.isLt, demand, demand,
    hQ t t.isLt, hdO t t.isLt, Nat.add_assoc]

theorem row_slice {d : ℕ} {Y : Matrix (Fin M) (Fin d) R} {X : Matrix (Fin T) (Fin d) R}
    (h : Slice Y X o M) (t : Fin M) (ht : o + t < T) : Y t = X ⟨o + t, ht⟩ := by
  funext j
  rw [← stream_fin Y t j, h t t.isLt j, stream_of_lt X ht]

theorem rowGradsAt_slice (hQ : Slice Q' Q o M) (hK : Slice K' K o M) (hV : Slice V' V o M)
    (hA : Slice A' A o M) (hdO : Slice dO' dO o M) (S E : Matrix (Fin dk) (Fin dv) R)
    (hT : o + M ≤ T) (t : Fin M) :
    rowGradsAt Q' K' V' A' dO' (stateAt K V A S o) (adjointAt Q A dO E (o + M)) t =
      rowGradsAt Q K V A dO S E ⟨o + t, by omega⟩ := by
  simp only [rowGradsAt, stateAt_slice hK hV hA S (show t.val + 1 ≤ M from t.isLt),
    stateAt_slice hK hV hA S t.isLt.le, totalAt_slice hQ hA hdO E hT, row_slice hK t (by omega),
    row_slice hV t (by omega), row_slice hdO t (by omega), Nat.add_assoc]

theorem adjointAt_zero_eq_add (Q A : Matrix (Fin T) (Fin dk) R) (dO : Matrix (Fin T) (Fin dv) R)
    (E : Matrix (Fin dk) (Fin dv) R) : adjointAt Q A dO E 0 =
      rowScale (fun d => decay (gate A d) 0 T) E + adjointAt Q A dO 0 0 := by
  ext d e
  simp only [adjointAt_apply, adjoint_zero_eq_sum, Matrix.add_apply, rowScale_apply,
    Matrix.zero_apply]
  ring

end Slices

section Device

variable [Field R] (Qp Kp : Matrix (Fin (N * C)) (Fin dk) R)
  (Vp : Matrix (Fin (N * C)) (Fin dv) R) {Ap : Matrix (Fin (N * C)) (Fin dk) R}
  (dO : Matrix (Fin (N * C)) (Fin dv) R) (sRecv dSTotal : Matrix (Fin dk) (Fin dv) R)
  (dgTotal : Fin dk → R)

def cacheAt (A : Matrix (Fin (N * C)) (Fin dk) R) (n : Fin N) : ChunkCache C dk dv R :=
  cacheOf (chunk Qp n) (chunk Kp n) (chunk A n) (stateAt Kp Vp A 0 (n * C))
    (fun d => decay (gate A d) 0 (n * C))

def gradOAt (A : Matrix (Fin (N * C)) (Fin dk) R) (n : Fin N) : ChunkGradO C dk dv R :=
  chunkGradO (chunk Qp n) (chunk Vp n) (cacheAt Qp Kp Vp A n) sRecv (chunk dO n)

def decayExcess : Fin dk → R := dgTotal - rowSum (dSTotal ⊙ sRecv)

def decayAdjointAt (A : Matrix (Fin (N * C)) (Fin dk) R) (m : ℕ) : Fin dk → R := fun d =>
  rowSum (adjointAt Qp A dO dSTotal m ⊙ sRecv) d +
    decayExcess sRecv dSTotal dgTotal d * decay (gate A d) m (N * C - m)

def gradHAt (A : Matrix (Fin (N * C)) (Fin dk) R) (n : Fin N) : ChunkGradH C dk dv R :=
  chunkGradH (chunk Kp n) (chunk Vp n) (cacheAt Qp Kp Vp A n)
    (adjointAt Qp A dO dSTotal ((n + 1) * C))
    (decayAdjointAt Qp dO sRecv dSTotal dgTotal A ((n + 1) * C))
    (gradOAt Qp Kp Vp dO sRecv A n).db

structure GradOSpec (A : Matrix (Fin (N * C)) (Fin dk) R) (m : ℕ) (x : GradO N C dk dv R) :
    Prop where
  dQ : ∀ i, chunk x.dQ i = if i.val < m then 0 + (gradOAt Qp Kp Vp dO sRecv A i).dQ else 0
  dK : ∀ i, chunk x.dK i = if i.val < m then 0 + (gradOAt Qp Kp Vp dO sRecv A i).dK else 0
  dV : ∀ i, chunk x.dV i = if i.val < m then 0 + (gradOAt Qp Kp Vp dO sRecv A i).dV else 0
  dSRecv : ∀ d e, x.dSRecv d e =
    ∑ j ∈ range (m * C), decay (gate A d) 0 (j + 1) * demand Qp dO d e j
  db : ∀ i : Fin N, i.val < m → x.db i = (gradOAt Qp Kp Vp dO sRecv A i).db
  dSPrev : ∀ i : Fin N, i.val < m → x.dSPrev i = (gradOAt Qp Kp Vp dO sRecv A i).dSPrev
  dCPrev : ∀ i : Fin N, i.val < m → x.dCPrev i = (gradOAt Qp Kp Vp dO sRecv A i).dCPrev

structure GradHSpec (A : Matrix (Fin (N * C)) (Fin dk) R) (x : GradO N C dk dv R) (m : ℕ)
    (y : GradH N C dk dv R) : Prop where
  dSloc : m ≠ 0 → y.dSloc = adjointAt Qp A dO dSTotal (m * C)
  dcvec : m ≠ 0 → y.dcvec = decayAdjointAt Qp dO sRecv dSTotal dgTotal A (m * C)
  dK : ∀ i, chunk y.dK i = if m ≤ i.val then
    chunk x.dK i + (gradHAt Qp Kp Vp dO sRecv dSTotal dgTotal A i).dK else chunk x.dK i
  dV : ∀ i, chunk y.dV i = if m ≤ i.val then
    chunk x.dV i + (gradHAt Qp Kp Vp dO sRecv dSTotal dgTotal A i).dV else chunk x.dV i
  db : ∀ i, y.db i = if m ≤ i.val then
    (gradHAt Qp Kp Vp dO sRecv dSTotal dgTotal A i).db else x.db i

structure ChunkGrads (A : Matrix (Fin (N * C)) (Fin dk) R) (g : Grads (N * C) dk dv R) : Prop where
  dQ : ∀ n, chunk g.dQ n = (gradOAt Qp Kp Vp dO sRecv A n).dQ
  dK : ∀ n, chunk g.dK n = (gradOAt Qp Kp Vp dO sRecv A n).dK +
    (gradHAt Qp Kp Vp dO sRecv dSTotal dgTotal A n).dK
  dV : ∀ n, chunk g.dV n = (gradOAt Qp Kp Vp dO sRecv A n).dV +
    (gradHAt Qp Kp Vp dO sRecv dSTotal dgTotal A n).dV
  dA : ∀ n, chunk g.dA n = quotient (flipRows (cumsum (flipRows
    ((gradHAt Qp Kp Vp dO sRecv dSTotal dgTotal A n).db ⊙ cumprod (chunk A n))))) (chunk A n)

theorem adjointAt_chunk (A : Matrix (Fin (N * C)) (Fin dk) R) (n : Fin N) {t : ℕ} (ht : t ≤ C) :
    adjointAt (chunk Qp n) (chunk A n) (chunk dO n) (adjointAt Qp A dO dSTotal ((n + 1) * C)) t =
      adjointAt Qp A dO dSTotal (n * C + t) := by
  have hT : n * C + C ≤ N * C := by
    rw [← Nat.succ_mul]
    exact Nat.mul_le_mul_right C n.isLt
  rw [Nat.add_mul, Nat.one_mul]
  exact adjointAt_slice (chunk_slice Qp n) (chunk_slice A n) (chunk_slice dO n) dSTotal hT ht

theorem gradOAt_dSPrev (A : Matrix (Fin (N * C)) (Fin dk) R) (n : Fin N) :
    (gradOAt Qp Kp Vp dO sRecv A n).dSPrev =
      adjointAt (chunk Qp n) (chunk A n) (chunk dO n) 0 0 :=
  chunkGradO_dSPrev _ _ _ _ _ _ _

theorem gradOAt_dSRecv (A : Matrix (Fin (N * C)) (Fin dk) R) (n : Fin N) (d : Fin dk)
    (e : Fin dv) : (gradOAt Qp Kp Vp dO sRecv A n).dSRecv d e =
      ∑ j ∈ range C, decay (gate A d) 0 (n * C + j + 1) * demand Qp dO d e (n * C + j) := by
  change decay (gate A d) 0 (n * C) * (gradOAt Qp Kp Vp dO sRecv A n).dSPrev d e = _
  rw [gradOAt_dSPrev, adjointAt_apply, adjoint_zero_eq_sum, Matrix.zero_apply, mul_zero, add_zero,
    mul_sum]
  apply sum_congr rfl
  intro j hj
  have hj := mem_range.mp hj
  have hd : decay (gate (chunk A n) d) 0 (j + 1) = decay (gate A d) (n * C) (j + 1) := by
    rw [← decay_shift (gate A d)]
    exact decay_congr fun t ht => by
      rw [Nat.zero_add]
      exact chunk_slice A n t (by omega) d
  have hw : demand (chunk Qp n) (chunk dO n) d e j = demand Qp dO d e (n * C + j) := by
    simp only [demand, chunk_slice Qp n j hj d, chunk_slice dO n j hj e]
  rw [hd, hw, Nat.add_assoc, decay_add _ 0 (n * C), Nat.zero_add, mul_assoc]

theorem gradO_spec {cache : Fin N → ChunkCache C dk dv R}
    (hc : ∀ n, cache n = cacheAt Qp Kp Vp Ap n) :
    GradOSpec Qp Kp Vp dO sRecv Ap N (gradO Qp Vp cache sRecv dO) := by
  obtain rfl : cache = cacheAt Qp Kp Vp Ap := funext hc
  unfold gradO
  apply Loop.up_invariant (GradOSpec Qp Kp Vp dO sRecv Ap)
  · constructor
    case dSRecv => simp
    case db | dSPrev | dCPrev => exact fun i hi => absurd hi (Nat.not_lt_zero _)
    all_goals
      intro i
      rw [if_neg (Nat.not_lt_zero _)]
      rfl
  · intro n x ih
    have hnew (i : Fin N) (hi : i ≠ n) : i.val < n.val + 1 ↔ i.val < n := by
      have : i.val ≠ n := fun he => hi (Fin.ext he)
      omega
    constructor
    case dQ => exact addChunk_accumulates ih.dQ (lt_irrefl _) (Nat.lt_succ_self _) hnew
    case dK => exact addChunk_accumulates ih.dK (lt_irrefl _) (Nat.lt_succ_self _) hnew
    case dV => exact addChunk_accumulates ih.dV (lt_irrefl _) (Nat.lt_succ_self _) hnew
    case dSRecv =>
      intro d e
      change x.dSRecv d e + (gradOAt Qp Kp Vp dO sRecv Ap n).dSRecv d e = _
      rw [ih.dSRecv, gradOAt_dSRecv, Nat.add_mul, Nat.one_mul, sum_range_add]
    case db => exact Loop.written_slot (fun i => (gradOAt Qp Kp Vp dO sRecv Ap i).db) ih.db
    case dSPrev =>
      exact Loop.written_slot (fun i => (gradOAt Qp Kp Vp dO sRecv Ap i).dSPrev) ih.dSPrev
    case dCPrev =>
      exact Loop.written_slot (fun i => (gradOAt Qp Kp Vp dO sRecv Ap i).dCPrev) ih.dCPrev

theorem decay_suffix (A : Matrix (Fin (N * C)) (Fin dk) R) (hC : 0 < C) (n : Fin N) (d : Fin dk) :
    decay (gate A d) (n * C) (N * C - n * C) =
      lastRow (cumprod (chunk A n)) d * decay (gate A d) ((n + 1) * C) (N * C - (n + 1) * C) := by
  have hle : (n.val + 1) * C ≤ N * C := Nat.mul_le_mul_right C n.isLt
  have hs : (n.val + 1) * C = n * C + C := by rw [Nat.add_mul, Nat.one_mul]
  have hlen : N * C - n * C = C + (N * C - (n * C + C)) := by omega
  rw [lastRow_cumprod _ hC, hs, hlen, decay_add, ← decay_shift (gate A d) (n * C) C]
  congr 1
  exact (decay_congr fun t ht => by
    rw [Nat.zero_add]
    exact chunk_slice A n t ht d).symm

theorem decay_total (A : Matrix (Fin (N * C)) (Fin dk) R) (hC : 0 < C) (n : Fin N) (d : Fin dk) :
    decay (gate A d) 0 (N * C) = decay (gate A d) 0 (n * C) * lastRow (cumprod (chunk A n)) d *
      decay (gate A d) ((n + 1) * C) (N * C - (n + 1) * C) := by
  have hle : n.val * C ≤ N * C := Nat.mul_le_mul_right C n.isLt.le
  have hs := decay_add (gate A d) 0 (n * C) (N * C - n * C)
  rw [Nat.add_sub_cancel' hle] at hs
  rw [hs, Nat.zero_add, decay_suffix A hC n, mul_assoc]

theorem rowGradsAt_chunk (A : Matrix (Fin (N * C)) (Fin dk) R) (n : Fin N) (t : Fin C) :
    rowGradsAt (chunk Qp n) (chunk Kp n) (chunk Vp n) (chunk A n) (chunk dO n)
      (stateAt Kp Vp A 0 (n * C) + rowScale (fun d => decay (gate A d) 0 (n * C)) sRecv)
      (adjointAt Qp A dO dSTotal ((n + 1) * C)) t =
      rowGradsAt Qp Kp Vp A dO sRecv dSTotal (token n t) := by
  rw [← stateAt_eq_add, Nat.succ_mul]
  exact rowGradsAt_slice (chunk_slice Qp n) (chunk_slice Kp n) (chunk_slice Vp n)
    (chunk_slice A n) (chunk_slice dO n) sRecv dSTotal (part_end_le n C) t

theorem adjointAt_chunk_start (A : Matrix (Fin (N * C)) (Fin dk) R) (hC : 0 < C) (n : Fin N) :
    rowScale (lastRow (cumprod (chunk A n))) (adjointAt Qp A dO dSTotal ((n + 1) * C)) +
      (gradOAt Qp Kp Vp dO sRecv A n).dSPrev = adjointAt Qp A dO dSTotal (n * C) := by
  have hg : lastRow (cumprod (chunk A n)) = fun d => decay (gate (chunk A n) d) 0 C :=
    funext fun d => lastRow_cumprod (chunk A n) hC d
  rw [gradOAt_dSPrev, hg, ← adjointAt_zero_eq_add,
    adjointAt_chunk Qp dO dSTotal A n (Nat.zero_le C),
    Nat.add_zero]

theorem decayAdjointAt_chunk (A : Matrix (Fin (N * C)) (Fin dk) R) (hC : 0 < C) (n : Fin N) :
    decayAdjointAt Qp dO sRecv dSTotal dgTotal A ((n + 1) * C) * lastRow (cumprod (chunk A n)) +
      (gradOAt Qp Kp Vp dO sRecv A n).dCPrev =
        decayAdjointAt Qp dO sRecv dSTotal dgTotal A (n * C) := by
  funext d
  have hd : (gradOAt Qp Kp Vp dO sRecv A n).dCPrev d =
      rowSum ((gradOAt Qp Kp Vp dO sRecv A n).dSPrev ⊙ sRecv) d := rfl
  rw [decayAdjointAt, ← adjointAt_chunk_start Qp Kp Vp dO sRecv dSTotal A hC n, Pi.add_apply,
    Pi.mul_apply, hd, decayAdjointAt, decay_suffix A hC n d]
  generalize (n.val + 1) * C = m
  simp only [rowSum_apply, hadamard_apply, Matrix.add_apply, rowScale_apply, add_mul, sum_mul,
    sum_add_distrib]
  have hscale : ∑ e, adjointAt Qp A dO dSTotal m d e * sRecv d e * lastRow (cumprod (chunk A n)) d =
      ∑ e, lastRow (cumprod (chunk A n)) d * adjointAt Qp A dO dSTotal m d e * sRecv d e :=
    sum_congr rfl fun e _ => by ring
  rw [hscale]
  ring

theorem gradH_spec {cache : Fin N → ChunkCache C dk dv R} (hC : 0 < C)
    (hc : ∀ n, cache n = cacheAt Qp Kp Vp Ap n) {x : GradO N C dk dv R}
    (hx : GradOSpec Qp Kp Vp dO sRecv Ap N x) :
    GradHSpec Qp Kp Vp dO sRecv dSTotal dgTotal Ap x 0
      (gradH Kp Vp cache x dSTotal dgTotal) := by
  obtain rfl : cache = cacheAt Qp Kp Vp Ap := funext hc
  unfold gradH
  apply Loop.down_invariant (GradHSpec Qp Kp Vp dO sRecv dSTotal dgTotal Ap x)
  · constructor
    case dSloc => exact fun _ => (adjointAt_last Qp Ap dO dSTotal).symm
    case dcvec =>
      intro _
      funext d
      simp [decayAdjointAt, decayExcess]
    all_goals
      intro i
      exact (if_neg (Nat.not_le.mpr i.isLt)).symm
  · intro n y ih
    have hnew (i : Fin N) (hi : i ≠ n) : n.val ≤ i.val ↔ n.val + 1 ≤ i.val := by
      have : i.val ≠ n := fun he => hi (Fin.ext he)
      omega
    have hS := ih.dSloc (Nat.succ_ne_zero _)
    have hc := ih.dcvec (Nat.succ_ne_zero _)
    have hb : y.db n = (gradOAt Qp Kp Vp dO sRecv Ap n).db := by
      rw [ih.db, if_neg (Nat.not_succ_le_self _), hx.db n n.isLt]
    simp only [hS, hc, hb]
    constructor
    case dSloc =>
      intro hn
      rw [← adjointAt_chunk_start Qp Kp Vp dO sRecv dSTotal Ap hC n, ← hx.dSPrev n n.isLt]
      dsimp only
      rw [if_pos (Nat.pos_of_ne_zero hn)]
      rfl
    case dcvec =>
      intro hn
      rw [← decayAdjointAt_chunk Qp Kp Vp dO sRecv dSTotal dgTotal Ap hC n, ← hx.dCPrev n n.isLt]
      dsimp only
      rw [if_pos (Nat.pos_of_ne_zero hn)]
      rfl
    case dK => exact addChunk_accumulates ih.dK (Nat.not_succ_le_self _) le_rfl hnew
    case dV => exact addChunk_accumulates ih.dV (Nat.not_succ_le_self _) le_rfl hnew
    case db =>
      intro i
      by_cases hi : i = n
      · subst hi
        exact (Function.update_self _ _ _).trans (if_pos le_rfl).symm
      · apply (Function.update_of_ne hi _ _).trans
        rw [ih.db]
        exact if_congr (hnew i hi).symm rfl rfl

variable (ha : ∀ t d, Ap t d ≠ 0)
include ha

theorem chunk_ne_zero (n : Fin N) : ∀ t d, chunk Ap n t d ≠ 0 := fun _ _ => ha _ _

theorem recompute_apply (hC : 0 < C) (n : Fin N) :
    recompute Qp Kp Vp Ap n = cacheAt Qp Kp Vp Ap n := by
  have key := Loop.up_invariant
    (f := fun n (x : Matrix (Fin dk) (Fin dv) R × (Fin dk → R) × (Fin N → ChunkCache C dk dv R)) =>
      let y := cacheOf (chunk Qp n) (chunk Kp n) (chunk Ap n) x.1 x.2.1
      let S := rowScale y.gamma x.1 + y.kStateᵀ * chunk Vp n
      (S, x.2.1 * y.gamma, Function.update x.2.2 n y))
    (s := (0, 1, fun _ => ⟨0, 0, 0, 0, 0, 0, 0, 0⟩))
    (fun m x => x.1 = stateAt Kp Vp Ap 0 (m * C) ∧ (x.2.1 = fun d => decay (gate Ap d) 0 (m * C)) ∧
      ∀ i : Fin N, i.val < m → x.2.2 i = cacheAt Qp Kp Vp Ap i) ?_ ?_
  · exact key.2.2 n n.isLt
  · refine ⟨by rw [Nat.zero_mul, stateAt_zero], ?_, fun i hi => absurd hi (Nat.not_lt_zero _)⟩
    funext d
    rw [Nat.zero_mul, decay_zero]
    rfl
  · rintro n ⟨S, c, cache⟩ ⟨rfl, rfl, hcache⟩
    refine ⟨?_, ?_, Loop.written_slot (cacheAt Qp Kp Vp Ap) hcache⟩
    · apply (chunk_state _ _ (chunk_ne_zero ha n) hC (stateAt Kp Vp Ap 0 (n * C))).trans
      rw [stateAt_slice (chunk_slice Kp n) (chunk_slice Vp n) (chunk_slice Ap n) 0 le_rfl,
        Nat.add_mul, Nat.one_mul]
    · funext d
      rw [decay_chunk Ap n d, ← lastRow_cumprod (chunk Ap n) hC]
      rfl

omit ha in
theorem gateBackward_chunk (cache : Fin N → ChunkCache C dk dv R)
    (db : Fin N → Matrix (Fin C) (Fin dk) R) (n : Fin N) : chunk (gateBackward Ap cache db) n =
      quotient (flipRows (cumsum (flipRows (db n ⊙ (cache n).b)))) (chunk Ap n) :=
  up_setChunk (fun n => quotient (flipRows (cumsum (flipRows (db n ⊙ (cache n).b)))) (chunk Ap n))
    0 n

theorem row_of_chunkGrads (hC : 0 < C) {g : Grads (N * C) dk dv R}
    (hg : ChunkGrads Qp Kp Vp dO sRecv dSTotal dgTotal Ap g) (l : Fin (N * C)) :
    g.row l = let g := rowGradsAt Qp Kp Vp Ap dO sRecv dSTotal l
      { g with dA := fun d => g.dA d +
          decayExcess sRecv dSTotal dgTotal d * decay (gate Ap d) 0 (N * C) / Ap l d } := by
  set n := l.divNat
  set t := l.modNat
  have hl : token n t = l := token_divNat_modNat l
  have hrow := rowGradsAt_chunk Qp Kp Vp dO sRecv dSTotal Ap n t
  rw [hl] at hrow
  have hne := chunk_ne_zero ha n
  have hQ : g.dQ l = (rowGradsAt Qp Kp Vp Ap dO sRecv dSTotal l).dQ := by
    rw [row_eq_chunk g.dQ, hg.dQ, ← hrow]
    exact chunkGradO_dQ _ _ _ _ _ _ _ hne t
  have hK : g.dK l = (rowGradsAt Qp Kp Vp Ap dO sRecv dSTotal l).dK := by
    rw [row_eq_chunk g.dK, hg.dK, ← hrow]
    exact chunkGrad_dK _ _ _ _ _ _ _ _ _ hne hC _ t
  have hV : g.dV l = (rowGradsAt Qp Kp Vp Ap dO sRecv dSTotal l).dV := by
    rw [row_eq_chunk g.dV, hg.dV, ← hrow]
    exact chunkGrad_dV _ _ _ _ _ _ _ _ _ hne hC _ t
  have hA : g.dA l = fun d => (rowGradsAt Qp Kp Vp Ap dO sRecv dSTotal l).dA d +
      decayExcess sRecv dSTotal dgTotal d * decay (gate Ap d) 0 (N * C) / Ap l d := by
    funext d
    have hchunk := chunkGrad_dA (chunk Qp n) (chunk Kp n) (chunk Vp n) (chunk dO n)
      (stateAt Kp Vp Ap 0 (n * C)) sRecv (adjointAt Qp Ap dO dSTotal ((n + 1) * C))
      (fun d => decay (gate Ap d) 0 (n * C))
      (decayAdjointAt Qp dO sRecv dSTotal dgTotal Ap ((n + 1) * C)) hne hC t d
    rw [row_eq_chunk g.dA, hg.dA]
    apply hchunk.trans
    rw [← hrow, decay_total Ap hC n, decayAdjointAt, add_sub_cancel_left, row_eq_chunk Ap l]
    congr 2
    ring
  simp only [Grads.row]
  rw [hQ, hK, hV, hA]

theorem glaChunkBackward_chunks (hC : 0 < C) : ChunkGrads Qp Kp Vp dO sRecv dSTotal dgTotal Ap
    (glaChunkBackward Qp Kp Vp Ap sRecv dO dSTotal dgTotal).1 := by
  have hcache := recompute_apply Qp Kp Vp ha hC
  have hx := gradO_spec Qp Kp Vp dO sRecv hcache
  have hy := gradH_spec Qp Kp Vp dO sRecv dSTotal dgTotal hC hcache hx
  constructor
  · intro n
    exact (hx.dQ n).trans (by rw [if_pos n.isLt, zero_add])
  · intro n
    exact (hy.dK n).trans (by rw [if_pos (Nat.zero_le _), hx.dK, if_pos n.isLt, zero_add])
  · intro n
    exact (hy.dV n).trans (by rw [if_pos (Nat.zero_le _), hx.dV, if_pos n.isLt, zero_add])
  · intro n
    apply (gateBackward_chunk _ _ n).trans
    rw [hcache, hy.db, if_pos (Nat.zero_le _)]
    rfl

theorem glaChunkBackward_row (hC : 0 < C) (l : Fin (N * C)) :
    (glaChunkBackward Qp Kp Vp Ap sRecv dO dSTotal dgTotal).1.row l =
      let g := rowGradsAt Qp Kp Vp Ap dO sRecv dSTotal l
      { g with dA := fun d => g.dA d +
          decayExcess sRecv dSTotal dgTotal d * decay (gate Ap d) 0 (N * C) / Ap l d } :=
  row_of_chunkGrads Qp Kp Vp dO sRecv dSTotal dgTotal ha hC
    (glaChunkBackward_chunks Qp Kp Vp dO sRecv dSTotal dgTotal ha hC) l

theorem glaChunkBackward_dSRecv (hC : 0 < C) :
    (glaChunkBackward Qp Kp Vp Ap sRecv dO dSTotal dgTotal).2 = adjointAt Qp Ap dO 0 0 := by
  ext d e
  have hx := gradO_spec Qp Kp Vp dO sRecv (recompute_apply Qp Kp Vp ha hC)
  apply (hx.dSRecv d e).trans
  rw [adjointAt_apply, adjoint_zero_eq_sum, Matrix.zero_apply, mul_zero, add_zero]

end Device

end ZeCo
