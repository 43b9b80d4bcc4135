import Mathlib.Algebra.Polynomial.AlgebraMap
import ZeCo.GlaAdjoint
import ZeCo.GlaBackward

namespace ZeCo

open Matrix Finset Recurrence Polynomial

universe u

variable {R : Type*} {T N L dk dv : ℕ}

section Slice

variable [CommRing R] (Q eQ K eK : Matrix (Fin T) (Fin dk) R) (V eV : Matrix (Fin T) (Fin dv) R)
  (A eA : Matrix (Fin T) (Fin dk) R) (S eS : Matrix (Fin dk) (Fin dv) R)
  (dO : Matrix (Fin T) (Fin dv) R) (E : Matrix (Fin dk) (Fin dv) R) (g : Fin dk → R)

def sliceObjective : R :=
  dot dO (of (outputAt Q K V A S)) + dot E (stateAt K V A 0 T) +
    ∑ d, g d * decay (gate A d) 0 T

theorem sliceObjective_excess : sliceObjective Q K V A S dO E g =
    dot dO (of (outputAt Q K V A S)) + dot E (stateAt K V A S T) +
      ∑ d, (g d - rowSum (E ⊙ S) d) * decay (gate A d) 0 T := by
  have h : dot E (stateAt K V A S T) = dot E (stateAt K V A 0 T) +
      ∑ d, rowSum (E ⊙ S) d * decay (gate A d) 0 T := by
    simp only [dot, stateAt_eq_add K V A S, Matrix.add_apply, rowScale_apply, rowSum_apply,
      hadamard_apply, mul_add, sum_add_distrib, sum_mul]
    congr 1
    apply sum_congr rfl
    intro d _
    apply sum_congr rfl
    intro e _
    ring
  rw [sliceObjective, h]
  simp only [sub_mul, sum_sub_distrib]
  ring

section Map

variable {R' : Type*} [CommRing R'] (φ : R →+* R')

theorem stream_map {d : ℕ} (X : Matrix (Fin T) (Fin d) R) (t : ℕ) (j : Fin d) :
    stream (X.map φ) t j = φ (stream X t j) := by
  simp only [stream]
  split_ifs
  · rfl
  · exact (map_zero φ).symm

theorem gate_map (d : Fin dk) : gate (A.map φ) d = fun t => φ (gate A d t) :=
  funext fun t => stream_map φ A t d

theorem inflow_map (d : Fin dk) (e : Fin dv) :
    inflow (K.map φ) (V.map φ) d e = fun t => φ (inflow K V d e t) := by
  funext t
  rw [inflow, stream_map, stream_map, ← map_mul, inflow]

theorem stateAt_map (t : ℕ) :
    stateAt (K.map φ) (V.map φ) (A.map φ) (S.map φ) t = (stateAt K V A S t).map φ := by
  ext d e
  rw [stateAt_apply, gate_map, inflow_map, map_apply, map_apply, stateAt_apply, affine_map]

theorem dot_map {m n : ℕ} (X Y : Matrix (Fin m) (Fin n) R) :
    dot (X.map φ) (Y.map φ) = φ (dot X Y) := by
  simp only [dot, map_apply, map_sum, map_mul]

theorem sliceObjective_map : sliceObjective (Q.map φ) (K.map φ) (V.map φ) (A.map φ) (S.map φ)
    (dO.map φ) (E.map φ) (fun d => φ (g d)) = φ (sliceObjective Q K V A S dO E g) := by
  have hO : of (outputAt (Q.map φ) (K.map φ) (V.map φ) (A.map φ) (S.map φ)) =
      (of (outputAt Q K V A S)).map φ := by
    ext t e
    simp only [of_apply, map_apply, outputAt, stateAt_map, vecMul, dotProduct, map_sum, map_mul]
  have hS : stateAt (K.map φ) (V.map φ) (A.map φ) 0 T = (stateAt K V A 0 T).map φ := by
    rw [← stateAt_map, Matrix.map_zero φ (map_zero φ)]
  simp only [sliceObjective, hO, hS, dot_map, map_add, map_sum, map_mul, gate_map, decay_map]

end Map

theorem decay_perturb_coeff_zero (d : Fin dk) :
    (decay (gate (perturb A eA) d) 0 T).coeff 0 = decay (gate A d) 0 T := by
  have h := decay_map constantCoeff (gate (perturb A eA) d) 0 T
  simp only [constantCoeff_apply, gate, (stream_perturb_coeff A eA _ d).1] at h
  exact h

theorem excess_tangent (d : Fin dk) :
    ((C (g d) - rowSum (E.map C ⊙ perturb S eS) d) *
      decay (gate (perturb A eA) d) 0 T).coeff 1 =
      (g d - rowSum (E ⊙ S) d) * (decay (gate (perturb A eA) d) 0 T).coeff 1 -
        ∑ e, decay (gate A d) 0 T * E d e * eS d e := by
  have hx : (C (g d) - rowSum (E.map C ⊙ perturb S eS) d).coeff 0 = g d - rowSum (E ⊙ S) d := by
    simp only [rowSum_apply, hadamard_apply, map_apply, coeff_sub, coeff_C_zero, finsetSum_coeff,
      coeff_C_mul, perturb_coeff_zero]
  have hx' : (C (g d) - rowSum (E.map C ⊙ perturb S eS) d).coeff 1 = -∑ e, E d e * eS d e := by
    simp only [rowSum_apply, hadamard_apply, map_apply, coeff_sub, coeff_C_of_ne_zero one_ne_zero,
      finsetSum_coeff, coeff_C_mul, perturb_coeff_one, zero_sub]
  rw [mul_coeff_one, hx, hx', decay_perturb_coeff_zero, neg_mul, ← sub_eq_add_neg, sum_mul]
  congr 1
  apply sum_congr rfl
  intro e _
  ring

theorem sliceObjective_tangent :
    (sliceObjective (perturb Q eQ) (perturb K eK) (perturb V eV) (perturb A eA) (perturb S eS)
        (dO.map C) (E.map C) (fun d => C (g d))).coeff 1 =
      (∑ t, ∑ e, ∑ d, dO t e * (eQ t d * stateAt K V A S (t + 1) d e)) +
        (∑ t : Fin T, ∑ e, ∑ d, totalAt Q A dO E t d e * tangentFlowFrom K eK V eV A eA S d e t) +
        dot (adjointAt Q A dO 0 0) eS +
        ∑ d, (g d - rowSum (E ⊙ S) d) * (decay (gate (perturb A eA) d) 0 T).coeff 1 := by
  have hO : (dot (dO.map C) (of (outputAt (perturb Q eQ) (perturb K eK) (perturb V eV)
      (perturb A eA) (perturb S eS)))).coeff 1 =
      (∑ t, ∑ e, ∑ d, dO t e * (eQ t d * stateAt K V A S (t + 1) d e)) +
        ∑ t, ∑ e, ∑ d, dO t e * (Q t d *
          affine (gate A d) (tangentFlowFrom K eK V eV A eA S d e) (eS d e) (t + 1)) := by
    simp only [dot, finsetSum_coeff, map_apply, of_apply, coeff_C_mul, outputAt_tangent, mul_sum,
      mul_add, sum_add_distrib]
  have hS : (dot (E.map C) (stateAt (perturb K eK) (perturb V eV) (perturb A eA) (perturb S eS)
      T)).coeff 1 =
      ∑ d, ∑ e, E d e * affine (gate A d) (tangentFlowFrom K eK V eV A eA S d e) (eS d e) T := by
    simp only [dot, finsetSum_coeff, map_apply, coeff_C_mul,
      (stateAt_perturb_from K eK V eV A eA S eS _ _ _).2]
  have hrecv : dot (adjointAt Q A dO E 0) eS = dot (adjointAt Q A dO 0 0) eS +
      ∑ d, ∑ e, decay (gate A d) 0 T * E d e * eS d e := by
    rw [adjointAt_zero_eq_add Q A dO E]
    simp only [dot, Matrix.add_apply, rowScale_apply, add_mul, sum_add_distrib]
    exact add_comm _ _
  have hflow := states_tangent_from Q K eK V eV A eA dO S eS E
  simp only [sliceObjective_excess, coeff_add, hO, hS, finsetSum_coeff, excess_tangent,
    sum_sub_distrib]
  rw [hrecv] at hflow
  linear_combination hflow

end Slice

section Device

variable [Field R] (Q eQ K eK : Matrix (Fin (N * L)) (Fin dk) R)
  (V eV : Matrix (Fin (N * L)) (Fin dv) R) {A : Matrix (Fin (N * L)) (Fin dk) R}
  (eA : Matrix (Fin (N * L)) (Fin dk) R) (S eS : Matrix (Fin dk) (Fin dv) R)
  (dO : Matrix (Fin (N * L)) (Fin dv) R) (dSTotal : Matrix (Fin dk) (Fin dv) R)
  (dgTotal : Fin dk → R)

def rankObjective (A : Matrix (Fin (N * L)) (Fin dk) R) : R :=
  let x := glaChunkScan Q K V A
  dot dO (glaReconstruct Q A x.sPrev x.cPrev S x.oIntra) + dot dSTotal x.sTotal +
    ∑ d, dgTotal d * x.gTotal d

def gradsPairing (g : Grads (N * L) dk dv R × Matrix (Fin dk) (Fin dv) R) : R :=
  dot g.1.dQ eQ + dot g.1.dK eK + dot g.1.dV eV + dot g.1.dA eA + dot g.2 eS

theorem rankObjective_slice (hL : 0 < L) (hA : ∀ t d, A t d ≠ 0) :
    rankObjective Q K V S dO dSTotal dgTotal A = sliceObjective Q K V A S dO dSTotal dgTotal := by
  have hscan := glaChunkScan_spec Q K V hA hL
  have hO : glaReconstruct Q A (glaChunkScan Q K V A).sPrev (glaChunkScan Q K V A).cPrev S
      (glaChunkScan Q K V A).oIntra = of (outputAt Q K V A S) :=
    funext fun l => glaReconstruct_row Q K V hA hL S l
  simp only [rankObjective, hO, hscan.sTotal, hscan.gTotal, sliceObjective]

theorem decay_coeff_one (a : ℕ → R[X]) (n : ℕ) (ha : ∀ t < n, (a t).coeff 0 ≠ 0) :
    (decay a 0 n).coeff 1 = ∑ t ∈ range n,
      decay (fun j => (a j).coeff 0) 0 n / (a t).coeff 0 * (a t).coeff 1 := by
  induction n with
  | zero => simp [decay, coeff_one]
  | succ n ih =>
    have hd : (decay a 0 n).coeff 0 = decay (fun j => (a j).coeff 0) 0 n :=
      decay_map constantCoeff a 0 n
    have hn := ha n (Nat.lt_succ_self n)
    rw [decay_succ, mul_coeff_one, hd, ih fun t ht => ha t (by omega), sum_range_succ, sum_mul,
      add_comm, decay_succ]
    simp only [Nat.zero_add]
    rw [mul_div_cancel_right₀ _ hn]
    congr 1
    apply sum_congr rfl
    intro t _
    ring

theorem gate_decay_tangent (hA : ∀ t d, A t d ≠ 0) (d : Fin dk) :
    (decay (gate (perturb A eA) d) 0 (N * L)).coeff 1 =
      ∑ t, decay (gate A d) 0 (N * L) / A t d * eA t d := by
  have hcoeff := fun t => stream_perturb_coeff A eA t d
  have h := decay_coeff_one (gate (perturb A eA) d) (N * L) fun t ht => by
    rw [gate, (hcoeff t).1, stream_of_lt A ht]
    exact hA _ _
  simp only [gate, (hcoeff _).1, (hcoeff _).2] at h
  apply h.trans
  rw [← Fin.sum_univ_eq_sum_range
    (fun t => decay (fun j => stream A j d) 0 (N * L) / stream A t d * stream eA t d)]
  simp only [stream_fin]
  rfl

theorem glaChunkBackward_pairing (hL : 0 < L) (hA : ∀ t d, A t d ≠ 0) :
    (sliceObjective (perturb Q eQ) (perturb K eK) (perturb V eV) (perturb A eA) (perturb S eS)
        (dO.map C) (dSTotal.map C) (fun d => C (dgTotal d))).coeff 1 =
      gradsPairing eQ eK eV eA eS (glaChunkBackward Q K V A S dO dSTotal dgTotal) := by
  set g := glaChunkBackward Q K V A S dO dSTotal dgTotal
  have hrow := glaChunkBackward_row Q K V dO S dSTotal dgTotal hA hL
  have hrecv : g.2 = adjointAt Q A dO 0 0 :=
    glaChunkBackward_dSRecv Q K V dO S dSTotal dgTotal hA hL
  have hQ : dot g.1.dQ eQ = ∑ t, ∑ e, ∑ d, dO t e * (eQ t d * stateAt K V A S (t + 1) d e) :=
    dot_mulVec_swap eQ fun t => congrArg RowGrads.dQ (hrow t)
  have hK : dot g.1.dK eK =
      ∑ t : Fin (N * L), ∑ e, ∑ d, totalAt Q A dO dSTotal t d e * (eK t d * V t e) :=
    dot_mulVec eK fun t => congrArg RowGrads.dK (hrow t)
  have hV : dot g.1.dV eV =
      ∑ t : Fin (N * L), ∑ e, ∑ d, totalAt Q A dO dSTotal t d e * (K t d * eV t e) :=
    dot_vecMul eV fun t => congrArg RowGrads.dV (hrow t)
  -- every gate also scales the total decay
  have hgate : dot g.1.dA eA =
      (∑ t : Fin (N * L), ∑ e, ∑ d, totalAt Q A dO dSTotal t d e *
        (eA t d * stateAt K V A S t d e)) +
        ∑ d, (dgTotal d - rowSum (dSTotal ⊙ S) d) *
          (decay (gate (perturb A eA) d) 0 (N * L)).coeff 1 := by
    have hA' (t : Fin (N * L)) (d : Fin dk) : g.1.dA t d =
        rowSum (totalAt Q A dO dSTotal t ⊙ stateAt K V A S t) d +
          decayExcess S dSTotal dgTotal d * decay (gate A d) 0 (N * L) / A t d :=
      congrFun (congrArg RowGrads.dA (hrow t)) d
    have hflow := dot_rowSum eA
      (X := of fun t => rowSum (totalAt Q A dO dSTotal t ⊙ stateAt K V A S t)) fun _ => rfl
    rw [← hflow]
    simp only [dot, hA', of_apply, add_mul, sum_add_distrib, gate_decay_tangent eA hA, mul_sum]
    rw [sum_comm (s := (univ : Finset (Fin dk)))]
    congr 1
    apply sum_congr rfl
    intro t _
    apply sum_congr rfl
    intro d _
    rw [decayExcess, Pi.sub_apply]
    ring
  have hflow : ∑ t : Fin (N * L), ∑ e, ∑ d,
      totalAt Q A dO dSTotal t d e * tangentFlowFrom K eK V eV A eA S d e t =
      (∑ t : Fin (N * L), ∑ e, ∑ d, totalAt Q A dO dSTotal t d e *
        (eA t d * stateAt K V A S t d e)) + (dot g.1.dV eV + dot g.1.dK eK) := by
    simp only [hV, hK, tangentFlowFrom, stream_fin, mul_add, sum_add_distrib]
  rw [sliceObjective_tangent, hflow, ← hQ, gradsPairing, hgate, hrecv]
  ring

end Device

def shift {m n : ℕ} {F E : Type*} [Field F] [Field E] [Algebra F E] (ε : E)
    (X Y : Matrix (Fin m) (Fin n) F) : Matrix (Fin m) (Fin n) E :=
  of fun i j => algebraMap F E (X i j) + ε * algebraMap F E (Y i j)

theorem shift_eq_map {m n : ℕ} {F E : Type*} [Field F] [Field E] [Algebra F E] (ε : E)
    (X Y : Matrix (Fin m) (Fin n) F) :
    shift ε X Y = (perturb X Y).map (aeval ε : F[X] →ₐ[F] E).toRingHom := by
  ext i j
  simp only [shift, perturb, of_apply, map_apply, map_add, map_mul, AlgHom.toRingHom_eq_coe,
    RingHom.coe_coe, aeval_C, aeval_X]

section Adjoint

variable {F : Type u} [Field F] (Q eQ K eK : Matrix (Fin (N * L)) (Fin dk) F)
  (V eV : Matrix (Fin (N * L)) (Fin dv) F) (A eA : Matrix (Fin (N * L)) (Fin dk) F)
  (S eS : Matrix (Fin dk) (Fin dv) F) (dO : Matrix (Fin (N * L)) (Fin dv) F)
  (dSTotal : Matrix (Fin dk) (Fin dv) F) (dgTotal : Fin dk → F)

/-- `gla_chunk_backward` is the exact vector-Jacobian product of `gla_chunk_scan` followed by
`gla_reconstruct`. The perturbed run is a polynomial in the perturbation `ε` wherever its gates may
be divided by; over `F(x)` with `ε = x` that is the polynomial itself. -/
theorem glaChunkBackward_adjoint (hL : 0 < L) (hA : ∀ t d, A t d ≠ 0) :
    ∃ Φ : F[X],
      Φ.coeff 1 = gradsPairing eQ eK eV eA eS (glaChunkBackward Q K V A S dO dSTotal dgTotal) ∧
      ∀ (E : Type u) [Field E] [Algebra F E] (ε : E), (∀ t d, shift ε A eA t d ≠ 0) →
        rankObjective (shift ε Q eQ) (shift ε K eK) (shift ε V eV) (shift ε S eS)
          (dO.map (algebraMap F E)) (dSTotal.map (algebraMap F E))
          (fun d => algebraMap F E (dgTotal d)) (shift ε A eA) = aeval ε Φ := by
  refine ⟨_, glaChunkBackward_pairing Q eQ K eK V eV eA S eS dO dSTotal dgTotal hL hA, ?_⟩
  intro E _ _ ε hε
  rw [rankObjective_slice _ _ _ _ _ _ _ hL hε]
  have hC (x : F) : (aeval ε : F[X] →ₐ[F] E).toRingHom (C x) = algebraMap F E x := aeval_C ε x
  have hmap {m n : ℕ} (M : Matrix (Fin m) (Fin n) F) :
      M.map (algebraMap F E) = (M.map C).map (aeval ε : F[X] →ₐ[F] E).toRingHom := by
    ext i j
    exact (hC _).symm
  simp only [shift_eq_map, hmap, ← hC]
  exact sliceObjective_map _ _ _ _ _ _ _ _ _

theorem glaChunkBackward_adjoint_two_chunks :
    let Q : Matrix (Fin (2 * 2)) (Fin 1) ℚ := of fun t _ => t + 1
    let A : Matrix (Fin (2 * 2)) (Fin 1) ℚ := of fun t _ => t + 2
    let S : Matrix (Fin 1) (Fin 1) ℚ := of fun _ _ => 3
    ∃ Φ : ℚ[X], Φ.coeff 1 =
        gradsPairing Q Q Q A S (glaChunkBackward Q Q Q A S Q S (fun _ => 5)) ∧
      ∀ (E : Type) [Field E] [Algebra ℚ E] (ε : E), (∀ t d, shift ε A A t d ≠ 0) →
        rankObjective (shift ε Q Q) (shift ε Q Q) (shift ε Q Q) (shift ε S S)
          (Q.map (algebraMap ℚ E)) (S.map (algebraMap ℚ E)) (fun _ => algebraMap ℚ E 5)
          (shift ε A A) = aeval ε Φ :=
  glaChunkBackward_adjoint _ _ _ _ _ _ _ _ _ _ _ _ _ (by decide) fun t _ =>
    ne_of_gt (add_pos_of_nonneg_of_pos (Nat.cast_nonneg t.val) two_pos)

end Adjoint

end ZeCo
