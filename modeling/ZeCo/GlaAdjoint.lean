import Mathlib.Algebra.Polynomial.Coeff
import ZeCo.GlaStates

namespace ZeCo

open Matrix Finset Recurrence Polynomial

variable {R : Type*} [CommRing R] {m n T dk dv : ℕ}

def dot (X Y : Matrix (Fin m) (Fin n) R) : R := ∑ i, ∑ j, X i j * Y i j

theorem sum_tokens_inside (f : Fin T → Fin m → Fin n → R) :
    ∑ t, ∑ i, ∑ j, f t i j = ∑ j, ∑ i, ∑ t, f t i j := by
  rw [sum_comm_cycle]
  apply sum_congr rfl
  intro j _
  exact sum_comm

section Dot

variable {M : Fin T → Matrix (Fin dk) (Fin dv) R} {X : Matrix (Fin T) (Fin dk) R}
  {Z : Matrix (Fin T) (Fin dv) R} (Y : Matrix (Fin T) (Fin dk) R)

theorem dot_rowSum {S : Fin T → Matrix (Fin dk) (Fin dv) R} (h : ∀ t, X t = rowSum (M t ⊙ S t)) :
    dot X Y = ∑ t, ∑ e, ∑ d, M t d e * (Y t d * S t d e) := by
  apply sum_congr rfl
  intro t _
  simp only [h, rowSum_apply, hadamard_apply, sum_mul]
  rw [sum_comm]
  apply sum_congr rfl
  intro e _
  apply sum_congr rfl
  intro d _
  ring

theorem dot_mulVec (h : ∀ t, X t = M t *ᵥ Z t) :
    dot X Y = ∑ t, ∑ e, ∑ d, M t d e * (Y t d * Z t e) := by
  apply dot_rowSum (S := fun t => of fun _ e => Z t e)
  intro t
  rw [h]
  rfl

theorem dot_mulVec_swap (h : ∀ t, X t = M t *ᵥ Z t) :
    dot X Y = ∑ t, ∑ e, ∑ d, Z t e * (Y t d * M t d e) := by
  rw [dot_mulVec Y h]
  apply sum_congr rfl
  intro t _
  apply sum_congr rfl
  intro e _
  apply sum_congr rfl
  intro d _
  ring

theorem dot_vecMul {W : Matrix (Fin T) (Fin dk) R} (Y : Matrix (Fin T) (Fin dv) R)
    (h : ∀ t, Z t = W t ᵥ* M t) :
    dot Z Y = ∑ t, ∑ e, ∑ d, M t d e * (W t d * Y t e) := by
  apply sum_congr rfl
  intro t _
  simp only [h, vecMul, dotProduct, sum_mul]
  apply sum_congr rfl
  intro e _
  apply sum_congr rfl
  intro d _
  ring

end Dot

noncomputable def perturb (X E : Matrix (Fin m) (Fin n) R) : Matrix (Fin m) (Fin n) R[X] :=
  of fun i j => C (X i j) + Polynomial.X * C (E i j)

@[simp] theorem perturb_coeff_zero (M E : Matrix (Fin m) (Fin n) R) (i : Fin m) (j : Fin n) :
    (perturb M E i j).coeff 0 = M i j := by simp [perturb]

@[simp] theorem perturb_coeff_one (M E : Matrix (Fin m) (Fin n) R) (i : Fin m) (j : Fin n) :
    (perturb M E i j).coeff 1 = E i j := by simp [perturb, coeff_C]

theorem perturb_zero : perturb (0 : Matrix (Fin m) (Fin n) R) 0 = 0 := by
  ext i j : 2
  simp [perturb]

theorem affine_coeff (a u : ℕ → R[X]) (s : R[X]) (t : ℕ) :
    (affine a u s t).coeff 0 =
      affine (fun j => (a j).coeff 0) (fun j => (u j).coeff 0) (s.coeff 0) t ∧
    (affine a u s t).coeff 1 = affine (fun j => (a j).coeff 0) (fun j => (a j).coeff 1 *
        affine (fun j => (a j).coeff 0) (fun j => (u j).coeff 0) (s.coeff 0) j + (u j).coeff 1)
      (s.coeff 1) t := by
  induction t with
  | zero => exact ⟨rfl, rfl⟩
  | succ t ih =>
    simp only [affine_succ, coeff_add, mul_coeff_zero, mul_coeff_one, ih.1, ih.2]
    exact ⟨trivial, by ring⟩

section Perturbed

variable (K eK : Matrix (Fin T) (Fin dk) R) (V eV : Matrix (Fin T) (Fin dv) R)
  (A eA : Matrix (Fin T) (Fin dk) R)

def tangentFlowFrom (S : Matrix (Fin dk) (Fin dv) R) (d : Fin dk) (e : Fin dv) (t : ℕ) : R :=
  stream eA t d * stateAt K V A S t d e +
    (stream K t d * stream eV t e + stream eK t d * stream V t e)

def tangentFlow (d : Fin dk) (e : Fin dv) (t : ℕ) : R :=
  stream eA t d * stateAt K V A 0 t d e +
    (stream K t d * stream eV t e + stream eK t d * stream V t e)

theorem stream_perturb_coeff (M E : Matrix (Fin T) (Fin n) R) (t : ℕ) (j : Fin n) :
    (stream (perturb M E) t j).coeff 0 = stream M t j ∧
    (stream (perturb M E) t j).coeff 1 = stream E t j := by
  simp only [stream]
  split_ifs
  · exact ⟨perturb_coeff_zero _ _ _ _, perturb_coeff_one _ _ _ _⟩
  · exact ⟨coeff_zero _, coeff_zero _⟩

theorem stateAt_perturb_from (S eS : Matrix (Fin dk) (Fin dv) R) (t : ℕ) (d : Fin dk)
    (e : Fin dv) :
    (stateAt (perturb K eK) (perturb V eV) (perturb A eA) (perturb S eS) t d e).coeff 0 =
      stateAt K V A S t d e ∧
    (stateAt (perturb K eK) (perturb V eV) (perturb A eA) (perturb S eS) t d e).coeff 1 =
      affine (gate A d) (tangentFlowFrom K eK V eV A eA S d e) (eS d e) t := by
  have ha := fun j => stream_perturb_coeff A eA j d
  have hu (j : ℕ) : (inflow (perturb K eK) (perturb V eV) d e j).coeff 0 = inflow K V d e j ∧
      (inflow (perturb K eK) (perturb V eV) d e j).coeff 1 =
        stream K j d * stream eV j e + stream eK j d * stream V j e := by
    have hk := stream_perturb_coeff K eK j d
    have hv := stream_perturb_coeff V eV j e
    simp only [inflow, mul_coeff_zero, mul_coeff_one, hk.1, hk.2, hv.1, hv.2]
    exact ⟨trivial, trivial⟩
  have h := affine_coeff (gate (perturb A eA) d) (inflow (perturb K eK) (perturb V eV) d e)
    (perturb S eS d e) t
  simp only [gate, (ha _).1, (ha _).2, (hu _).1, (hu _).2, perturb_coeff_zero,
    perturb_coeff_one] at h
  exact h

end Perturbed

section Adjoint

variable (Q eQ K eK : Matrix (Fin T) (Fin dk) R) (V eV : Matrix (Fin T) (Fin dv) R)
  (A eA : Matrix (Fin T) (Fin dk) R) (dO : Matrix (Fin T) (Fin dv) R)

section States

variable (S eS E : Matrix (Fin dk) (Fin dv) R)

theorem outputAt_tangent (t : Fin T) (e : Fin dv) :
    (outputAt (perturb Q eQ) (perturb K eK) (perturb V eV) (perturb A eA) (perturb S eS) t
      e).coeff 1 = ∑ d, (eQ t d * stateAt K V A S (t + 1) d e +
        Q t d * affine (gate A d) (tangentFlowFrom K eK V eV A eA S d e) (eS d e) (t + 1)) := by
  have hS := stateAt_perturb_from K eK V eV A eA S eS (t + 1)
  simp only [outputAt, vecMul, dotProduct, finsetSum_coeff, mul_coeff_one, perturb_coeff_zero,
    perturb_coeff_one, (hS _ _).1, (hS _ _).2]
  apply sum_congr rfl
  intro d _
  exact add_comm _ _

theorem flow_tangent (d : Fin dk) (e : Fin dv) :
    ∑ t : Fin T, demand Q dO d e t *
        affine (gate A d) (tangentFlowFrom K eK V eV A eA S d e) (eS d e) (t + 1) +
      E d e * affine (gate A d) (tangentFlowFrom K eK V eV A eA S d e) (eS d e) T =
    ∑ t : Fin T, totalAt Q A dO E t d e * tangentFlowFrom K eK V eV A eA S d e t +
      adjointAt Q A dO E 0 d e * eS d e := by
  have h := telescope (gate A d) (tangentFlowFrom K eK V eV A eA S d e) (demand Q dO d e) (eS d e)
    (E d e) (Nat.zero_le T)
  rw [← range_eq_Ico, affine_zero, sum_sub_distrib] at h
  rw [Fin.sum_univ_eq_sum_range (fun t => demand Q dO d e t *
      affine (gate A d) (tangentFlowFrom K eK V eV A eA S d e) (eS d e) (t + 1)),
    Fin.sum_univ_eq_sum_range
      (fun t => totalAt Q A dO E t d e * tangentFlowFrom K eK V eV A eA S d e t)]
  simp only [totalAt_apply, adjointAt_apply, mul_comm (demand Q dO d e _)]
  linear_combination h

theorem states_tangent_from :
    (∑ t, ∑ e, ∑ d, dO t e * (Q t d *
        affine (gate A d) (tangentFlowFrom K eK V eV A eA S d e) (eS d e) (t + 1))) +
      (∑ d, ∑ e, E d e * affine (gate A d) (tangentFlowFrom K eK V eV A eA S d e) (eS d e) T) =
    (∑ t : Fin T, ∑ e, ∑ d, totalAt Q A dO E t d e * tangentFlowFrom K eK V eV A eA S d e t) +
      dot (adjointAt Q A dO E 0) eS := by
  rw [sum_tokens_inside, sum_tokens_inside fun (t : Fin T) e d =>
    totalAt Q A dO E t d e * tangentFlowFrom K eK V eV A eA S d e t, dot, ← sum_add_distrib,
    ← sum_add_distrib]
  apply sum_congr rfl
  intro d _
  rw [← sum_add_distrib, ← sum_add_distrib]
  apply sum_congr rfl
  intro e _
  rw [← flow_tangent]
  congr 1
  apply sum_congr rfl
  intro t _
  rw [demand, stream_fin, stream_fin]
  ring

end States

theorem expectedGla_tangent (t : Fin T) (e : Fin dv) :
    (expectedGla (perturb Q eQ) (perturb K eK) (perturb V eV) (perturb A eA) t e).coeff 1 =
      ∑ d, (eQ t d * stateAt K V A 0 (t + 1) d e +
        Q t d * affine (gate A d) (tangentFlow K eK V eV A eA d e) 0 (t + 1)) := by
  have h := outputAt_tangent Q eQ K eK V eV A eA 0 0 t e
  rw [perturb_zero] at h
  rw [expectedGla_row]
  exact h

theorem states_tangent : ∑ t, ∑ e, ∑ d, dO t e * (Q t d *
      affine (gate A d) (tangentFlow K eK V eV A eA d e) 0 (t + 1)) =
    ∑ t : Fin T, ∑ e, ∑ d, totalAt Q A dO 0 t d e * tangentFlow K eK V eV A eA d e t := by
  have h := states_tangent_from Q K eK V eV A eA dO 0 0 0
  simp only [dot, Matrix.zero_apply, zero_mul, mul_zero, sum_const_zero, add_zero] at h
  exact h

theorem expectedGlaBackward_adjoint : (dot (dO.map C)
    (expectedGla (perturb Q eQ) (perturb K eK) (perturb V eV) (perturb A eA))).coeff 1 =
      dot (expectedGlaBackward Q K V A dO).dQ eQ + dot (expectedGlaBackward Q K V A dO).dK eK +
        dot (expectedGlaBackward Q K V A dO).dV eV +
        dot (expectedGlaBackward Q K V A dO).dA eA := by
  have hrow := expectedGlaBackward_row Q K V A dO
  set g := expectedGlaBackward Q K V A dO
  have hQ : dot g.dQ eQ = ∑ t, ∑ e, ∑ d, dO t e * (eQ t d * stateAt K V A 0 (t + 1) d e) :=
    dot_mulVec_swap eQ fun t => congrArg RowGrads.dQ (hrow t)
  have hK : dot g.dK eK = ∑ t : Fin T, ∑ e, ∑ d, totalAt Q A dO 0 t d e * (eK t d * V t e) :=
    dot_mulVec eK fun t => congrArg RowGrads.dK (hrow t)
  have hV : dot g.dV eV = ∑ t : Fin T, ∑ e, ∑ d, totalAt Q A dO 0 t d e * (K t d * eV t e) :=
    dot_vecMul eV fun t => congrArg RowGrads.dV (hrow t)
  have hA : dot g.dA eA =
      ∑ t : Fin T, ∑ e, ∑ d, totalAt Q A dO 0 t d e * (eA t d * stateAt K V A 0 t d e) :=
    dot_rowSum eA fun t => congrArg RowGrads.dA (hrow t)
  have hflow : ∑ t : Fin T, ∑ e, ∑ d, totalAt Q A dO 0 t d e * tangentFlow K eK V eV A eA d e t =
      dot g.dA eA + (dot g.dV eV + dot g.dK eK) := by
    simp only [hA, hV, hK, tangentFlow, stream_fin, mul_add, sum_add_distrib]
  have hleft : (dot (dO.map C)
      (expectedGla (perturb Q eQ) (perturb K eK) (perturb V eV) (perturb A eA))).coeff 1 =
      ∑ t, ∑ e, ∑ d, dO t e * (eQ t d * stateAt K V A 0 (t + 1) d e) +
        ∑ t, ∑ e, ∑ d, dO t e * (Q t d *
          affine (gate A d) (tangentFlow K eK V eV A eA d e) 0 (t + 1)) := by
    simp only [dot, finsetSum_coeff, map_apply, coeff_C_mul, expectedGla_tangent, mul_sum, mul_add,
      sum_add_distrib]
  rw [hleft, ← hQ, states_tangent, hflow]
  ring

end Adjoint

end ZeCo
