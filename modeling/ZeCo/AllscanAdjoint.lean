import ZeCo.AllscanCommon
import ZeCo.GlaAdjoint

namespace ZeCo

open Matrix Finset Recurrence Polynomial

variable {R : Type*} [CommRing R] {P dk dv : ℕ}

def across (X : States P dk dv R) (d : Fin dk) (e : Fin dv) (p : ℕ) : R :=
  stream (of fun p e => X p d e) p e

theorem across_fin (X : States P dk dv R) (d : Fin dk) (e : Fin dv) (p : Fin P) :
    across X d e p = X p d e := stream_fin _ p e

section Scans

variable (sLocals : States P dk dv R) (gammas : Decays P dk R) (gOut : States P dk dv R)

theorem gate_fin (p : Fin P) (d : Fin dk) : gate (of gammas) d p = gammas p d := stream_fin _ p d

theorem expectedAllscan_affine (p : Fin P) (d : Fin dk) (e : Fin dv) :
    expectedAllscan sLocals gammas p d e =
      affine (gate (of gammas) d) (across sLocals d e) 0 (p + 1) := by
  have h := eq_expectedAllscan sLocals gammas
    (S := fun p => of fun d e => affine (gate (of gammas) d) (across sLocals d e) 0 (p + 1)) ?_
  · rw [← h]
    rfl
  · intro p
    ext d e
    have hprev : sRecv (fun p : Fin P => of fun d e =>
        affine (gate (of gammas) d) (across sLocals d e) 0 (p + 1)) p d e =
        affine (gate (of gammas) d) (across sLocals d e) 0 p := by
      rw [sRecv]
      split_ifs with h0
      · rw [h0, affine_zero, Matrix.zero_apply]
      · rw [of_apply, Nat.sub_add_cancel (Nat.pos_of_ne_zero h0)]
    change affine (gate (of gammas) d) (across sLocals d e) 0 (p + 1) = _
    rw [affine_succ, Matrix.add_apply, rowScale_apply, hprev, gate_fin, across_fin, add_comm]

theorem sRecv_affine (p : Fin P) (d : Fin dk) (e : Fin dv) :
    sRecv (expectedAllscan sLocals gammas) p d e =
      affine (gate (of gammas) d) (across sLocals d e) 0 p := by
  rw [sRecv]
  split_ifs with h0
  · rw [h0, affine_zero, Matrix.zero_apply]
  · rw [expectedAllscan_affine, Nat.sub_add_cancel (Nat.pos_of_ne_zero h0)]

theorem reverseScan_adjoint (p : Fin P) (d : Fin dk) (e : Fin dv) :
    reverseScan gammas gOut p d e =
      across gOut d e p + adjoint (gate (of gammas) d) (across gOut d e) 0 P (p + 1) := by
  have h := eq_reverseScan gammas gOut (S := fun p => of fun d e =>
    across gOut d e p + adjoint (gate (of gammas) d) (across gOut d e) 0 P (p + 1)) ?_
  · rw [← h]
    rfl
  · intro p
    ext d e
    change across gOut d e p + adjoint (gate (of gammas) d) (across gOut d e) 0 P (p + 1) = _
    rw [Matrix.add_apply, across_fin, message]
    congr 1
    split_ifs with hp
    · rw [adjoint_step _ _ _ hp, rowScale_apply, of_apply, ← gate_fin gammas]
    · have hlast : p.val + 1 = P := by omega
      rw [hlast, adjoint_self, Matrix.zero_apply]

end Scans

noncomputable def perturbStates (X Y : States P dk dv R) : States P dk dv R[X] :=
  fun p => perturb (X p) (Y p)

noncomputable def perturbDecays (x y : Decays P dk R) : Decays P dk R[X] := perturb (of x) (of y)

section Adjoint

variable (sLocals eS : States P dk dv R) (gammas eG : Decays P dk R) (gOut : States P dk dv R)

theorem expectedAllscan_tangent (p : Fin P) (d : Fin dk) (e : Fin dv) :
    (expectedAllscan (perturbStates sLocals eS) (perturbDecays gammas eG) p d e).coeff 1 =
      affine (gate (of gammas) d) (fun t => gate (of eG) d t *
        affine (gate (of gammas) d) (across sLocals d e) 0 t + across eS d e t) 0 (p + 1) := by
  have hG (t : ℕ) : (gate (of (perturbDecays gammas eG)) d t).coeff 0 = gate (of gammas) d t ∧
      (gate (of (perturbDecays gammas eG)) d t).coeff 1 = gate (of eG) d t :=
    stream_perturb_coeff (of gammas) (of eG) t d
  have hS (t : ℕ) : (across (perturbStates sLocals eS) d e t).coeff 0 = across sLocals d e t ∧
      (across (perturbStates sLocals eS) d e t).coeff 1 = across eS d e t :=
    stream_perturb_coeff (of fun p e => sLocals p d e) (of fun p e => eS p d e) t e
  have h := (affine_coeff (gate (of (perturbDecays gammas eG)) d)
    (across (perturbStates sLocals eS) d e) 0 (p + 1)).2
  simp only [(hG _).1, (hG _).2, (hS _).1, (hS _).2, coeff_zero] at h
  rw [expectedAllscan_affine, h]

theorem entry_tangent (d : Fin dk) (e : Fin dv) :
    ∑ p, gOut p d e *
      (expectedAllscan (perturbStates sLocals eS) (perturbDecays gammas eG) p d e).coeff 1 =
    ∑ p, reverseScan gammas gOut p d e *
      (sRecv (expectedAllscan sLocals gammas) p d e * eG p d + eS p d e) := by
  have h := pairing (gate (of gammas) d) (fun t => gate (of eG) d t *
    affine (gate (of gammas) d) (across sLocals d e) 0 t + across eS d e t) (across gOut d e) P
  rw [sum_range, sum_range] at h
  simp only [across_fin, gate_fin] at h
  simp only [expectedAllscan_tangent, reverseScan_adjoint, sRecv_affine, across_fin]
  apply h.trans
  apply sum_congr rfl
  intro p _
  rw [mul_comm (eG p d)]

def scanPairing (g : States P dk dv R × Decays P dk R) : R :=
  ∑ p, dot (g.1 p) (eS p) + ∑ p, ∑ d, g.2 p d * eG p d

theorem expectedAllscanBackward_adjoint :
    (∑ p, dot ((gOut p).map C)
        (expectedAllscan (perturbStates sLocals eS) (perturbDecays gammas eG) p)).coeff 1 =
      scanPairing eS eG
        (expectedAllscanBackward gammas (expectedAllscan sLocals gammas) gOut) ∧
    ∀ p : Fin P, p.val = 0 →
      (expectedAllscanBackward gammas (expectedAllscan sLocals gammas) gOut).2 p = 0 := by
  set outs := expectedAllscan sLocals gammas
  set g := expectedAllscanBackward gammas outs gOut
  constructor
  · calc
      _ = ∑ p, ∑ d, ∑ e, gOut p d e * (expectedAllscan (perturbStates sLocals eS)
            (perturbDecays gammas eG) p d e).coeff 1 := by
        simp only [dot, finsetSum_coeff, map_apply, coeff_C_mul]
      _ = ∑ p, ∑ d, ∑ e,
            reverseScan gammas gOut p d e * (sRecv outs p d e * eG p d + eS p d e) := by
        rw [sum_tokens_inside, sum_tokens_inside fun p d e =>
          reverseScan gammas gOut p d e * (sRecv outs p d e * eG p d + eS p d e)]
        apply sum_congr rfl
        intro e _
        apply sum_congr rfl
        intro d _
        exact entry_tangent sLocals eS gammas eG gOut d e
      _ = _ := by
        rw [scanPairing, ← sum_add_distrib]
        apply sum_congr rfl
        intro p _
        have hg : g.2 p = rowSum (reverseScan gammas gOut p ⊙ sRecv outs p) :=
          gammaGrads_apply outs _ p
        rw [dot, ← sum_add_distrib]
        apply sum_congr rfl
        intro d _
        rw [hg, rowSum_apply, sum_mul, ← sum_add_distrib]
        apply sum_congr rfl
        intro e _
        change _ = reverseScan gammas gOut p d e * eS p d e + _
        rw [hadamard_apply]
        ring
  · intro p hp
    funext d
    change gammaGrads _ _ p d = 0
    simp [gammaGrads_apply, sRecv_first _ hp]

end Adjoint

end ZeCo
