import ZeCo.AllscanAdjoint
import ZeCo.Autodiff
import ZeCo.GlaChunkAdjoint
import ZeCo.SequenceParallel
import ZeCo.TorchRef

namespace ZeCo

open Matrix Polynomial Autodiff Topology Filter Recurrence

variable {P N C T dk dv : ℕ}

theorem pair_dot {m n : ℕ} (X Y : Matrix (Fin m) (Fin n) ℝ) : pair X Y = dot X Y := rfl

section Perturbed

variable {m n : ℕ} (ε : ℝ)

theorem perturb_eval (X Y : Matrix (Fin m) (Fin n) ℝ) :
    (perturb X Y).map (evalRingHom ε) = X + ε • Y := by
  ext i j
  simp only [map_apply, perturb, of_apply, coe_evalRingHom, eval_add, eval_C, eval_mul, eval_X,
    Matrix.add_apply, Matrix.smul_apply, smul_eq_mul]

theorem const_eval (X : Matrix (Fin m) (Fin n) ℝ) :
    (X.map Polynomial.C).map (evalRingHom ε) = X := by
  ext i j
  simp

variable (Q eQ K eK : Matrix (Fin T) (Fin dk) ℝ) (V eV : Matrix (Fin T) (Fin dv) ℝ)
  (A eA : Matrix (Fin T) (Fin dk) ℝ) (S eS : Matrix (Fin dk) (Fin dv) ℝ)
  (dO : Matrix (Fin T) (Fin dv) ℝ) (E : Matrix (Fin dk) (Fin dv) ℝ) (g : Fin dk → ℝ)

theorem sliceObjective_eval : sliceObjective (Q + ε • eQ) (K + ε • eK) (V + ε • eV) (A + ε • eA)
    (S + ε • eS) dO E g = (sliceObjective (perturb Q eQ) (perturb K eK) (perturb V eV)
      (perturb A eA) (perturb S eS) (dO.map Polynomial.C) (E.map Polynomial.C)
      (fun d => Polynomial.C (g d))).eval ε := by
  have h := sliceObjective_map (perturb Q eQ) (perturb K eK) (perturb V eV) (perturb A eA)
    (perturb S eS) (dO.map Polynomial.C) (E.map Polynomial.C) (fun d => Polynomial.C (g d))
    (evalRingHom ε)
  have hg : (fun d => evalRingHom ε (Polynomial.C (g d))) = g := funext fun d => eval_C
  rw [hg] at h
  simp only [perturb_eval, const_eval] at h
  exact h

end Perturbed

theorem eventually_ne_zero {A : Matrix (Fin T) (Fin dk) ℝ} (eA : Matrix (Fin T) (Fin dk) ℝ)
    (hA : ∀ t d, A t d ≠ 0) : ∀ᶠ ε : ℝ in 𝓝 0, ∀ t d, (A + ε • eA) t d ≠ 0 := by
  rw [eventually_all]
  intro t
  rw [eventually_all]
  intro d
  have hcont : ContinuousAt (fun ε : ℝ => (A + ε • eA) t d) 0 := by
    simp only [Matrix.add_apply, Matrix.smul_apply, smul_eq_mul]
    fun_prop
  apply hcont.eventually_ne
  simpa using hA t d

section Rank

variable {R : Type*} [Field R]

def rankForward (S : Matrix (Fin dk) (Fin dv) R)
    (x : Matrix (Fin (N * C)) (Fin dk) R × Matrix (Fin (N * C)) (Fin dk) R ×
      Matrix (Fin (N * C)) (Fin dv) R × Matrix (Fin (N * C)) (Fin dk) R) :
    Matrix (Fin (N * C)) (Fin dv) R × Matrix (Fin dk) (Fin dv) R × (Fin dk → R) :=
  let (Qp, Kp, Vp, Ap) := x
  let scan := glaChunkScan Qp Kp Vp Ap
  (glaReconstruct Qp Ap scan.sPrev scan.cPrev S scan.oIntra, scan.sTotal, scan.gTotal)

end Rank

section Device

variable (Q K : Matrix (Fin (N * C)) (Fin dk) ℝ) (V : Matrix (Fin (N * C)) (Fin dv) ℝ)
  {A : Matrix (Fin (N * C)) (Fin dk) ℝ} (S : Matrix (Fin dk) (Fin dv) ℝ)
  (dO : Matrix (Fin (N * C)) (Fin dv) ℝ) (dSTotal : Matrix (Fin dk) (Fin dv) ℝ)
  (dgTotal : Fin dk → ℝ)

theorem rankForward_pair (A : Matrix (Fin (N * C)) (Fin dk) ℝ) :
    pair (dO, dSTotal, dgTotal) (rankForward S (Q, K, V, A)) =
      rankObjective Q K V S dO dSTotal dgTotal A := by
  simp only [pair_prod, rankForward, rankObjective, pair_dot, pair_pi, pair_real]
  ring

variable (hC : 0 < C) (hA : ∀ t d, A t d ≠ 0)
include hC hA

theorem reconstruct_isGrad :
    let scan := glaChunkScan Q K V A
    IsGrad (fun S => glaReconstruct Q A scan.sPrev scan.cPrev S scan.oIntra) S dO
      (glaChunkBackward Q K V A S dO 0 0).2 := by
  intro scan
  apply isGrad_of_polynomial
  intro eS
  refine ⟨_, .of_forall fun ε => ?_,
    (glaChunkBackward_pairing Q 0 K 0 V 0 0 S eS dO 0 0 hC hA).trans ?_⟩
  · rw [← sliceObjective_eval]
    simp only [smul_zero, add_zero]
    rw [← rankObjective_slice Q K V (S + ε • eS) dO 0 0 hC hA]
    simp [rankObjective, dot, scan]
  · simp [gradsPairing, dot]

theorem rankForward_isGrad :
    let g := (glaChunkBackward Q K V A S dO dSTotal dgTotal).1
    IsGrad (rankForward S) (Q, K, V, A) (dO, dSTotal, dgTotal) (g.dQ, g.dK, g.dV, g.dA) := by
  intro g
  apply isGrad_of_polynomial
  rintro ⟨eQ, eK, eV, eA⟩
  refine ⟨_, (eventually_ne_zero eA hA).mono fun ε hε => ?_,
    (glaChunkBackward_pairing Q eQ K eK V eV eA S 0 dO dSTotal dgTotal hC hA).trans ?_⟩
  · rw [← sliceObjective_eval]
    simp only [smul_zero, add_zero]
    rw [← rankObjective_slice _ _ _ S dO dSTotal dgTotal hC hε, ← rankForward_pair]
    rfl
  · simp only [gradsPairing, pair_prod, pair_dot]
    simp [dot, g]
    ring

end Device

section References

variable (Q eQ K eK : Matrix (Fin T) (Fin dk) ℝ) (V eV : Matrix (Fin T) (Fin dv) ℝ)
  (A eA : Matrix (Fin T) (Fin dk) ℝ) (dO : Matrix (Fin T) (Fin dv) ℝ)

theorem expectedGla_pairing :
    (sliceObjective (perturb Q eQ) (perturb K eK) (perturb V eV) (perturb A eA)
        (perturb (0 : Matrix (Fin dk) (Fin dv) ℝ) 0) (dO.map Polynomial.C)
        ((0 : Matrix (Fin dk) (Fin dv) ℝ).map Polynomial.C)
        (fun d => Polynomial.C ((0 : Fin dk → ℝ) d))).coeff 1 =
      dot (expectedGlaBackward Q K V A dO).dQ eQ + dot (expectedGlaBackward Q K V A dO).dK eK +
        dot (expectedGlaBackward Q K V A dO).dV eV +
        dot (expectedGlaBackward Q K V A dO).dA eA := by
  have hrow := expectedGlaBackward_row Q K V A dO
  set g := expectedGlaBackward Q K V A dO
  have hQ : dot g.dQ eQ = ∑ t, ∑ e, ∑ d, dO t e * (eQ t d * stateAt K V A 0 (t + 1) d e) :=
    dot_mulVec_swap eQ fun t => congrArg RowGrads.dQ (hrow t)
  have hK : dot g.dK eK = ∑ t : Fin T, ∑ e, ∑ d, totalAt Q A dO 0 t d e * (eK t d * V t e) :=
    dot_mulVec eK fun t => congrArg RowGrads.dK (hrow t)
  have hV : dot g.dV eV = ∑ t : Fin T, ∑ e, ∑ d, totalAt Q A dO 0 t d e * (K t d * eV t e) :=
    dot_vecMul eV fun t => congrArg RowGrads.dV (hrow t)
  have hA : dot g.dA eA =
      ∑ t : Fin T, ∑ e, ∑ d, totalAt Q A dO 0 t d e * (eA t d * stateAt K V A 0 t d e) :=
    dot_rowSum eA fun t => congrArg RowGrads.dA (hrow t)
  have hflow : ∑ t : Fin T, ∑ e, ∑ d,
      totalAt Q A dO 0 t d e * tangentFlowFrom K eK V eV A eA 0 d e t =
      dot g.dA eA + (dot g.dV eV + dot g.dK eK) := by
    simp only [hK, hV, hA, tangentFlowFrom, stream_fin, mul_add, Finset.sum_add_distrib]
  have hzero : dot (adjointAt Q A dO 0 0) (0 : Matrix (Fin dk) (Fin dv) ℝ) = 0 := by simp [dot]
  have hexcess : ∑ d, ((0 : Fin dk → ℝ) d - rowSum ((0 : Matrix (Fin dk) (Fin dv) ℝ) ⊙ 0) d) *
      (decay (gate (perturb A eA) d) 0 T).coeff 1 = 0 := by simp
  rw [sliceObjective_tangent, hflow, ← hQ, hzero, hexcess]
  ring

theorem expectedGla_isGrad :
    let g := expectedGlaBackward Q K V A dO
    IsGrad (fun x : Matrix (Fin T) (Fin dk) ℝ × Matrix (Fin T) (Fin dk) ℝ ×
        Matrix (Fin T) (Fin dv) ℝ × Matrix (Fin T) (Fin dk) ℝ =>
      expectedGla x.1 x.2.1 x.2.2.1 x.2.2.2) (Q, K, V, A) dO (g.dQ, g.dK, g.dV, g.dA) := by
  intro g
  apply isGrad_of_polynomial
  rintro ⟨eQ, eK, eV, eA⟩
  refine ⟨_, .of_forall fun ε => ?_, (expectedGla_pairing Q eQ K eK V eV A eA dO).trans ?_⟩
  · rw [← sliceObjective_eval]
    have hrow (Q K : Matrix (Fin T) (Fin dk) ℝ) (V : Matrix (Fin T) (Fin dv) ℝ)
        (A : Matrix (Fin T) (Fin dk) ℝ) : of (outputAt Q K V A 0) = expectedGla Q K V A :=
      funext fun t => (expectedGla_row Q K V A t).symm
    simp only [smul_zero, add_zero, sliceObjective, hrow]
    simp [dot]
  · simp only [pair_prod, pair_dot]
    ring

end References

section Scan

theorem expectedAllscan_eval (sLocals eS : States P dk dv ℝ) (gammas eG : Decays P dk ℝ) (ε : ℝ)
    (p : Fin P) (d : Fin dk) (e : Fin dv) :
    expectedAllscan (sLocals + ε • eS) (gammas + ε • eG) p d e =
      (expectedAllscan (perturbStates sLocals eS) (perturbDecays gammas eG) p d e).eval ε := by
  have hgate : gate (of (gammas + ε • eG)) d =
      fun t => evalRingHom ε (gate (of (perturbDecays gammas eG)) d t) := by
    rw [← gate_map]
    exact congrArg (gate · d) (perturb_eval ε (of gammas) (of eG)).symm
  have hflow : across (sLocals + ε • eS) d e =
      fun t => evalRingHom ε (across (perturbStates sLocals eS) d e t) := by
    funext t
    exact (congrArg (stream · t e) (perturb_eval ε (of fun p e => sLocals p d e)
      (of fun p e => eS p d e)).symm).trans (stream_map (evalRingHom ε) _ t e)
  have h := affine_map (evalRingHom ε) (gate (of (perturbDecays gammas eG)) d)
    (across (perturbStates sLocals eS) d e) 0 (p + 1)
  rw [expectedAllscan_affine, expectedAllscan_affine, hgate, hflow]
  rw [map_zero] at h
  exact h.symm

theorem expectedAllscan_isGrad (sLocals : States P dk dv ℝ) (gammas : Decays P dk ℝ)
    (gOut : States P dk dv ℝ) :
    IsGrad (fun x : States P dk dv ℝ × Decays P dk ℝ => expectedAllscan x.1 x.2) (sLocals, gammas)
      gOut (expectedAllscanBackward gammas (expectedAllscan sLocals gammas) gOut) := by
  set outs := expectedAllscan sLocals gammas
  apply isGrad_of_polynomial
  rintro ⟨eS, eG⟩
  refine ⟨∑ p, ∑ d, ∑ e, Polynomial.C (gOut p d e) *
    expectedAllscan (perturbStates sLocals eS) (perturbDecays gammas eG) p d e,
    .of_forall fun ε => ?_, ?_⟩
  · simp only [eval_finsetSum, eval_mul, eval_C, ← expectedAllscan_eval]
    rfl
  · have hgamma (p : Fin P) (d : Fin dk) : gammaGrads (reverseScan gammas gOut) outs p d =
        ∑ e, reverseScan gammas gOut p d e * sRecv outs p d e := by
      rw [gammaGrads_apply]
      rfl
    calc
      _ = ∑ p, ∑ d, ∑ e, gOut p d e * (expectedAllscan (perturbStates sLocals eS)
            (perturbDecays gammas eG) p d e).coeff 1 := by
        simp only [finsetSum_coeff, coeff_C_mul]
      _ = ∑ p, ∑ d, ∑ e,
            reverseScan gammas gOut p d e * (sRecv outs p d e * eG p d + eS p d e) := by
        rw [sum_tokens_inside, sum_tokens_inside fun p d e =>
          reverseScan gammas gOut p d e * (sRecv outs p d e * eG p d + eS p d e)]
        apply Finset.sum_congr rfl
        intro e _
        apply Finset.sum_congr rfl
        intro d _
        exact entry_tangent sLocals eS gammas eG gOut d e
      _ = (∑ p, ∑ d, ∑ e, reverseScan gammas gOut p d e * eS p d e) +
            ∑ p, ∑ d, gammaGrads (reverseScan gammas gOut) outs p d * eG p d := by
        simp only [hgamma, Finset.sum_mul, ← Finset.sum_add_distrib]
        refine Finset.sum_congr rfl fun p _ => Finset.sum_congr rfl fun d _ =>
          Finset.sum_congr rfl fun e _ => ?_
        ring
      _ = _ := rfl

end Scan

namespace TorchZeCo

variable (ad : Autograd) (Q K : Fin P → Matrix (Fin (N * C)) (Fin dk) ℝ)
  (V : Fin P → Matrix (Fin (N * C)) (Fin dv) ℝ) (A : Fin P → Matrix (Fin (N * C)) (Fin dk) ℝ)
  (dO : Fin P → Matrix (Fin (N * C)) (Fin dv) ℝ)

noncomputable def backward : Fin P → Grads (N * C) dk dv ℝ :=
  let stageA p := glaChunkScan (Q p) (K p) (V p) (A p)
  let sLocals p := (stageA p).sTotal
  let gammas p := (stageA p).gTotal
  let outs := TorchAllscan.run sLocals gammas 1 (fun _ => 0)
  -- Phase 1: the stage-C adjoint, with the boundary held at its actual value.
  let dSRecv p := ad.grad (fun S => glaReconstruct (Q p) (A p) (stageA p).sPrev (stageA p).cPrev S
    (stageA p).oIntra) (sRecv outs p) (dO p)
  -- Phase 2: `out[p]` feeds rank `p + 1`.
  let (dS, dgamma) := TorchAllscan.runBackward gammas (gOutOf dSRecv) outs 1 (fun _ => 0) fun _ => 0
  -- Phase 3: the inputs' gradients from the output's and the boundary's.
  fun p =>
    let (gQ, gK, gV, gA) :=
      ad.grad (rankForward (sRecv outs p)) (Q p, K p, V p, A p) (dO p, dS p, dgamma p)
    ⟨gQ, gK, gV, gA⟩

theorem backward_eq (hA : ∀ p t d, A p t d ≠ 0) (hC : 0 < C) :
    backward ad Q K V A dO = zecoBackward Q K V A dO := by
  funext p
  have hone : 1 ∣ dk := one_dvd dk
  have hrun (sLocals : States P dk dv ℝ) (gammas : Decays P dk ℝ) :=
    TorchAllscan.run_of_dvd sLocals gammas hone
  have hback (gammas : Decays P dk ℝ) (gOut outs : States P dk dv ℝ) :=
    (TorchAllscan.runBackward_full_iff gammas gOut outs p.pos 1).mpr (.inl hone)
  have hphase1 (p : Fin P) (S : Matrix (Fin dk) (Fin dv) ℝ) :=
    ad.grad_eq (reconstruct_isGrad (Q p) (K p) (V p) S (dO p) hC (hA p))
  have hphase3 (S dS : Matrix (Fin dk) (Fin dv) ℝ) (dgamma : Fin dk → ℝ) :=
    ad.grad_eq (rankForward_isGrad (Q p) (K p) (V p) S (dO p) dS dgamma hC (hA p))
  unfold backward zecoBackward
  simp only [hrun, hback, hphase1, hphase3]

end TorchZeCo

theorem torchZeCo_backward (ad : Autograd) (Q K : Fin P → Matrix (Fin (N * C)) (Fin dk) ℝ)
    (V : Fin P → Matrix (Fin (N * C)) (Fin dv) ℝ) (A : Fin P → Matrix (Fin (N * C)) (Fin dk) ℝ)
    (dO : Fin P → Matrix (Fin (N * C)) (Fin dv) ℝ) (hA : ∀ p t d, A p t d ≠ 0) (p : Fin P)
    (t : Fin (N * C)) : (TorchZeCo.backward ad Q K V A dO p).row t =
      (expectedGlaBackward (flattenSeq Q) (flattenSeq K) (flattenSeq V) (flattenSeq A)
        (flattenSeq dO)).row (token p t) := by
  have hC : 0 < C := Nat.pos_of_mul_pos_left t.pos
  rw [TorchZeCo.backward_eq ad Q K V A dO hA hC]
  exact backward_row Q K V dO hA p t

theorem torchZeCo_backward_two :
    let X : Fin 2 → Matrix (Fin (1 * 2)) (Fin 1) ℝ := ![!![1; 2], !![2; 3]]
    let A : Fin 2 → Matrix (Fin (1 * 2)) (Fin 1) ℝ := fun _ => of fun _ _ => 1 / 2
    (TorchZeCo.backward Autograd.exact X X X A X 1).row 0 =
      (expectedGlaBackward (flattenSeq X) (flattenSeq X) (flattenSeq X) (flattenSeq A)
        (flattenSeq X)).row (token 1 0) := by
  intro X A
  exact torchZeCo_backward Autograd.exact X X X A X (fun _ _ _ => by norm_num [A]) 1 0

theorem autograd_agrees (ad : Autograd) (Q K A : Matrix (Fin T) (Fin dk) ℝ)
    (V dO : Matrix (Fin T) (Fin dv) ℝ) (sLocals gOut : States P dk dv ℝ) (gammas : Decays P dk ℝ)
    (Qp Kp Ap : Matrix (Fin (N * C)) (Fin dk) ℝ) (Vp dOp : Matrix (Fin (N * C)) (Fin dv) ℝ)
    (S dSTotal : Matrix (Fin dk) (Fin dv) ℝ) (dgTotal : Fin dk → ℝ) (hC : 0 < C)
    (hA : ∀ t d, Ap t d ≠ 0) :
    let g := expectedGlaBackward Q K V A dO
    let x := glaChunkBackward Qp Kp Vp Ap S dOp dSTotal dgTotal
    let scan := glaChunkScan Qp Kp Vp Ap
    ad.grad (fun x : Matrix (Fin T) (Fin dk) ℝ × Matrix (Fin T) (Fin dk) ℝ ×
        Matrix (Fin T) (Fin dv) ℝ × Matrix (Fin T) (Fin dk) ℝ =>
      expectedGla x.1 x.2.1 x.2.2.1 x.2.2.2) (Q, K, V, A) dO = (g.dQ, g.dK, g.dV, g.dA) ∧
    ad.grad (fun x : States P dk dv ℝ × Decays P dk ℝ => expectedAllscan x.1 x.2)
      (sLocals, gammas) gOut =
        expectedAllscanBackward gammas (expectedAllscan sLocals gammas) gOut ∧
    ad.grad (rankForward S) (Qp, Kp, Vp, Ap) (dOp, dSTotal, dgTotal) =
      (x.1.dQ, x.1.dK, x.1.dV, x.1.dA) ∧
    ad.grad (fun S => glaReconstruct Qp Ap scan.sPrev scan.cPrev S scan.oIntra) S dOp = x.2 := by
  intro g x scan
  refine ⟨ad.grad_eq (expectedGla_isGrad Q K V A dO),
    ad.grad_eq (expectedAllscan_isGrad sLocals gammas gOut),
    ad.grad_eq (rankForward_isGrad Qp Kp Vp S dOp dSTotal dgTotal hC hA), ?_⟩
  rw [ad.grad_eq (reconstruct_isGrad Qp Kp Vp S dOp hC hA)]
  exact (glaChunkBackward_snd Qp Kp Vp Ap S dOp dSTotal dgTotal).symm

theorem autograd_agrees_two :
    let M : Matrix (Fin (2 * 1)) (Fin 1) ℝ := !![1; 2]
    let S : Matrix (Fin 1) (Fin 1) ℝ := !![3]
    Autograd.exact.grad (rankForward S) (M, M, M, M) (M, S, fun _ => 5) =
      ((glaChunkBackward M M M M S M S (fun _ => 5)).1.dQ,
        (glaChunkBackward M M M M S M S (fun _ => 5)).1.dK,
        (glaChunkBackward M M M M S M S (fun _ => 5)).1.dV,
        (glaChunkBackward M M M M S M S (fun _ => 5)).1.dA) := by
  intro M S
  refine (autograd_agrees Autograd.exact M M M M M (fun _ : Fin 1 => S) (fun _ => S)
    (fun _ _ => 1) M M M M M S S (fun _ => 5) one_pos fun t d => ?_).2.2.1
  fin_cases t <;> fin_cases d <;> norm_num [M]

end ZeCo
