import ZeCo.FusedBackward
import ZeCo.FusedForwardPlan
import ZeCo.FusedGradH

namespace ZeCo.Fused

open Matrix Network Recurrence

variable {R : Type*} {P N C dk dv K : ℕ}

abbrev BackwardTensors (N C dk dv : ℕ) (R : Type*) :=
  BackwardEnv dk dv R (Records N C dk dv R) (Adjoints N C dk dv R) (StateGrads N C dk dv R)

section Host

variable [Field R] (exp log : R → R) (nb nv nc : ℕ) (Q K : Fin P → Matrix (Fin (N * C)) (Fin dk) R)
  (V dO : Fin P → Matrix (Fin (N * C)) (Fin dv) R) (A : Fin P → Matrix (Fin (N * C)) (Fin dk) R)
  (env₀ : Fin P → BackwardTensors N C dk dv R)

def zcb (C dk : ℕ) (R : Type*) [Zero R] : Matrix (Fin C) (Fin (max C dk)) R := 0

def chipRecompute (r : Fin P) : Records N C dk dv R × Matrix (Fin dk) (Fin dv) R :=
  glaRecompute exp log nb nv nc (A r) (K r) (V r) (tril C) 0 (of fun _ _ => 1) (zcb C dk R)
    ((env₀ r).record, (env₀ r).stot)

def chipGradO (r : Fin P) (record : Records N C dk dv R) (boundary : Matrix (Fin dk) (Fin dv) R) :
    Adjoints N C dk dv R × Matrix (Fin dk) (Fin dv) R :=
  glaGradO nb nv nc (Q r) (K r) (V r) (dO r) (tril C) record boundary 0 (zcb C dk R) 0
    ((env₀ r).adjoints, (env₀ r).dSrecv)

def chipGradH (r : Fin P) (record : Records N C dk dv R) (adj : Adjoints N C dk dv R)
    (rev : ReverseOut dk dv R) : StateGrads N C dk dv R :=
  glaGradH exp log nb nv nc (K r) (V r) (A r) (triu C) record adj rev.dStot (toCol rev.dgam)
    (zcb C dk R) 0 (env₀ r).grads

def backwardKernels : BackwardKernels P dk dv R (Records N C dk dv R) (Adjoints N C dk dv R)
    (StateGrads N C dk dv R) where
  recompute := chipRecompute exp log nb nv nc K V A env₀
  gradO := chipGradO nb nv nc Q K V dO env₀
  gradH := chipGradH exp log nb nv nc K V A env₀

def rankGrads (adj : Adjoints N C dk dv R) (g : StateGrads N C dk dv R) :
    Grads (N * C) dk dv R where
  dQ := adj.dQ
  dK := g.dK
  dV := g.dV
  dA := g.dA

def backwardP1 (r : Fin P) : Grads (N * C) dk dv R :=
  let record := (chipRecompute exp log nb nv nc K V A env₀ r).1
  let adj := (chipGradO nb nv nc Q K V dO env₀ r record 0).1
  rankGrads adj (chipGradH exp log nb nv nc K V A env₀ r record adj ⟨0, 0⟩)

end Host

theorem rankGrads_chunks [Field R] (Q K : Matrix (Fin (N * C)) (Fin dk) R)
    (V dO : Matrix (Fin (N * C)) (Fin dv) R) (Srecv dStot : Matrix (Fin dk) (Fin dv) R)
    (dgam : Fin dk → R) (A : Matrix (Fin (N * C)) (Fin dk) R) :
    ChunkGrads Q K V dO Srecv dStot dgam A
      (rankGrads (adjointsOf Q K V dO Srecv A) (stateGradsOf Q K V dO Srecv dStot dgam A)) := by
  constructor
  all_goals
    intro n
    simp only [rankGrads, adjointsOf, stateGradsOf, chunk_flattenSeq]

section Ranks

variable {nb nv nc : ℕ} (hnb : nb ∣ dk) (hnv : nv ∣ dv) (hpos : 0 < nv) (hnc : nc ∣ C)
  (Q K : Fin P → Matrix (Fin (N * C)) (Fin dk) ℝ)
  (V dO : Fin P → Matrix (Fin (N * C)) (Fin dv) ℝ) {A : Fin P → Matrix (Fin (N * C)) (Fin dk) ℝ}
  (env₀ : Fin P → BackwardTensors N C dk dv ℝ) (hA : ∀ p t d, 0 < A p t d)
include hnb hnv hpos hnc hA

theorem chipRecompute_eq (p : Fin P) :
    chipRecompute Real.exp Real.log nb nv nc K V A env₀ p =
      (recordsOf (K p) (V p) (A p), stateAt (K p) (V p) (A p) 0 (N * C)) :=
  glaRecompute_eq (K p) (V p) (hA p) hnb hnv hpos hnc _

omit hpos in
theorem chipGradO_eq (p : Fin P) (boundary : Matrix (Fin dk) (Fin dv) ℝ)
    (hb : boundary = boundaryState K V A p) :
    chipGradO nb nv nc Q K V dO env₀ p (recordsOf (K p) (V p) (A p)) boundary =
      (adjointsOf (Q p) (K p) (V p) (dO p) (boundaryState K V A p) (A p),
        adjointAt (Q p) (A p) (dO p) 0 0) := by
  rw [hb]
  exact glaGradO_eq (Q p) (K p) (V p) (dO p) _ (A p) hnb hnv hnc (fun t d => (hA p t d).ne') _

theorem rankGrads_row (p : Fin P) (rev : ReverseOut dk dv ℝ)
    (hS : rev.dStot = boundaryAdjoint Q dO A (p + 1))
    (hd : rev.dgam = rowSum (boundaryAdjoint Q dO A (p + 1) ⊙ boundaryState K V A p))
    (t : Fin (N * C)) :
    let adj := adjointsOf (Q p) (K p) (V p) (dO p) (boundaryState K V A p) (A p)
    (rankGrads adj (chipGradH Real.exp Real.log nb nv nc K V A env₀ p
      (recordsOf (K p) (V p) (A p)) adj rev)).row t =
        (expectedGlaBackward (flattenSeq Q) (flattenSeq K) (flattenSeq V) (flattenSeq A)
          (flattenSeq dO)).row (token p t) := by
  intro adj
  have hC : 0 < C := Nat.pos_of_mul_pos_left t.pos
  have hne : ∀ p t d, A p t d ≠ 0 := fun p t d => (hA p t d).ne'
  simp only [adj]
  rw [chipGradH, zcb, glaGradH_eq (Q p) (K p) (V p) (dO p) (boundaryState K V A p) rev.dStot
    rev.dgam (hA p) hC hnb hnv hpos hnc, hS, hd]
  exact row_of_rankGrads Q K V dO hne p (rankGrads_chunks _ _ _ _ _ _ _ _) rfl t

end Ranks

theorem fusedBackward_correct {nb nv nc : ℕ} (hnb : nb ∣ dk) (hnv : nv ∣ dv) (hpos : 0 < nv)
    (hnc : nc ∣ C) (hK : 0 < K) (hKdk : K ∣ dk) (Q Kmat : Fin P → Matrix (Fin (N * C)) (Fin dk) ℝ)
    (V dO : Fin P → Matrix (Fin (N * C)) (Fin dv) ℝ)
    (A : Fin P → Matrix (Fin (N * C)) (Fin dk) ℝ) (hA : ∀ p t d, 0 < A p t d)
    (env₀ : Fin P → BackwardTensors N C dk dv ℝ) (reg₀ : Fin P → RingTiles (dk / K) dv ℝ)
    (inflight : Fin P → BackwardTask → ℕ → Matrix (Fin (dk / K)) (Fin dv) ℝ) :
    let kernels := backwardKernels Real.exp Real.log nb nv nc Q Kmat V dO A env₀
    let program := backwardProgram kernels (gammas A) K env₀ reg₀ inflight
    let expected := expectedGlaBackward (flattenSeq Q) (flattenSeq Kmat) (flattenSeq V)
      (flattenSeq A) (flattenSeq dO)
    (P = 1 → ∀ p t, (backwardP1 Real.exp Real.log nb nv nc Q Kmat V dO A env₀ p).row t =
      expected.row (token p t)) ∧
    ∀ es s, program.Run es s → (Runs.Stuck program.step s → program.Final s) ∧
      (program.Final s → ∀ p t, (rankGrads (s.env p).adjoints (s.env p).grads).row t =
        expected.row (token p t)) := by
  intro kernels program expected
  have hrec := chipRecompute_eq hnb hnv hpos hnc Kmat V env₀ hA
  have hgradO := chipGradO_eq hnb hnv hnc Q Kmat V dO env₀ hA
  have hrow := rankGrads_row hnb hnv hpos hnc Q Kmat V dO env₀ hA
  constructor
  · intro hP p t
    have h0 : boundaryState Kmat V A p = 0 := by
      have hp : p.val = 0 := by omega
      rw [hp, boundaryState, Nat.zero_mul, stateAt_zero]
    have hE := boundaryAdjoint_single Q dO A hP p
    simp only [backwardP1, hrec]
    rw [hgradO p 0 h0.symm]
    apply hrow p ⟨0, 0⟩ hE.symm
    funext d
    simp [hE]
  · intro es s hrun
    have hw : program.Wired := backwardProgram_wired hK
    refine ⟨Net.final_of_stuck hw backwardProgram_progressive (backwardOutline hKdk) hrun,
      fun hfinal p t => ?_⟩
    have done (u : BackwardTask) : BackwardDone kernels (gammas A) p u (s.env p) :=
      Net.final_done hw (backwardOutline hKdk) hrun hfinal (Finset.mem_univ u)
    have hO := (done .gradO).1
    have hH : (s.env p).grads = _ := done .gradH
    have hg (p : Fin P) : gammas A p = fun d => decay (gate (A p) d) 0 (N * C) :=
      funext fun d => prod_eq_decay (A p) d
    have houts := allscan_boundary Kmat V A (fun q => congrArg Prod.snd (hrec q)) hg
    have hout (q : Fin P) : gradOut kernels (gammas A) q =
        (adjointsOf (Q q) (Kmat q) (V q) (dO q) (boundaryState Kmat V A q) (A q),
          adjointAt (Q q) (A q) (dO q) 0 0) := by
      have hq : (kernels.recompute q).1 = recordsOf (Kmat q) (V q) (A q) :=
        congrArg Prod.fst (hrec q)
      rw [gradOut, hq]
      exact hgradO q _ (sRecv_boundary Kmat V houts q)
    have hring := ring_boundary Q Kmat V dO hg houts (fun q => congrArg Prod.snd (hout q)) p
    have hq : (kernels.recompute p).1 = recordsOf (Kmat p) (V p) (A p) := congrArg Prod.fst (hrec p)
    rw [hO, hH, hout p, hq]
    exact hrow p _ hring.1 hring.2 t

theorem fusedBackward_correct_two :
    let X : Fin 2 → Matrix (Fin (1 * 2)) (Fin 1) ℝ := ![!![1; 2], !![2; 3]]
    let A : Fin 2 → Matrix (Fin (1 * 2)) (Fin 1) ℝ := fun _ => of fun _ _ => 1 / 2
    let env₀ : Fin 2 → BackwardTensors 1 2 1 1 ℝ := fun _ =>
      ⟨⟨7, 7, of fun _ _ => 7⟩, 7, 7, 7,
        ⟨of fun _ _ => 7, of fun _ _ => 7, of fun _ _ => 7, of fun _ _ => 7, 7, 7⟩, 7, ⟨7, 7⟩,
        ⟨of fun _ _ => 7, of fun _ _ => 7, of fun _ _ => 7, 7, 7⟩⟩
    let reg₀ : Fin 2 → RingTiles 1 1 ℝ := fun _ => ⟨7, 7⟩
    let inflight : Fin 2 → BackwardTask → ℕ → Matrix (Fin 1) (Fin 1) ℝ := fun _ _ _ => 7
    let kernels := backwardKernels Real.exp Real.log 1 1 2 X X X X A env₀
    let program := backwardProgram kernels (gammas A) 1 env₀ reg₀ inflight
    let compute (p : Fin 2) (t : BackwardTask) : List (Event (Fin 2) BackwardTask) :=
      [.start p t, .act p t 0 .load, .act p t 0 .emit, .act p t 0 .reduce]
    let send (p : Fin 2) (t : BackwardTask) : List (Event (Fin 2) BackwardTask) :=
      [.start p t, .act p t 0 .load, .act p t 0 .emit, .act p t 0 .store, .act p t 0 .flush,
        .act p t 0 .notify, .act p t 0 .reduce]
    let receive (p : Fin 2) (t : BackwardTask) : List (Event (Fin 2) BackwardTask) :=
      [.act p t 0 .wait, .act p t 0 .load, .act p t 0 .emit, .act p t 0 .reduce]
    let es := compute 1 .recompute ++ .start 1 .forwardRing ::
      compute 0 .recompute ++ send 0 .forwardRing ++ .start 0 .reverseRing ::
      receive 1 .forwardRing ++ compute 1 .gradO ++ send 1 .reverseRing ++ compute 1 .gradH ++
      receive 0 .reverseRing ++ compute 0 .gradO ++ compute 0 .gradH
    ∃ s, program.Run es s ∧ program.Final s ∧ (s.env 1).grads.dA 0 0 = 153 / 4 := by
  intro X A env₀ reg₀ inflight kernels program compute send receive es
  obtain ⟨s, hrun, hfinal⟩ := program.exists_final es (by decide +kernel)
  refine ⟨s, hrun, hfinal, ?_⟩
  have hrow := ((fusedBackward_correct (one_dvd 1) (one_dvd 1) Nat.one_pos (dvd_refl 2) Nat.one_pos
    (one_dvd 1) X X X X A (fun _ _ _ => by norm_num [A]) env₀ reg₀ inflight).2 es s hrun).2
    hfinal 1 0
  rw [expectedGlaBackward_row] at hrow
  apply (congrFun (congrArg RowGrads.dA hrow) 0).trans
  norm_num [rowGradsAt, totalAt, adjointAt, stateAt, adjoint, adjointFrom, affine, gate, inflow,
    demand, stream, flattenSeq, token, Fin.divNat, Fin.modNat, X, A]

end ZeCo.Fused
