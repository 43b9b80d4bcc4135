import ZeCo.FusedForward
import ZeCo.FusedForwardKernels
import ZeCo.SequenceParallel

namespace ZeCo.Fused

open Matrix Network Recurrence

variable {R : Type*} {P N C dk dv K : ℕ}

/-- The host's `A.prod` over the tokens of each rank. -/
def gammas [CommRing R] (A : Fin P → Matrix (Fin (N * C)) (Fin dk) R) : Decays P dk R :=
  fun p d => ∏ t, A p t d

abbrev ForwardTensors (N C dk dv : ℕ) (R : Type*) :=
  ForwardEnv dk dv R (Matrix (Fin (N * dk)) (Fin dv) R × Matrix (Fin (N * dk)) (Fin 1) R)
    (Matrix (Fin (N * C)) (Fin dv) R)

section Host

variable [Field R] (exp log : R → R) (nb nv nc : ℕ) (Q K : Fin P → Matrix (Fin (N * C)) (Fin dk) R)
  (V : Fin P → Matrix (Fin (N * C)) (Fin dv) R) (A : Fin P → Matrix (Fin (N * C)) (Fin dk) R)
  (env₀ : Fin P → ForwardTensors N C dk dv R)

def chipOrchStage1 (r : Fin P) :
    (Matrix (Fin (N * dk)) (Fin dv) R × Matrix (Fin (N * dk)) (Fin 1) R) ×
      Matrix (Fin dk) (Fin dv) R :=
  let x₀ := ⟨(env₀ r).snaps.1, (env₀ r).snaps.2, (env₀ r).sLocal⟩
  let x := glaStage1 exp log nb nv nc (A r) (K r) (V r) (tril C) 0 x₀
  ((x.snaps, x.decays), x.tot)

def chipOrchStage2 (r : Fin P) (boundary : Matrix (Fin dk) (Fin dv) R)
    (snaps : Matrix (Fin (N * dk)) (Fin dv) R × Matrix (Fin (N * dk)) (Fin 1) R) :
    Matrix (Fin (N * C)) (Fin dv) R :=
  glaStage2 exp log nb nv nc (Q r) (K r) (V r) (A r) (tril C) boundary snaps.1 snaps.2 0 (env₀ r).o

def forwardP1 (r : Fin P) : Matrix (Fin (N * C)) (Fin dv) R :=
  let st1 := chipOrchStage1 exp log nb nv nc K V A env₀ r
  chipOrchStage2 exp log nb nv nc Q K V A env₀ r 0 st1.1

end Host

section Ranks

variable {nb nv nc : ℕ} (hnb : nb ∣ dk) (hnv : nv ∣ dv) (hnc : nc ∣ C)
  (Q K : Fin P → Matrix (Fin (N * C)) (Fin dk) ℝ) (V : Fin P → Matrix (Fin (N * C)) (Fin dv) ℝ)
  {A : Fin P → Matrix (Fin (N * C)) (Fin dk) ℝ} (env₀ : Fin P → ForwardTensors N C dk dv ℝ)
  (hA : ∀ p t d, 0 < A p t d)
include hnb hnv hnc hA

theorem chipOrchStage1_eq (hpos : 0 < nv) (p : Fin P) :
    chipOrchStage1 Real.exp Real.log nb nv nc K V A env₀ p =
      (((stage1Of (K p) (V p) (A p)).snaps, (stage1Of (K p) (V p) (A p)).decays),
        stateAt (K p) (V p) (A p) 0 (N * C)) := by
  simp only [chipOrchStage1]
  rw [glaStage1_eq (K p) (V p) (hA p) hnb hnv hpos hnc]
  rfl

theorem chipOrch_row (hpos : 0 < nv) {boundary : Matrix (Fin dk) (Fin dv) ℝ} (p : Fin P)
    (hb : boundary = boundaryState K V A p) (t : Fin (N * C)) :
    chipOrchStage2 Real.exp Real.log nb nv nc Q K V A env₀ p boundary
      (chipOrchStage1 Real.exp Real.log nb nv nc K V A env₀ p).1 t =
        expectedGla (flattenSeq Q) (flattenSeq K) (flattenSeq V) (flattenSeq A) (token p t) := by
  rw [chipOrchStage1_eq hnb hnv hnc K V env₀ hA hpos, chipOrchStage2,
    glaStage2_eq (Q p) (K p) (V p) boundary (hA p) hnb hnv hnc, hb, expectedGla_row]
  exact outputAt_slice (rank_slice Q p) (rank_slice K p) (rank_slice V p) (rank_slice A p) 0 t _

end Ranks

theorem fusedForward_correct {nb nv nc : ℕ} (hnb : nb ∣ dk) (hnv : nv ∣ dv) (hnc : nc ∣ C)
    (hK : 0 < K) (hKdk : K ∣ dk) (Q Kmat : Fin P → Matrix (Fin (N * C)) (Fin dk) ℝ)
    (V : Fin P → Matrix (Fin (N * C)) (Fin dv) ℝ) (A : Fin P → Matrix (Fin (N * C)) (Fin dk) ℝ)
    (hA : ∀ p t d, 0 < A p t d) (env₀ : Fin P → ForwardTensors N C dk dv ℝ)
    (reg₀ : Fin P → RingTiles (dk / K) dv ℝ)
    (inflight : Fin P → ForwardTask → ℕ → Matrix (Fin (dk / K)) (Fin dv) ℝ) :
    let stage1 := chipOrchStage1 Real.exp Real.log nb nv nc Kmat V A env₀
    let stage2 := chipOrchStage2 Real.exp Real.log nb nv nc Q Kmat V A env₀
    let program := forwardProgram stage1 stage2 (gammas A) K env₀ reg₀ inflight
    let expected := expectedGla (flattenSeq Q) (flattenSeq Kmat) (flattenSeq V) (flattenSeq A)
    (P = 1 → ∀ p t, forwardP1 Real.exp Real.log nb nv nc Q Kmat V A env₀ p t =
      expected (token p t)) ∧
    ∀ es s, program.Run es s → (Runs.Stuck program.step s → program.Final s) ∧
      (program.Final s → ∀ p t, (s.env p).o t = expected (token p t)) := by
  intro stage1 stage2 program expected
  have hring := forwardProgram_correct stage1 stage2 (gammas A) env₀ reg₀ inflight hK hKdk
  rcases Nat.eq_zero_or_pos dv with rfl | hdv
  · exact ⟨fun _ _ _ => Subsingleton.elim _ _, fun es s hrun => ⟨(hring es s hrun).1,
      fun _ _ _ => Subsingleton.elim _ _⟩⟩
  have hpos := Nat.pos_of_dvd_of_pos hnv hdv
  constructor
  · intro hP p t
    apply chipOrch_row hnb hnv hnc Q Kmat V env₀ hA hpos p
    have h0 : p.val = 0 := by omega
    rw [h0, boundaryState, Nat.zero_mul, stateAt_zero]
  · refine fun es s hrun => ⟨(hring es s hrun).1, fun hfinal p t => ?_⟩
    rw [(hring es s hrun).2 hfinal p]
    apply chipOrch_row hnb hnv hnc Q Kmat V env₀ hA hpos p
    apply sRecv_boundary Kmat V
    apply allscan_boundary Kmat V A
    · exact fun q => congrArg Prod.snd (chipOrchStage1_eq hnb hnv hnc Kmat V env₀ hA hpos q)
    · exact fun q => funext fun d => prod_eq_decay (A q) d

theorem fusedForward_correct_two :
    let K : Fin 2 → Matrix (Fin (1 * 2)) (Fin 1) ℝ := ![!![8; 4], !![2; 1]]
    let V : Fin 2 → Matrix (Fin (1 * 2)) (Fin 2) ℝ := ![!![1, 0; 1, 2], !![1, 0; 1, 3]]
    let A : Fin 2 → Matrix (Fin (1 * 2)) (Fin 1) ℝ := fun _ => of fun _ _ => 1 / 2
    let env₀ : Fin 2 → ForwardTensors 1 2 1 2 ℝ := fun _ =>
      ⟨(of fun _ _ => 7, of fun _ _ => 7), of fun _ _ => 7, of fun _ _ => 7, of fun _ _ => 7,
        of fun _ _ => 7⟩
    let reg₀ : Fin 2 → RingTiles 1 2 ℝ := fun _ => ⟨of fun _ _ => 7, of fun _ _ => 7⟩
    let inflight : Fin 2 → ForwardTask → ℕ → Matrix (Fin 1) (Fin 2) ℝ := fun _ _ _ =>
      of fun _ _ => 7
    let stage1 := chipOrchStage1 Real.exp Real.log 1 2 2 K V A env₀
    let stage2 := chipOrchStage2 Real.exp Real.log 1 2 2 K K V A env₀
    let program := forwardProgram stage1 stage2 (gammas A) 1 env₀ reg₀ inflight
    let compute (p : Fin 2) (t : ForwardTask) : List (Event (Fin 2) ForwardTask) :=
      [.start p t, .act p t 0 .load, .act p t 0 .emit, .act p t 0 .reduce]
    let es := compute 1 .stage1 ++ .start 1 .ring :: compute 0 .stage1 ++ compute 0 .stage2 ++
      [.start 0 .ring, .act 0 .ring 0 .load, .act 0 .ring 0 .emit, .act 0 .ring 0 .store,
        .act 0 .ring 0 .flush, .act 0 .ring 0 .notify, .act 0 .ring 0 .reduce, .act 1 .ring 0 .wait,
        .act 1 .ring 0 .load, .act 1 .ring 0 .emit, .act 1 .ring 0 .reduce] ++ compute 1 .stage2
    ∃ s, program.Run es s ∧ program.Final s ∧ (s.env 1).o 1 = ![4, 5] := by
  intro K V A env₀ reg₀ inflight stage1 stage2 program compute es
  obtain ⟨s, hrun, hfinal⟩ := program.exists_final es (by decide +kernel)
  refine ⟨s, hrun, hfinal, ?_⟩
  have hout := ((fusedForward_correct (one_dvd 1) (dvd_refl 2) (dvd_refl 2) Nat.one_pos (one_dvd 1)
    K K V A (fun _ _ _ => by norm_num [A]) env₀ reg₀ inflight).2 es s hrun).2
    hfinal 1 1
  rw [hout, expectedGla_row]
  funext e
  fin_cases e <;>
    norm_num [outputAt, stateAt, Recurrence.affine, gate, inflow, vecMul, dotProduct, stream,
      flattenSeq, token, Fin.divNat, Fin.modNat, K, V, A]

end ZeCo.Fused
