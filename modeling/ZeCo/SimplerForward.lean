import ZeCo.LogGates
import ZeCo.SequenceParallel
import ZeCo.SimplerKernels

namespace ZeCo.SimplerZeCo

open Matrix Buffer SimplerKernels Recurrence

variable {R : Type*} {P N C dk dv : ℕ}

section Host

variable [CommRing R] (exp log : R → R)

def sTotal (sSnap : Fin N → Matrix (Fin dk) (Fin dv) R) (gCs k : Matrix (Fin (N * C)) (Fin dk) R)
    (v : Matrix (Fin (N * C)) (Fin dv) R) : Matrix (Fin dk) (Fin dv) R :=
  if h : 0 < N then
    let last := lastIndex h
    let gCsLast := chunk gCs last
    let gTotal := lastRow gCsLast
    let kLast := chunk k last
    let vLast := chunk v last
    let kRest := kLast ⊙ (everyRow C gTotal - gCsLast).map exp
    rowScale (fun d => exp (gTotal d)) (sSnap last) + kRestᵀ * vLast
  else 0

def shiftSnaps (sSnap : Fin N → Matrix (Fin dk) (Fin dv) R) (A : Matrix (Fin (N * C)) (Fin dk) R)
    (sRecv : Matrix (Fin dk) (Fin dv) R) : Fin N → Matrix (Fin dk) (Fin dv) R :=
  let aCh : Matrix (Fin N) (Fin dk) R := of fun n d => ∏ t, chunk A n t d
  let c (n : Fin N) : Fin dk → R := if n.val = 0 then 1 else cumprod aCh ⟨n - 1, pred_lt n⟩
  fun n => sSnap n + rowScale (c n) sRecv

def gammas (A : Fin P → Matrix (Fin (N * C)) (Fin dk) R) : Decays P dk R := fun p d => ∏ t, A p t d

structure Stage1 (N C dk dv : ℕ) (R : Type*) where
  sSnap : Fin N → Matrix (Fin dk) (Fin dv) R
  gCs : Matrix (Fin (N * C)) (Fin dk) R
  sTotal : Matrix (Fin dk) (Fin dv) R

def stage1 (S : Buffer R) (K : Matrix (Fin (N * C)) (Fin dk) R)
    (V : Matrix (Fin (N * C)) (Fin dv) R) (A : Matrix (Fin (N * C)) (Fin dk) R) :
    Stage1 N C dk dv R :=
  let gLog := A.map log
  let gCs := load (N * C) dk (gateCumsumOrch C dk N (flat (tril C)) (flat gLog) fun _ => 0)
  let snaps := chunkHOrch exp C dk dv N (flat K) (flat V) (flat gCs) (fun _ => 0) S
  let sSnap (n : Fin N) := load dk dv (snaps.view (n * (dk * dv)))
  { sSnap, gCs, sTotal := sTotal exp sSnap gCs K V }

def stage2 (Q K : Matrix (Fin (N * C)) (Fin dk) R) (V : Matrix (Fin (N * C)) (Fin dv) R)
    (gCs : Matrix (Fin (N * C)) (Fin dk) R) (sShift : Fin N → Matrix (Fin dk) (Fin dv) R) :
    Matrix (Fin (N * C)) (Fin dv) R :=
  load (N * C) dv (chunkOOrch exp C dk dv N (flat Q) (flat K) (flat V) (flat gCs)
    (flat (flattenSeq sShift)) (flat (tril C)) fun _ => 0)

def forward (boundary : States P dk dv R → Decays P dk R → States P dk dv R) (S : Fin P → Buffer R)
    (Q K : Fin P → Matrix (Fin (N * C)) (Fin dk) R) (V : Fin P → Matrix (Fin (N * C)) (Fin dv) R)
    (A : Fin P → Matrix (Fin (N * C)) (Fin dk) R) : Fin P → Matrix (Fin (N * C)) (Fin dv) R :=
  let stages p := stage1 exp log (S p) (K p) (V p) (A p)
  let sRecvs : States P dk dv R :=
    if P = 1 then fun _ => 0 else sRecv (boundary (fun p => (stages p).sTotal) (gammas A))
  fun p =>
    let sShift := shiftSnaps (stages p).sSnap (A p) (sRecvs p)
    stage2 exp (Q p) (K p) (V p) (stages p).gCs sShift

end Host

section Gates

theorem prefix_eq_decay [Field R] (A : Matrix (Fin (N * C)) (Fin dk) R)
    (gam : Matrix (Fin N) (Fin dk) R) (hgam : ∀ n d, gam n d = decay (gate (chunk A n) d) 0 C)
    (n : Fin N) : (if n.val = 0 then (1 : Fin dk → R) else cumprod gam ⟨n - 1, pred_lt n⟩) =
      fun d => decay (gate A d) 0 (n * C) := by
  have key (m : ℕ) (hm : m ≤ N) (d : Fin dk) :
      decay (gate gam d) 0 m = decay (gate A d) 0 (m * C) := by
    induction m with
    | zero => rw [Nat.zero_mul, decay_zero, decay_zero]
    | succ m ih =>
      have hstep : gate gam d m = decay (gate (chunk A ⟨m, hm⟩) d) 0 C := by
        rw [gate, stream_of_lt gam hm]
        exact hgam ⟨m, hm⟩ d
      rw [decay_succ, ih (by omega), Nat.zero_add, hstep]
      exact (decay_chunk A ⟨m, hm⟩ d).symm
  split_ifs with h0
  · funext d
    rw [h0, Nat.zero_mul, decay_zero]
    rfl
  · funext d
    have hn : n.val - 1 + 1 = n := by omega
    exact (cumprod_eq_decay gam _ d).trans (by rw [hn, key n n.isLt.le d])

theorem shiftSnaps_apply [Field R] (sSnap : Fin N → Matrix (Fin dk) (Fin dv) R)
    (A : Matrix (Fin (N * C)) (Fin dk) R) (sRecv : Matrix (Fin dk) (Fin dv) R) (n : Fin N) :
    shiftSnaps sSnap A sRecv n =
      sSnap n + rowScale (fun d => decay (gate A d) 0 (n * C)) sRecv := by
  rw [← prefix_eq_decay A (of fun n d => ∏ t, chunk A n t d) fun n d => prod_eq_decay (chunk A n) d]
  rfl

end Gates

section LogDomain

variable {a : Matrix (Fin C) (Fin dk) ℝ}

variable {g : Matrix (Fin C) (Fin dk) ℝ} (hg : g.map Real.exp = cumprod a)
include hg

theorem exp_lastRow (hC : 0 < C) : (fun d => Real.exp (lastRow g d)) = lastRow (cumprod a) := by
  funext d
  rw [← hg, lastRow, lastRow, dif_pos hC, dif_pos hC, map_apply]

theorem exp_neg : (-g).map Real.exp = of fun t d => (cumprod a t d)⁻¹ := by
  ext t d
  rw [← hg, map_apply, neg_apply, Real.exp_neg]
  rfl

theorem exp_coeff (hC : 0 < C) : (everyRow C (lastRow g) - g).map Real.exp =
    quotient (everyRow C (lastRow (cumprod a))) (cumprod a) := by
  ext t d
  rw [map_apply, Matrix.sub_apply, everyRow_apply, Real.exp_sub, quotient_apply, everyRow_apply,
    ← exp_lastRow hg hC, ← hg, map_apply]

theorem kRest_eq (hC : 0 < C) (k : Matrix (Fin C) (Fin dk) ℝ) : kRest Real.exp k g =
    k ⊙ quotient (everyRow C (lastRow (cumprod a))) (cumprod a) := by
  rw [kRest, exp_coeff hg hC]

theorem keff_eq (k : Matrix (Fin C) (Fin dk) ℝ) :
    k ⊙ (-g).map Real.exp = quotient k (cumprod a) := by
  rw [exp_neg hg]
  ext t d
  rw [hadamard_apply, quotient_apply, of_apply, div_eq_mul_inv]

end LogDomain

section Rank

variable (Q K : Matrix (Fin (N * C)) (Fin dk) ℝ) (V : Matrix (Fin (N * C)) (Fin dv) ℝ)
  {A G : Matrix (Fin (N * C)) (Fin dk) ℝ}

structure Stage1Spec (A : Matrix (Fin (N * C)) (Fin dk) ℝ) (x : Stage1 N C dk dv ℝ) : Prop where
  sSnap : ∀ n : Fin N, x.sSnap n = stateAt K V A 0 (n * C)
  gCs : ∀ n, (chunk x.gCs n).map Real.exp = cumprod (chunk A n)
  sTotal : x.sTotal = stateAt K V A 0 (N * C)

variable (hA : ∀ t d, 0 < A t d)
include hA

theorem chunk_step (hC : 0 < C) (n : Fin N)
    (hg : (chunk G n).map Real.exp = cumprod (chunk A n)) : stateAt K V A 0 ((n + 1) * C) =
      rowScale (fun d => Real.exp (lastRow (chunk G n) d)) (stateAt K V A 0 (n * C)) +
        (kRest Real.exp (chunk K n) (chunk G n))ᵀ * chunk V n := by
  have hne : ∀ t d, chunk A n t d ≠ 0 := fun t d => (hA _ _).ne'
  rw [exp_lastRow hg hC, kRest_eq hg hC, chunk_state (chunk K n) (chunk V n) hne hC,
    stateAt_slice (chunk_slice K n) (chunk_slice V n) (chunk_slice A n) 0 le_rfl, Nat.add_mul,
    Nat.one_mul]

theorem stage1_spec (hN : 0 < N) (hC : 0 < C) (S : Buffer ℝ) :
    Stage1Spec K V A (stage1 Real.exp Real.log S K V A) := by
  have hg (n : Fin N) : (chunk (stage1 Real.exp Real.log S K V A).gCs n).map Real.exp =
      cumprod (chunk A n) := by
    apply (congrArg (fun g : Matrix (Fin C) (Fin dk) ℝ => g.map Real.exp)
      (chunk_gateCumsumOrch (tril C) (A.map Real.log) (fun _ => 0) n)).trans
    exact exp_tril_log fun t d => hA _ _
  have hsnap (n : Fin N) : (stage1 Real.exp Real.log S K V A).sSnap n = stateAt K V A 0 (n * C) :=
    chunkHOrch_spec hC (fun m => stateAt K V A 0 (m * C)) (by rw [Nat.zero_mul, stateAt_zero])
      (fun n => chunk_step K V hA hC n (hg n)) (fun _ => 0) S n
  constructor
  · exact hsnap
  · exact hg
  · have hlast := chunk_step K V hA hC (lastIndex hN) (hg _)
    have hN1 : (lastIndex hN).val + 1 = N := Nat.sub_add_cancel hN
    rw [← hsnap, hN1] at hlast
    rw [hlast]
    exact dif_pos hN

theorem stage2_row (hg : ∀ n, (chunk G n).map Real.exp = cumprod (chunk A n))
    (S : Matrix (Fin dk) (Fin dv) ℝ) {sShift : Fin N → Matrix (Fin dk) (Fin dv) ℝ}
    (hs : ∀ n : Fin N, sShift n = stateAt K V A S (n * C)) (l : Fin (N * C)) :
    stage2 Real.exp Q K V G sShift l = outputAt Q K V A S l := by
  have hv : l.divNat.val * C + l.modNat.val = l.val := congrArg Fin.val (token_divNat_modNat l)
  have hchunk : chunk (stage2 Real.exp Q K V G sShift) l.divNat l.modNat =
      outputAt (chunk Q l.divNat) (chunk K l.divNat) (chunk V l.divNat) (chunk A l.divNat)
        (stateAt K V A S (l.divNat * C)) l.modNat := by
    have hne : ∀ t d, chunk A l.divNat t d ≠ 0 := fun t d => (hA _ _).ne'
    rw [← chunk_output _ _ _ hne, ← hs]
    apply congrFun
    apply (chunk_chunkOOrch Q sShift (tril C) (fun _ => 0) l.divNat).trans
    rw [keff_eq (hg _), hg]
  rw [outputAt_slice (chunk_slice Q _) (chunk_slice K _) (chunk_slice V _) (chunk_slice A _) S
    l.modNat (by rw [hv]; exact l.isLt)] at hchunk
  simp only [hv] at hchunk
  exact (row_eq_chunk _ l).trans hchunk

end Rank

theorem gammas_apply (A : Fin P → Matrix (Fin (N * C)) (Fin dk) ℝ) (p : Fin P) :
    gammas A p = fun d => decay (gate (A p) d) 0 (N * C) := funext fun d => prod_eq_decay (A p) d

theorem forward_correct (S : Fin P → Buffer ℝ) (Q K : Fin P → Matrix (Fin (N * C)) (Fin dk) ℝ)
    (V : Fin P → Matrix (Fin (N * C)) (Fin dv) ℝ) (A : Fin P → Matrix (Fin (N * C)) (Fin dk) ℝ)
    (hA : ∀ p t d, 0 < A p t d) (p : Fin P) (t : Fin (N * C)) :
    forward Real.exp Real.log expectedAllscan S Q K V A p t =
      expectedGla (flattenSeq Q) (flattenSeq K) (flattenSeq V) (flattenSeq A) (token p t) := by
  have hN : 0 < N := Nat.pos_of_mul_pos_right t.pos
  have hC : 0 < C := Nat.pos_of_mul_pos_left t.pos
  have hstage (p : Fin P) := stage1_spec (K p) (V p) (hA p) hN hC (S p)
  have hrecv := recv_boundary K V
    (allscan_boundary K V A (fun p => (hstage p).sTotal) (gammas_apply A))
  have hshift (n : Fin N) : shiftSnaps (stage1 Real.exp Real.log (S p) (K p) (V p) (A p)).sSnap
      (A p) (boundaryState K V A p) n =
        stateAt (K p) (V p) (A p) (boundaryState K V A p) (n * C) := by
    rw [shiftSnaps_apply, (hstage p).sSnap, ← stateAt_eq_add]
  simp only [forward, hrecv]
  rw [stage2_row (Q p) (K p) (V p) (hA p) (hstage p).gCs (boundaryState K V A p) hshift,
    expectedGla_row]
  exact outputAt_slice (rank_slice Q p) (rank_slice K p) (rank_slice V p) (rank_slice A p) 0 t _

theorem forward_correct_four :
    let K : Fin 2 → Matrix (Fin (2 * 1)) (Fin 1) ℝ := ![!![8; 4], !![2; 1]]
    let V : Fin 2 → Matrix (Fin (2 * 1)) (Fin 2) ℝ := ![!![1, 0; 1, 2], !![1, 0; 1, 3]]
    forward Real.exp Real.log expectedAllscan (fun _ _ => 7) K K V (fun _ => of fun _ _ => 1 / 2)
      1 1 = ![4, 5] := by
  intro K V
  rw [forward_correct (fun _ _ => 7) K K V (fun _ => of fun _ _ => 1 / 2) (fun _ _ _ => by norm_num)
    1 1, expectedGla_row]
  funext e
  fin_cases e <;>
    norm_num [outputAt, stateAt, Recurrence.affine, gate, inflow, vecMul, dotProduct, stream,
      flattenSeq, token, Fin.divNat, Fin.modNat, K, V]

end ZeCo.SimplerZeCo
