import ZeCo.SimplerPipeline

namespace ZeCo.SimplerZeCo

open Matrix Buffer SimplerKernels Recurrence

variable {R : Type*} {P N C dk dv : ℕ}

/-- `S p` is what the state buffer of rank `p` holds at first. -/
def backward [Field R] (exp log : R → R)
    (boundary : States P dk dv R → Decays P dk R → States P dk dv R)
    (boundaryBackward : States P dk dv R → Decays P dk R → States P dk dv R →
      States P dk dv R × Decays P dk R) (S : Fin P → Buffer R)
    (Q K : Fin P → Matrix (Fin (N * C)) (Fin dk) R) (V : Fin P → Matrix (Fin (N * C)) (Fin dv) R)
    (A : Fin P → Matrix (Fin (N * C)) (Fin dk) R) (dO : Fin P → Matrix (Fin (N * C)) (Fin dv) R) :
    Fin P → Grads (N * C) dk dv R :=
  backwardOn exp log (fun p => deviceRunner exp (S p)) boundary boundaryBackward Q K V A dO

section Rank

variable (Q K : Matrix (Fin (N * C)) (Fin dk) ℝ) (V : Matrix (Fin (N * C)) (Fin dv) ℝ)
  {A : Matrix (Fin (N * C)) (Fin dk) ℝ} (dO : Matrix (Fin (N * C)) (Fin dv) ℝ)
  (sRecv dSTotal : Matrix (Fin dk) (Fin dv) ℝ) (dgamma : Fin dk → ℝ) {st : Stage1 N C dk dv ℝ}

structure OutputStageSpec (A : Matrix (Fin (N * C)) (Fin dk) ℝ) (x : OutputStage N C dk dv ℝ) :
    Prop where
  dq : ∀ n, chunk x.dq n = (gradOAt Q K V dO sRecv A n).dQ
  dkO : ∀ n, chunk x.dkO n = (gradOAt Q K V dO sRecv A n).dK
  dgcs : ∀ n, chunk x.dgcs n = (gradOAt Q K V dO sRecv A n).db ⊙ cumprod (chunk A n)
  dvOut : ∀ n, chunk x.dvOut n = (gradOAt Q K V dO sRecv A n).dV
  dH : ∀ n, x.dH n = (gradOAt Q K V dO sRecv A n).dSPrev
  dcprev : ∀ n, x.dcprev n = (gradOAt Q K V dO sRecv A n).dCPrev
  dSRecv : x.dSRecv = adjointAt Q A dO 0 0

structure ChunkRecurrenceSpec (A : Matrix (Fin (N * C)) (Fin dk) ℝ) (m : ℕ)
    (x : ChunkRecurrence N dk dv ℝ) : Prop where
  curS : m ≠ 0 → x.curS = adjointAt Q A dO dSTotal (m * C)
  curC : m ≠ 0 → x.curC = decayAdjointAt Q dO sRecv dSTotal dgamma A (m * C)
  dSloc : ∀ n : Fin N, m ≤ n.val → x.dSloc n = adjointAt Q A dO dSTotal ((n + 1) * C)
  dcvec : ∀ n : Fin N, m ≤ n.val →
    x.dcvec n = decayAdjointAt Q dO sRecv dSTotal dgamma A ((n + 1) * C)

variable (hst : Stage1Spec K V A st)
include hst

theorem chunkGammas_apply (hC : 0 < C) (n : Fin N) :
    chunkGammas Real.exp st.gCs n = lastRow (cumprod (chunk A n)) := exp_lastRow (hst.gCs n) hC

theorem chunkPrefix_apply (hC : 0 < C) (n : Fin N) :
    chunkPrefix (chunkGammas Real.exp st.gCs) n = fun d => decay (gate A d) 0 (n * C) := by
  apply prefix_eq_decay A
  intro n d
  rw [of_apply, chunkGammas_apply K V hst hC, lastRow_cumprod (chunk A n) hC]

theorem shiftSnaps_state (n : Fin N) : shiftSnaps st.sSnap A sRecv n =
    stateAt K V A 0 (n * C) + rowScale (fun d => decay (gate A d) 0 (n * C)) sRecv := by
  rw [shiftSnaps_apply, hst.sSnap]

variable (hA : ∀ t d, 0 < A t d)
include hA

theorem outputStage_spec (S : Buffer ℝ) : OutputStageSpec Q K V dO sRecv A
    (outputStage Real.exp (deviceRunner Real.exp S) Q K V A dO st
      (fun n d => decay (gate A d) 0 (n * C)) sRecv) := by
  set x := outputStage Real.exp (deviceRunner Real.exp S) Q K V A dO st
    (fun n d => decay (gate A d) 0 (n * C)) sRecv with hx
  have hg (n : Fin N) := gradOOrch_tiles Real.exp (K := K) (G := st.gCs) (V := V) Q
    (shiftSnaps st.sSnap A sRecv) dO (tril C) ⟨fun _ => 0, fun _ => 0, fun _ => 0, fun _ => 0⟩ n
  simp only [keff_eq (hst.gCs _), hst.gCs, shiftSnaps_state K V sRecv hst] at hg
  have hdq (n : Fin N) : chunk x.dq n = (gradOAt Q K V dO sRecv A n).dQ := by
    apply Eq.trans _ (congrArg (fun X => X ⊙ cumprod (chunk A n)) (hg n).dQt)
    rw [← hst.gCs]
    rfl
  have hdk (n : Fin N) : chunk x.dkO n = (gradOAt Q K V dO sRecv A n).dK := by
    apply Eq.trans _ (congrArg (fun X => quotient X (cumprod (chunk A n))) (hg n).dKin)
    rw [← keff_eq (hst.gCs n)]
    rfl
  have hdH (n : Fin N) : x.dH n = (gradOAt Q K V dO sRecv A n).dSPrev := (hg n).dH
  have hsums := Loop.up_invariant
    (f := fun n (s : (Fin N → Fin dk → ℝ) × Matrix (Fin dk) (Fin dv) ℝ) =>
      (Function.update s.1 n (rowSum (x.dH n ⊙ sRecv)),
        s.2 + rowScale (fun d => decay (gate A d) 0 (n * C)) (x.dH n)))
    (s := (fun _ => 0, 0))
    (fun m s => (∀ i : Fin N, i.val < m → s.1 i = rowSum (x.dH i ⊙ sRecv)) ∧ ∀ d e, s.2 d e =
      ∑ j ∈ Finset.range (m * C), decay (gate A d) 0 (j + 1) * demand Q dO d e j) ?_ ?_
  · constructor
    · exact hdq
    · exact hdk
    · intro n
      have hlog := chunkGradO_db_log (chunk Q n) (chunk K n) (chunk V n) (chunk dO n)
        (stateAt K V A 0 (n * C)) sRecv (fun d => decay (gate A d) 0 (n * C))
        (chunk_ne_zero (fun t d => (hA t d).ne') n)
      apply Eq.trans _ hlog.symm
      apply congrArg₂ (fun X Y => X ⊙ chunk Q n - Y ⊙ chunk K n) (hdq n) (hdk n)
    · intro n
      exact (hg n).dVi
    · exact hdH
    · intro n
      exact (hsums.1 n n.isLt).trans (by rw [hdH]; rfl)
    · ext d e
      apply (hsums.2 d e).trans
      rw [adjointAt_apply, adjoint_zero_eq_sum, Matrix.zero_apply, mul_zero, add_zero]
  · constructor
    · exact fun i hi => absurd hi (Nat.not_lt_zero _)
    · simp
  · rintro n ⟨dcp, acc⟩ ⟨ihc, iha⟩
    constructor
    · exact Loop.written_slot (fun i => rowSum (x.dH i ⊙ sRecv)) ihc
    · intro d e
      have hd := gradOAt_dSRecv Q K V dO sRecv A n d e
      rw [Nat.add_mul, Nat.one_mul, Finset.sum_range_add, ← iha, ← hd, hdH]
      rfl

omit hst hA in
theorem chunkRecurrence_spec (hC : 0 < C) {gam dcprev : Fin N → Fin dk → ℝ}
    {dH : Fin N → Matrix (Fin dk) (Fin dv) ℝ}
    (hgam : ∀ n, gam n = lastRow (cumprod (chunk A n)))
    (hdH : ∀ n, dH n = (gradOAt Q K V dO sRecv A n).dSPrev)
    (hdc : ∀ n, dcprev n = (gradOAt Q K V dO sRecv A n).dCPrev) :
    ChunkRecurrenceSpec Q dO sRecv dSTotal dgamma A 0
      (chunkRecurrence gam dH dcprev dSTotal dgamma) := by
  unfold chunkRecurrence
  apply Loop.down_invariant (ChunkRecurrenceSpec Q dO sRecv dSTotal dgamma A)
  · constructor
    case curS => exact fun _ => (adjointAt_last Q A dO dSTotal).symm
    case curC =>
      intro _
      funext d
      simp [decayAdjointAt, decayExcess]
    all_goals exact fun i hi => absurd i.isLt (Nat.not_lt.mpr hi)
  · intro n x ih
    have hS := ih.curS (Nat.succ_ne_zero _)
    have hc := ih.curC (Nat.succ_ne_zero _)
    have later (i : Fin N) (h : i ≠ n) (hi : n.val ≤ i) : n.val + 1 ≤ i := by
      have : i.val ≠ n := fun he => h (Fin.ext he)
      omega
    constructor
    case curS =>
      intro hn
      dsimp only
      rw [if_pos (Nat.pos_of_ne_zero hn), hS, hgam, hdH]
      exact adjointAt_chunk_start Q K V dO sRecv dSTotal A hC n
    case curC =>
      intro hn
      dsimp only
      rw [if_pos (Nat.pos_of_ne_zero hn), hc, hgam, hdc, mul_comm]
      exact decayAdjointAt_chunk Q K V dO sRecv dSTotal dgamma A hC n
    case dSloc =>
      intro i hi
      by_cases h : i = n
      · subst h
        exact (Function.update_self _ _ _).trans hS
      · exact (Function.update_of_ne h _ _).trans (ih.dSloc i (later i h hi))
    case dcvec =>
      intro i hi
      by_cases h : i = n
      · subst h
        exact (Function.update_self _ _ _).trans hc
      · exact (Function.update_of_ne h _ _).trans (ih.dcvec i (later i h hi))

theorem gateStage_spec (hC : 0 < C) {x : ChunkRecurrence N dk dv ℝ}
    (hx : ChunkRecurrenceSpec Q dO sRecv dSTotal dgamma A 0 x)
    {dKstate dgcs : Matrix (Fin (N * C)) (Fin dk) ℝ}
    (hdK : ∀ n, chunk dKstate n = chunk V n * (x.dSloc n)ᵀ)
    (hdg : ∀ n, chunk dgcs n = (gradOAt Q K V dO sRecv A n).db ⊙ cumprod (chunk A n)) (n : Fin N) :
    let gam (n : Fin N) := lastRow (cumprod (chunk A n))
    let y := gateStage Real.exp K st gam (fun n d => decay (gate A d) 0 (n * C)) x dKstate dgcs
    chunk y.1 n = (gradHAt Q K V dO sRecv dSTotal dgamma A n).dK ∧
      chunk y.2 n = (gradHAt Q K V dO sRecv dSTotal dgamma A n).db ⊙ cumprod (chunk A n) := by
  intro gam y
  have hk (n : Fin N) : chunk dKstate n ⊙ (everyRow C (lastRow (chunk st.gCs n)) -
      chunk st.gCs n).map Real.exp = (gradHAt Q K V dO sRecv dSTotal dgamma A n).dK := by
    rw [exp_coeff (hst.gCs n) hC, hdK, hx.dSloc n (Nat.zero_le _)]
    rfl
  have hlog (n : Fin N) := chunkGradH_db_log (chunk Q n) (chunk K n) (chunk V n)
    (stateAt K V A 0 (n * C)) (adjointAt Q A dO dSTotal ((n + 1) * C))
    (fun d => decay (gate A d) 0 (n * C))
    (decayAdjointAt Q dO sRecv dSTotal dgamma A ((n + 1) * C))
    (chunk_ne_zero (fun t d => (hA t d).ne') n) hC (gradOAt Q K V dO sRecv A n).db
  have key := Loop.up_invariant (s := (0, dgcs))
    (f := fun n (y : Matrix (Fin (N * C)) (Fin dk) ℝ × Matrix (Fin (N * C)) (Fin dk) ℝ) =>
      let gtot := lastRow (chunk st.gCs n)
      let dkh := chunk dKstate n ⊙ (everyRow C gtot - chunk st.gCs n).map Real.exp
      let dgcs := addChunk y.2 n ((-dkh) ⊙ chunk K n)
      let dgammaState := rowSum (x.dSloc n ⊙ st.sSnap n)
      let dgammaC := x.dcvec n * fun d => decay (gate A d) 0 (n * C)
      let dgammas := (dgammaState + dgammaC) * gam n + colSum (dkh ⊙ chunk K n)
      (setChunk y.1 n dkh, setChunk dgcs n (addLastRow (chunk dgcs n) dgammas)))
    (fun m y => (∀ i : Fin N, i.val < m →
        chunk y.1 i = (gradHAt Q K V dO sRecv dSTotal dgamma A i).dK) ∧
      ∀ i : Fin N, chunk y.2 i = if i.val < m then
        (gradHAt Q K V dO sRecv dSTotal dgamma A i).db ⊙ cumprod (chunk A i) else
          chunk dgcs i) ?_ ?_
  · exact ⟨key.1 n n.isLt, (key.2 n).trans (if_pos n.isLt)⟩
  · exact ⟨fun i hi => absurd hi (Nat.not_lt_zero _), fun i => (if_neg (Nat.not_lt_zero _)).symm⟩
  · rintro n ⟨dkH, acc⟩ ⟨ihk, ihg⟩
    constructor
    · dsimp only
      rw [hk]
      exact written_chunk _ ihk
    · intro i
      by_cases h : i = n
      · subst h
        rw [if_pos (Nat.lt_succ_self _)]
        apply Eq.trans _ (hlog i).symm
        simp only [setChunk_self, addChunk_self, hk, hx.dSloc i (Nat.zero_le _),
          hx.dcvec i (Nat.zero_le _), hst.sSnap]
        rw [ihg, if_neg (Nat.lt_irrefl _), hdg]
        rfl
      · have hv : i.val ≠ n := fun he => h (Fin.ext he)
        dsimp only
        rw [setChunk_ne _ h, addChunk_ne _ h]
        exact (ihg i).trans (if_congr (by omega) rfl rfl)

theorem stateStage_spec (hC : 0 < C) (S : Buffer ℝ) {x : OutputStage N C dk dv ℝ}
    (hx : OutputStageSpec Q K V dO sRecv A x) :
    ChunkGrads Q K V dO sRecv dSTotal dgamma A (stateStage Real.exp (deviceRunner Real.exp S) K V A
      st (fun n => lastRow (cumprod (chunk A n))) (fun n d => decay (gate A d) 0 (n * C)) x dSTotal
      dgamma { dQ := x.dq, dK := 0, dV := x.dvOut, dA := 0 }) := by
  set chain := chunkRecurrence (fun n => lastRow (cumprod (chunk A n))) x.dH x.dcprev dSTotal dgamma
  have hchain : ChunkRecurrenceSpec Q dO sRecv dSTotal dgamma A 0 chain :=
    chunkRecurrence_spec Q K V dO sRecv dSTotal dgamma hC (fun _ => rfl) hx.dH hx.dcprev
  have hg (n : Fin N) := gradHOrch_tiles Real.exp (K := K) (G := st.gCs) (V := V)
    chain.dSloc hC ⟨fun _ => 0, fun _ => 0⟩ n
  have hgate (n : Fin N) := gateStage_spec Q K V dO sRecv dSTotal dgamma hst hA hC hchain
    (fun n => (hg n).dKstate) hx.dgcs n
  constructor
  · exact hx.dq
  · intro n
    exact congrArg₂ (fun X Y => X + Y) (hx.dkO n) (hgate n).1
  · intro n
    have hv := (hg n).dVs
    rw [kRest_eq (hst.gCs n) hC, hchain.dSloc n (Nat.zero_le _)] at hv
    exact congrArg₂ (fun X Y => X + Y) (hx.dvOut n) hv
  · intro n
    have hdP := chunk_gateCumsumOrch (triu C) (gateStage Real.exp K st
      (fun n => lastRow (cumprod (chunk A n))) (fun n d => decay (gate A d) 0 (n * C)) chain
      (load (N * C) dk (gradHOrch Real.exp C dk dv N (flat K) (flat V) (flat st.gCs)
        (flat (flattenSeq chain.dSloc)) ⟨fun _ => 0, fun _ => 0⟩).dKstate) x.dgcs).2 (fun _ => 0) n
    rw [triu_mul, (hgate n).2] at hdP
    exact congrArg (fun X => quotient X (chunk A n)) hdP

end Rank

theorem backward_correct (S : Fin P → Buffer ℝ) (Q K : Fin P → Matrix (Fin (N * C)) (Fin dk) ℝ)
    (V : Fin P → Matrix (Fin (N * C)) (Fin dv) ℝ) (A : Fin P → Matrix (Fin (N * C)) (Fin dk) ℝ)
    (dO : Fin P → Matrix (Fin (N * C)) (Fin dv) ℝ) (hA : ∀ p t d, 0 < A p t d) (p : Fin P)
    (t : Fin (N * C)) :
    (backward Real.exp Real.log expectedAllscan
      (fun gOuts gammas outs => expectedAllscanBackward gammas outs gOuts) S Q K V A dO p).row t =
      (expectedGlaBackward (flattenSeq Q) (flattenSeq K) (flattenSeq V) (flattenSeq A)
        (flattenSeq dO)).row (token p t) := by
  have hN : 0 < N := Nat.pos_of_mul_pos_right t.pos
  have hC : 0 < C := Nat.pos_of_mul_pos_left t.pos
  have hne : ∀ p t d, A p t d ≠ 0 := fun p t d => (hA p t d).ne'
  have hstage (p : Fin P) : Stage1Spec (K p) (V p) (A p)
      ((deviceRunner Real.exp (S p)).stage1 Real.exp Real.log (K p) (V p) (A p)) :=
    stage1_spec (K p) (V p) (hA p) hN hC (S p)
  have hgam (p : Fin P) : chunkGammas Real.exp
      ((deviceRunner Real.exp (S p)).stage1 Real.exp Real.log (K p) (V p) (A p)).gCs =
        fun n => lastRow (cumprod (chunk (A p) n)) :=
    funext fun n => chunkGammas_apply (K p) (V p) (hstage p) hC n
  have hpre (p : Fin P) : chunkPrefix (fun n => lastRow (cumprod (chunk (A p) n))) =
      fun (n : Fin N) d => decay (gate (A p) d) 0 (n * C) := by
    rw [← hgam]
    exact funext fun n => chunkPrefix_apply (K p) (V p) (hstage p) hC n
  have houts := allscan_boundary K V A (fun p => (hstage p).sTotal) (gammas_apply A)
  have hrecv := recv_boundary K V houts
  have hx (p : Fin P) := outputStage_spec (Q p) (K p) (V p) (dO p) (boundaryState K V A p)
    (hstage p) (hA p) (S p)
  have hgrads := grads_boundary Q K V dO (gammas_apply A) houts (fun p => (hx p).dSRecv) p
  rw [backward, backwardOn_apply]
  simp only [hgam, hpre, hrecv]
  rw [hgrads.1, hgrads.2]
  exact row_of_rankGrads Q K V dO hne p (stateStage_spec (Q p) (K p) (V p) (dO p) _ _ _ (hstage p)
    (hA p) hC (S p) (hx p)) rfl t

theorem backward_correct_two :
    let X : Fin 2 → Matrix (Fin (1 * 1)) (Fin 1) ℝ := ![!![1], !![2]]
    (backward Real.exp Real.log expectedAllscan
      (fun gOuts gammas outs => expectedAllscanBackward gammas outs gOuts) (fun _ _ => 7) X X X
      (fun _ => of fun _ _ => 1 / 2) X 1).dA 0 0 = 4 := by
  intro X
  have h := backward_correct (fun _ _ => 7) X X X (fun _ => of fun _ _ => 1 / 2) X
    (fun _ _ _ => by norm_num) 1 0
  rw [expectedGlaBackward_row] at h
  apply (congrFun (congrArg RowGrads.dA h) 0).trans
  norm_num [rowGradsAt, totalAt, adjointAt, stateAt, adjoint, adjointFrom, affine, gate, inflow,
    demand, stream, flattenSeq, token, Fin.divNat, Fin.modNat, X]

end ZeCo.SimplerZeCo
