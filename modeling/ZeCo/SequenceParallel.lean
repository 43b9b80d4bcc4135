import ZeCo.GlaBackward

namespace ZeCo

open Matrix Recurrence

variable {R : Type*} [Field R] {P N C T T' dk dv : ℕ}

theorem expectedGla_cast {Q K A : Matrix (Fin T) (Fin dk) R} {V : Matrix (Fin T) (Fin dv) R}
    {Q' K' A' : Matrix (Fin T') (Fin dk) R} {V' : Matrix (Fin T') (Fin dv) R} (h : T' = T)
    (hQ : ∀ t, Q' t = Q (t.cast h)) (hK : ∀ t, K' t = K (t.cast h)) (hV : ∀ t, V' t = V (t.cast h))
    (hA : ∀ t, A' t = A (t.cast h)) (t : Fin T') :
    expectedGla Q' K' V' A' t = expectedGla Q K V A (t.cast h) := by
  subst h
  obtain rfl : Q' = Q := funext hQ
  obtain rfl : K' = K := funext hK
  obtain rfl : V' = V := funext hV
  obtain rfl : A' = A := funext hA
  rfl

section Ranks

variable (Q K : Fin P → Matrix (Fin (N * C)) (Fin dk) R)
  (V : Fin P → Matrix (Fin (N * C)) (Fin dv) R) {A : Fin P → Matrix (Fin (N * C)) (Fin dk) R}

def boundaryState (A : Fin P → Matrix (Fin (N * C)) (Fin dk) R) (p : ℕ) :
    Matrix (Fin dk) (Fin dv) R :=
  stateAt (flattenSeq K) (flattenSeq V) (flattenSeq A) 0 (p * (N * C))

theorem boundaryState_succ (A : Fin P → Matrix (Fin (N * C)) (Fin dk) R) (p : Fin P) :
    boundaryState K V A (p + 1) = stateAt (K p) (V p) (A p) (boundaryState K V A p) (N * C) := by
  rw [boundaryState, boundaryState,
    stateAt_slice (rank_slice K p) (rank_slice V p) (rank_slice A p) 0
    le_rfl, Nat.add_mul, Nat.one_mul]

theorem allscan_boundary (A : Fin P → Matrix (Fin (N * C)) (Fin dk) R) {sLocals : States P dk dv R}
    {gammas : Decays P dk R} (hs : ∀ p, sLocals p = stateAt (K p) (V p) (A p) 0 (N * C))
    (hg : ∀ p, gammas p = fun d => decay (gate (A p) d) 0 (N * C)) (p : Fin P) :
    expectedAllscan sLocals gammas p = boundaryState K V A (p + 1) := by
  refine (congrFun (eq_expectedAllscan sLocals gammas (S := fun p => boundaryState K V A (p + 1))
    fun p => ?_) p).symm
  have hrecv : sRecv (fun p : Fin P => boundaryState K V A (p + 1)) p = boundaryState K V A p := by
    rw [sRecv]
    split_ifs with h0
    · rw [h0, boundaryState, Nat.zero_mul, stateAt_zero]
    · congr 1
      change p.val - 1 + 1 = p.val
      omega
  rw [ScansTo, hrecv, hs, hg, ← stateAt_eq_add, boundaryState_succ]

theorem sRecv_boundary {outs : States P dk dv R}
    (h : ∀ p, outs p = boundaryState K V A (p + 1)) (p : Fin P) :
    sRecv outs p = boundaryState K V A p := by
  rw [sRecv]
  split_ifs with h0
  · rw [h0, boundaryState, Nat.zero_mul, stateAt_zero]
  · rw [h]
    congr 1
    change p.val - 1 + 1 = p.val
    omega

theorem recv_boundary {outs : States P dk dv R} (h : ∀ p, outs p = boundaryState K V A (p + 1)) :
    (if P = 1 then fun _ => 0 else sRecv outs : States P dk dv R) =
      fun p : Fin P => boundaryState K V A p := by
  funext p
  split_ifs with hP
  · have h0 : p.val = 0 := by omega
    rw [h0, boundaryState, Nat.zero_mul, stateAt_zero]
  · exact sRecv_boundary K V h p

variable (hA : ∀ p t d, A p t d ≠ 0)
include hA

theorem forward_row (p : Fin P) (l : Fin (N * C)) :
    TorchZeCo.forward Q K V A p l =
      expectedGla (flattenSeq Q) (flattenSeq K) (flattenSeq V) (flattenSeq A) (token p l) := by
  have hC : 0 < C := Nat.pos_of_mul_pos_left l.pos
  have hscan (p : Fin P) := glaChunkScan_spec (Q p) (K p) (V p) (hA p) hC
  have houts (p : Fin P) : TorchAllscan.run (fun p => (glaChunkScan (Q p) (K p) (V p) (A p)).sTotal)
      (fun p => (glaChunkScan (Q p) (K p) (V p) (A p)).gTotal) 1 (fun _ => 0) p =
      boundaryState K V A (p + 1) := by
    rw [TorchAllscan.run_of_dvd _ _ (one_dvd _)]
    exact allscan_boundary K V A (fun p => (hscan p).sTotal) (fun p => (hscan p).gTotal) p
  apply (glaReconstruct_row (Q p) (K p) (V p) (hA p) hC _ l).trans
  rw [sRecv_boundary K V houts p, expectedGla_row]
  exact outputAt_slice (rank_slice Q p) (rank_slice K p) (rank_slice V p) (rank_slice A p) 0 l _

end Ranks

theorem sequenceParallel_forward (Q K : Fin P → Matrix (Fin (N * C)) (Fin dk) R)
    (V : Fin P → Matrix (Fin (N * C)) (Fin dv) R) (A : Fin P → Matrix (Fin (N * C)) (Fin dk) R)
    (hA : ∀ p t d, A p t d ≠ 0) :
    (∀ (p : Fin P) (t : Fin (N * C)), TorchZeCo.forward Q K V A p t =
      expectedGla (flattenSeq Q) (flattenSeq K) (flattenSeq V) (flattenSeq A) (token p t)) ∧
    ∀ {P' N' C' : ℕ} (Q' K' : Fin P' → Matrix (Fin (N' * C')) (Fin dk) R)
      (V' : Fin P' → Matrix (Fin (N' * C')) (Fin dv) R)
      (A' : Fin P' → Matrix (Fin (N' * C')) (Fin dk) R) (h : P' * (N' * C') = P * (N * C)),
      (∀ t, flattenSeq Q' t = flattenSeq Q (t.cast h)) →
      (∀ t, flattenSeq K' t = flattenSeq K (t.cast h)) →
      (∀ t, flattenSeq V' t = flattenSeq V (t.cast h)) →
      (∀ t, flattenSeq A' t = flattenSeq A (t.cast h)) →
      ∀ t, flattenSeq (TorchZeCo.forward Q' K' V' A') t =
        flattenSeq (TorchZeCo.forward Q K V A) (t.cast h) := by
  refine ⟨forward_row Q K V hA, fun Q' K' V' A' h hQ hK hV hA' t => ?_⟩
  have hne : ∀ p t d, A' p t d ≠ 0 := fun p t d => by
    rw [← flattenSeq_apply A' p t, hA']
    exact hA _ _ _
  have flat {P N C : ℕ} {Q K A : Fin P → Matrix (Fin (N * C)) (Fin dk) R}
      {V : Fin P → Matrix (Fin (N * C)) (Fin dv) R} (hA : ∀ p t d, A p t d ≠ 0)
      (t : Fin (P * (N * C))) : flattenSeq (TorchZeCo.forward Q K V A) t =
        expectedGla (flattenSeq Q) (flattenSeq K) (flattenSeq V) (flattenSeq A) t := by
    have ht := token_divNat_modNat t
    rw [← ht, flattenSeq_apply, forward_row Q K V hA]
  rw [flat hne, flat hA, expectedGla_cast h hQ hK hV hA']

theorem sequenceParallel_forward_four :
    let X : Fin 2 → Matrix (Fin (1 * 2)) (Fin 1) ℚ := ![!![1; 2], !![2; 3]]
    let X' : Fin 1 → Matrix (Fin (2 * 2)) (Fin 1) ℚ := ![!![1; 2; 2; 3]]
    TorchZeCo.forward X X X (fun _ => of fun _ _ => 1 / 2) 1 1 0 = 291 / 8 ∧
    TorchZeCo.forward X' X' X' (fun _ => of fun _ _ => 1 / 2) 0 3 0 = 291 / 8 := by
  intro X X'
  have h := sequenceParallel_forward X X X (fun _ => of fun _ _ => 1 / 2)
    fun _ _ _ => by norm_num
  have value : TorchZeCo.forward X X X (fun _ => of fun _ _ => 1 / 2) 1 1 0 = 291 / 8 := by
    rw [h.1 1 1]
    decide +kernel
  refine ⟨value, ?_⟩
  have rows : ∀ t : Fin (1 * (2 * 2)), flattenSeq X' t = flattenSeq X (t.cast rfl) := fun t => by
    fin_cases t <;> rfl
  have cut := h.2 X' X' X' (fun _ => of fun _ _ => 1 / 2) rfl rows rows rows (fun _ => rfl) 3
  exact (congrFun cut 0).trans value

/-- The gradient decomposition of the ZeCO backends: every rank's `gla_chunk_backward` around one
reverse scan of the boundary. -/
def zecoBackward (Q K : Fin P → Matrix (Fin (N * C)) (Fin dk) R)
    (V : Fin P → Matrix (Fin (N * C)) (Fin dv) R) (A : Fin P → Matrix (Fin (N * C)) (Fin dk) R)
    (dO : Fin P → Matrix (Fin (N * C)) (Fin dv) R) : Fin P → Grads (N * C) dk dv R :=
  let scans p := glaChunkScan (Q p) (K p) (V p) (A p)
  let gammas p := (scans p).gTotal
  let outs := expectedAllscan (fun p => (scans p).sTotal) gammas
  let backward p := glaChunkBackward (Q p) (K p) (V p) (A p) (sRecv outs p) (dO p)
  -- the fifth result does not depend on the two boundary gradients
  let dSRecv p := (backward p 0 0).2
  let (dS, dgamma) := expectedAllscanBackward gammas outs (gOutOf dSRecv)
  fun p => (backward p (dS p) (dgamma p)).1

theorem glaChunkBackward_snd (Q K : Matrix (Fin (N * C)) (Fin dk) R)
    (V : Matrix (Fin (N * C)) (Fin dv) R) (A : Matrix (Fin (N * C)) (Fin dk) R)
    (S : Matrix (Fin dk) (Fin dv) R) (dO : Matrix (Fin (N * C)) (Fin dv) R)
    (dSTotal : Matrix (Fin dk) (Fin dv) R) (dgTotal : Fin dk → R) :
    (glaChunkBackward Q K V A S dO dSTotal dgTotal).2 = (glaChunkBackward Q K V A S dO 0 0).2 := rfl

section RanksBackward

variable (Q K : Fin P → Matrix (Fin (N * C)) (Fin dk) R)
  (V : Fin P → Matrix (Fin (N * C)) (Fin dv) R) {A : Fin P → Matrix (Fin (N * C)) (Fin dk) R}
  (dO : Fin P → Matrix (Fin (N * C)) (Fin dv) R)

def boundaryAdjoint (A : Fin P → Matrix (Fin (N * C)) (Fin dk) R) (p : ℕ) :
    Matrix (Fin dk) (Fin dv) R :=
  adjointAt (flattenSeq Q) (flattenSeq A) (flattenSeq dO) 0 (p * (N * C))

theorem boundaryAdjoint_split (A : Fin P → Matrix (Fin (N * C)) (Fin dk) R) (p : Fin P) :
    boundaryAdjoint Q dO A p = adjointAt (Q p) (A p) (dO p) 0 0 +
      rowScale (fun d => decay (gate (A p) d) 0 (N * C)) (boundaryAdjoint Q dO A (p + 1)) := by
  rw [boundaryAdjoint, ← Nat.add_zero (p * (N * C)), ← adjointAt_slice (rank_slice Q p)
    (rank_slice A p) (rank_slice dO p) 0 (part_end_le p _) (Nat.zero_le _), adjointAt_zero_eq_add,
    add_comm, boundaryAdjoint, Nat.add_mul, Nat.one_mul]

theorem reverseScan_boundary (A : Fin P → Matrix (Fin (N * C)) (Fin dk) R)
    {gammas : Decays P dk R} {dSRecv : States P dk dv R}
    (hg : ∀ p, gammas p = fun d => decay (gate (A p) d) 0 (N * C))
    (hd : ∀ p, dSRecv p = adjointAt (Q p) (A p) (dO p) 0 0) (p : Fin P) :
    reverseScan gammas (gOutOf dSRecv) p = boundaryAdjoint Q dO A (p + 1) := by
  refine (congrFun (eq_reverseScan gammas (gOutOf dSRecv)
    (S := fun p => boundaryAdjoint Q dO A (p + 1)) fun p => ?_) p).symm
  rw [ReverseScansTo, gOutOf, message]
  by_cases h : p.val + 1 < P
  · rw [dif_pos h, dif_pos h, hg, hd]
    exact boundaryAdjoint_split Q dO A ⟨p + 1, h⟩
  · have hP : p.val + 1 = P := by omega
    rw [dif_neg h, dif_neg h, boundaryAdjoint, hP, adjointAt_last, add_zero]

theorem ring_boundary {gammas : Decays P dk R} {outs dSRecv : States P dk dv R}
    (hg : ∀ p, gammas p = fun d => decay (gate (A p) d) 0 (N * C))
    (ho : ∀ p, outs p = boundaryState K V A (p + 1))
    (hd : ∀ p, dSRecv p = adjointAt (Q p) (A p) (dO p) 0 0) (p : Fin P) :
    let d := expectedAllscanBackward gammas outs (gOutOf dSRecv)
    d.1 p = boundaryAdjoint Q dO A (p + 1) ∧
      d.2 p = rowSum (boundaryAdjoint Q dO A (p + 1) ⊙ boundaryState K V A p) := by
  have hdS := reverseScan_boundary Q dO A hg hd p
  constructor
  · exact hdS
  · apply (gammaGrads_apply outs _ p).trans
    rw [hdS, sRecv_boundary K V ho]

theorem boundaryAdjoint_single (A : Fin P → Matrix (Fin (N * C)) (Fin dk) R) (hP : P = 1)
    (p : Fin P) : boundaryAdjoint Q dO A (p + 1) = 0 := by
  have h1 : p.val + 1 = P := by omega
  rw [boundaryAdjoint, h1, adjointAt_last]

theorem grads_boundary {gammas : Decays P dk R} {outs dSRecv : States P dk dv R}
    (hg : ∀ p, gammas p = fun d => decay (gate (A p) d) 0 (N * C))
    (ho : ∀ p, outs p = boundaryState K V A (p + 1))
    (hd : ∀ p, dSRecv p = adjointAt (Q p) (A p) (dO p) 0 0) (p : Fin P) :
    let d := if P = 1 then ((fun _ => 0, fun _ => 0) : States P dk dv R × Decays P dk R) else
      expectedAllscanBackward gammas outs (gOutOf dSRecv)
    d.1 p = boundaryAdjoint Q dO A (p + 1) ∧
      d.2 p = rowSum (boundaryAdjoint Q dO A (p + 1) ⊙ boundaryState K V A p) := by
  split_ifs with hP
  · rw [boundaryAdjoint_single Q dO A hP]
    constructor
    · rfl
    · funext d
      simp
  · exact ring_boundary Q K V dO hg ho hd p

variable (hA : ∀ p t d, A p t d ≠ 0)
include hA

theorem row_of_rankGrads {g : Grads (N * C) dk dv R} {dgTotal : Fin dk → R} (p : Fin P)
    (hg : ChunkGrads (Q p) (K p) (V p) (dO p) (boundaryState K V A p)
      (boundaryAdjoint Q dO A (p + 1)) dgTotal (A p) g)
    (hd : dgTotal = rowSum (boundaryAdjoint Q dO A (p + 1) ⊙ boundaryState K V A p))
    (l : Fin (N * C)) : g.row l = (expectedGlaBackward (flattenSeq Q) (flattenSeq K) (flattenSeq V)
      (flattenSeq A) (flattenSeq dO)).row (token p l) := by
  have hC : 0 < C := Nat.pos_of_mul_pos_left l.pos
  have hexcess :
      decayExcess (boundaryState K V A p) (boundaryAdjoint Q dO A (p + 1)) dgTotal = 0 := by
    rw [decayExcess, hd, sub_self]
  apply (row_of_chunkGrads (Q p) (K p) (V p) (dO p) _ _ _ (hA p) hC hg l).trans
  rw [hexcess, expectedGlaBackward_row]
  have hrow := rowGradsAt_slice (rank_slice Q p) (rank_slice K p) (rank_slice V p)
    (rank_slice A p) (rank_slice dO p) 0 0 (part_end_le p _) l
  rw [← Nat.succ_mul] at hrow
  refine Eq.trans ?_ hrow
  simp only [Pi.zero_apply, zero_mul, zero_div, add_zero]
  rfl

theorem backward_row (p : Fin P) (l : Fin (N * C)) : (zecoBackward Q K V A dO p).row l =
    (expectedGlaBackward (flattenSeq Q) (flattenSeq K) (flattenSeq V) (flattenSeq A)
      (flattenSeq dO)).row (token p l) := by
  have hC : 0 < C := Nat.pos_of_mul_pos_left l.pos
  have hscan (p : Fin P) := glaChunkScan_spec (Q p) (K p) (V p) (hA p) hC
  set gammas : Decays P dk R := fun p => (glaChunkScan (Q p) (K p) (V p) (A p)).gTotal
  set outs := expectedAllscan (fun p => (glaChunkScan (Q p) (K p) (V p) (A p)).sTotal) gammas
  have hg (p : Fin P) : gammas p = fun d => decay (gate (A p) d) 0 (N * C) := (hscan p).gTotal
  have hrecv : sRecv outs p = boundaryState K V A p :=
    sRecv_boundary K V (allscan_boundary K V A (fun p => (hscan p).sTotal) hg) p
  set dSRecv : States P dk dv R := fun p =>
    (glaChunkBackward (Q p) (K p) (V p) (A p) (sRecv outs p) (dO p) 0 0).2
  have hd (p : Fin P) : dSRecv p = adjointAt (Q p) (A p) (dO p) 0 0 :=
    glaChunkBackward_dSRecv _ _ _ _ _ _ _ (hA p) hC
  have hdS := reverseScan_boundary Q dO A hg hd p
  have hdg : gammaGrads (reverseScan gammas (gOutOf dSRecv)) outs p =
      rowSum (boundaryAdjoint Q dO A (p + 1) ⊙ boundaryState K V A p) := by
    rw [gammaGrads_apply, hdS, hrecv]
  have hchunks : ChunkGrads (Q p) (K p) (V p) (dO p) (sRecv outs p)
      (reverseScan gammas (gOutOf dSRecv) p)
      (gammaGrads (reverseScan gammas (gOutOf dSRecv)) outs p) (A p) (zecoBackward Q K V A dO p) :=
    glaChunkBackward_chunks _ _ _ _ _ _ _ (hA p) hC
  rw [hrecv, hdS] at hchunks
  exact row_of_rankGrads Q K V dO hA p hchunks hdg l

end RanksBackward

theorem sequenceParallel_backward (Q K : Fin P → Matrix (Fin (N * C)) (Fin dk) R)
    (V : Fin P → Matrix (Fin (N * C)) (Fin dv) R) (A : Fin P → Matrix (Fin (N * C)) (Fin dk) R)
    (dO : Fin P → Matrix (Fin (N * C)) (Fin dv) R) (hA : ∀ p t d, A p t d ≠ 0) (p : Fin P)
    (t : Fin (N * C)) : (zecoBackward Q K V A dO p).row t =
      (expectedGlaBackward (flattenSeq Q) (flattenSeq K) (flattenSeq V) (flattenSeq A)
        (flattenSeq dO)).row (token p t) :=
  backward_row Q K V dO hA p t

theorem sequenceParallel_backward_four :
    let X : Fin 2 → Matrix (Fin (1 * 2)) (Fin 1) ℚ := ![!![1; 2], !![2; 3]]
    (zecoBackward X X X (fun _ => of fun _ _ => 1 / 2) X 1).dA 0 0 = 153 / 4 := by
  intro X
  have h := sequenceParallel_backward X X X (fun _ => of fun _ _ => 1 / 2) X
    (fun _ _ _ => by norm_num) 1 0
  have hA := congrFun (congrArg RowGrads.dA h) 0
  exact hA.trans (by decide +kernel)

end ZeCo
