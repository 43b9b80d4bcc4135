import Mathlib.Algebra.Order.Group.Abs
import Mathlib.Algebra.Order.Field.Basic
import ZeCo.Gather
import ZeCo.TorchAutograd
import ZeCo.TorchDistributed

/-!
The programs of the torch references: `run_distributed`, `run_distributed_backward`,
`run_distributed_zeco` and `run_distributed_zeco_backward` spawn one worker for each rank, gather
the results through a queue and compare them with the sequential operators. An assertion that fails
raises in the worker, and the exit code of a parent that raises is `none`.
-/

namespace ZeCo.P2p

open Matrix Processes Autodiff

variable {R : Type*} {P N C dk dv K : ℕ}

section Verification

def entries (X : Fin P → Matrix (Fin dk) (Fin dv) R) : List R :=
  (List.finRange P).flatMap fun p => (List.finRange dk).flatMap fun i =>
    (List.finRange dv).map (X p i)

theorem entries_ne_nil (hP : 0 < P) (hk : 0 < dk) (hv : 0 < dv)
    (X : Fin P → Matrix (Fin dk) (Fin dv) R) : entries X ≠ [] := by
  apply List.ne_nil_of_mem (a := X ⟨0, hP⟩ ⟨0, hk⟩ ⟨0, hv⟩)
  simp only [entries, List.mem_flatMap, List.mem_map]
  exact ⟨_, List.mem_finRange _, _, List.mem_finRange _, _, List.mem_finRange _, rfl⟩

variable [Field R] [LinearOrder R]

/-- `torch.allclose`, with its default relative tolerance. -/
def allclose (atol : R) (xs ys : List R) : Bool :=
  (xs.zip ys).all fun x => |x.1 - x.2| ≤ atol + 1 / 100000 * |x.2|

/-- `(X - Y).abs().max().item()`, which raises on empty tensors. -/
def maxDiff (xs ys : List R) : Option R := (List.zipWith (fun x y => |x - y|) xs ys).max?

variable [IsStrictOrderedRing R]

theorem allclose_self {atol : R} (h : 0 ≤ atol) (xs : List R) : allclose atol xs xs = true := by
  rw [allclose, List.all_eq_true]
  rintro ⟨x, y⟩ hxy
  obtain rfl : x = y := by
    rw [List.zip_eq_zipWith, List.zipWith_self, List.mem_map] at hxy
    obtain ⟨z, -, hz⟩ := hxy
    cases hz
    rfl
  simp only [sub_self, abs_zero, decide_eq_true_eq]
  positivity

theorem maxDiff_self {xs : List R} (h : xs ≠ []) : maxDiff xs xs = some 0 := by
  rw [maxDiff, List.zipWith_self]
  simp only [sub_self, abs_zero]
  rw [List.max?_eq_some_iff]
  refine ⟨List.mem_map.mpr ⟨xs.head h, List.head_mem h, rfl⟩, ?_⟩
  intro y hy
  obtain ⟨-, -, rfl⟩ := List.mem_map.mp hy
  exact le_rfl

end Verification

section Allscan

section Workers

variable [Semiring R]

def worker (sLocals : States P dk dv R) (gammas : Decays P dk R) (K : ℕ) (rank : Fin P) :
    Worker P dv R (Option (Matrix (Fin dk) (Fin dv) R)) :=
  if 0 < K ∧ dk % K = 0 then
    (allScanP2p rank (sLocals rank) (gammas rank) K).bind fun sSend => .ret (some sSend)
  else .ret none

def workerBackward (gOut : States P dk dv R) (gammas : Decays P dk R) (fwdRecv : States P dk dv R)
    (K : ℕ) (rank : Fin P) : Worker P dv R (Option (Matrix (Fin dk) (Fin dv) R × (Fin dk → R))) :=
  if 0 < K ∧ dk % K = 0 then
    (allScanBackwardP2p rank (gOut rank) (gammas rank) (fwdRecv rank) K).bind fun d => .ret (some d)
  else .ret none

theorem worker_realizes (h : 0 < K ∧ dk % K = 0) (sLocals : States P dk dv R)
    (gammas : Decays P dk R) : Realizes (scanRounds (expectedAllscan sLocals gammas) K)
      (worker sLocals gammas K) fun p => some (expectedAllscan sLocals gammas p) := by
  have hprog : worker sLocals gammas K = fun p =>
      (allScanP2p p (sLocals p) (gammas p) K).bind fun sSend => .ret (some sSend) :=
    funext fun p => if_pos h
  rw [hprog]
  exact (allScanP2p_realizes (Nat.dvd_of_mod_eq_zero h.2) sLocals gammas).bind fun _ => some

theorem workerBackward_realizes (h : 0 < K ∧ dk % K = 0) (gOut : States P dk dv R)
    (gammas : Decays P dk R) (outs : States P dk dv R) :
    Realizes (reverseRounds gammas (reverseScan gammas gOut) K)
      (workerBackward gOut gammas (sRecv outs) K) fun p =>
        some ((expectedAllscanBackward gammas outs gOut).1 p,
          (expectedAllscanBackward gammas outs gOut).2 p) := by
  have hprog : workerBackward gOut gammas (sRecv outs) K = fun p =>
      (allScanBackwardP2p p (gOut p) (gammas p) (sRecv outs p) K).bind fun d => .ret (some d) :=
    funext fun p => if_pos h
  rw [hprog]
  have hring : Realizes (reverseRounds gammas (reverseScan gammas gOut) K)
      (fun p => allScanBackwardP2p p (gOut p) (gammas p) (sRecv outs p) K) fun p =>
        ((expectedAllscanBackward gammas outs gOut).1 p,
          (expectedAllscanBackward gammas outs gOut).2 p) :=
    { ne := fun c hc => (reverseRounds_valid _ _ K hc).1
      unsent := fun c hc => (reverseRounds_valid _ _ K hc).2
      advances := allScanBackwardP2p_advances (Nat.dvd_of_mod_eq_zero h.2) gammas outs gOut }
  exact hring.bind fun _ => some

end Workers

variable [Field R] [LinearOrder R]

def runDistributed (sLocals : States P dk dv R) (gammas : Decays P dk R)
    (outputs : States P dk dv R) : Option ℕ :=
  let expected := expectedAllscan sLocals gammas
  (maxDiff (entries outputs) (entries expected)).map fun _ =>
    if allclose (1 / 100000) (entries outputs) (entries expected) then 0 else 1

def runDistributedBackward (gOut : States P dk dv R) (gammas : Decays P dk R)
    (outs : States P dk dv R) (outputs : Fin P → Matrix (Fin dk) (Fin dv) R × (Fin dk → R)) :
    Option ℕ :=
  let expected := expectedAllscanBackward gammas outs gOut
  let dS := entries fun p => (outputs p).1
  let dgamma := entries fun p => replicateCol (Fin 1) (outputs p).2
  let expDS := entries expected.1
  let expDgamma := entries fun p => replicateCol (Fin 1) (expected.2 p)
  (maxDiff dS expDS).bind fun _ => (maxDiff dgamma expDgamma).map fun _ =>
    if allclose (1 / 100000) dS expDS && allclose (1 / 100000) dgamma expDgamma then 0 else 1

variable [IsStrictOrderedRing R]

theorem runDistributed_expected (hP : 0 < P) (hk : 0 < dk) (hv : 0 < dv)
    (sLocals : States P dk dv R) (gammas : Decays P dk R) :
    runDistributed sLocals gammas (expectedAllscan sLocals gammas) = some 0 := by
  rw [runDistributed, maxDiff_self (entries_ne_nil hP hk hv _), Option.map_some,
    allclose_self (by positivity), if_pos rfl]

theorem runDistributedBackward_expected (hP : 0 < P) (hk : 0 < dk) (hv : 0 < dv)
    (gOut : States P dk dv R) (gammas : Decays P dk R) (outs : States P dk dv R) :
    runDistributedBackward gOut gammas outs (fun p =>
      ((expectedAllscanBackward gammas outs gOut).1 p,
        (expectedAllscanBackward gammas outs gOut).2 p)) = some 0 := by
  simp only [runDistributedBackward, maxDiff_self (entries_ne_nil hP hk hv _),
    maxDiff_self (entries_ne_nil hP hk one_pos _), Option.bind_some, Option.map_some]
  rw [allclose_self (by positivity), allclose_self (by positivity)]
  rfl

/-- With a block count that divides the rows, both programs end with exit code 0 in every order of
the steps; with any other every worker raises, and the parent waits for ever. -/
theorem runDistributed_correct (hP : 0 < P) (hk : 0 < dk) (hv : 0 < dv) (sLocals : States P dk dv R)
    (gammas : Decays P dk R) (gOut : States P dk dv R) (K : ℕ) (mode : Mode) :
    let outs := expectedAllscan sLocals gammas
    let workers := worker sLocals gammas K
    let workersBackward := workerBackward gOut gammas (sRecv outs) K
    (0 < K ∧ dk % K = 0 →
      Gather.Returns mode workers (fun _ => 0) (2 * (K * (P - 1)) + 2 * P)
        (runDistributed sLocals gammas · = some 0) ∧
      Gather.Returns mode workersBackward (fun _ => 0) (2 * (K * (P - 1)) + 2 * P)
        (runDistributedBackward gOut gammas outs · = some 0)) ∧
    (¬ (0 < K ∧ dk % K = 0) →
      (∀ es s, Gather.Run mode workers (fun _ => 0) es s → ¬ s.Returned) ∧
      ∀ es s, Gather.Run mode workersBackward (fun _ => 0) es s → ¬ s.Returned) := by
  intro outs workers workersBackward
  refine ⟨fun h => ⟨?_, ?_⟩, fun h => ⟨fun es s hrun => ?_, fun es s hrun => ?_⟩⟩
  · have hret := Gather.returns_of_realizes (worker_realizes h sLocals gammas) mode fun _ => 0
    rw [scanRounds_length, Fintype.card_fin] at hret
    apply hret.imp
    rintro _ rfl
    exact runDistributed_expected hP hk hv sLocals gammas
  · have hret := Gather.returns_of_realizes (workerBackward_realizes h gOut gammas outs) mode
      fun _ => 0
    rw [reverseRounds_length, Fintype.card_fin] at hret
    apply hret.imp
    rintro _ rfl
    exact runDistributedBackward_expected hP hk hv gOut gammas outs
  · exact Gather.not_returned hrun (p := ⟨0, hP⟩) (if_neg h)
  · exact Gather.not_returned hrun (p := ⟨0, hP⟩) (if_neg h)

theorem runDistributed_correct_two :
    let S : States 2 4 1 ℚ := fun p => of fun d _ => p + 2 * d
    let gammas : Decays 2 4 ℚ := fun _ d => d / 2
    (∃ es s, Gather.Run .rendezvous (worker S gammas 2) (fun _ => 0) es s ∧ s.Returned ∧
      runDistributed S gammas s.outputs = some 0) ∧
    ∀ es s, Gather.Run .buffered (worker S gammas 3) (fun _ => 0) es s → ¬ s.Returned := by
  intro S gammas
  have correct (K : ℕ) := runDistributed_correct (by decide) (by decide) (by decide) S gammas 0 K
  have hret := ((correct 2 .rendezvous).1 (by decide)).1
  obtain ⟨es, s, hrun, hs⟩ := hret.completes [] _ rfl
  exact ⟨⟨_, s, hrun, hs, hret.post _ s hrun hs⟩, ((correct 3 .buffered).2 (by decide)).1⟩

end Allscan

section Zeco

def workerZeco [Field R] (Q K : Fin P → Matrix (Fin (N * C)) (Fin dk) R)
    (V : Fin P → Matrix (Fin (N * C)) (Fin dv) R) (A : Fin P → Matrix (Fin (N * C)) (Fin dk) R)
    (rank : Fin P) : Worker P dv R (Option (Matrix (Fin (N * C)) (Fin dv) R)) :=
  let scan := glaChunkScan (Q rank) (K rank) (V rank) (A rank)
  (zecoBoundaryP2p rank scan.sTotal scan.gTotal).bind fun sRecv =>
    .ret (some (glaReconstruct (Q rank) (A rank) scan.sPrev scan.cPrev sRecv scan.oIntra))

noncomputable def workerZecoGrads (ad : Autograd) (Q K : Fin P → Matrix (Fin (N * C)) (Fin dk) ℝ)
    (V : Fin P → Matrix (Fin (N * C)) (Fin dv) ℝ) (A : Fin P → Matrix (Fin (N * C)) (Fin dk) ℝ)
    (dO : Fin P → Matrix (Fin (N * C)) (Fin dv) ℝ) (rank : Fin P) :
    Worker P dv ℝ (Option (Grads (N * C) dk dv ℝ)) :=
  let scan := glaChunkScan (Q rank) (K rank) (V rank) (A rank)
  let stageC S := ad.grad (fun S => glaReconstruct (Q rank) (A rank) scan.sPrev scan.cPrev S
    scan.oIntra) S (dO rank)
  (workerZecoBackward rank stageC scan.sTotal scan.gTotal 1).bind fun (sRecv, dS, dgamma) =>
    let (gQ, gK, gV, gA) := ad.grad (rankForward sRecv) (Q rank, K rank, V rank, A rank)
      (dO rank, dS, dgamma)
    .ret (some ⟨gQ, gK, gV, gA⟩)

def runDistributedZeco [Field R] [LinearOrder R] (Q K : Fin P → Matrix (Fin (N * C)) (Fin dk) R)
    (V : Fin P → Matrix (Fin (N * C)) (Fin dv) R) (A : Fin P → Matrix (Fin (N * C)) (Fin dk) R)
    (outputs : Fin P → Matrix (Fin (N * C)) (Fin dv) R) : Option ℕ :=
  let expected := expectedGla (flattenSeq Q) (flattenSeq K) (flattenSeq V) (flattenSeq A)
  (maxDiff (entries outputs) (entries (chunk expected))).map fun _ =>
    if allclose (1 / 10000) (entries outputs) (entries (chunk expected)) then 0 else 1

noncomputable def runDistributedZecoBackward (Q K : Fin P → Matrix (Fin (N * C)) (Fin dk) ℝ)
    (V : Fin P → Matrix (Fin (N * C)) (Fin dv) ℝ) (A : Fin P → Matrix (Fin (N * C)) (Fin dk) ℝ)
    (dO : Fin P → Matrix (Fin (N * C)) (Fin dv) ℝ) (got : Fin P → Grads (N * C) dk dv ℝ) :
    Option ℕ :=
  let ref := expectedGlaBackward (flattenSeq Q) (flattenSeq K) (flattenSeq V) (flattenSeq A)
    (flattenSeq dO)
  let diffs := [maxDiff (entries fun p => (got p).dQ) (entries (chunk ref.dQ)),
    maxDiff (entries fun p => (got p).dK) (entries (chunk ref.dK)),
    maxDiff (entries fun p => (got p).dV) (entries (chunk ref.dV)),
    maxDiff (entries fun p => (got p).dA) (entries (chunk ref.dA))]
  (diffs.mapM id).bind fun diffs => diffs.max?.map fun worst => if worst > 1 / 10000 then 1 else 0

theorem workerZeco_realizes [Field R] (Q K : Fin P → Matrix (Fin (N * C)) (Fin dk) R)
    (V : Fin P → Matrix (Fin (N * C)) (Fin dv) R) (A : Fin P → Matrix (Fin (N * C)) (Fin dk) R) :
    ∃ cs : List (Comm (Fin P) CommPhase (Payload dv R)), cs.length = P - 1 ∧
      Realizes cs (workerZeco Q K V A) fun p => some (TorchZeCo.forward Q K V A p) := by
  set sLocals : States P dk dv R := fun p => (glaChunkScan (Q p) (K p) (V p) (A p)).sTotal
  set gammas : Decays P dk R := fun p => (glaChunkScan (Q p) (K p) (V p) (A p)).gTotal
  refine ⟨upLine .boundary fun q => ⟨dk, expectedAllscan sLocals gammas q⟩, line_length _ _ _, ?_⟩
  have hring : Realizes (upLine .boundary fun q => ⟨dk, expectedAllscan sLocals gammas q⟩)
      (fun p => zecoBoundaryP2p p (sLocals p) (gammas p)) fun p =>
        sRecv (expectedAllscan sLocals gammas) p :=
    { ne := fun c hc => (upLine_valid _ _ hc).1
      unsent := fun c hc => (upLine_valid _ _ hc).2
      advances := zecoBoundaryP2p_advances sLocals gammas }
  have hworkers := hring.bind fun p sRecv => some (glaReconstruct (Q p) (A p)
    (glaChunkScan (Q p) (K p) (V p) (A p)).sPrev (glaChunkScan (Q p) (K p) (V p) (A p)).cPrev sRecv
    (glaChunkScan (Q p) (K p) (V p) (A p)).oIntra)
  rw [← TorchAllscan.run_of_dvd sLocals gammas (one_dvd dk) fun _ => 0] at hworkers ⊢
  exact hworkers

theorem workerZecoGrads_realizes (ad : Autograd) (Q K : Fin P → Matrix (Fin (N * C)) (Fin dk) ℝ)
    (V : Fin P → Matrix (Fin (N * C)) (Fin dv) ℝ) (A : Fin P → Matrix (Fin (N * C)) (Fin dk) ℝ)
    (dO : Fin P → Matrix (Fin (N * C)) (Fin dv) ℝ) :
    ∃ cs : List (Comm (Fin P) CommPhase (Payload dv ℝ)), cs.length = 3 * (P - 1) ∧
      Realizes cs (workerZecoGrads ad Q K V A dO) fun p =>
        some (TorchZeCo.backward ad Q K V A dO p) := by
  have hone : 1 ∣ dk := one_dvd dk
  set sLocals : States P dk dv ℝ := fun p => (glaChunkScan (Q p) (K p) (V p) (A p)).sTotal
  set gammas : Decays P dk ℝ := fun p => (glaChunkScan (Q p) (K p) (V p) (A p)).gTotal
  let stageC (p : Fin P) (S : Matrix (Fin dk) (Fin dv) ℝ) :=
    ad.grad (fun S => glaReconstruct (Q p) (A p) (glaChunkScan (Q p) (K p) (V p) (A p)).sPrev
      (glaChunkScan (Q p) (K p) (V p) (A p)).cPrev S (glaChunkScan (Q p) (K p) (V p) (A p)).oIntra)
      S (dO p)
  let grads (p : Fin P) (d : Matrix (Fin dk) (Fin dv) ℝ × Matrix (Fin dk) (Fin dv) ℝ ×
      (Fin dk → ℝ)) : Grads (N * C) dk dv ℝ :=
    let (gQ, gK, gV, gA) := ad.grad (rankForward d.1) (Q p, K p, V p, A p) (dO p, d.2.1, d.2.2)
    ⟨gQ, gK, gV, gA⟩
  set outs := expectedAllscan sLocals gammas
  set d := expectedAllscanBackward gammas outs (gOutOf fun q => stageC q (sRecv outs q))
  have hresult : TorchZeCo.backward ad Q K V A dO =
      fun p => grads p (sRecv outs p, d.1 p, d.2 p) := by
    funext p
    have hrun (sLocals : States P dk dv ℝ) (gammas : Decays P dk ℝ) :=
      TorchAllscan.run_of_dvd sLocals gammas hone
    have hback (gammas : Decays P dk ℝ) (gOut outs : States P dk dv ℝ) :=
      (TorchAllscan.runBackward_full_iff gammas gOut outs p.pos 1).mpr (.inl hone)
    unfold TorchZeCo.backward
    simp only [hrun, hback]
    rfl
  rw [hresult]
  exact ⟨_, backwardRounds_length _ _ _ 1,
    (workerZecoBackward_realizes hone stageC sLocals gammas).bind fun p d => some (grads p d)⟩

section Sequential

variable [Field R] [LinearOrder R] [IsStrictOrderedRing R]

theorem runDistributedZeco_forward (hP : 0 < P) (hL : 0 < N * C) (hv : 0 < dv)
    {Q K : Fin P → Matrix (Fin (N * C)) (Fin dk) R} {V : Fin P → Matrix (Fin (N * C)) (Fin dv) R}
    {A : Fin P → Matrix (Fin (N * C)) (Fin dk) R} (hA : ∀ p t d, A p t d ≠ 0) :
    runDistributedZeco Q K V A (TorchZeCo.forward Q K V A) = some 0 := by
  have hO : TorchZeCo.forward Q K V A =
      chunk (expectedGla (flattenSeq Q) (flattenSeq K) (flattenSeq V) (flattenSeq A)) := by
    funext p t
    exact forward_row Q K V hA p t
  rw [runDistributedZeco, hO, maxDiff_self (entries_ne_nil hP hL hv _), Option.map_some,
    allclose_self (by positivity), if_pos rfl]

end Sequential

theorem runDistributedZecoBackward_backward (hP : 0 < P) (hL : 0 < N * C) (hk : 0 < dk)
    (hv : 0 < dv) (ad : Autograd) {Q K : Fin P → Matrix (Fin (N * C)) (Fin dk) ℝ}
    {V : Fin P → Matrix (Fin (N * C)) (Fin dv) ℝ} {A : Fin P → Matrix (Fin (N * C)) (Fin dk) ℝ}
    (dO : Fin P → Matrix (Fin (N * C)) (Fin dv) ℝ) (hA : ∀ p t d, A p t d ≠ 0) :
    runDistributedZecoBackward Q K V A dO (TorchZeCo.backward ad Q K V A dO) = some 0 := by
  have hC : 0 < C := Nat.pos_of_mul_pos_left hL
  have hrow (p : Fin P) (t : Fin (N * C)) := backward_row Q K V dO hA p t
  rw [TorchZeCo.backward_eq ad Q K V A dO hA hC]
  set got := zecoBackward Q K V A dO
  set ref := expectedGlaBackward (flattenSeq Q) (flattenSeq K) (flattenSeq V) (flattenSeq A)
    (flattenSeq dO) with href
  have hQ : (fun p => (got p).dQ) = chunk ref.dQ := by
    funext p t
    exact congrArg RowGrads.dQ (hrow p t)
  have hK : (fun p => (got p).dK) = chunk ref.dK := by
    funext p t
    exact congrArg RowGrads.dK (hrow p t)
  have hV : (fun p => (got p).dV) = chunk ref.dV := by
    funext p t
    exact congrArg RowGrads.dV (hrow p t)
  have hA : (fun p => (got p).dA) = chunk ref.dA := by
    funext p t
    exact congrArg RowGrads.dA (hrow p t)
  simp only [runDistributedZecoBackward, hQ, hK, hV, hA, ← href,
    maxDiff_self (entries_ne_nil hP hL hk _), maxDiff_self (entries_ne_nil hP hL hv _)]
  norm_num

theorem runDistributedZeco_correct (hP : 0 < P) (hN : 0 < N) (hC : 0 < C) (hk : 0 < dk)
    (hv : 0 < dv) (ad : Autograd) (Q K : Fin P → Matrix (Fin (N * C)) (Fin dk) ℝ)
    (V : Fin P → Matrix (Fin (N * C)) (Fin dv) ℝ) (A : Fin P → Matrix (Fin (N * C)) (Fin dk) ℝ)
    (dO : Fin P → Matrix (Fin (N * C)) (Fin dv) ℝ) (hA : ∀ p t d, A p t d ≠ 0) (mode : Mode) :
    Gather.Returns mode (workerZeco Q K V A) (fun _ => 0) (2 * (P - 1) + 2 * P)
      (runDistributedZeco Q K V A · = some 0) ∧
    Gather.Returns mode (workerZecoGrads ad Q K V A dO) (fun _ => ⟨0, 0, 0, 0⟩)
      (2 * (3 * (P - 1)) + 2 * P) (runDistributedZecoBackward Q K V A dO · = some 0) := by
  have hL : 0 < N * C := Nat.mul_pos hN hC
  constructor
  · obtain ⟨cs, hlen, h⟩ := workerZeco_realizes Q K V A
    have hret := Gather.returns_of_realizes h mode fun _ => 0
    rw [hlen, Fintype.card_fin] at hret
    apply hret.imp
    rintro _ rfl
    exact runDistributedZeco_forward hP hL hv hA
  · obtain ⟨cs, hlen, h⟩ := workerZecoGrads_realizes ad Q K V A dO
    have hret := Gather.returns_of_realizes h mode fun _ => ⟨0, 0, 0, 0⟩
    rw [hlen, Fintype.card_fin] at hret
    apply hret.imp
    rintro _ rfl
    exact runDistributedZecoBackward_backward hP hL hk hv ad dO hA

theorem runDistributedZeco_correct_two :
    let X : Fin 2 → Matrix (Fin (1 * 2)) (Fin 1) ℝ := ![!![1; 2], !![2; 3]]
    let A : Fin 2 → Matrix (Fin (1 * 2)) (Fin 1) ℝ := fun _ => of fun _ _ => 1 / 2
    ∃ es s, Gather.Run .rendezvous (workerZecoGrads Autograd.exact X X X A X)
      (fun _ => ⟨0, 0, 0, 0⟩) es s ∧ es.length ≤ 10 ∧
      runDistributedZecoBackward X X X A X s.outputs = some 0 := by
  intro X A
  have hret := (runDistributedZeco_correct two_pos one_pos two_pos one_pos one_pos Autograd.exact
    X X X A X (fun _ _ _ => by norm_num [A]) .rendezvous).2
  obtain ⟨es, s, hrun, hs⟩ := hret.completes [] _ rfl
  exact ⟨_, s, hrun, hret.bounded _ s hrun, hret.post _ s hrun hs⟩

end Zeco

end ZeCo.P2p
