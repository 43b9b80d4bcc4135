import ZeCo.SimplerForward
import ZeCo.SimplerGradKernels

/-!
`SimplerZeCo` over its compute runners. A runner is what the five orchestrations it dispatches
compute from their input tensors, so the same host code runs on the device kernels and on any other
ones. A loop over the ranks writes slot `p` of every `[P, .]` tensor in trip `p`; the tensors that
one loop writes are kept together, slot by slot.
-/

namespace ZeCo.SimplerZeCo

open Matrix Buffer SimplerKernels

variable {R : Type*} {P N C dk dv : ℕ}

structure GradOTensors (N C dk dv : ℕ) (R : Type*) where
  dQt : Matrix (Fin (N * C)) (Fin dk) R
  dKin : Matrix (Fin (N * C)) (Fin dk) R
  dVi : Matrix (Fin (N * C)) (Fin dv) R
  dH : Fin N → Matrix (Fin dk) (Fin dv) R

structure GradHTensors (N C dk dv : ℕ) (R : Type*) where
  dKstate : Matrix (Fin (N * C)) (Fin dk) R
  dVs : Matrix (Fin (N * C)) (Fin dv) R

structure Runner (N C dk dv : ℕ) (R : Type*) where
  gateCumsum (tri : Matrix (Fin C) (Fin C) R) (g : Matrix (Fin (N * C)) (Fin dk) R) :
    Matrix (Fin (N * C)) (Fin dk) R
  chunkH (k : Matrix (Fin (N * C)) (Fin dk) R) (v : Matrix (Fin (N * C)) (Fin dv) R)
    (gCs : Matrix (Fin (N * C)) (Fin dk) R) : Fin N → Matrix (Fin dk) (Fin dv) R
  chunkO (q k : Matrix (Fin (N * C)) (Fin dk) R) (v : Matrix (Fin (N * C)) (Fin dv) R)
    (gCs : Matrix (Fin (N * C)) (Fin dk) R) (sSnap : Fin N → Matrix (Fin dk) (Fin dv) R)
    (tril : Matrix (Fin C) (Fin C) R) : Matrix (Fin (N * C)) (Fin dv) R
  gradO (q k : Matrix (Fin (N * C)) (Fin dk) R) (v : Matrix (Fin (N * C)) (Fin dv) R)
    (gCs : Matrix (Fin (N * C)) (Fin dk) R) (snap : Fin N → Matrix (Fin dk) (Fin dv) R)
    (dO : Matrix (Fin (N * C)) (Fin dv) R) (tril : Matrix (Fin C) (Fin C) R) :
    GradOTensors N C dk dv R
  gradH (k : Matrix (Fin (N * C)) (Fin dk) R) (v : Matrix (Fin (N * C)) (Fin dv) R)
    (gCs : Matrix (Fin (N * C)) (Fin dk) R) (dSloc : Fin N → Matrix (Fin dk) (Fin dv) R) :
    GradHTensors N C dk dv R

/-- The device kernels; `S` is what the state buffer of `chunk_h` holds when it is allocated. The
output tensors are zero before a dispatch. -/
def deviceRunner [Ring R] (exp : R → R) (S : Buffer R) : Runner N C dk dv R where
  gateCumsum tri g := load (N * C) dk (gateCumsumOrch C dk N (flat tri) (flat g) fun _ => 0)
  chunkH k v gCs n := load dk dv
    ((chunkHOrch exp C dk dv N (flat k) (flat v) (flat gCs) (fun _ => 0) S).view (n * (dk * dv)))
  chunkO q k v gCs sSnap tril := load (N * C) dv (chunkOOrch exp C dk dv N (flat q) (flat k)
    (flat v) (flat gCs) (flat (flattenSeq sSnap)) (flat tril) fun _ => 0)
  gradO q k v gCs snap dO tril :=
    let x := gradOOrch exp C dk dv N (flat q) (flat k) (flat v) (flat gCs) (flat (flattenSeq snap))
      (flat dO) (flat tril) ⟨fun _ => 0, fun _ => 0, fun _ => 0, fun _ => 0⟩
    { dQt := load (N * C) dk x.dQt
      dKin := load (N * C) dk x.dKin
      dVi := load (N * C) dv x.dVi
      dH n := load dk dv (x.dH.view (n * (dk * dv))) }
  gradH k v gCs dSloc :=
    let x := gradHOrch exp C dk dv N (flat k) (flat v) (flat gCs) (flat (flattenSeq dSloc))
      ⟨fun _ => 0, fun _ => 0⟩
    { dKstate := load (N * C) dk x.dKstate, dVs := load (N * C) dv x.dVs }

section Rank

variable [Field R] (exp log : R → R) (r : Runner N C dk dv R)
  (Q K : Matrix (Fin (N * C)) (Fin dk) R) (V : Matrix (Fin (N * C)) (Fin dv) R)
  (A : Matrix (Fin (N * C)) (Fin dk) R) (dO : Matrix (Fin (N * C)) (Fin dv) R)

def Runner.stage1 : Stage1 N C dk dv R :=
  let gLog := A.map log
  let gCs := r.gateCumsum (tril C) gLog
  let sSnap := r.chunkH K V gCs
  { sSnap, gCs, sTotal := sTotal exp sSnap gCs K V }

def Runner.stage2 (gCs : Matrix (Fin (N * C)) (Fin dk) R)
    (sShift : Fin N → Matrix (Fin dk) (Fin dv) R) : Matrix (Fin (N * C)) (Fin dv) R :=
  r.chunkO Q K V gCs sShift (tril C)

def Runner.reverseCumsum (dgCs : Matrix (Fin (N * C)) (Fin dk) R) :
    Matrix (Fin (N * C)) (Fin dk) R := r.gateCumsum (triu C) dgCs

def chunkGammas (gCs : Matrix (Fin (N * C)) (Fin dk) R) (n : Fin N) : Fin dk → R :=
  fun d => exp (lastRow (chunk gCs n) d)

def chunkPrefix (gam : Fin N → Fin dk → R) (n : Fin N) : Fin dk → R :=
  if n.val = 0 then 1 else cumprod (of gam) ⟨n - 1, pred_lt n⟩

structure OutputStage (N C dk dv : ℕ) (R : Type*) where
  dq : Matrix (Fin (N * C)) (Fin dk) R
  dkO : Matrix (Fin (N * C)) (Fin dk) R
  dgcs : Matrix (Fin (N * C)) (Fin dk) R
  dvOut : Matrix (Fin (N * C)) (Fin dv) R
  dH : Fin N → Matrix (Fin dk) (Fin dv) R
  dcprev : Fin N → Fin dk → R
  dSRecv : Matrix (Fin dk) (Fin dv) R

def OutputStage.zero : OutputStage N C dk dv R :=
  ⟨0, 0, 0, 0, fun _ => 0, fun _ => 0, 0⟩

def outputStage (st : Stage1 N C dk dv R) (cprev : Fin N → Fin dk → R)
    (sRecv : Matrix (Fin dk) (Fin dv) R) : OutputStage N C dk dv R :=
  let H := shiftSnaps st.sSnap A sRecv
  let g := r.gradO Q K V st.gCs H dO (tril C)
  let e := st.gCs.map exp
  let ei := (-st.gCs).map exp
  let dqo := g.dQt ⊙ e
  let dko := g.dKin ⊙ ei
  let (dcp, acc) := Loop.up N (fun n (dcp, acc) =>
    (Function.update dcp n (rowSum (g.dH n ⊙ sRecv)), acc + rowScale (cprev n) (g.dH n)))
    ((fun _ => 0, 0) : (Fin N → Fin dk → R) × Matrix (Fin dk) (Fin dv) R)
  { dq := dqo, dkO := dko, dgcs := dqo ⊙ Q - dko ⊙ K, dvOut := g.dVi, dH := g.dH, dcprev := dcp
    dSRecv := acc }

structure ChunkRecurrence (N dk dv : ℕ) (R : Type*) where
  dSloc : Fin N → Matrix (Fin dk) (Fin dv) R
  dcvec : Fin N → Fin dk → R
  curS : Matrix (Fin dk) (Fin dv) R
  curC : Fin dk → R

def chunkRecurrence (gam : Fin N → Fin dk → R) (dH : Fin N → Matrix (Fin dk) (Fin dv) R)
    (dcprev : Fin N → Fin dk → R) (dSTotal : Matrix (Fin dk) (Fin dv) R) (dgamma : Fin dk → R) :
    ChunkRecurrence N dk dv R :=
  Loop.down N (fun m x =>
    { dSloc := Function.update x.dSloc m x.curS
      dcvec := Function.update x.dcvec m x.curC
      curS := if 0 < m.val then rowScale (gam m) x.curS + dH m else x.curS
      curC := if 0 < m.val then gam m * x.curC + dcprev m else x.curC })
    { dSloc := fun _ => 0, dcvec := fun _ => 0, curS := dSTotal, curC := dgamma }

/-- The gate gradient stays in the log domain; the last row of a chunk gets the gradient of its
total decay. -/
def gateStage (st : Stage1 N C dk dv R) (gam cprev : Fin N → Fin dk → R)
    (x : ChunkRecurrence N dk dv R) (dKstate dgcs : Matrix (Fin (N * C)) (Fin dk) R) :
    Matrix (Fin (N * C)) (Fin dk) R × Matrix (Fin (N * C)) (Fin dk) R :=
  Loop.up N (fun n (dkH, dgcs) =>
    let gtot := lastRow (chunk st.gCs n)
    let dkh := chunk dKstate n ⊙ (everyRow C gtot - chunk st.gCs n).map exp
    let dgcs := addChunk dgcs n ((-dkh) ⊙ chunk K n)
    let dgammaState := rowSum (x.dSloc n ⊙ st.sSnap n)
    let dgammaC := x.dcvec n * cprev n
    let dgammas := (dgammaState + dgammaC) * gam n + colSum (dkh ⊙ chunk K n)
    (setChunk dkH n dkh, setChunk dgcs n (addLastRow (chunk dgcs n) dgammas))) (0, dgcs)

def stateStage (st : Stage1 N C dk dv R) (gam cprev : Fin N → Fin dk → R)
    (x : OutputStage N C dk dv R) (dSTotal : Matrix (Fin dk) (Fin dv) R) (dgamma : Fin dk → R)
    (y : Grads (N * C) dk dv R) : Grads (N * C) dk dv R :=
  let chain := chunkRecurrence gam x.dH x.dcprev dSTotal dgamma
  let g := r.gradH K V st.gCs chain.dSloc
  let (dkH, dgcs) := gateStage exp K st gam cprev chain g.dKstate x.dgcs
  let dP := r.reverseCumsum dgcs
  { y with dK := x.dkO + dkH, dV := y.dV + g.dVs, dA := quotient dP A }

end Rank

section Ranks

variable [Field R] (exp log : R → R) (r : Fin P → Runner N C dk dv R)
  (boundary : States P dk dv R → Decays P dk R → States P dk dv R)
  (boundaryBackward : States P dk dv R → Decays P dk R → States P dk dv R →
    States P dk dv R × Decays P dk R)
  (Q K : Fin P → Matrix (Fin (N * C)) (Fin dk) R) (V : Fin P → Matrix (Fin (N * C)) (Fin dv) R)
  (A : Fin P → Matrix (Fin (N * C)) (Fin dk) R) (dO : Fin P → Matrix (Fin (N * C)) (Fin dv) R)

def forwardOn : Fin P → Matrix (Fin (N * C)) (Fin dv) R :=
  let stages p := (r p).stage1 exp log (K p) (V p) (A p)
  let sRecvs : States P dk dv R :=
    if P = 1 then fun _ => 0 else sRecv (boundary (fun p => (stages p).sTotal) (gammas A))
  Loop.up P (fun p O =>
    let sShift := shiftSnaps (stages p).sSnap (A p) (sRecvs p)
    Function.update O p ((r p).stage2 (Q p) (K p) (V p) (stages p).gCs sShift)) fun _ => 0

def backwardOn : Fin P → Grads (N * C) dk dv R :=
  -- phase A
  let stages p := (r p).stage1 exp log (K p) (V p) (A p)
  let gammasN p := chunkGammas exp (stages p).gCs
  let cprevN p := chunkPrefix (gammasN p)
  -- phase B1; with one rank nothing reads `outs`
  let outs := boundary (fun p => (stages p).sTotal) (gammas A)
  let sRecvs : States P dk dv R := if P = 1 then fun _ => 0 else sRecv outs
  -- phase C
  let x := Loop.up P (fun p x => Function.update x p
    (outputStage exp (r p) (Q p) (K p) (V p) (A p) (dO p) (stages p) (cprevN p) (sRecvs p)))
    fun _ => OutputStage.zero
  -- phase B2
  let (dSTotals, dgammas) := if P = 1 then (fun _ => 0, fun _ => 0) else
    boundaryBackward (gOutOf fun p => (x p).dSRecv) (gammas A) outs
  -- phase D
  Loop.up P (fun p y => Function.update y p
    (stateStage exp (r p) (K p) (V p) (A p) (stages p) (gammasN p) (cprevN p) (x p) (dSTotals p)
      (dgammas p) (y p)))
    fun p => { dQ := (x p).dq, dK := 0, dV := (x p).dvOut, dA := 0 }

theorem forwardOn_apply (p : Fin P) : forwardOn exp log r boundary Q K V A p =
    let stages p := (r p).stage1 exp log (K p) (V p) (A p)
    let sRecvs : States P dk dv R :=
      if P = 1 then fun _ => 0 else sRecv (boundary (fun p => (stages p).sTotal) (gammas A))
    (r p).stage2 (Q p) (K p) (V p) (stages p).gCs
      (shiftSnaps (stages p).sSnap (A p) (sRecvs p)) := by
  simp only [forwardOn]
  rw [Loop.up_fill]

theorem backwardOn_apply (p : Fin P) :
    backwardOn exp log r boundary boundaryBackward Q K V A dO p =
      let stages p := (r p).stage1 exp log (K p) (V p) (A p)
      let gammasN p := chunkGammas exp (stages p).gCs
      let cprevN p := chunkPrefix (gammasN p)
      let outs := boundary (fun p => (stages p).sTotal) (gammas A)
      let sRecvs : States P dk dv R := if P = 1 then fun _ => 0 else sRecv outs
      let x p := outputStage exp (r p) (Q p) (K p) (V p) (A p) (dO p) (stages p) (cprevN p)
        (sRecvs p)
      let d := if P = 1 then (fun _ => 0, fun _ => 0) else
        boundaryBackward (gOutOf fun p => (x p).dSRecv) (gammas A) outs
      stateStage exp (r p) (K p) (V p) (A p) (stages p) (gammasN p) (cprevN p) (x p) (d.1 p) (d.2 p)
        { dQ := (x p).dq, dK := 0, dV := (x p).dvOut, dA := 0 } := by
  simp only [backwardOn]
  rw [Loop.up_slots, Loop.up_fill]

end Ranks

theorem forward_eq_forwardOn [Field R] (exp log : R → R)
    (boundary : States P dk dv R → Decays P dk R → States P dk dv R) (S : Fin P → Buffer R)
    (Q K : Fin P → Matrix (Fin (N * C)) (Fin dk) R) (V : Fin P → Matrix (Fin (N * C)) (Fin dv) R)
    (A : Fin P → Matrix (Fin (N * C)) (Fin dk) R) : forward exp log boundary S Q K V A =
      forwardOn exp log (fun p => deviceRunner exp (S p)) boundary Q K V A := by
  funext p
  rw [forwardOn_apply]
  rfl

end ZeCo.SimplerZeCo
