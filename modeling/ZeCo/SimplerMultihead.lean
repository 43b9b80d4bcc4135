import ZeCo.SimplerPipeline

/-!
The multi-head passes of `SimplerZeCo`. They are written out again for `[P, H, L, .]` tensors, down
to the loops over the chunks: every phase runs for all heads before the next one, and one boundary
worker serves all of them. `head X h` is `X[:, h]`.
-/

namespace ZeCo.SimplerZeCo

open Matrix

variable {R : Type*} {P H N C dk dv : ℕ}

def head {α : Type*} (X : Fin P × Fin H → α) (h : Fin H) : Fin P → α := fun p => X (p, h)

section Heads

variable [Field R] (exp log : R → R) (r : Fin P → Runner N C dk dv R)
  (runMulti : (Fin H → States P dk dv R) → (Fin H → Decays P dk R) → Fin H → States P dk dv R)
  (runMultiBackward : (Fin H → States P dk dv R) → (Fin H → Decays P dk R) →
    (Fin H → States P dk dv R) → Fin H → States P dk dv R × Decays P dk R)
  (Q K : Fin P × Fin H → Matrix (Fin (N * C)) (Fin dk) R)
  (V : Fin P × Fin H → Matrix (Fin (N * C)) (Fin dv) R)
  (A : Fin P × Fin H → Matrix (Fin (N * C)) (Fin dk) R)
  (dO : Fin P × Fin H → Matrix (Fin (N * C)) (Fin dv) R)

def forwardMultihead : Fin P × Fin H → Matrix (Fin (N * C)) (Fin dv) R :=
  -- phase 1
  let heads (h : Fin H) (p : Fin P) := (r p).stage1 exp log (K (p, h)) (V (p, h)) (A (p, h))
  -- phase 2
  let sRecvsH : Fin H → States P dk dv R := if P = 1 then fun _ _ => 0 else
    let sLocalsList h p := (heads h p).sTotal
    let gammasList h := gammas fun p => A (p, h)
    let outsList := runMulti sLocalsList gammasList
    fun h p => if p.val = 0 then 0 else outsList h ⟨p - 1, pred_lt p⟩
  -- phase 3
  Loop.up H (fun h O => Loop.up P (fun p O =>
    let sShift := shiftSnaps (heads h p).sSnap (A (p, h)) (sRecvsH h p)
    Function.update O (p, h)
      ((r p).stage2 (Q (p, h)) (K (p, h)) (V (p, h)) (heads h p).gCs sShift)) O) fun _ => 0

structure HeadStage (N C dk dv : ℕ) (R : Type*) where
  stage : Stage1 N C dk dv R
  gammasN : Fin N → Fin dk → R
  cprevN : Fin N → Fin dk → R

def headStage (h : Fin H) (p : Fin P) : HeadStage N C dk dv R :=
  let stage := (r p).stage1 exp log (K (p, h)) (V (p, h)) (A (p, h))
  let gam (n : Fin N) (d : Fin dk) := exp (lastRow (chunk stage.gCs n) d)
  { stage, gammasN := gam
    cprevN := fun n => if n.val = 0 then 1 else cumprod (of gam) ⟨n - 1, pred_lt n⟩ }

section Phases

variable (HA : Fin H → Fin P → HeadStage N C dk dv R) (sRecvsH : Fin H → States P dk dv R)
  (x : Fin P × Fin H → OutputStage N C dk dv R)
  (grads : Fin H → States P dk dv R × Decays P dk R)

def headOutput (h : Fin H) (p : Fin P) : OutputStage N C dk dv R :=
  let gCs := (HA h p).stage.gCs
  let Hf := shiftSnaps (HA h p).stage.sSnap (A (p, h)) (sRecvsH h p)
  let g := (r p).gradO (Q (p, h)) (K (p, h)) (V (p, h)) gCs Hf (dO (p, h)) (tril C)
  let e := gCs.map exp
  let ei := (-gCs).map exp
  let dqo := g.dQt ⊙ e
  let dko := g.dKin ⊙ ei
  let (dcp, acc) := Loop.up N (fun n (dcp, acc) =>
    (Function.update dcp n (rowSum (g.dH n ⊙ sRecvsH h p)),
      acc + rowScale ((HA h p).cprevN n) (g.dH n)))
    ((fun _ => 0, 0) : (Fin N → Fin dk → R) × Matrix (Fin dk) (Fin dv) R)
  { dq := dqo, dkO := dko, dgcs := dqo ⊙ Q (p, h) - dko ⊙ K (p, h), dvOut := g.dVi, dH := g.dH
    dcprev := dcp, dSRecv := acc }

def headRecurrence (h : Fin H) (p : Fin P) : ChunkRecurrence N dk dv R :=
  Loop.down N (fun m y =>
    let gam := (HA h p).gammasN m
    { dSloc := Function.update y.dSloc m y.curS
      dcvec := Function.update y.dcvec m y.curC
      curS := if 0 < m.val then rowScale gam y.curS + (x (p, h)).dH m else y.curS
      curC := if 0 < m.val then gam * y.curC + (x (p, h)).dcprev m else y.curC })
    { dSloc := fun _ => 0, dcvec := fun _ => 0, curS := (grads h).1 p, curC := (grads h).2 p }

def headGate (h : Fin H) (p : Fin P) (chain : ChunkRecurrence N dk dv R)
    (dKstate : Matrix (Fin (N * C)) (Fin dk) R) :
    Matrix (Fin (N * C)) (Fin dk) R × Matrix (Fin (N * C)) (Fin dk) R :=
  let gCs := (HA h p).stage.gCs
  Loop.up N (fun n (dkH, dgcsP) =>
    let gtot := lastRow (chunk gCs n)
    let dkh := chunk dKstate n ⊙ (everyRow C gtot - chunk gCs n).map exp
    let dgcsP := addChunk dgcsP n ((-dkh) ⊙ chunk (K (p, h)) n)
    let dgammaState := rowSum (chain.dSloc n ⊙ (HA h p).stage.sSnap n)
    let dgammaC := chain.dcvec n * (HA h p).cprevN n
    let last := (dgammaState + dgammaC) * (HA h p).gammasN n + colSum (dkh ⊙ chunk (K (p, h)) n)
    (setChunk dkH n dkh, setChunk dgcsP n (addLastRow (chunk dgcsP n) last))) (0, (x (p, h)).dgcs)

def headState (h : Fin H) (p : Fin P) (y : Grads (N * C) dk dv R) : Grads (N * C) dk dv R :=
  let chain := headRecurrence HA x grads h p
  let g := (r p).gradH (K (p, h)) (V (p, h)) (HA h p).stage.gCs chain.dSloc
  let (dkH, dgcsP) := headGate exp K HA x h p chain g.dKstate
  let dP := (r p).reverseCumsum dgcsP
  { y with dK := (x (p, h)).dkO + dkH, dV := y.dV + g.dVs, dA := quotient dP (A (p, h)) }

theorem headOutput_eq (h : Fin H) (p : Fin P) :
    headOutput exp r Q K V A dO HA sRecvsH h p =
      outputStage exp (r p) (Q (p, h)) (K (p, h)) (V (p, h)) (A (p, h)) (dO (p, h)) (HA h p).stage
        (HA h p).cprevN (sRecvsH h p) := rfl

theorem headRecurrence_eq (h : Fin H) (p : Fin P) :
    headRecurrence HA x grads h p = chunkRecurrence (HA h p).gammasN (x (p, h)).dH
      (x (p, h)).dcprev ((grads h).1 p) ((grads h).2 p) := rfl

theorem headGate_eq (h : Fin H) (p : Fin P) (chain : ChunkRecurrence N dk dv R)
    (dKstate : Matrix (Fin (N * C)) (Fin dk) R) : headGate exp K HA x h p chain dKstate =
      gateStage exp (K (p, h)) (HA h p).stage (HA h p).gammasN (HA h p).cprevN chain dKstate
        (x (p, h)).dgcs := rfl

theorem headState_eq (h : Fin H) (p : Fin P) (y : Grads (N * C) dk dv R) :
    headState exp r K V A HA x grads h p y =
      stateStage exp (r p) (K (p, h)) (V (p, h)) (A (p, h)) (HA h p).stage (HA h p).gammasN
        (HA h p).cprevN (x (p, h)) ((grads h).1 p) ((grads h).2 p) y := by
  rw [headState, stateStage, headRecurrence_eq, headGate_eq]

end Phases

def backwardMultihead : Fin P × Fin H → Grads (N * C) dk dv R :=
  -- phase A
  let HA := headStage exp log r K V A
  -- phase B1; with one rank nothing reads `outsList`
  let sLocalsList h p := (HA h p).stage.sTotal
  let gammasList h := gammas fun p => A (p, h)
  let outsList := runMulti sLocalsList gammasList
  let sRecvsH : Fin H → States P dk dv R := if P = 1 then fun _ _ => 0 else
    fun h p => if p.val = 0 then 0 else outsList h ⟨p - 1, pred_lt p⟩
  -- phase C
  let x := Loop.up H (fun h x => Loop.up P (fun p x => Function.update x (p, h)
    (headOutput exp r Q K V A dO HA sRecvsH h p)) x) fun _ => OutputStage.zero
  -- phase B2
  let grads : Fin H → States P dk dv R × Decays P dk R :=
    if P = 1 then fun _ => (fun _ => 0, fun _ => 0) else
      let gOutList h (p : Fin P) := if hp : p.val + 1 < P then (x (⟨p + 1, hp⟩, h)).dSRecv else 0
      runMultiBackward gOutList gammasList outsList
  -- phase D
  Loop.up H (fun h y => Loop.up P (fun p y => Function.update y (p, h)
    (headState exp r K V A HA x grads h p (y (p, h)))) y)
    fun i => { dQ := (x i).dq, dK := 0, dV := (x i).dvOut, dA := 0 }

variable {run : States P dk dv R → Decays P dk R → States P dk dv R}
  {runBackward : States P dk dv R → Decays P dk R → States P dk dv R →
    States P dk dv R × Decays P dk R}
  (hrun : ∀ S g h, runMulti S g h = run (S h) (g h))
include hrun

theorem forwardMultihead_head (h : Fin H) :
    head (forwardMultihead exp log r runMulti Q K V A) h =
      forwardOn exp log r run (head Q h) (head K h) (head V h) (head A h) := by
  funext p
  rw [forwardOn_apply, head, forwardMultihead]
  simp only [Loop.up_grid_fill, hrun]
  split_ifs with hP
  · rfl
  · rfl

theorem backwardMultihead_head
    (hback : ∀ G g S h, runMultiBackward G g S h = runBackward (G h) (g h) (S h)) (h : Fin H) :
    head (backwardMultihead exp log r runMulti runMultiBackward Q K V A dO) h =
      backwardOn exp log r run runBackward (head Q h) (head K h) (head V h) (head A h)
        (head dO h) := by
  funext p
  rw [backwardOn_apply, head, backwardMultihead]
  simp only [headOutput_eq, headState_eq, Loop.up_grid_fill]
  rw [Loop.up_grid]
  split_ifs with hP
  · rfl
  · simp only [hrun, hback]
    rfl

theorem multihead_correct
    (hback : ∀ G g S h, runMultiBackward G g S h = runBackward (G h) (g h) (S h)) (h : Fin H) :
    head (forwardMultihead exp log r runMulti Q K V A) h =
        forwardOn exp log r run (head Q h) (head K h) (head V h) (head A h) ∧
      head (backwardMultihead exp log r runMulti runMultiBackward Q K V A dO) h =
        backwardOn exp log r run runBackward (head Q h) (head K h) (head V h) (head A h)
          (head dO h) := by
  constructor
  · exact forwardMultihead_head exp log r runMulti Q K V A hrun h
  · exact backwardMultihead_head exp log r runMulti runMultiBackward Q K V A dO hrun hback h

end Heads

theorem multihead_correct_two :
    let X : Fin 2 × Fin 2 → Matrix (Fin (1 * 1)) (Fin 1) ℚ :=
      fun i => of fun _ _ => 2 * i.1.val + i.2.val + 1
    let exp : ℚ → ℚ := fun x => 1 + x
    let log : ℚ → ℚ := fun x => x - 1
    let r : Fin 2 → Runner 1 1 1 1 ℚ := fun _ => deviceRunner exp fun _ => 7
    head (forwardMultihead exp log r (fun S g h => expectedAllscan (S h) (g h)) X X X X) 1 1 0 0 =
        -448 ∧
      (head (backwardMultihead exp log r (fun S g h => expectedAllscan (S h) (g h))
        (fun G g S h => expectedAllscanBackward (g h) (S h) (G h)) X X X X X) 1 1).dA 0 0 = 64 := by
  intro X exp log r
  let runBackward (G : States 2 1 1 ℚ) (g : Decays 2 1 ℚ) (S : States 2 1 1 ℚ) :=
    expectedAllscanBackward g S G
  have hrun (S : Fin 2 → States 2 1 1 ℚ) (g : Fin 2 → Decays 2 1 ℚ) (h : Fin 2) :
      expectedAllscan (S h) (g h) = expectedAllscan (S h) (g h) := rfl
  have hback (G : Fin 2 → States 2 1 1 ℚ) (g : Fin 2 → Decays 2 1 ℚ)
      (S : Fin 2 → States 2 1 1 ℚ) (h : Fin 2) :
      expectedAllscanBackward (g h) (S h) (G h) = runBackward (G h) (g h) (S h) := rfl
  have h := multihead_correct exp log r (fun S g h => expectedAllscan (S h) (g h))
    (fun G g S h => expectedAllscanBackward (g h) (S h) (G h)) X X X X X hrun hback 1
  rw [h.1, h.2]
  decide +kernel

end ZeCo.SimplerZeCo
