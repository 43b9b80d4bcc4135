import ZeCo.AllscanBackwardKernel
import ZeCo.AllscanEpochs

namespace ZeCo.SimplerAllscan

open Matrix Network

variable {R : Type*} {P dk dv K T H : ℕ}

section Epochs

variable [Semiring R]

def backwardEpochNet (d : Domain P dk dv K H) (slot : Fin H) (gOut : Fin T → States P dk dv R)
    (gammas : Fin T → Decays P dk R) (outs : Fin T → States P dk dv R)
    (tmp inflight : Fin P → Fin T → ℕ → Matrix (Fin (dk / K)) (Fin dv) R)
    (reg₀ : Fin P → BackwardTiles (dk / K) dv R) :
    Net (Fin P) (Fin T) ℕ R (Fin T → BackwardOut dk dv R) (BackwardTiles (dk / K) dv R)
      (dk / K) dv where
  tasks _ := Finset.univ
  needs _ t t' := t' < t
  blocks _ _ := K
  waits p _ := isNotSource p
  peer p _ := prevRank p
  epoch := 1
  recvAt p _ k := d.recvBlock p slot k
  sigAt p _ k := d.signalWord p slot k
  storeAt p _ k i j := d.commRemotePtr p ((prevRank p).getD p) (d.recvBlock p slot k i j)
  notifyAt p _ k := d.commRemotePtr p ((prevRank p).getD p) (d.signalWord p slot k)
  load p t k _ recv g := backwardLoad p (gOut t p) k recv g
  emit p t k out g :=
    let x := backwardEmit p (gammas t p) k (out t) g
    (Function.update out t x.1, x.2)
  outgoing _ _ _ g := g.recvTile
  reduce p t k out g :=
    let x := backwardReduce p (sRecv (outs t) p) (tmp p t k) k (out t) g
    (Function.update out t x.1, x.2)
  inflight := inflight
  mem₀ _ := .zero
  env₀ _ _ := ⟨0, 0⟩
  reg₀ := reg₀

variable {d : Domain P dk dv K H} {slot : Fin H} {gOut outs : Fin T → States P dk dv R}
  {gammas : Fin T → Decays P dk R}
  {tmp inflight : Fin P → Fin T → ℕ → Matrix (Fin (dk / K)) (Fin dv) R}
  {reg₀ : Fin P → BackwardTiles (dk / K) dv R}

theorem backwardEpochNet_eq : backwardEpochNet d slot gOut gammas outs tmp inflight reg₀ =
    (backwardNet (Domain.slots P dk dv K T) 1 gOut gammas outs tmp inflight reg₀).onWindow
      (d.window slot) := by
  simp only [backwardEpochNet, Net.onWindow, d.commRemotePtr_recvBlock, d.commRemotePtr_signalWord]
  rfl

theorem backwardNet_repeats {D : Domain P dk dv K T} :
    (backwardNet D 1 gOut gammas outs tmp inflight reg₀).Repeats K where
  task _ _ := Finset.mem_univ _
  needs := decide_eq_true_iff
  peer _ _ _ := rfl
  blocks _ _ := rfl

end Epochs

/-- A rank that finished run `t` holds that run's gradients, provided no rank stores a block of run
`t + 1` before its neighbour has read the block of run `t`. -/
theorem backwardEpochs_correct [Semiring R] (d : Domain P dk dv K H) (slot : Fin H)
    (gOut : Fin T → States P dk dv R) (gammas : Fin T → Decays P dk R)
    (outs : Fin T → States P dk dv R)
    (tmp inflight : Fin P → Fin T → ℕ → Matrix (Fin (dk / K)) (Fin dv) R)
    (reg₀ : Fin P → BackwardTiles (dk / K) dv R) (hK : 0 < K) (hdvd : K ∣ dk)
    (es : List (Event (Fin P) (Fin T)))
    (s : State (Fin P) (Fin T) ℕ R (Fin T → BackwardOut dk dv R) (BackwardTiles (dk / K) dv R))
    (hrun : (backwardEpochNet d slot gOut gammas outs tmp inflight reg₀).EpochRun es s)
    (hread : (backwardEpochNet d slot gOut gammas outs tmp inflight reg₀).ReadsFirst es) :
    ∀ p, ∀ t ∈ s.finished p,
      (s.env p t).dS = (expectedAllscanBackward (gammas t) (outs t) (gOut t)).1 p ∧
      (s.env p t).dgamma = (expectedAllscanBackward (gammas t) (outs t) (gOut t)).2 p := by
  intro p t ht
  rw [backwardEpochNet_eq] at hrun
  exact Net.epochRun_done (backwardNet_wired hK) backwardNet_repeats (backwardOutline hdvd) hrun
    hread ht

section Two

def backwardNetTwo : Net (Fin 2) (Fin 2) ℕ ℤ (Fin 2 → BackwardOut 1 1 ℤ) (BackwardTiles (1 / 1) 1 ℤ)
    (1 / 1) 1 :=
  backwardEpochNet (⟨fun p => 8192 * p, 64, by decide, by decide⟩ : Domain 2 1 1 1 1) (Fin.last 0)
    (fun t p => Matrix.of fun _ _ => 10 * (t.val : ℤ) + p.val + 2) (fun _ _ _ => 3)
    (fun _ _ => Matrix.of fun _ _ => 5) (fun _ _ _ => 0) (fun _ _ _ => 0) (fun _ => ⟨0, 0, 0, 0⟩)

theorem backwardEpochs_correct_two :
    ∃ s, backwardNetTwo.EpochRun (sends 1 0 ++ receives 0 0 ++ sends 1 1 ++ receives 0 1) s ∧
      (s.env 0 1).dS 0 0 = 51 := by
  have hrun : (Runs.exec backwardNetTwo.epochStep backwardNetTwo.initial
      (sends 1 0 ++ receives 0 0 ++ sends 1 1 ++ receives 0 1)).any
        (fun s => decide (1 ∈ s.finished 0)) = true := by
    decide +kernel
  obtain ⟨s, hs, hdone⟩ := (Option.any_eq_true _ _).mp hrun
  have hread : backwardNetTwo.ReadsFirst
      (sends 1 0 ++ receives 0 0 ++ sends 1 1 ++ receives 0 1) := by
    decide +kernel
  refine ⟨s, hs, ?_⟩
  rw [(backwardEpochs_correct _ _ _ _ _ _ _ _ Nat.one_pos (one_dvd 1) _ s hs hread 0 1
    (of_decide_eq_true hdone)).1]
  decide +kernel

end Two

end ZeCo.SimplerAllscan
