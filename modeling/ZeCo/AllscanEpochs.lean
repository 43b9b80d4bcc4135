import ZeCo.AllscanKernel
import ZeCo.NetworkReuse

namespace ZeCo.SimplerAllscan

open Matrix Network

variable {R : Type*} {P dk dv K T H : ℕ}

namespace Domain

def window (d : Domain P dk dv K H) (slot : Fin H) : Window (Fin P) ℕ K (dk / K) dv where
  recv p k := d.recvBlock p slot k
  sig p k := d.signalWord p slot k
  recv_inj hk hk' he := by
    obtain ⟨⟨hp, -, hkk⟩, hij⟩ := d.recvBlock_inj hk hk' he
    exact ⟨⟨hp, hkk⟩, hij⟩
  sig_inj hk hk' he := by
    obtain ⟨hp, -, hkk⟩ := d.signalWord_inj hk hk' he
    exact ⟨hp, hkk⟩
  recv_ne_sig hk hk' := d.recvBlock_ne_signalWord _ _ _ _ hk hk' _ _

def slots (P dk dv K T : ℕ) : Domain P dk dv K T where
  windowsIn p := p * windowSize dk dv K T
  scratch := 0
  fits := by
    rw [windowSize]
    omega
  disjoint p q hne := by
    have hv : p.val ≠ q := fun h => hne (Fin.ext h)
    rcases Nat.lt_or_gt_of_ne hv with h | h
    · left
      have hle := Nat.mul_le_mul_right (windowSize dk dv K T) (show p.val + 1 ≤ q from h)
      rwa [Nat.add_mul, Nat.one_mul] at hle
    · right
      have hle := Nat.mul_le_mul_right (windowSize dk dv K T) (show q.val + 1 ≤ p from h)
      rwa [Nat.add_mul, Nat.one_mul] at hle

end Domain

section Epochs

variable [Semiring R]

/-- Every run uses the same slot of `d`; the epoch that run `t` waits for is `t + 1`. -/
def epochNet (d : Domain P dk dv K H) (slot : Fin H) (sLocals : Fin T → States P dk dv R)
    (gammas : Fin T → Decays P dk R)
    (inflight : Fin P → Fin T → ℕ → Matrix (Fin (dk / K)) (Fin dv) R)
    (reg₀ : Fin P → Tiles (dk / K) dv R) :
    Net (Fin P) (Fin T) ℕ R (Fin T → Matrix (Fin dk) (Fin dv) R) (Tiles (dk / K) dv R)
      (dk / K) dv where
  tasks _ := Finset.univ
  needs _ t t' := t' < t
  blocks _ _ := K
  waits p _ := hasPrev p
  peer p _ := nextRank p
  epoch := 1
  recvAt p _ k := d.recvBlock p slot k
  sigAt p _ k := d.signalWord p slot k
  storeAt p _ k i j := d.commRemotePtr p ((nextRank p).getD p) (d.recvBlock p slot k i j)
  notifyAt p _ k := d.commRemotePtr p ((nextRank p).getD p) (d.signalWord p slot k)
  load p t k _ recv g := kernelLoad p (sLocals t p) (gammas t p) k recv g
  emit _ t k output g := (Function.update output t (setBlock (output t) k g.sTile), g)
  outgoing _ _ _ g := g.sTile
  reduce _ _ _ output g := (output, g)
  inflight := inflight
  mem₀ _ := .zero
  env₀ _ _ := 0
  reg₀ := reg₀

variable {d : Domain P dk dv K H} {slot : Fin H} {sLocals : Fin T → States P dk dv R}
  {gammas : Fin T → Decays P dk R}
  {inflight : Fin P → Fin T → ℕ → Matrix (Fin (dk / K)) (Fin dv) R}
  {reg₀ : Fin P → Tiles (dk / K) dv R}

theorem epochNet_eq : epochNet d slot sLocals gammas inflight reg₀ =
    (forwardNet (Domain.slots P dk dv K T) 1 sLocals gammas inflight reg₀).onWindow
      (d.window slot) := by
  simp only [epochNet, Net.onWindow, d.commRemotePtr_recvBlock, d.commRemotePtr_signalWord]
  rfl

theorem forwardNet_repeats {D : Domain P dk dv K T} :
    (forwardNet D 1 sLocals gammas inflight reg₀).Repeats K where
  task _ _ := Finset.mem_univ _
  needs := decide_eq_true_iff
  peer _ _ _ := rfl
  blocks _ _ := rfl

end Epochs

theorem epochs_correct [Semiring R] (d : Domain P dk dv K H) (slot : Fin H)
    (sLocals : Fin T → States P dk dv R)
    (gammas : Fin T → Decays P dk R)
    (inflight : Fin P → Fin T → ℕ → Matrix (Fin (dk / K)) (Fin dv) R)
    (reg₀ : Fin P → Tiles (dk / K) dv R) (hK : 0 < K) (hdvd : K ∣ dk)
    (es : List (Event (Fin P) (Fin T)))
    (s : State (Fin P) (Fin T) ℕ R (Fin T → Matrix (Fin dk) (Fin dv) R) (Tiles (dk / K) dv R))
    (hrun : (epochNet d slot sLocals gammas inflight reg₀).EpochRun es s)
    (hread : (epochNet d slot sLocals gammas inflight reg₀).ReadsFirst es) :
    ∀ p, ∀ t ∈ s.finished p, s.env p t = expectedAllscan (sLocals t) (gammas t) p := by
  intro p t ht
  rw [epochNet_eq] at hrun
  exact Net.epochRun_done (forwardNet_wired hK) forwardNet_repeats (forwardOutline hdvd) hrun hread
    ht

section Two

def sends (p : Fin P) (t : Fin T) : List (Event (Fin P) (Fin T)) :=
  [.start p t, .act p t 0 .load, .act p t 0 .emit, .act p t 0 .store, .act p t 0 .flush,
    .act p t 0 .notify, .act p t 0 .reduce]

def receives (p : Fin P) (t : Fin T) : List (Event (Fin P) (Fin T)) :=
  [.start p t, .act p t 0 .wait, .act p t 0 .load, .act p t 0 .emit, .act p t 0 .reduce]

def netTwo : Net (Fin 2) (Fin 2) ℕ ℤ (Fin 2 → Matrix (Fin 1) (Fin 1) ℤ) (Tiles (1 / 1) 1 ℤ)
    (1 / 1) 1 :=
  epochNet (⟨fun p => 4096 * p, 0, by decide, by decide⟩ : Domain 2 1 1 1 1) (Fin.last 0)
    (fun t p => Matrix.of fun _ _ => 10 * (t.val : ℤ) + p.val + 2) (fun _ _ _ => 3)
    (fun _ _ _ => 0) (fun _ => ⟨0, 0, 0⟩)

theorem epochs_correct_two :
    ∃ s, netTwo.EpochRun (sends 0 0 ++ receives 1 0 ++ sends 0 1 ++ receives 1 1) s ∧
      s.env 1 1 0 0 = 49 := by
  have hrun : (Runs.exec netTwo.epochStep netTwo.initial
      (sends 0 0 ++ receives 1 0 ++ sends 0 1 ++ receives 1 1)).any
        (fun s => decide (1 ∈ s.finished 1)) = true := by
    decide +kernel
  obtain ⟨s, hs, hdone⟩ := (Option.any_eq_true _ _).mp hrun
  have hread : netTwo.ReadsFirst (sends 0 0 ++ receives 1 0 ++ sends 0 1 ++ receives 1 1) := by
    decide +kernel
  refine ⟨s, hs, ?_⟩
  rw [epochs_correct _ _ _ _ _ _ Nat.one_pos (one_dvd 1) _ s hs hread 1 1 (of_decide_eq_true hdone)]
  decide +kernel

/-- Rank 0 makes both its runs before rank 1 makes its first. -/
theorem epochs_overwrite : ¬ ∀ es s, netTwo.EpochRun es s → netTwo.Final s →
    ∀ p t, s.env p t = expectedAllscan (fun q => Matrix.of fun _ _ => 10 * (t.val : ℤ) + q.val + 2)
      (fun _ _ => 3) p := by
  intro h
  have hrun : (Runs.exec netTwo.epochStep netTwo.initial
      (sends 0 0 ++ sends 0 1 ++ receives 1 0 ++ receives 1 1)).any
        (fun s => decide (netTwo.Final s ∧ s.env 1 0 0 0 = 39)) = true := by
    decide +kernel
  obtain ⟨s, hs, hwrong⟩ := (Option.any_eq_true _ _).mp hrun
  obtain ⟨hfinal, hout⟩ := of_decide_eq_true hwrong
  rw [h _ s hs hfinal] at hout
  exact absurd hout (by decide +kernel)

end Two

end ZeCo.SimplerAllscan
