import Mathlib.Logic.Equiv.Basic
import ZeCo.AllscanCommon
import ZeCo.Blocks
import ZeCo.CommWindow
import ZeCo.NetworkProgress

namespace ZeCo.SimplerAllscan

open Matrix Network

variable {R : Type*} {P dk dv K H : ℕ}

def ringNet {E G : Type*} (d : Domain P dk dv K H) (order : Fin P → Equiv.Perm (Fin H))
    (waits : Fin P → Bool) (peer : Fin P → Option (Fin P))
    (load : Fin P → Fin H → ℕ → E → Matrix (Fin (dk / K)) (Fin dv) R → G → G)
    (emit : Fin P → Fin H → ℕ → E → G → E × G)
    (outgoing : Fin P → Fin H → ℕ → G → Matrix (Fin (dk / K)) (Fin dv) R)
    (reduce : Fin P → Fin H → ℕ → E → G → E × G)
    (inflight : Fin P → Fin H → ℕ → Matrix (Fin (dk / K)) (Fin dv) R) (env₀ : Fin P → E)
    (reg₀ : Fin P → G) : Net (Fin P) (Fin H) ℕ R E G (dk / K) dv where
  tasks _ := Finset.univ
  needs p h h' := order p h' < order p h
  blocks _ _ := K
  waits p _ := waits p
  peer p _ := peer p
  epoch := 1
  recvAt := d.recvBlock
  sigAt := d.signalWord
  storeAt p h k i j := d.commRemotePtr p ((peer p).getD p) (d.recvBlock p h k i j)
  notifyAt p h k := d.commRemotePtr p ((peer p).getD p) (d.signalWord p h k)
  load := load
  emit := emit
  outgoing := outgoing
  reduce := reduce
  inflight := inflight
  mem₀ _ := .zero
  env₀ := env₀
  reg₀ := reg₀

section Ring

variable {E G : Type*} {d : Domain P dk dv K H} {order : Fin P → Equiv.Perm (Fin H)}
  {waits : Fin P → Bool} {peer : Fin P → Option (Fin P)}
  {load : Fin P → Fin H → ℕ → E → Matrix (Fin (dk / K)) (Fin dv) R → G → G}
  {emit : Fin P → Fin H → ℕ → E → G → E × G}
  {outgoing : Fin P → Fin H → ℕ → G → Matrix (Fin (dk / K)) (Fin dv) R}
  {reduce : Fin P → Fin H → ℕ → E → G → E × G}
  {inflight : Fin P → Fin H → ℕ → Matrix (Fin (dk / K)) (Fin dv) R} {env₀ : Fin P → E}
  {reg₀ : Fin P → G}

theorem ringNet_wired (hK : 0 < K) (sends : ∀ {p q}, peer p = some q → waits q)
    (fed : ∀ {q}, waits q → ∃ p, peer p = some q)
    (inj : ∀ {p p' q}, peer p = some q → peer p' = some q → p = p') :
    (ringNet d order waits peer load emit outgoing reduce inflight env₀ reg₀).Wired where
  blocks_pos _ _ _ := hK
  receiver hl := ⟨Finset.mem_univ _, sends hl.peer, hl.block⟩
  feeder {q t k} hs := by
    obtain ⟨p, hp⟩ := fed hs.waits
    exact ⟨p, Finset.mem_univ _, hp, hs.block⟩
  feeder_unique hl hl' := inj hl.peer hl'.peer
  store_eq {p t q k} hl := by
    have hp : peer p = some q := hl.peer
    funext i j
    simp only [ringNet, hp, Option.getD_some, d.commRemotePtr_recvBlock]
  notify_eq {p t q k} hl := by
    have hp : peer p = some q := hl.peer
    simp only [ringNet, hp, Option.getD_some, d.commRemotePtr_signalWord]
  recv_inj hs hs' he := d.recvBlock_inj hs.block hs'.block he
  sig_inj hs hs' he := d.signalWord_inj hs.block hs'.block he
  sig_ne_recv hs hs' := d.recvBlock_ne_signalWord _ _ _ _ hs'.block hs.block _ _
  epoch_one := rfl
  zeroed _ := rfl

theorem ringNet_progressive {height : Fin P → ℕ}
    (lower : ∀ {p q}, peer q = some p → height q < height p) :
    (ringNet d order waits peer load emit outgoing reduce inflight env₀ reg₀).Progressive
      (fun p h => order p h) (fun p _ => height p) where
  needs_prior hn := of_decide_eq_true hn
  feeder_lower hl _ := .inr (lower hl.peer)

end Ring

def hasPrev (p : Fin P) : Bool := p.val ≠ 0

structure Tiles (B dv : ℕ) (R : Type*) where
  recvTile : Matrix (Fin B) (Fin dv) R
  sTile : Matrix (Fin B) (Fin dv) R
  gammaTile : Fin B → R

section Forward

variable [Semiring R]

def kernelLoad {B : ℕ} (myRank : Fin P) (sLocal : Matrix (Fin dk) (Fin dv) R) (gamma : Fin dk → R)
    (k : ℕ) (recv : Matrix (Fin B) (Fin dv) R) (g : Tiles B dv R) : Tiles B dv R :=
  if myRank.val = 0 then
    { g with sTile := block B sLocal k }
  else
    let recvTile := recv
    let gammaTile := blockCol B gamma k
    let sTile := block B sLocal k
    let recvTile := rowScale gammaTile recvTile
    let sTile := sTile + recvTile
    { recvTile, sTile, gammaTile }

/-- The rings of `run_multi`, one per slot; `run` is the case of one ring. The outputs are the
host's zeroed `host_out` buffers. -/
def forwardNet (d : Domain P dk dv K H) (order : Fin P → Equiv.Perm (Fin H))
    (sLocals : Fin H → States P dk dv R) (gammas : Fin H → Decays P dk R)
    (inflight : Fin P → Fin H → ℕ → Matrix (Fin (dk / K)) (Fin dv) R)
    (reg₀ : Fin P → Tiles (dk / K) dv R) :
    Net (Fin P) (Fin H) ℕ R (Fin H → Matrix (Fin dk) (Fin dv) R) (Tiles (dk / K) dv R)
      (dk / K) dv :=
  ringNet d order hasPrev nextRank
    (fun p h k _ recv g => kernelLoad p (sLocals h p) (gammas h p) k recv g)
    (fun _ h k output g => (Function.update output h (setBlock (output h) k g.sTile), g))
    (fun _ _ _ g => g.sTile)
    (fun _ _ _ output g => (output, g))
    inflight (fun _ _ => 0) reg₀

variable {d : Domain P dk dv K H} {order : Fin P → Equiv.Perm (Fin H)}
  {sLocals : Fin H → States P dk dv R} {gammas : Fin H → Decays P dk R}
  {inflight : Fin P → Fin H → ℕ → Matrix (Fin (dk / K)) (Fin dv) R}
  {reg₀ : Fin P → Tiles (dk / K) dv R}

theorem forwardNet_wired (hK : 0 < K) :
    (forwardNet d order sLocals gammas inflight reg₀).Wired := by
  apply ringNet_wired hK
  · intro p q h
    rw [nextRank_eq] at h
    exact decide_eq_true (by omega)
  · intro q hq
    have hq := of_decide_eq_true hq
    exact ⟨⟨q - 1, by omega⟩, nextRank_eq.mpr (by simp only; omega)⟩
  · intro p p' q h h'
    rw [nextRank_eq] at h h'
    exact Fin.ext (by omega)

theorem forwardNet_progressive : (forwardNet d order sLocals gammas inflight reg₀).Progressive
    (fun p h => order p h) (fun p _ => p) :=
  ringNet_progressive fun h => by
    rw [nextRank_eq] at h
    omega

theorem kernelLoad_sTile {B : ℕ} (sLocals : States P dk dv R) (gammas : Decays P dk R) (p : Fin P)
    (k : ℕ) (g : Tiles B dv R) : (kernelLoad p (sLocals p) (gammas p) k
      (if hasPrev p then block B (sRecv (expectedAllscan sLocals gammas) p) k else 0) g).sTile =
      block B (expectedAllscan sLocals gammas p) k := by
  have hs := expectedAllscan_scans sLocals gammas p
  rw [ScansTo] at hs
  by_cases h : p.val = 0
  · rw [sRecv_first _ h, rowScale_zero, add_zero] at hs
    rw [kernelLoad, if_pos h, hs]
  · have hp : hasPrev p := decide_eq_true h
    rw [kernelLoad, if_neg h, if_pos hp, hs, block_add, block_rowScale]

def Written (sLocals : Fin H → States P dk dv R) (gammas : Fin H → Decays P dk R) (K : ℕ)
    (p : Fin P) (h : Fin H) (m : ℕ) (output : Fin H → Matrix (Fin dk) (Fin dv) R) : Prop :=
  ∀ t : Fin dk, t.val < m * (dk / K) → output h t = expectedAllscan (sLocals h) (gammas h) p t

def forwardOutline (hdvd : K ∣ dk) : (forwardNet d order sLocals gammas inflight reg₀).Outline where
  incoming q h k := block (dk / K) (sRecv (expectedAllscan (sLocals h) (gammas h)) q) k
  Fresh _ _ _ := True
  At p h k point output g := match point with
    | .before => Written sLocals gammas K p h k output
    | .loaded => Written sLocals gammas K p h k output ∧
        g.sTile = block (dk / K) (expectedAllscan (sLocals h) (gammas h) p) k
    | .emitted => Written sLocals gammas K p h (k + 1) output ∧
        g.sTile = block (dk / K) (expectedAllscan (sLocals h) (gammas h) p) k
  Done p h output := output h = expectedAllscan (sLocals h) (gammas h) p
  fresh _ _ _ := trivial
  start _ _ _ t ht := absurd ht (by simp)
  load {p h k output g} _ _ hat := by
    exact ⟨hat, kernelLoad_sTile (sLocals h) (gammas h) p k g⟩
  emit {p h k output g} _ _ hat := by
    refine ⟨fun t ht => ?_, hat.2⟩
    simp only [forwardNet, ringNet, Function.update_self, hat.2]
    exact setBlock_rows hat.1 t ht
  send {p h q k output g} hl hat := by
    rw [sRecv_nextRank _ hl.peer]
    exact hat.2
  reduce_next _ _ hat := hat.1
  reduce_done _ hk hat := eq_of_blocks hdvd hk hat.1
  frame_fresh _ _ _ _ := ⟨trivial, trivial⟩
  frame_done _ _ hne hd := ⟨by
    simp only [forwardNet, ringNet, Function.update_of_ne hne]
    exact hd, hd⟩

theorem forwardNet_isolated (hK : 0 < K) {es : List (Event (Fin P) (Fin H))}
    {s : State (Fin P) (Fin H) ℕ R (Fin H → Matrix (Fin dk) (Fin dv) R) (Tiles (dk / K) dv R)}
    (hrun : (forwardNet d order sLocals gammas inflight reg₀).Run es s) {p : Fin P} {h : Fin H}
    {k : ℕ} {φ : Phase} (he : .act p h k φ ∈ es) {a : ℕ}
    (ha : a ∈ (forwardNet d order sLocals gammas inflight reg₀).touches (.act p h k φ)) :
    ∃ q, a ∈ d.slot q h := by
  have hw : (forwardNet d order sLocals gammas inflight reg₀).Wired := forwardNet_wired hK
  have hk : k < K := (((Net.run_control hw.blocks_pos hrun).2 p h k φ).mp he).1
  cases φ with
  | wait =>
    obtain ⟨-, rfl⟩ := ha
    exact ⟨p, d.signalWord_mem_slot p h hk⟩
  | load =>
    obtain ⟨-, i, j, rfl⟩ := ha
    exact ⟨p, d.recvBlock_mem_slot p h hk i j⟩
  | store | flush =>
    obtain ⟨-, i, j, rfl⟩ := ha
    refine ⟨(nextRank p).getD p, ?_⟩
    simp only [forwardNet, ringNet, d.commRemotePtr_recvBlock]
    exact d.recvBlock_mem_slot _ h hk i j
  | notify =>
    obtain ⟨-, rfl⟩ := ha
    refine ⟨(nextRank p).getD p, ?_⟩
    simp only [forwardNet, ringNet, d.commRemotePtr_signalWord]
    exact d.signalWord_mem_slot _ h hk
  | emit | reduce => exact absurd ha (Set.notMem_empty a)

end Forward

theorem run_correct [Semiring R] (d : Domain P dk dv K 1) (sLocals : States P dk dv R)
    (gammas : Decays P dk R) (inflight : Fin P → Fin 1 → ℕ → Matrix (Fin (dk / K)) (Fin dv) R)
    (reg₀ : Fin P → Tiles (dk / K) dv R) (hK : 0 < K) (hdvd : K ∣ dk)
    (es : List (Event (Fin P) (Fin 1)))
    (s : State (Fin P) (Fin 1) ℕ R (Fin 1 → Matrix (Fin dk) (Fin dv) R) (Tiles (dk / K) dv R))
    (hrun : (forwardNet d 1 (fun _ => sLocals) (fun _ => gammas) inflight reg₀).Run es s) :
    let N := forwardNet d 1 (fun _ => sLocals) (fun _ => gammas) inflight reg₀
    N.ReadsVisible es ∧ N.StoresOnce es ∧ (Runs.Stuck N.step s → N.Final s) ∧
      (N.Final s → ∀ p, s.env p 0 = expectedAllscan sLocals gammas p) :=
  ⟨Net.run_readsVisible (forwardNet_wired hK) (forwardOutline hdvd) hrun,
    Net.run_storesOnce (forwardNet_wired hK) (forwardOutline hdvd) hrun,
    Net.final_of_stuck (forwardNet_wired hK) forwardNet_progressive (forwardOutline hdvd) hrun,
    fun hfinal _ => Net.final_done (forwardNet_wired hK) (forwardOutline hdvd) hrun hfinal
      (Finset.mem_univ _)⟩

theorem run_correct_two :
    let d : Domain 2 1 1 1 1 := ⟨fun p => 4096 * p, 0, by decide, by decide⟩
    let N := forwardNet d 1 (fun _ p => Matrix.of fun _ _ => (p.val : ℤ) + 2) (fun _ _ _ => 3)
      (fun _ _ _ => 0) (fun _ => ⟨0, 0, 0⟩)
    let es : List (Event (Fin 2) (Fin 1)) := [.start 1 0, .start 0 0, .act 0 0 0 .load,
      .act 0 0 0 .emit, .act 0 0 0 .store, .act 0 0 0 .flush, .act 0 0 0 .notify, .act 1 0 0 .wait,
      .act 1 0 0 .load, .act 0 0 0 .reduce, .act 1 0 0 .emit, .act 1 0 0 .reduce]
    ∃ s, N.Run es s ∧ N.Final s ∧ s.env 1 0 0 0 = 9 := by
  intro d N es
  obtain ⟨s, hrun, hfinal⟩ := N.exists_final es (by decide +kernel)
  refine ⟨s, hrun, hfinal, ?_⟩
  have hout := (run_correct d _ _ _ _ Nat.one_pos (one_dvd 1) es s hrun).2.2.2 hfinal 1
  rw [hout]
  decide +kernel

theorem runMulti_correct [Semiring R] (d : Domain P dk dv K H)
    (order : Fin P → Equiv.Perm (Fin H)) (sLocals : Fin H → States P dk dv R)
    (gammas : Fin H → Decays P dk R)
    (inflight : Fin P → Fin H → ℕ → Matrix (Fin (dk / K)) (Fin dv) R)
    (reg₀ : Fin P → Tiles (dk / K) dv R) (hK : 0 < K) (hdvd : K ∣ dk)
    (es : List (Event (Fin P) (Fin H)))
    (s : State (Fin P) (Fin H) ℕ R (Fin H → Matrix (Fin dk) (Fin dv) R) (Tiles (dk / K) dv R))
    (hrun : (forwardNet d order sLocals gammas inflight reg₀).Run es s) :
    let N := forwardNet d order sLocals gammas inflight reg₀
    (∀ p h k, k < K →
      (∀ i j, d.recvBlock p h k i j ∈ d.slot p h) ∧ d.signalWord p h k ∈ d.slot p h) ∧
    (∀ p h, ∀ a ∈ d.slot p h,
      d.windowsIn p ≤ a ∧ a + dtypeNbytes ≤ d.windowsIn p + windowSize dk dv K H) ∧
    (∀ p h k φ, .act p h k φ ∈ es → ∀ a ∈ N.touches (.act p h k φ),
      ∀ q h', a ∈ d.slot q h' → h' = h) ∧
    N.ReadsVisible es ∧ N.StoresOnce es ∧ (Runs.Stuck N.step s → N.Final s) ∧
      (N.Final s → ∀ p h, s.env p h = expectedAllscan (sLocals h) (gammas h) p) := by
  have hw : (forwardNet d order sLocals gammas inflight reg₀).Wired := forwardNet_wired hK
  refine ⟨fun p h k hk => ⟨d.recvBlock_mem_slot p h hk, d.signalWord_mem_slot p h hk⟩,
    fun p h a => d.slot_subset_window p h, ?_, Net.run_readsVisible hw (forwardOutline hdvd) hrun,
    Net.run_storesOnce hw (forwardOutline hdvd) hrun,
    Net.final_of_stuck hw forwardNet_progressive (forwardOutline hdvd) hrun,
    fun hfinal p h => Net.final_done hw (forwardOutline hdvd) hrun hfinal (Finset.mem_univ h)⟩
  intro p h k φ he a ha q h' hslot
  obtain ⟨q', hq'⟩ := forwardNet_isolated hK hrun he ha
  exact (d.slot_disjoint hslot hq').2

theorem runMulti_correct_two :
    let d : Domain 2 1 1 1 2 := ⟨fun p => 4096 * p, 0, by decide, by decide⟩
    let N := forwardNet d ![1, Equiv.swap 0 1] (fun h p => Matrix.of fun _ _ => (h.val + p.val : ℤ))
      (fun _ _ _ => 3) (fun _ _ _ => 0) (fun _ => ⟨0, 0, 0⟩)
    let send (h : Fin 2) : List (Event (Fin 2) (Fin 2)) := [.start 0 h, .act 0 h 0 .load,
      .act 0 h 0 .emit, .act 0 h 0 .store, .act 0 h 0 .flush, .act 0 h 0 .notify,
      .act 0 h 0 .reduce]
    let receive (h : Fin 2) : List (Event (Fin 2) (Fin 2)) :=
      [.act 1 h 0 .wait, .act 1 h 0 .load, .act 1 h 0 .emit, .act 1 h 0 .reduce]
    let es := .start 1 1 :: send 0 ++ send 1 ++ receive 1 ++ .start 1 0 :: receive 0
    ∃ s, N.Run es s ∧ N.Final s ∧ s.env 1 1 0 0 = 5 := by
  intro d N send receive es
  obtain ⟨s, hrun, hfinal⟩ := N.exists_final es (by decide +kernel)
  refine ⟨s, hrun, hfinal, ?_⟩
  have hout := (runMulti_correct d _ _ _ _ _ Nat.one_pos (one_dvd 1) es s hrun).2.2.2.2.2.2
    hfinal 1 1
  rw [hout]
  decide +kernel

end ZeCo.SimplerAllscan
