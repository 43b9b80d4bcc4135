import ZeCo.AllscanKernel

namespace ZeCo.SimplerAllscan

open Matrix Network

variable {R : Type*} {P dk dv K H : ℕ}

def isNotSource (p : Fin P) : Bool := p.val ≠ P - 1

structure BackwardTiles (B dv : ℕ) (R : Type*) where
  recvTile : Matrix (Fin B) (Fin dv) R
  sTile : Matrix (Fin B) (Fin dv) R
  gammaTile : Fin B → R
  dgammaTile : Fin B → R

structure BackwardOut (dk dv : ℕ) (R : Type*) where
  dS : Matrix (Fin dk) (Fin dv) R
  dgamma : Fin dk → R

section Backward

variable [Semiring R] {B : ℕ}

def backwardLoad (myRank : Fin P) (gOut : Matrix (Fin dk) (Fin dv) R) (k : ℕ)
    (recv : Matrix (Fin B) (Fin dv) R) (g : BackwardTiles B dv R) : BackwardTiles B dv R :=
  if isNotSource myRank then
    let recvTile := recv
    let sTile := block B gOut k
    { g with recvTile, sTile := sTile + recvTile }
  else
    { g with sTile := block B gOut k }

def backwardEmit (myRank : Fin P) (gamma : Fin dk → R) (k : ℕ) (out : BackwardOut dk dv R)
    (g : BackwardTiles B dv R) : BackwardOut dk dv R × BackwardTiles B dv R :=
  let out := { out with dS := setBlock out.dS k g.sTile }
  if myRank.val = 0 then (out, g)
  else
    let gammaTile := blockCol B gamma k
    (out, { g with gammaTile, recvTile := rowScale gammaTile g.sTile })

/-- The local reduction of `dgamma`; `TROWSUM` leaves `tmp` in the region of `sTile`. -/
def backwardReduce (myRank : Fin P) (outPrev : Matrix (Fin dk) (Fin dv) R)
    (tmp : Matrix (Fin B) (Fin dv) R) (k : ℕ) (out : BackwardOut dk dv R)
    (g : BackwardTiles B dv R) : BackwardOut dk dv R × BackwardTiles B dv R :=
  if myRank.val = 0 then (out, g)
  else
    let recvTile := block B outPrev k
    let recvTile := g.sTile ⊙ recvTile
    let dgammaTile := rowSum recvTile
    ({ out with dgamma := setBlockCol out.dgamma k dgammaTile },
      { g with recvTile, dgammaTile, sTile := tmp })

/-- The rings of `run_multi_backward`, one per slot; `run_backward` is the case of one ring. The
host zeroes `dS` and `dgamma` and loads `out_prev[p] = outs[p - 1]`, zero for rank 0. -/
def backwardNet (d : Domain P dk dv K H) (order : Fin P → Equiv.Perm (Fin H))
    (gOut : Fin H → States P dk dv R) (gammas : Fin H → Decays P dk R)
    (outs : Fin H → States P dk dv R)
    (tmp inflight : Fin P → Fin H → ℕ → Matrix (Fin (dk / K)) (Fin dv) R)
    (reg₀ : Fin P → BackwardTiles (dk / K) dv R) :
    Net (Fin P) (Fin H) ℕ R (Fin H → BackwardOut dk dv R) (BackwardTiles (dk / K) dv R)
      (dk / K) dv :=
  ringNet d order isNotSource prevRank
    (fun p h k _ recv g => backwardLoad p (gOut h p) k recv g)
    (fun p h k out g =>
      let x := backwardEmit p (gammas h p) k (out h) g
      (Function.update out h x.1, x.2))
    (fun _ _ _ g => g.recvTile)
    (fun p h k out g =>
      let x := backwardReduce p (sRecv (outs h) p) (tmp p h k) k (out h) g
      (Function.update out h x.1, x.2))
    inflight (fun _ _ => ⟨0, 0⟩) reg₀

variable {d : Domain P dk dv K H} {order : Fin P → Equiv.Perm (Fin H)}
  {gOut outs : Fin H → States P dk dv R} {gammas : Fin H → Decays P dk R}
  {tmp inflight : Fin P → Fin H → ℕ → Matrix (Fin (dk / K)) (Fin dv) R}
  {reg₀ : Fin P → BackwardTiles (dk / K) dv R}

theorem backwardNet_wired (hK : 0 < K) :
    (backwardNet d order gOut gammas outs tmp inflight reg₀).Wired := by
  apply ringNet_wired hK
  · intro p q h
    rw [prevRank_eq] at h
    exact decide_eq_true (by omega)
  · intro q hq
    have hq := of_decide_eq_true hq
    exact ⟨⟨q + 1, by omega⟩, prevRank_eq.mpr rfl⟩
  · intro p p' q h h'
    rw [prevRank_eq] at h h'
    exact Fin.ext (by omega)

theorem backwardNet_progressive :
    (backwardNet d order gOut gammas outs tmp inflight reg₀).Progressive
      (fun p h => order p h) (fun p _ => P - p) :=
  ringNet_progressive fun h => by
    rw [prevRank_eq] at h
    omega

def adjoints (gammas : Fin H → Decays P dk R) (outs gOut : Fin H → States P dk dv R) (h : Fin H) :
    States P dk dv R × Decays P dk R :=
  expectedAllscanBackward (gammas h) (outs h) (gOut h)

theorem backwardLoad_sTile (gammas : Decays P dk R) (gOut : States P dk dv R) (p : Fin P) (k : ℕ)
    (g : BackwardTiles B dv R) : (backwardLoad p (gOut p) k
      (if isNotSource p then block B (message gammas (reverseScan gammas gOut) p) k else 0)
      g).sTile =
      block B (reverseScan gammas gOut p) k := by
  have hs := reverseScan_reverse gammas gOut p
  rw [ReverseScansTo] at hs
  by_cases hp : isNotSource p
  · rw [backwardLoad, if_pos hp, if_pos hp, hs, block_add]
  · have hlast : ¬ p.val + 1 < P := fun h => hp (decide_eq_true (by omega))
    rw [message, dif_neg hlast, add_zero] at hs
    rw [backwardLoad, if_neg hp, hs]

structure WrittenBack (gammas : Fin H → Decays P dk R) (outs gOut : Fin H → States P dk dv R)
    (K : ℕ) (p : Fin P) (h : Fin H) (m n : ℕ) (out : BackwardOut dk dv R) : Prop where
  dS : ∀ t : Fin dk, t.val < m * (dk / K) → out.dS t = (adjoints gammas outs gOut h).1 p t
  dgamma : ∀ t : Fin dk, t.val < n * (dk / K) ∨ p.val = 0 →
    out.dgamma t = (adjoints gammas outs gOut h).2 p t

theorem adjoints_dgamma (gammas : Fin H → Decays P dk R) (outs gOut : Fin H → States P dk dv R)
    (h : Fin H) (p : Fin P) : (adjoints gammas outs gOut h).2 p =
      rowSum ((adjoints gammas outs gOut h).1 p ⊙ sRecv (outs h) p) :=
  gammaGrads_apply _ _ _

theorem adjoints_dgamma_first (gammas : Fin H → Decays P dk R)
    (outs gOut : Fin H → States P dk dv R) (h : Fin H) {p : Fin P} (hp : p.val = 0) :
    (adjoints gammas outs gOut h).2 p = 0 := by
  funext t
  rw [adjoints_dgamma, sRecv_first _ hp]
  simp

theorem writtenBack_zero {p : Fin P} {h : Fin H} {out : BackwardOut dk dv R} (hf : out.dgamma = 0) :
    WrittenBack gammas outs gOut K p h 0 0 out := by
  constructor
  · intro t ht
    exact absurd ht (by rw [Nat.zero_mul]; exact Nat.not_lt_zero _)
  · rintro t (ht | hp)
    · exact absurd ht (by rw [Nat.zero_mul]; exact Nat.not_lt_zero _)
    · rw [adjoints_dgamma_first gammas outs gOut h hp, hf]

-- Rank 0 ends the reverse ring, so it forms no message.
theorem backwardEmit_written {p : Fin P} {h : Fin H} {k : ℕ} {out : BackwardOut dk dv R}
    {g : BackwardTiles (dk / K) dv R} (hw : WrittenBack gammas outs gOut K p h k k out)
    (hs : g.sTile = block (dk / K) ((adjoints gammas outs gOut h).1 p) k) :
    WrittenBack gammas outs gOut K p h (k + 1) k (backwardEmit p (gammas h p) k out g).1 ∧
      (backwardEmit p (gammas h p) k out g).2.sTile =
        block (dk / K) ((adjoints gammas outs gOut h).1 p) k ∧
      (p.val ≠ 0 → (backwardEmit p (gammas h p) k out g).2.recvTile =
        block (dk / K) (rowScale (gammas h p) ((adjoints gammas outs gOut h).1 p)) k) := by
  have hrows : ∀ t : Fin dk, t.val < (k + 1) * (dk / K) →
      setBlock out.dS k g.sTile t = (adjoints gammas outs gOut h).1 p t := by
    rw [hs]
    exact setBlock_rows hw.dS
  by_cases hp : p.val = 0
  · simp only [backwardEmit, hp, if_true]
    exact ⟨⟨hrows, fun t _ => hw.dgamma t (.inr hp)⟩, hs, fun h0 => absurd rfl h0⟩
  · simp only [backwardEmit, hp, if_false]
    exact ⟨⟨hrows, hw.dgamma⟩, hs, fun _ => by rw [hs, block_rowScale]⟩

theorem backwardReduce_written {p : Fin P} {h : Fin H} {k : ℕ} {out : BackwardOut dk dv R}
    {g : BackwardTiles (dk / K) dv R} (x : Matrix (Fin (dk / K)) (Fin dv) R)
    (hw : WrittenBack gammas outs gOut K p h (k + 1) k out)
    (hs : g.sTile = block (dk / K) ((adjoints gammas outs gOut h).1 p) k) :
    WrittenBack gammas outs gOut K p h (k + 1) (k + 1)
      (backwardReduce p (sRecv (outs h) p) x k out g).1 := by
  rw [backwardReduce]
  split_ifs with hp
  · exact ⟨hw.dS, fun t _ => hw.dgamma t (.inr hp)⟩
  · refine ⟨hw.dS, fun t ht => ?_⟩
    simp only [hs, ← block_hadamard, ← blockCol_rowSum, ← adjoints_dgamma]
    exact setBlockCol_rows (fun t ht => hw.dgamma t (.inl ht)) t (ht.resolve_right hp)

theorem WrittenBack.complete {k : ℕ} (hdvd : K ∣ dk) (hk : k = K) {p : Fin P} {h : Fin H}
    {out : BackwardOut dk dv R} (hw : WrittenBack gammas outs gOut K p h k k out) :
    out.dS = (adjoints gammas outs gOut h).1 p ∧
      out.dgamma = (adjoints gammas outs gOut h).2 p := by
  constructor
  · exact eq_of_blocks hdvd hk hw.dS
  · exact eq_of_blocks hdvd hk fun t ht => hw.dgamma t (.inl ht)

def backwardOutline (hdvd : K ∣ dk) :
    (backwardNet d order gOut gammas outs tmp inflight reg₀).Outline where
  incoming q h k := block (dk / K) (message (gammas h) (adjoints gammas outs gOut h).1 q) k
  Fresh _ h out := (out h).dgamma = 0
  At p h k point out g := match point with
    | .before => WrittenBack gammas outs gOut K p h k k (out h)
    | .loaded => WrittenBack gammas outs gOut K p h k k (out h) ∧
        g.sTile = block (dk / K) ((adjoints gammas outs gOut h).1 p) k
    | .emitted => WrittenBack gammas outs gOut K p h (k + 1) k (out h) ∧
        g.sTile = block (dk / K) ((adjoints gammas outs gOut h).1 p) k ∧
        (p.val ≠ 0 → g.recvTile =
          block (dk / K) (rowScale (gammas h p) ((adjoints gammas outs gOut h).1 p)) k)
  Done p h out := (out h).dS = (adjoints gammas outs gOut h).1 p ∧
    (out h).dgamma = (adjoints gammas outs gOut h).2 p
  fresh _ _ _ := rfl
  start _ hfresh _ := writtenBack_zero hfresh
  load {p h k out g} _ _ hat := ⟨hat, backwardLoad_sTile (gammas h) (gOut h) p k g⟩
  emit {p h k out g} _ _ hat := by
    simp only [backwardNet, ringNet, Function.update_self]
    exact backwardEmit_written hat.1 hat.2
  send {p h q k out g} hl hat := by
    rw [message_prevRank _ _ hl.peer]
    exact hat.2.2 (prevRank_ne_zero hl.peer)
  reduce_next {p h k out g} _ _ hat := by
    simp only [backwardNet, ringNet, Function.update_self]
    exact backwardReduce_written (tmp p h k) hat.1 hat.2.1
  reduce_done {p h k out g} _ hk hat := by
    simp only [backwardNet, ringNet, Function.update_self]
    exact (backwardReduce_written (tmp p h k) hat.1 hat.2.1).complete hdvd hk
  frame_fresh _ _ hne hf := by
    simp only [backwardNet, ringNet, Function.update_of_ne hne]
    exact ⟨hf, hf⟩
  frame_done _ _ hne hd := by
    simp only [backwardNet, ringNet, Function.update_of_ne hne]
    exact ⟨hd, hd⟩

end Backward

theorem runBackward_correct [Semiring R] (d : Domain P dk dv K 1) (gOut : States P dk dv R)
    (gammas : Decays P dk R) (outs : States P dk dv R)
    (tmp inflight : Fin P → Fin 1 → ℕ → Matrix (Fin (dk / K)) (Fin dv) R)
    (reg₀ : Fin P → BackwardTiles (dk / K) dv R) (hK : 0 < K) (hdvd : K ∣ dk)
    (es : List (Event (Fin P) (Fin 1)))
    (s : State (Fin P) (Fin 1) ℕ R (Fin 1 → BackwardOut dk dv R) (BackwardTiles (dk / K) dv R))
    (hrun : (backwardNet d 1 (fun _ => gOut) (fun _ => gammas) (fun _ => outs) tmp inflight
      reg₀).Run es s) :
    let N := backwardNet d 1 (fun _ => gOut) (fun _ => gammas) (fun _ => outs) tmp inflight reg₀
    N.ReadsVisible es ∧ N.StoresOnce es ∧ (Runs.Stuck N.step s → N.Final s) ∧
      (N.Final s → (fun p => (s.env p 0).dS, fun p => (s.env p 0).dgamma) =
        expectedAllscanBackward gammas outs gOut ∧
        ∀ p : Fin P, p.val = 0 → (s.env p 0).dgamma = 0) := by
  have hw : (backwardNet d 1 (fun _ => gOut) (fun _ => gammas) (fun _ => outs) tmp inflight
      reg₀).Wired := backwardNet_wired hK
  refine ⟨Net.run_readsVisible hw (backwardOutline hdvd) hrun,
    Net.run_storesOnce hw (backwardOutline hdvd) hrun,
    Net.final_of_stuck hw backwardNet_progressive (backwardOutline hdvd) hrun, fun hfinal => ?_⟩
  have hdone (p : Fin P) := Net.final_done hw (backwardOutline hdvd) hrun hfinal
    (Finset.mem_univ (0 : Fin 1)) (p := p)
  refine ⟨Prod.ext (funext fun p => (hdone p).1) (funext fun p => (hdone p).2), fun p hp => ?_⟩
  exact (hdone p).2.trans
    (adjoints_dgamma_first (fun _ => gammas) (fun _ => outs) (fun _ => gOut) 0 hp)

theorem runBackward_correct_two :
    let d : Domain 2 1 1 1 1 := ⟨fun p => 4096 * p, 0, by decide, by decide⟩
    let N := backwardNet d 1 (fun _ p => Matrix.of fun _ _ => (p.val : ℤ) + 1) (fun _ _ _ => 3)
      (fun _ _ => Matrix.of fun _ _ => 5) (fun _ _ _ => 0) (fun _ _ _ => 0) (fun _ => ⟨0, 0, 0, 0⟩)
    let es : List (Event (Fin 2) (Fin 1)) := [.start 0 0, .start 1 0, .act 1 0 0 .load,
      .act 1 0 0 .emit, .act 1 0 0 .store, .act 1 0 0 .flush, .act 1 0 0 .notify, .act 0 0 0 .wait,
      .act 0 0 0 .load, .act 1 0 0 .reduce, .act 0 0 0 .emit, .act 0 0 0 .reduce]
    ∃ s, N.Run es s ∧ N.Final s ∧ (s.env 0 0).dS 0 0 = 7 ∧ (s.env 1 0).dgamma 0 = 10 := by
  intro d N es
  obtain ⟨s, hrun, hfinal⟩ := N.exists_final es (by decide +kernel)
  have hout :=
    ((runBackward_correct d _ _ _ _ _ _ Nat.one_pos (one_dvd 1) es s hrun).2.2.2 hfinal).1
  have hdS := congrFun (congrArg Prod.fst hout) 0
  have hdgamma := congrFun (congrArg Prod.snd hout) 1
  dsimp only at hdS hdgamma
  refine ⟨s, hrun, hfinal, ?_, ?_⟩
  · rw [hdS]
    decide +kernel
  · rw [hdgamma]
    decide +kernel

end ZeCo.SimplerAllscan
