import ZeCo.AllscanCommon
import ZeCo.Blocks
import ZeCo.Choreography

namespace ZeCo.P2p

open Matrix Processes

variable {R α : Type*} {P dk dv K : ℕ}

inductive CommPhase where
  | scan | boundary | handDown | reverse
  deriving DecidableEq

structure Payload (dv : ℕ) (R : Type*) where
  rows : ℕ
  tensor : Matrix (Fin rows) (Fin dv) R

def Payload.into [Zero R] (m : Payload dv R) (n : ℕ) : Matrix (Fin n) (Fin dv) R :=
  of fun i j => stream m.tensor i j

abbrev Worker (P dv : ℕ) (R α : Type*) := Proc (Fin P) CommPhase (Payload dv R) α

section Workers

variable [Semiring R]

def allScanP2p (rank : Fin P) (sLocal : Matrix (Fin dk) (Fin dv) R) (gamma : Fin dk → R) (K : ℕ) :
    Worker P dv R (Matrix (Fin dk) (Fin dv) R) :=
  Proc.forRange (fun k sSend =>
    (Proc.recvFrom .scan ⟨dk / K, 0⟩ (prevRank rank)).bind fun m =>
      let sRecvK := m.into (dk / K)
      let sSendK := block (dk / K) sLocal k + rowScale (blockCol (dk / K) gamma k) sRecvK
      let sSend := setBlock sSend k sSendK
      (Proc.sendTo .scan ⟨dk / K, sSendK⟩ (nextRank rank)).bind fun _ => .ret sSend) K 0

def allScanBackwardP2p (rank : Fin P) (gOut : Matrix (Fin dk) (Fin dv) R) (gamma : Fin dk → R)
    (fwdRecv : Matrix (Fin dk) (Fin dv) R) (K : ℕ) :
    Worker P dv R (Matrix (Fin dk) (Fin dv) R × (Fin dk → R)) :=
  Proc.forRange (fun k out =>
    (Proc.recvFrom .reverse ⟨dk / K, 0⟩ (nextRank rank)).bind fun m =>
      let recvK := m.into (dk / K)
      let dK := block (dk / K) gOut k + recvK
      let dS := setBlock out.1 k dK
      let dgamma := if rank.val ≠ 0 then
        setBlockCol out.2 k (rowSum (dK ⊙ block (dk / K) fwdRecv k)) else out.2
      (Proc.sendTo .reverse ⟨dk / K, rowScale (blockCol (dk / K) gamma k) dK⟩ (prevRank rank)).bind
        fun _ => .ret (dS, dgamma)) K (0, 0)

def zecoBoundaryP2p (rank : Fin P) (sTotal : Matrix (Fin dk) (Fin dv) R) (gTotal : Fin dk → R) :
    Worker P dv R (Matrix (Fin dk) (Fin dv) R) :=
  (Proc.recvFrom .boundary ⟨dk, 0⟩ (prevRank rank)).bind fun m =>
    let sRecv := m.into dk
    let sSend := sTotal + rowScale gTotal sRecv
    (Proc.sendTo .boundary ⟨dk, sSend⟩ (nextRank rank)).bind fun _ => .ret sRecv

/-- The communication of `_worker_zeco_backward`, which has `K = 1`; `stageC` is the gradient of the
reconstruction at the boundary it received. -/
def workerZecoBackward (rank : Fin P)
    (stageC : Matrix (Fin dk) (Fin dv) R → Matrix (Fin dk) (Fin dv) R)
    (sTotal : Matrix (Fin dk) (Fin dv) R) (gamma : Fin dk → R) (K : ℕ) :
    Worker P dv R (Matrix (Fin dk) (Fin dv) R × Matrix (Fin dk) (Fin dv) R × (Fin dk → R)) :=
  (zecoBoundaryP2p rank sTotal gamma).bind fun sRecv =>
    let dSRecvLocal := stageC sRecv
    (Proc.recvFrom .handDown ⟨dk, 0⟩ (nextRank rank)).bind fun m =>
      let gOut := m.into dk
      (Proc.sendTo .handDown ⟨dk, dSRecvLocal⟩ (prevRank rank)).bind fun _ =>
        (allScanBackwardP2p rank gOut gamma sRecv K).bind fun d => .ret (sRecv, d)

end Workers

section Lines

def line (tag : CommPhase) (σ : Equiv.Perm (Fin P)) (msg : Fin P → Payload dv R) :
    List (Comm (Fin P) CommPhase (Payload dv R)) :=
  (List.finRange (P - 1)).map fun i => ⟨σ (lower i), σ (upper i), tag, msg (σ (lower i)), false⟩

def atHop (start mid next : Worker P dv R α) (j i : ℕ) : Worker P dv R α :=
  if i < j then start else if i ≤ j then mid else next

theorem atHop_zero {start mid next : Worker P dv R α} {j : ℕ} (h : j = 0 → mid = start) :
    atHop start mid next j 0 = start := by
  unfold atHop
  split_ifs
  · rfl
  · exact h (by omega)
  · omega

theorem atHop_end {start mid next : Worker P dv R α} {j : Fin P} (h : j.val + 1 = P → mid = next) :
    atHop start mid next j (P - 1) = next := by
  have hj := j.isLt
  unfold atHop
  split_ifs
  · omega
  · exact h (by omega)
  · rfl

section Hops

variable (tag : CommPhase) (σ : Equiv.Perm (Fin P)) (msg : Fin P → Payload dv R)
  (absent : Payload dv R) (j : Fin P) (f : Payload dv R → Worker P dv R α)
  (next : Worker P dv R α)
  (h : f (((prevRank j).map (msg ∘ σ)).getD absent) =
    (Proc.sendTo tag (msg (σ j)) ((nextRank j).map σ)).bind fun _ => next)
include h

theorem takes_hop (i : Fin (P - 1)) :
    let hop := atHop ((Proc.recvFrom tag absent ((prevRank j).map σ)).bind f)
      (f (((prevRank j).map (msg ∘ σ)).getD absent)) next j
    Takes (σ j) ⟨σ (lower i), σ (upper i), tag, msg (σ (lower i)), false⟩ (hop i)
      (hop (i + 1)) := by
  intro hop
  by_cases hsrc : lower i = j
  · have hv : i.val = j := congrArg Fin.val hsrc
    have hnext : nextRank j = some (upper i) := nextRank_eq.mpr (by simp only [upper]; omega)
    rw [Takes, if_pos ⟨congrArg σ hsrc, rfl⟩]
    simp only [hop]
    rw [atHop, if_neg (by omega), if_pos (by omega), h, hnext, hsrc, atHop, if_neg (by omega),
      if_neg (by omega)]
    rfl
  · have hv : i.val ≠ j := fun hv => hsrc (Fin.ext hv)
    rw [Takes, if_neg fun hc => hsrc (σ.injective hc.1)]
    simp only [hop]
    by_cases hdst : upper i = j
    · have hv' : i.val + 1 = j := congrArg Fin.val hdst
      have hprev : prevRank j = some (lower i) := prevRank_eq.mpr (by simp only [lower]; omega)
      rw [if_pos (congrArg σ hdst), atHop, if_pos (by omega), atHop, if_neg (by omega),
        if_pos (by omega), hprev]
      exact ⟨f, rfl, rfl⟩
    · have hv' : i.val + 1 ≠ j := fun hv => hdst (Fin.ext hv)
      rw [if_neg fun hc => hdst (σ.injective hc), atHop, atHop]
      split_ifs <;> first | rfl | omega

theorem advances_line : Advances (σ j) (line tag σ msg)
    ((Proc.recvFrom tag absent ((prevRank j).map σ)).bind f) next := by
  have hops := advances_finRange _ _ (takes_hop tag σ msg absent j f next h)
  rwa [atHop_zero, atHop_end] at hops
  · intro hlast
    rw [h, nextRank, dif_neg (by omega)]
    rfl
  · intro h0
    rw [prevRank, if_pos h0]
    rfl

end Hops

def upLine (tag : CommPhase) (msg : Fin P → Payload dv R) :
    List (Comm (Fin P) CommPhase (Payload dv R)) := line tag (Equiv.refl _) msg

def downLine (tag : CommPhase) (msg : Fin P → Payload dv R) :
    List (Comm (Fin P) CommPhase (Payload dv R)) := line tag Fin.revPerm msg

theorem advances_upLine {tag : CommPhase} {msg : Fin P → Payload dv R} {absent : Payload dv R}
    {p : Fin P} {f : Payload dv R → Worker P dv R α} {next : Worker P dv R α}
    (h : f (((prevRank p).map msg).getD absent) =
      (Proc.sendTo tag (msg p) (nextRank p)).bind fun _ => next) :
    Advances p (upLine tag msg) ((Proc.recvFrom tag absent (prevRank p)).bind f) next := by
  have hline := advances_line tag (Equiv.refl _) msg absent p f next
  simp only [Equiv.coe_refl, Option.map_id, Function.comp_id, id] at hline
  exact hline h

theorem nextRank_rev (p : Fin P) : (nextRank p.rev).map Fin.rev = prevRank p := by
  ext q
  simp only [Option.map_eq_some_iff, nextRank_eq, Fin.val_rev, prevRank_eq]
  constructor
  · rintro ⟨a, ha, rfl⟩
    rw [Fin.val_rev]
    omega
  · intro hq
    exact ⟨q.rev, by rw [Fin.val_rev]; omega, q.rev_rev⟩

theorem prevRank_rev (p : Fin P) : (prevRank p.rev).map Fin.rev = nextRank p := by
  have h := nextRank_rev p.rev
  rw [Fin.rev_rev] at h
  rw [← h, Option.map_map, Fin.rev_involutive.comp_self, Option.map_id_fun, id]

theorem advances_downLine {tag : CommPhase} {msg : Fin P → Payload dv R} {absent : Payload dv R}
    {p : Fin P} {f : Payload dv R → Worker P dv R α} {next : Worker P dv R α}
    (h : f (((nextRank p).map msg).getD absent) =
      (Proc.sendTo tag (msg p) (prevRank p)).bind fun _ => next) :
    Advances p (downLine tag msg) ((Proc.recvFrom tag absent (nextRank p)).bind f) next := by
  rw [← prevRank_rev, Option.map_map, ← nextRank_rev p] at h
  rw [← prevRank_rev]
  have hline := advances_line tag Fin.revPerm msg absent p.rev f next
  simp only [Fin.revPerm_apply, Fin.rev_rev] at hline
  exact hline h

theorem upLine_valid (tag : CommPhase) (msg : Fin P → Payload dv R)
    {c : Comm (Fin P) CommPhase (Payload dv R)} (h : c ∈ upLine tag msg) :
    c.src ≠ c.dst ∧ c.sent = false := by
  obtain ⟨i, -, rfl⟩ := List.mem_map.mp h
  exact ⟨fun he => lower_ne_upper i ((Equiv.refl _).injective he), rfl⟩

theorem downLine_valid (tag : CommPhase) (msg : Fin P → Payload dv R)
    {c : Comm (Fin P) CommPhase (Payload dv R)} (h : c ∈ downLine tag msg) :
    c.src ≠ c.dst ∧ c.sent = false := by
  obtain ⟨i, -, rfl⟩ := List.mem_map.mp h
  exact ⟨fun he => lower_ne_upper i (Fin.revPerm.injective he), rfl⟩

theorem line_length (tag : CommPhase) (σ : Equiv.Perm (Fin P)) (msg : Fin P → Payload dv R) :
    (line tag σ msg).length = P - 1 := by
  rw [line, List.length_map, List.length_finRange]

end Lines

section Results

theorem into_self [Zero R] {n : ℕ} (X : Matrix (Fin n) (Fin dv) R) :
    (⟨n, X⟩ : Payload dv R).into n = X := by
  ext i j
  simp only [Payload.into, of_apply, stream_fin]

theorem incoming_prevRank [Zero R] (f : Matrix (Fin dk) (Fin dv) R → Payload dv R)
    (outs : States P dk dv R) (p : Fin P) :
    ((prevRank p).map fun q => f (outs q)).getD (f 0) = f (sRecv outs p) := by
  cases hp : prevRank p with
  | none =>
    have h0 : p.val = 0 := by
      by_contra h
      rw [prevRank, if_neg h] at hp
      cases hp
    rw [sRecv_first outs h0]
    rfl
  | some q =>
    rw [sRecv_nextRank outs (nextRank_eq.mpr (prevRank_eq.mp hp).symm)]
    rfl

theorem incoming_nextRank [Zero R] (f : Matrix (Fin dk) (Fin dv) R → Payload dv R)
    (X : States P dk dv R) (p : Fin P) :
    ((nextRank p).map fun q => f (X q)).getD (f 0) = f (gOutOf X p) := by
  rw [nextRank, gOutOf]
  split_ifs <;> rfl

variable [Semiring R]

def scanRounds (outs : States P dk dv R) (K : ℕ) : List (Comm (Fin P) CommPhase (Payload dv R)) :=
  (List.range K).flatMap fun k => upLine .scan fun p => ⟨dk / K, block (dk / K) (outs p) k⟩

def reverseRounds (gammas : Decays P dk R) (dS : States P dk dv R) (K : ℕ) :
    List (Comm (Fin P) CommPhase (Payload dv R)) :=
  (List.range K).flatMap fun k => downLine .reverse fun p =>
    ⟨dk / K, block (dk / K) (rowScale (gammas p) (dS p)) k⟩

def HasRows (B : ℕ) (X : Matrix (Fin dk) (Fin dv) R) (m : ℕ) (out : Matrix (Fin dk) (Fin dv) R) :
    Prop := ∀ t : Fin dk, t.val < m * B → out t = X t

theorem allScanP2p_advances (hdvd : K ∣ dk) (sLocals : States P dk dv R) (gammas : Decays P dk R)
    (p : Fin P) : Advances p (scanRounds (expectedAllscan sLocals gammas) K)
      (allScanP2p p (sLocals p) (gammas p) K) (.ret (expectedAllscan sLocals gammas p)) := by
  have key : ∃ out, Advances p (scanRounds (expectedAllscan sLocals gammas) K)
      (allScanP2p p (sLocals p) (gammas p) K) (.ret out) ∧
      HasRows (dk / K) (expectedAllscan sLocals gammas p) K out := by
    unfold scanRounds allScanP2p
    apply Advances.forRange (HasRows (dk / K) (expectedAllscan sLocals gammas p))
    · exact fun t ht => by simp at ht
    · intro k out _ hrows
      have hin := incoming_prevRank (fun X => (⟨dk / K, block (dk / K) X k⟩ : Payload dv R))
        (expectedAllscan sLocals gammas) p
      have hs := expectedAllscan_scans sLocals gammas p
      rw [block_zero] at hin
      rw [ScansTo] at hs
      refine ⟨setBlock out k (block (dk / K) (expectedAllscan sLocals gammas p) k), ?_,
        setBlock_rows hrows⟩
      apply advances_upLine
      simp only [hin, into_self, ← block_rowScale, ← block_add, ← hs]
  obtain ⟨out, hadv, hrows⟩ := key
  obtain rfl := eq_of_blocks hdvd rfl hrows
  exact hadv

structure HasGrads (B : ℕ) (gammas : Decays P dk R) (outs gOut : States P dk dv R) (p : Fin P)
    (m : ℕ) (out : Matrix (Fin dk) (Fin dv) R × (Fin dk → R)) : Prop where
  dS : HasRows B ((expectedAllscanBackward gammas outs gOut).1 p) m out.1
  dgamma : ∀ t : Fin dk, t.val < m * B ∨ p.val = 0 →
    out.2 t = (expectedAllscanBackward gammas outs gOut).2 p t

section Grads

variable {gammas : Decays P dk R} {outs gOut : States P dk dv R} {p : Fin P}

theorem hasGrads_zero : HasGrads B gammas outs gOut p 0 (0, 0) := by
  constructor
  · intro t ht
    exact absurd ht (by rw [Nat.zero_mul]; exact Nat.not_lt_zero _)
  · rintro t (ht | h0)
    · exact absurd ht (by rw [Nat.zero_mul]; exact Nat.not_lt_zero _)
    · simp [expectedAllscanBackward, gammaGrads_apply, sRecv_first outs h0]

theorem HasGrads.succ {k : ℕ} {out : Matrix (Fin dk) (Fin dv) R × (Fin dk → R)}
    (h : HasGrads B gammas outs gOut p k out) :
    let dK := block B (reverseScan gammas gOut p) k
    HasGrads B gammas outs gOut p (k + 1) (setBlock out.1 k dK, if p.val ≠ 0 then
      setBlockCol out.2 k (rowSum (dK ⊙ block B (sRecv outs p) k)) else out.2) := by
  intro dK
  constructor
  · exact setBlock_rows h.dS
  · intro t ht
    by_cases h0 : p.val = 0
    · rw [if_neg (not_not.mpr h0)]
      exact h.dgamma t (.inr h0)
    · have hd := h.dgamma
      simp only [expectedAllscanBackward, gammaGrads_apply] at hd ⊢
      simp only [if_pos h0, dK, ← block_hadamard, ← blockCol_rowSum]
      exact setBlockCol_rows (fun t ht => hd t (.inl ht)) t (ht.resolve_right h0)

theorem HasGrads.complete (hdvd : K ∣ dk) {out : Matrix (Fin dk) (Fin dv) R × (Fin dk → R)}
    (h : HasGrads (dk / K) gammas outs gOut p K out) :
    out = ((expectedAllscanBackward gammas outs gOut).1 p,
      (expectedAllscanBackward gammas outs gOut).2 p) := by
  apply Prod.ext
  · exact eq_of_blocks hdvd rfl h.dS
  · exact eq_of_blocks hdvd rfl fun t ht => h.dgamma t (.inl ht)

end Grads

theorem allScanBackwardP2p_advances (hdvd : K ∣ dk) (gammas : Decays P dk R)
    (outs gOut : States P dk dv R) (p : Fin P) :
    Advances p (reverseRounds gammas (reverseScan gammas gOut) K)
      (allScanBackwardP2p p (gOut p) (gammas p) (sRecv outs p) K)
      (.ret ((expectedAllscanBackward gammas outs gOut).1 p,
        (expectedAllscanBackward gammas outs gOut).2 p)) := by
  have key : ∃ out, Advances p (reverseRounds gammas (reverseScan gammas gOut) K)
      (allScanBackwardP2p p (gOut p) (gammas p) (sRecv outs p) K) (.ret out) ∧
      HasGrads (dk / K) gammas outs gOut p K out := by
    unfold reverseRounds allScanBackwardP2p
    apply Advances.forRange (HasGrads (dk / K) gammas outs gOut p)
    · exact hasGrads_zero
    · intro k out _ hout
      have hin := incoming_nextRank (fun X => (⟨dk / K, block (dk / K) X k⟩ : Payload dv R))
        (fun q => rowScale (gammas q) (reverseScan gammas gOut q)) p
      have hs : reverseScan gammas gOut p = gOut p +
          gOutOf (fun q => rowScale (gammas q) (reverseScan gammas gOut q)) p :=
        reverseScan_reverse gammas gOut p
      rw [block_zero] at hin
      refine ⟨_, ?_, hout.succ⟩
      apply advances_downLine
      simp only [hin, into_self, ← block_rowScale, ← block_add, ← hs]
  obtain ⟨out, hadv, hout⟩ := key
  rwa [hout.complete hdvd] at hadv

theorem zecoBoundaryP2p_advances (sLocals : States P dk dv R) (gammas : Decays P dk R) (p : Fin P) :
    Advances p (upLine .boundary fun q => ⟨dk, expectedAllscan sLocals gammas q⟩)
      (zecoBoundaryP2p p (sLocals p) (gammas p))
      (.ret (sRecv (expectedAllscan sLocals gammas) p)) := by
  have hin := incoming_prevRank (fun X => (⟨dk, X⟩ : Payload dv R))
    (expectedAllscan sLocals gammas) p
  have hs := expectedAllscan_scans sLocals gammas p
  rw [ScansTo] at hs
  unfold zecoBoundaryP2p
  apply advances_upLine
  simp only [hin, into_self, ← hs]

def backwardRounds (gammas : Decays P dk R) (outs dSRecv : States P dk dv R) (K : ℕ) :
    List (Comm (Fin P) CommPhase (Payload dv R)) :=
  (upLine .boundary fun p => ⟨dk, outs p⟩) ++ ((downLine .handDown fun p => ⟨dk, dSRecv p⟩) ++
    reverseRounds gammas (reverseScan gammas (gOutOf dSRecv)) K)

theorem workerZecoBackward_advances (hdvd : K ∣ dk)
    (stageC : Fin P → Matrix (Fin dk) (Fin dv) R → Matrix (Fin dk) (Fin dv) R)
    (sLocals : States P dk dv R) (gammas : Decays P dk R) (p : Fin P) :
    let outs := expectedAllscan sLocals gammas
    let dSRecv : States P dk dv R := fun q => stageC q (sRecv outs q)
    Advances p (backwardRounds gammas outs dSRecv K)
      (workerZecoBackward p (stageC p) (sLocals p) (gammas p) K)
      (.ret (sRecv outs p, (expectedAllscanBackward gammas outs (gOutOf dSRecv)).1 p,
        (expectedAllscanBackward gammas outs (gOutOf dSRecv)).2 p)) := by
  intro outs dSRecv
  have hin := incoming_nextRank (fun X => (⟨dk, X⟩ : Payload dv R)) dSRecv p
  unfold workerZecoBackward backwardRounds
  apply Advances.append
  · exact (zecoBoundaryP2p_advances sLocals gammas p).bind _
  apply Advances.append
  · apply advances_downLine
    simp only [hin, into_self]
    rfl
  · exact (allScanBackwardP2p_advances hdvd gammas outs (gOutOf dSRecv) p).bind _

theorem scanRounds_valid (outs : States P dk dv R) (K : ℕ)
    {c : Comm (Fin P) CommPhase (Payload dv R)} (h : c ∈ scanRounds outs K) :
    c.src ≠ c.dst ∧ c.sent = false := by
  obtain ⟨k, -, hc⟩ := List.mem_flatMap.mp h
  exact upLine_valid _ _ hc

theorem reverseRounds_valid (gammas : Decays P dk R) (dS : States P dk dv R) (K : ℕ)
    {c : Comm (Fin P) CommPhase (Payload dv R)} (h : c ∈ reverseRounds gammas dS K) :
    c.src ≠ c.dst ∧ c.sent = false := by
  obtain ⟨k, -, hc⟩ := List.mem_flatMap.mp h
  exact downLine_valid _ _ hc

theorem backwardRounds_valid (gammas : Decays P dk R) (outs dSRecv : States P dk dv R) (K : ℕ)
    {c : Comm (Fin P) CommPhase (Payload dv R)} (h : c ∈ backwardRounds gammas outs dSRecv K) :
    c.src ≠ c.dst ∧ c.sent = false := by
  rcases List.mem_append.mp h with h | h
  · exact upLine_valid _ _ h
  rcases List.mem_append.mp h with h | h
  · exact downLine_valid _ _ h
  · obtain ⟨k, -, hc⟩ := List.mem_flatMap.mp h
    exact downLine_valid _ _ hc

theorem allScanP2p_realizes (hdvd : K ∣ dk) (sLocals : States P dk dv R) (gammas : Decays P dk R) :
    Realizes (scanRounds (expectedAllscan sLocals gammas) K)
      (fun p => allScanP2p p (sLocals p) (gammas p) K) (expectedAllscan sLocals gammas) where
  ne _ hc := (scanRounds_valid _ K hc).1
  unsent _ hc := (scanRounds_valid _ K hc).2
  advances := allScanP2p_advances hdvd sLocals gammas

theorem workerZecoBackward_realizes (hdvd : K ∣ dk)
    (stageC : Fin P → Matrix (Fin dk) (Fin dv) R → Matrix (Fin dk) (Fin dv) R)
    (sLocals : States P dk dv R) (gammas : Decays P dk R) :
    let outs := expectedAllscan sLocals gammas
    let dSRecv : States P dk dv R := fun q => stageC q (sRecv outs q)
    let d := expectedAllscanBackward gammas outs (gOutOf dSRecv)
    Realizes (backwardRounds gammas outs dSRecv K)
      (fun p => workerZecoBackward p (stageC p) (sLocals p) (gammas p) K)
      (fun p => (sRecv outs p, d.1 p, d.2 p)) where
  ne _ hc := (backwardRounds_valid _ _ _ K hc).1
  unsent _ hc := (backwardRounds_valid _ _ _ K hc).2
  advances := workerZecoBackward_advances hdvd stageC sLocals gammas

theorem scanRounds_length (outs : States P dk dv R) (K : ℕ) :
    (scanRounds outs K).length = K * (P - 1) := by
  simp [scanRounds, upLine, line_length]

theorem reverseRounds_length (gammas : Decays P dk R) (dS : States P dk dv R) (K : ℕ) :
    (reverseRounds gammas dS K).length = K * (P - 1) := by
  simp [reverseRounds, downLine, line_length]

theorem backwardRounds_length (gammas : Decays P dk R) (outs dSRecv : States P dk dv R) (K : ℕ) :
    (backwardRounds gammas outs dSRecv K).length = (K + 2) * (P - 1) := by
  simp only [backwardRounds, reverseRounds, upLine, downLine, List.length_append, line_length,
    List.length_flatMap, List.map_const', List.length_range, List.sum_replicate, smul_eq_mul]
  ring

end Results

/-- The point-to-point workers, over any interleaving of the ranks and in either mode. A scan worker
returns its rank's scan value; a backward worker takes no message of one phase for another and
returns its boundary and its gradients. Every run ends. -/
theorem p2p_correct [Semiring R] (hdvd : K ∣ dk) (sLocals : States P dk dv R)
    (gammas : Decays P dk R)
    (stageC : Fin P → Matrix (Fin dk) (Fin dv) R → Matrix (Fin dk) (Fin dv) R) (mode : Mode) :
    let outs := expectedAllscan sLocals gammas
    let dSRecv : States P dk dv R := fun r => stageC r (sRecv outs r)
    let d := expectedAllscanBackward gammas outs (gOutOf dSRecv)
    (∀ es s, State.Run mode (fun r => allScanP2p r (sLocals r) (gammas r) K) es s →
      (Runs.Stuck (State.step mode) s → s.Final) ∧ es.length ≤ 2 * (K * (P - 1)) ∧
      ∀ r a, s.proc r = .ret a → a = outs r) ∧
    (∀ es s,
      State.Run mode (fun r => workerZecoBackward r (stageC r) (sLocals r) (gammas r) K) es s →
      (Runs.Stuck (State.step mode) s → s.Final) ∧ es.length ≤ 2 * ((K + 2) * (P - 1)) ∧
      s.Matched ∧ ∀ r a, s.proc r = .ret a → a = (sRecv outs r, d.1 r, d.2 r)) := by
  intro outs dSRecv d
  have hscan := allScanP2p_realizes hdvd sLocals gammas
  have hback := workerZecoBackward_realizes hdvd stageC sLocals gammas
  refine ⟨fun es s hrun => ⟨final_of_stuck hscan hrun, ?_, fun r a => run_returns hscan hrun⟩,
    fun es s hrun => ⟨final_of_stuck hback hrun, ?_, run_matched hback hrun,
      fun r a => run_returns hback hrun⟩⟩
  · rw [← scanRounds_length outs K]
    exact run_length hscan hrun
  · rw [← backwardRounds_length gammas outs dSRecv K]
    exact run_length hback hrun

theorem p2p_correct_two :
    let workers (r : Fin 2) : Worker 2 1 ℤ _ := workerZecoBackward r
      (fun boundary => boundary + Matrix.of fun _ _ => 5)
      (Matrix.of fun (_ : Fin 1) (_ : Fin 1) => (r.val : ℤ) + 2) (fun _ => 3) 1
    ∃ s a, State.Run .rendezvous workers [.handshake 0 1, .handshake 1 0, .handshake 1 0] s ∧
      s.proc 0 = .ret a ∧ a.2.1 0 0 = 7 := by
  intro workers
  obtain ⟨s, a, hrun, ha⟩ : ∃ s a, State.Run .rendezvous workers
      [.handshake 0 1, .handshake 1 0, .handshake 1 0] s ∧ s.proc 0 = .ret a := ⟨_, _, rfl, rfl⟩
  refine ⟨s, a, hrun, ha, ?_⟩
  rw [((p2p_correct (one_dvd 1) (fun r => Matrix.of fun _ _ => (r.val : ℤ) + 2) (fun _ _ => 3)
    (fun _ boundary => boundary + Matrix.of fun _ _ => 5) .rendezvous).2 _ s hrun).2.2.2 0 a ha]
  decide +kernel

end ZeCo.P2p
