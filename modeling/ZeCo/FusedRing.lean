import ZeCo.AllscanCommon
import ZeCo.Blocks
import ZeCo.NetworkProgress

namespace ZeCo.Fused

open Matrix Network

variable {R : Type*} {P dk dv B : ℕ}

inductive Ring where
  | forward | reverse
  deriving DecidableEq

inductive WindowWord (P : ℕ) where
  | dst (ring : Ring) (rank : Fin P) (row col : ℕ)
  | signal (ring : Ring) (rank : Fin P) (kk : ℕ)
  deriving DecidableEq

def dstBlock (B dv : ℕ) (ring : Ring) (rank : Fin P) (kk : ℕ) : Tile (WindowWord P) B dv :=
  fun i j => .dst ring rank (kk * B + i) j

theorem dstBlock_inj {ring ring' : Ring} {p q : Fin P} {k k' : ℕ} {i i' : Fin B} {j j' : Fin dv}
    (h : dstBlock B dv ring p k i j = dstBlock B dv ring' q k' i' j') :
    ring = ring' ∧ p = q ∧ k = k' ∧ i = i' ∧ j = j' := by
  simp only [dstBlock, WindowWord.dst.injEq] at h
  obtain ⟨hr, hp, hrow, hcol⟩ := h
  obtain ⟨hk, hi⟩ := radix_inj i.isLt i'.isLt hrow
  exact ⟨hr, hp, hk, Fin.ext hi, Fin.ext hcol⟩

structure RingTiles (B dv : ℕ) (R : Type*) where
  recv : Matrix (Fin B) (Fin dv) R
  send : Matrix (Fin B) (Fin dv) R

section Steps

variable [Semiring R]

def allscanLoad (r : Fin P) (sLocal : Matrix (Fin dk) (Fin dv) R) (kk : ℕ)
    (dst : Matrix (Fin B) (Fin dv) R) (g : RingTiles B dv R) : RingTiles B dv R :=
  if r.val = 0 then { g with send := block B sLocal kk } else { g with recv := dst }

/-- Rank 0 stores `S_out`, the others `S_recv`; the last rank forms no block to send. -/
def allscanEmit (r : Fin P) (sLocal : Matrix (Fin dk) (Fin dv) R) (gamma : Fin dk → R) (kk : ℕ)
    (sOut sRecv : Matrix (Fin dk) (Fin dv) R) (g : RingTiles B dv R) :
    Matrix (Fin dk) (Fin dv) R × Matrix (Fin dk) (Fin dv) R × RingTiles B dv R :=
  if r.val = 0 then (setBlock sOut kk g.send, sRecv, g)
  else
    let sRecv := setBlock sRecv kk g.recv
    if r.val = P - 1 then (sOut, sRecv, g)
    else (sOut, sRecv, { g with send := block B sLocal kk + rowScale (blockCol B gamma kk) g.recv })

variable {sLocals : States P dk dv R} {gammas : Decays P dk R}

def BoundaryRows (B : ℕ) (sLocals : States P dk dv R) (gammas : Decays P dk R) (r : Fin P) (m : ℕ)
    (x : Matrix (Fin dk) (Fin dv) R) : Prop :=
  r.val ≠ 0 → ∀ t : Fin dk, t.val < m * B → x t = sRecv (expectedAllscan sLocals gammas) r t

def Loaded (sLocals : States P dk dv R) (gammas : Decays P dk R) (r : Fin P) (kk : ℕ)
    (g : RingTiles B dv R) : Prop :=
  (r.val = 0 → g.send = block B (expectedAllscan sLocals gammas r) kk) ∧
    (r.val ≠ 0 → g.recv = block B (sRecv (expectedAllscan sLocals gammas) r) kk)

theorem allscanLoad_loaded (r : Fin P) (kk : ℕ) (g : RingTiles B dv R) :
    Loaded sLocals gammas r kk (allscanLoad r (sLocals r) kk
      (if decide (r.val ≠ 0) then block B (sRecv (expectedAllscan sLocals gammas) r) kk else 0)
      g) := by
  have hs := expectedAllscan_scans sLocals gammas r
  rw [ScansTo] at hs
  by_cases h : r.val = 0
  · rw [sRecv_first _ h, rowScale_zero, add_zero] at hs
    rw [allscanLoad, if_pos h]
    exact ⟨fun _ => by rw [hs], fun h' => absurd h h'⟩
  · rw [allscanLoad, if_neg h, if_pos (decide_eq_true h)]
    exact ⟨fun h' => absurd h' h, fun _ => rfl⟩

theorem allscanEmit_rows {r : Fin P} {kk : ℕ} {sOut x : Matrix (Fin dk) (Fin dv) R}
    {g : RingTiles B dv R} (hx : BoundaryRows B sLocals gammas r kk x)
    (hg : Loaded sLocals gammas r kk g) : BoundaryRows B sLocals gammas r (kk + 1)
      (allscanEmit r (sLocals r) (gammas r) kk sOut x g).2.1 := by
  intro hr t ht
  rw [allscanEmit, if_neg hr, hg.2 hr]
  split_ifs <;> exact setBlock_rows (hx hr) t ht

theorem allscanEmit_send {r : Fin P} {kk : ℕ} {sOut x : Matrix (Fin dk) (Fin dv) R}
    {g : RingTiles B dv R} (hg : Loaded sLocals gammas r kk g) (hlast : r.val + 1 < P) :
    (allscanEmit r (sLocals r) (gammas r) kk sOut x g).2.2.send =
      block B (expectedAllscan sLocals gammas r) kk := by
  rw [allscanEmit]
  split_ifs with h h'
  · exact hg.1 h
  · omega
  · have hs := expectedAllscan_scans sLocals gammas r
    rw [ScansTo] at hs
    simp only [hg.2 h]
    rw [hs, block_add, block_rowScale]

end Steps

section ReverseSteps

variable [Semiring R]

structure ReverseOut (dk dv : ℕ) (R : Type*) where
  dStot : Matrix (Fin dk) (Fin dv) R
  dgam : Fin dk → R

def bwdLoad (r : Fin P) (dSrecv : Matrix (Fin dk) (Fin dv) R) (kk : ℕ)
    (dst : Matrix (Fin B) (Fin dv) R) (g : RingTiles B dv R) : RingTiles B dv R :=
  if r.val = P - 1 then { g with send := block B dSrecv kk } else { g with recv := dst }

/-- The last rank is the source and rank 0 the terminal; both store a zero `dgam`. -/
def bwdEmit (r : Fin P) (dSrecv : Matrix (Fin dk) (Fin dv) R) (gamma : Fin dk → R) (kk : ℕ)
    (out : ReverseOut dk dv R) (g : RingTiles B dv R) : ReverseOut dk dv R × RingTiles B dv R :=
  let zero : Matrix (Fin dk) (Fin dv) R := 0
  let zerov : Fin dk → R := 0
  if r.val = P - 1 then
    (⟨setBlock out.dStot kk (block B zero kk), setBlockCol out.dgam kk (blockCol B zerov kk)⟩, g)
  else
    let dStot := setBlock out.dStot kk g.recv
    if r.val = 0 then (⟨dStot, setBlockCol out.dgam kk (blockCol B zerov kk)⟩, g)
    else
      (⟨dStot, out.dgam⟩,
        { g with send := block B dSrecv kk + rowScale (blockCol B gamma kk) g.recv })

def bwdReduce (r : Fin P) (srecv : Matrix (Fin dk) (Fin dv) R) (kk : ℕ) (out : ReverseOut dk dv R)
    (g : RingTiles B dv R) : ReverseOut dk dv R :=
  if r.val = P - 1 ∨ r.val = 0 then out
  else { out with dgam := setBlockCol out.dgam kk (rowSum (g.recv ⊙ block B srecv kk)) }

variable {gammas : Decays P dk R} {outs dSRecv : States P dk dv R}

theorem gOutOf_prevRank (dSRecv : States P dk dv R) {p q : Fin P} (h : prevRank p = some q) :
    gOutOf dSRecv q = dSRecv p := by
  have hq := prevRank_eq.mp h
  have hlt : q.val + 1 < P := hq ▸ p.isLt
  rw [gOutOf, dif_pos hlt]
  congr 1
  exact Fin.ext hq.symm

theorem reverseScan_prevRank (gammas : Decays P dk R) (dSRecv : States P dk dv R) {p q : Fin P}
    (h : prevRank p = some q) : reverseScan gammas (gOutOf dSRecv) q =
      dSRecv p + rowScale (gammas p) (reverseScan gammas (gOutOf dSRecv) p) := by
  have hs := reverseScan_reverse gammas (gOutOf dSRecv) q
  rwa [ReverseScansTo, gOutOf_prevRank dSRecv h, message_prevRank gammas _ h] at hs

theorem reverseScan_last (gammas : Decays P dk R) (dSRecv : States P dk dv R) {p : Fin P}
    (h : p.val = P - 1) : reverseScan gammas (gOutOf dSRecv) p = 0 := by
  have hlast : ¬ p.val + 1 < P := by omega
  have hs := reverseScan_reverse gammas (gOutOf dSRecv) p
  rwa [ReverseScansTo, gOutOf, message, dif_neg hlast, dif_neg hlast, add_zero] at hs

theorem gammaGrads_ends (gammas : Decays P dk R) (outs dSRecv : States P dk dv R) {p : Fin P}
    (h : p.val = P - 1 ∨ p.val = 0) :
    gammaGrads (reverseScan gammas (gOutOf dSRecv)) outs p = 0 := by
  funext t
  rw [gammaGrads_apply]
  rcases h with h | h
  · simp [reverseScan_last gammas dSRecv h]
  · simp [sRecv_first outs h]

structure ReverseRows (B : ℕ) (gammas : Decays P dk R) (outs dSRecv : States P dk dv R) (r : Fin P)
    (m n : ℕ) (out : ReverseOut dk dv R) : Prop where
  dStot : ∀ t : Fin dk, t.val < m * B →
    out.dStot t = (expectedAllscanBackward gammas outs (gOutOf dSRecv)).1 r t
  dgam : ∀ t : Fin dk, t.val < n * B →
    out.dgam t = (expectedAllscanBackward gammas outs (gOutOf dSRecv)).2 r t

theorem reverseRows_zero (r : Fin P) (out : ReverseOut dk dv R) :
    ReverseRows B gammas outs dSRecv r 0 0 out := by
  constructor <;> intro t ht <;> rw [Nat.zero_mul] at ht <;> exact absurd ht (Nat.not_lt_zero _)

theorem ReverseRows.complete {K m : ℕ} (hdvd : K ∣ dk) (hm : m = K) {r : Fin P}
    {out : ReverseOut dk dv R} (h : ReverseRows (dk / K) gammas outs dSRecv r m m out) :
    out.dStot = (expectedAllscanBackward gammas outs (gOutOf dSRecv)).1 r ∧
      out.dgam = (expectedAllscanBackward gammas outs (gOutOf dSRecv)).2 r := by
  constructor
  · exact eq_of_blocks hdvd hm h.dStot
  · exact eq_of_blocks hdvd hm h.dgam

def ReverseLoaded (gammas : Decays P dk R) (dSRecv : States P dk dv R) (r : Fin P) (kk : ℕ)
    (g : RingTiles B dv R) : Prop :=
  (r.val = P - 1 → r.val ≠ 0 → g.send = block B (dSRecv r) kk) ∧
    (r.val ≠ P - 1 → g.recv = block B (reverseScan gammas (gOutOf dSRecv) r) kk)

theorem bwdLoad_loaded {r : Fin P} (kk : ℕ) {dSrecv : Matrix (Fin dk) (Fin dv) R}
    (g : RingTiles B dv R) (hd : r.val ≠ 0 → dSrecv = dSRecv r) :
    ReverseLoaded gammas dSRecv r kk (bwdLoad r dSrecv kk (if decide (r.val ≠ P - 1) then
      block B (reverseScan gammas (gOutOf dSRecv) r) kk else 0) g) := by
  by_cases h : r.val = P - 1
  · rw [bwdLoad, if_pos h]
    exact ⟨fun _ h0 => by rw [hd h0], fun h' => absurd h h'⟩
  · rw [bwdLoad, if_neg h, if_pos (decide_eq_true h)]
    exact ⟨fun h' => absurd h' h, fun _ => rfl⟩

def dgamRows (r : Fin P) (kk : ℕ) : ℕ := if r.val = P - 1 ∨ r.val = 0 then kk + 1 else kk

theorem bwdEmit_rows {r : Fin P} {kk : ℕ} {dSrecv : Matrix (Fin dk) (Fin dv) R}
    {gamma : Fin dk → R} {out : ReverseOut dk dv R} {g : RingTiles B dv R}
    (hout : ReverseRows B gammas outs dSRecv r kk kk out)
    (hg : ReverseLoaded gammas dSRecv r kk g) :
    ReverseRows B gammas outs dSRecv r (kk + 1) (dgamRows r kk)
      (bwdEmit r dSrecv gamma kk out g).1 := by
  have hzero (h : r.val = P - 1 ∨ r.val = 0) (t : Fin dk) (ht : t.val < (kk + 1) * B) :
      setBlockCol out.dgam kk (blockCol B (0 : Fin dk → R) kk) t =
        (expectedAllscanBackward gammas outs (gOutOf dSRecv)).2 r t := by
    have hd := hout.dgam
    simp only [expectedAllscanBackward, gammaGrads_ends gammas outs dSRecv h] at hd ⊢
    exact setBlockCol_rows hd t ht
  rw [bwdEmit]
  split_ifs with hlast hfirst
  · rw [dgamRows, if_pos (.inl hlast)]
    refine ⟨fun t ht => ?_, hzero (.inl hlast)⟩
    have hd := hout.dStot
    simp only [expectedAllscanBackward, reverseScan_last gammas dSRecv hlast] at hd ⊢
    exact setBlock_rows hd t ht
  · rw [dgamRows, if_pos (.inr hfirst)]
    refine ⟨fun t ht => ?_, hzero (.inr hfirst)⟩
    rw [hg.2 hlast]
    exact setBlock_rows hout.dStot t ht
  · rw [dgamRows, if_neg (not_or.mpr ⟨hlast, hfirst⟩)]
    refine ⟨fun t ht => ?_, hout.dgam⟩
    rw [hg.2 hlast]
    exact setBlock_rows hout.dStot t ht

theorem bwdEmit_send {r q : Fin P} {kk : ℕ} {dSrecv : Matrix (Fin dk) (Fin dv) R}
    {out : ReverseOut dk dv R} {g : RingTiles B dv R} (hd : r.val ≠ 0 → dSrecv = dSRecv r)
    (hg : ReverseLoaded gammas dSRecv r kk g) (hq : prevRank r = some q) :
    (bwdEmit r dSrecv (gammas r) kk out g).2.send =
      block B (reverseScan gammas (gOutOf dSRecv) q) kk := by
  have hr := prevRank_ne_zero hq
  rw [bwdEmit, reverseScan_prevRank gammas dSRecv hq]
  split_ifs with hlast
  · rw [reverseScan_last gammas dSRecv hlast, rowScale_zero, add_zero]
    exact hg.1 hlast hr
  · simp only [hg.2 hlast, hd hr, block_add, block_rowScale]

theorem bwdEmit_recv (r : Fin P) (dSrecv : Matrix (Fin dk) (Fin dv) R) (gamma : Fin dk → R) (kk : ℕ)
    (out : ReverseOut dk dv R) (g : RingTiles B dv R) :
    (bwdEmit r dSrecv gamma kk out g).2.recv = g.recv := by
  rw [bwdEmit]
  split_ifs <;> rfl

theorem bwdReduce_rows {r : Fin P} {kk : ℕ} {srecv : Matrix (Fin dk) (Fin dv) R}
    {out : ReverseOut dk dv R} {g : RingTiles B dv R} (hs : r.val ≠ 0 → srecv = sRecv outs r)
    (hout : ReverseRows B gammas outs dSRecv r (kk + 1) (dgamRows r kk) out)
    (hg : r.val ≠ P - 1 → g.recv = block B (reverseScan gammas (gOutOf dSRecv) r) kk) :
    ReverseRows B gammas outs dSRecv r (kk + 1) (kk + 1) (bwdReduce r srecv kk out g) := by
  rw [dgamRows] at hout
  rw [bwdReduce]
  split_ifs at hout ⊢ with h
  · exact hout
  · obtain ⟨hlast, hfirst⟩ := not_or.mp h
    refine ⟨hout.dStot, fun t ht => ?_⟩
    have hd := hout.dgam
    simp only [expectedAllscanBackward, gammaGrads_apply] at hd ⊢
    rw [hg hlast, hs hfirst, ← block_hadamard, ← blockCol_rowSum]
    exact setBlockCol_rows hd t ht

end ReverseSteps

end ZeCo.Fused
