import ZeCo.AllscanBackwardKernel
import ZeCo.AllscanBuffers
import ZeCo.NetworkShared

/-!
The rings of one `worker.run` on the host's own buffers. Ring `h` uses slot `h` of the window and
the buffer set `rings h`: `run` submits one ring on the set `host_*`, `run_multi` one a head on sets
of their own, `run_batch` all of them on `host_*`, and their backward counterparts likewise.
-/

namespace ZeCo.SimplerAllscan

open Matrix Network AllscanBuffers

variable {R : Type*} {P dk dv K n : ℕ}

structure RankBufs (dk dv : ℕ) (R : Type*) where
  s : Matrix (Fin dk) (Fin dv) R
  g : Fin dk → R
  out : Matrix (Fin dk) (Fin dv) R
  gout : Matrix (Fin dk) (Fin dv) R
  outprev : Matrix (Fin dk) (Fin dv) R
  dS : Matrix (Fin dk) (Fin dv) R
  dgamma : Fin dk → R

def rankBufs (b : Bufs P dk dv R) (p : Fin P) : RankBufs dk dv R :=
  ⟨b.s p, b.g p, b.out p, b.gout p, b.outprev p, b.dS p, b.dgamma p⟩

def hostBufs (env : Fin P → Option ℕ → RankBufs dk dv R) (r : Option ℕ) : Bufs P dk dv R where
  s p := (env p r).s
  g p := (env p r).g
  out p := (env p r).out
  gout p := (env p r).gout
  outprev p := (env p r).outprev
  dS p := (env p r).dS
  dgamma p := (env p r).dgamma

theorem hostBufs_eq {env : Fin P → Option ℕ → RankBufs dk dv R} {r : Option ℕ}
    {b : Bufs P dk dv R} (h : ∀ p, env p r = rankBufs b p) : hostBufs env r = b := by
  simp only [hostBufs, h]
  rfl

def InputsKept (bufs : Option ℕ → Bufs P dk dv R) (p : Fin P)
    (e : Option ℕ → RankBufs dk dv R) : Prop :=
  ∀ r, (e r).s = (bufs r).s p ∧ (e r).g = (bufs r).g p ∧ (e r).gout = (bufs r).gout p ∧
    (e r).outprev = (bufs r).outprev p

theorem InputsKept.update {p : Fin P} {e : Option ℕ → RankBufs dk dv R} (he : InputsKept bufs p e)
    {r : Option ℕ} {b : RankBufs dk dv R} (hb : b.s = (e r).s ∧ b.g = (e r).g ∧
      b.gout = (e r).gout ∧ b.outprev = (e r).outprev) :
    InputsKept bufs p (Function.update e r b) := by
  intro r'
  by_cases hr : r' = r
  · subst hr
    rw [Function.update_self, hb.1, hb.2.1, hb.2.2.1, hb.2.2.2]
    exact he r'
  · rw [Function.update_of_ne hr]
    exact he r'

section Ring

variable {E G : Type*} {d : Domain P dk dv K n} {order : Fin P → Equiv.Perm (Fin n)}
  {waits : Fin P → Bool} {peer : Fin P → Option (Fin P)}
  {load : Fin P → Fin n → ℕ → E → Matrix (Fin (dk / K)) (Fin dv) R → G → G}
  {emit : Fin P → Fin n → ℕ → E → G → E × G}
  {outgoing : Fin P → Fin n → ℕ → G → Matrix (Fin (dk / K)) (Fin dv) R}
  {reduce : Fin P → Fin n → ℕ → E → G → E × G}
  {inflight : Fin P → Fin n → ℕ → Matrix (Fin (dk / K)) (Fin dv) R} {env₀ : Fin P → E}
  {reg₀ : Fin P → G}

theorem ringNet_touches {p : Fin P} {h : Fin n} {k : ℕ} {φ : Phase} {a : ℕ} (hk : k < K)
    (ha : a ∈ (ringNet d order waits peer load emit outgoing reduce inflight env₀ reg₀).touches
      (.act p h k φ)) : ∃ q, a ∈ d.slot q h := by
  cases φ with
  | wait =>
    obtain ⟨-, rfl⟩ := ha
    exact ⟨p, d.signalWord_mem_slot p h hk⟩
  | load =>
    obtain ⟨-, i, j, rfl⟩ := ha
    exact ⟨p, d.recvBlock_mem_slot p h hk i j⟩
  | store | flush =>
    obtain ⟨-, i, j, rfl⟩ := ha
    refine ⟨(peer p).getD p, ?_⟩
    simp only [ringNet, d.commRemotePtr_recvBlock]
    exact d.recvBlock_mem_slot _ h hk i j
  | notify =>
    obtain ⟨-, rfl⟩ := ha
    refine ⟨(peer p).getD p, ?_⟩
    simp only [ringNet, d.commRemotePtr_signalWord]
    exact d.signalWord_mem_slot _ h hk
  | emit | reduce => exact absurd ha id

theorem ringNet_isolated [Zero R] {es : List (Event (Fin P) (Fin n))}
    {s : State (Fin P) (Fin n) ℕ R E G}
    (hw : (ringNet d order waits peer load emit outgoing reduce inflight env₀ reg₀).Wired)
    (hrun : (ringNet d order waits peer load emit outgoing reduce inflight env₀ reg₀).Run es s)
    {p : Fin P} {h : Fin n} {k : ℕ} {φ : Phase} (he : .act p h k φ ∈ es) {a : ℕ}
    (ha : a ∈ (ringNet d order waits peer load emit outgoing reduce inflight env₀ reg₀).touches
      (.act p h k φ)) {q : Fin P} {h' : Fin n} (hslot : a ∈ d.slot q h') : h' = h := by
  have hk : k < K := (((Net.run_control hw.blocks_pos hrun).2 p h k φ).mp he).1
  obtain ⟨q', hq'⟩ := ringNet_touches hk ha
  exact (d.slot_disjoint hslot hq').2

theorem ringNet_size :
    (ringNet d order waits peer load emit outgoing reduce inflight env₀ reg₀).size =
      P * (n * (1 + 7 * K)) := by
  simp only [Net.size, ringNet, Finset.sum_const, Finset.card_univ, Fintype.card_fin, smul_eq_mul]

end Ring

variable [Semiring R]

def forwardRings (d : Domain P dk dv K n) (order : Fin P → Equiv.Perm (Fin n))
    (rings : Fin n → Option ℕ) (bufs : Option ℕ → Bufs P dk dv R)
    (inflight : Fin P → Fin n → ℕ → Matrix (Fin (dk / K)) (Fin dv) R)
    (reg₀ : Fin P → Tiles (dk / K) dv R) :
    Net (Fin P) (Fin n) ℕ R (Option ℕ → RankBufs dk dv R) (Tiles (dk / K) dv R) (dk / K) dv :=
  ringNet d order hasPrev nextRank
    (fun p h k e recv g => kernelLoad p (e (rings h)).s (e (rings h)).g k recv g)
    (fun _ h k e g =>
      let b := e (rings h)
      (Function.update e (rings h) { b with out := setBlock b.out k g.sTile }, g))
    (fun _ _ _ g => g.sTile)
    (fun _ _ _ e g => (e, g))
    inflight (fun p r => rankBufs (bufs r) p) reg₀

def backwardRings (d : Domain P dk dv K n) (order : Fin P → Equiv.Perm (Fin n))
    (rings : Fin n → Option ℕ) (bufs : Option ℕ → Bufs P dk dv R)
    (tmp inflight : Fin P → Fin n → ℕ → Matrix (Fin (dk / K)) (Fin dv) R)
    (reg₀ : Fin P → BackwardTiles (dk / K) dv R) :
    Net (Fin P) (Fin n) ℕ R (Option ℕ → RankBufs dk dv R) (BackwardTiles (dk / K) dv R)
      (dk / K) dv :=
  ringNet d order isNotSource prevRank
    (fun p h k e recv g => backwardLoad p (e (rings h)).gout k recv g)
    (fun p h k e g =>
      let b := e (rings h)
      let x := backwardEmit p b.g k ⟨b.dS, b.dgamma⟩ g
      (Function.update e (rings h) { b with dS := x.1.dS, dgamma := x.1.dgamma }, x.2))
    (fun _ _ _ g => g.recvTile)
    (fun p h k e g =>
      let b := e (rings h)
      let x := backwardReduce p b.outprev (tmp p h k) k ⟨b.dS, b.dgamma⟩ g
      (Function.update e (rings h) { b with dS := x.1.dS, dgamma := x.1.dgamma }, x.2))
    inflight (fun p r => rankBufs (bufs r) p) reg₀

section Forward

variable {d : Domain P dk dv K n} {order : Fin P → Equiv.Perm (Fin n)} {rings : Fin n → Option ℕ}
  {bufs : Option ℕ → Bufs P dk dv R}
  {inflight : Fin P → Fin n → ℕ → Matrix (Fin (dk / K)) (Fin dv) R}
  {reg₀ : Fin P → Tiles (dk / K) dv R}

theorem forwardRings_wired (hK : 0 < K) :
    (forwardRings d order rings bufs inflight reg₀).Wired := by
  apply ringNet_wired hK
  · intro p q h
    rw [nextRank_eq] at h
    exact decide_eq_true (by omega)
  · intro q hq
    have hq := of_decide_eq_true hq
    exact ⟨⟨q - 1, by omega⟩, nextRank_eq.mpr (by simp only; omega)⟩
  · intro p p' q h h'
    rw [nextRank_eq] at h h'
    exact Fin.ext (by omega)

theorem forwardRings_progressive : (forwardRings d order rings bufs inflight reg₀).Progressive
    (fun p h => order p h) (fun p _ => p) :=
  ringNet_progressive fun h => by
    rw [nextRank_eq] at h
    omega

def scanned (b : Bufs P dk dv R) : States P dk dv R := expectedAllscan b.s b.g

def forwardRingsOutline : (forwardRings d order rings bufs inflight reg₀).Outline where
  incoming q h k := block (dk / K) (sRecv (scanned (bufs (rings h))) q) k
  Fresh p _ e := InputsKept bufs p e
  At p h k point e g := InputsKept bufs p e ∧
    (point ≠ .before → g.sTile = block (dk / K) (scanned (bufs (rings h)) p) k)
  Done p _ e := InputsKept bufs p e
  fresh _ _ _ _ := ⟨rfl, rfl, rfl, rfl⟩
  start _ hf _ := ⟨hf, fun h => absurd rfl h⟩
  load {p h k e g} _ _ hat := by
    refine ⟨hat.1, fun _ => ?_⟩
    have hin := hat.1 (rings h)
    simp only [forwardRings, ringNet, hin.1, hin.2.1]
    exact kernelLoad_sTile (bufs (rings h)).s (bufs (rings h)).g p k g
  emit _ _ hat := ⟨hat.1.update ⟨rfl, rfl, rfl, rfl⟩, fun _ => hat.2 (by simp)⟩
  send hl hat := by
    rw [sRecv_nextRank _ hl.peer]
    exact hat.2 (by simp)
  reduce_next _ _ hat := ⟨hat.1, fun h => absurd rfl h⟩
  reduce_done _ _ hat := hat.1
  frame_fresh _ _ _ hf := ⟨hf.update ⟨rfl, rfl, rfl, rfl⟩, hf⟩
  frame_done _ _ _ hd := ⟨hd.update ⟨rfl, rfl, rfl, rfl⟩, hd⟩

structure ForwardLeft (rings : Fin n → Option ℕ) (bufs : Option ℕ → Bufs P dk dv R) (K : ℕ)
    (p : Fin P) (D : Set (Fin n × ℕ × Phase)) (e : Option ℕ → RankBufs dk dv R) : Prop where
  others : ∀ r, e r = { rankBufs (bufs r) p with out := (e r).out }
  untouched : ∀ r, (∀ h, rings h ≠ r) → (e r).out = (bufs r).out p
  written : ∀ {h k}, (h, k, .emit) ∈ D → ∀ t : Fin dk, InBlock (dk / K) k t →
    (e (rings h)).out t = scanned (bufs (rings h)) p t

theorem ForwardLeft.emit {p : Fin P} {h : Fin n} {k : ℕ} {D : Set (Fin n × ℕ × Phase)}
    {e : Option ℕ → RankBufs dk dv R} (hl : ForwardLeft rings bufs K p D e)
    {B : Matrix (Fin (dk / K)) (Fin dv) R}
    (hB : B = block (dk / K) (scanned (bufs (rings h)) p) k) :
    ForwardLeft rings bufs K p (insert (h, k, .emit) D) (Function.update e (rings h)
      { e (rings h) with out := setBlock (e (rings h)).out k B }) := by
  subst hB
  constructor
  · intro r
    by_cases hr : r = rings h
    · subst hr
      rw [Function.update_self, hl.others (rings h)]
    · rw [Function.update_of_ne hr]
      exact hl.others r
  · intro r hr
    rw [Function.update_of_ne (hr h).symm]
    exact hl.untouched r hr
  · intro h' k' hD t ht
    by_cases hr : rings h' = rings h
    · rw [hr, Function.update_self]
      simp only [setBlock_block]
      split_ifs with hk
      · rfl
      · rcases hD with hD | hD
        · cases hD
          exact absurd ht hk
        · rw [← hr]
          exact hl.written hD t ht
    · rw [Function.update_of_ne hr]
      rcases hD with hD | hD
      · cases hD
        exact absurd rfl hr
      · exact hl.written hD t ht

theorem ForwardLeft.other {p : Fin P} {x : Fin n × ℕ × Phase} {D : Set (Fin n × ℕ × Phase)}
    {e : Option ℕ → RankBufs dk dv R} (hl : ForwardLeft rings bufs K p D e)
    (hx : x.2.2 ≠ .emit) : ForwardLeft rings bufs K p (insert x D) e := by
  refine ⟨hl.others, hl.untouched, fun hD => hl.written (hD.resolve_left ?_)⟩
  rintro rfl
  exact hx rfl

theorem forwardRings_left (hK : 0 < K) {es : List (Event (Fin P) (Fin n))}
    {s : State (Fin P) (Fin n) ℕ R (Option ℕ → RankBufs dk dv R) (Tiles (dk / K) dv R)}
    (hrun : (forwardRings d order rings bufs inflight reg₀).Run es s) (p : Fin P) :
    ForwardLeft rings bufs K p {x | .act p x.1 x.2.1 x.2.2 ∈ es} (s.env p) := by
  apply Net.run_shared (forwardRings_wired hK) forwardRingsOutline
    (fun p D e => ForwardLeft rings bufs K p D e) ?_ ?_ ?_ ?_ hrun
  · intro p
    exact ⟨fun _ => rfl, fun _ _ => rfl, fun hD => absurd hD (by simp)⟩
  · intro p h k D e g _ hat hl
    exact hl.emit (hat.2 (by simp))
  · intro p h k D e g _ _ hl
    exact hl.other (by simp)
  · intro p h k φ D e hφ _ hl
    exact hl.other hφ

theorem ForwardLeft.complete (hdvd : K ∣ dk) {p : Fin P} {D : Set (Fin n × ℕ × Phase)}
    {e : Option ℕ → RankBufs dk dv R} (hl : ForwardLeft rings bufs K p D e)
    (hD : ∀ h, ∀ k < K, (h, k, .emit) ∈ D) (r : Option ℕ) :
    e r = rankBufs (if r ∈ List.ofFn rings then forwardRing (bufs r) else bufs r) p := by
  split_ifs with hr
  · obtain ⟨h, rfl⟩ := (List.mem_ofFn' rings r).mp hr
    have hout : (e (rings h)).out = scanned (bufs (rings h)) p := by
      funext t
      obtain ⟨k, hk, ht⟩ := exists_inBlock hdvd t
      exact hl.written (hD h k hk) t ht
    rw [hl.others, hout]
    rfl
  · have hne : ∀ h, rings h ≠ r := fun h hh => hr ((List.mem_ofFn' rings r).mpr ⟨h, hh⟩)
    rw [hl.others, hl.untouched r hne]
    rfl

theorem forwardRings_final (hK : 0 < K) (hdvd : K ∣ dk) {es : List (Event (Fin P) (Fin n))}
    {s : State (Fin P) (Fin n) ℕ R (Option ℕ → RankBufs dk dv R) (Tiles (dk / K) dv R)}
    (hrun : (forwardRings d order rings bufs inflight reg₀).Run es s)
    (hfinal : (forwardRings d order rings bufs inflight reg₀).Final s) :
    hostBufs s.env = fun r => if r ∈ List.ofFn rings then forwardRing (bufs r) else bufs r := by
  funext r
  apply hostBufs_eq
  intro p
  apply (forwardRings_left hK hrun p).complete hdvd
  intro h k hk
  exact Net.final_did (forwardRings_wired hK) hrun hfinal (Finset.mem_univ h) hk trivial

end Forward

section Backward

variable {d : Domain P dk dv K n} {order : Fin P → Equiv.Perm (Fin n)} {rings : Fin n → Option ℕ}
  {bufs : Option ℕ → Bufs P dk dv R}
  {tmp inflight : Fin P → Fin n → ℕ → Matrix (Fin (dk / K)) (Fin dv) R}
  {reg₀ : Fin P → BackwardTiles (dk / K) dv R}

theorem backwardRings_wired (hK : 0 < K) :
    (backwardRings d order rings bufs tmp inflight reg₀).Wired := by
  apply ringNet_wired hK
  · intro p q h
    rw [prevRank_eq] at h
    exact decide_eq_true (by omega)
  · intro q hq
    have hq := of_decide_eq_true hq
    exact ⟨⟨q + 1, by omega⟩, prevRank_eq.mpr rfl⟩
  · intro p p' q h h'
    rw [prevRank_eq] at h h'
    exact Fin.ext (by omega)

theorem backwardRings_progressive :
    (backwardRings d order rings bufs tmp inflight reg₀).Progressive
      (fun p h => order p h) (fun p _ => P - p) :=
  ringNet_progressive fun h => by
    rw [prevRank_eq] at h
    omega

def reversed (b : Bufs P dk dv R) : States P dk dv R := reverseScan b.g b.gout

def backwardRingsOutline :
    (backwardRings d order rings bufs tmp inflight reg₀).Outline where
  incoming q h k := block (dk / K) (message (bufs (rings h)).g (reversed (bufs (rings h))) q) k
  Fresh p _ e := InputsKept bufs p e
  At p h k point e g := InputsKept bufs p e ∧
    (point ≠ .before → g.sTile = block (dk / K) (reversed (bufs (rings h)) p) k) ∧
    (point = .emitted → p.val ≠ 0 → g.recvTile =
      block (dk / K) (rowScale ((bufs (rings h)).g p) (reversed (bufs (rings h)) p)) k)
  Done p _ e := InputsKept bufs p e
  fresh _ _ _ _ := ⟨rfl, rfl, rfl, rfl⟩
  start _ hf _ := ⟨hf, fun h => absurd rfl h, fun h => by cases h⟩
  load {p h k e g} _ _ hat := by
    refine ⟨hat.1, fun _ => ?_, fun h => by cases h⟩
    simp only [backwardRings, ringNet, (hat.1 (rings h)).2.2.1]
    exact backwardLoad_sTile (bufs (rings h)).g (bufs (rings h)).gout p k g
  emit {p h k e g} _ _ hat := by
    have hs := hat.2.1 (by simp)
    refine ⟨hat.1.update ⟨rfl, rfl, rfl, rfl⟩, fun _ => ?_, fun _ hp => ?_⟩
    · simp only [backwardRings, ringNet, backwardEmit]
      split_ifs <;> exact hs
    · simp only [backwardRings, ringNet, backwardEmit, if_neg hp, hs, (hat.1 (rings h)).2.1,
        block_rowScale]
  send hl hat := by
    rw [message_prevRank _ _ hl.peer]
    exact hat.2.2 rfl (prevRank_ne_zero hl.peer)
  reduce_next _ _ hat :=
    ⟨hat.1.update ⟨rfl, rfl, rfl, rfl⟩, fun h => absurd rfl h, fun h => by cases h⟩
  reduce_done _ _ hat := hat.1.update ⟨rfl, rfl, rfl, rfl⟩
  frame_fresh _ _ _ hf := ⟨hf.update ⟨rfl, rfl, rfl, rfl⟩, hf.update ⟨rfl, rfl, rfl, rfl⟩⟩
  frame_done _ _ _ hd := ⟨hd.update ⟨rfl, rfl, rfl, rfl⟩, hd.update ⟨rfl, rfl, rfl, rfl⟩⟩

def decayGrads (b : Bufs P dk dv R) (p : Fin P) : Fin dk → R :=
  rowSum (reversed b p ⊙ b.outprev p)

structure BackwardLeft (rings : Fin n → Option ℕ) (bufs : Option ℕ → Bufs P dk dv R) (K : ℕ)
    (p : Fin P) (D : Set (Fin n × ℕ × Phase)) (e : Option ℕ → RankBufs dk dv R) : Prop where
  others : ∀ r, e r = { rankBufs (bufs r) p with dS := (e r).dS, dgamma := (e r).dgamma }
  untouched : ∀ r, (∀ h, rings h ≠ r) →
    (e r).dS = (bufs r).dS p ∧ (e r).dgamma = (bufs r).dgamma p
  terminal : p.val = 0 → ∀ r, (e r).dgamma = (bufs r).dgamma p
  written : ∀ {h k}, (h, k, .emit) ∈ D → ∀ t : Fin dk, InBlock (dk / K) k t →
    (e (rings h)).dS t = reversed (bufs (rings h)) p t
  reduced : p.val ≠ 0 → ∀ {h k}, (h, k, .reduce) ∈ D → ∀ t : Fin dk, InBlock (dk / K) k t →
    (e (rings h)).dgamma t = decayGrads (bufs (rings h)) p t

theorem BackwardLeft.emit {p : Fin P} {h : Fin n} {k : ℕ} {D : Set (Fin n × ℕ × Phase)}
    {e : Option ℕ → RankBufs dk dv R} (hl : BackwardLeft rings bufs K p D e)
    {B : Matrix (Fin (dk / K)) (Fin dv) R}
    (hB : B = block (dk / K) (reversed (bufs (rings h)) p) k) :
    BackwardLeft rings bufs K p (insert (h, k, .emit) D) (Function.update e (rings h)
      { e (rings h) with dS := setBlock (e (rings h)).dS k B }) := by
  subst hB
  have dgamma (r : Option ℕ) : (Function.update e (rings h) { e (rings h) with
      dS := setBlock (e (rings h)).dS k (block (dk / K) (reversed (bufs (rings h)) p) k) }
      r).dgamma = (e r).dgamma := by
    by_cases hr : r = rings h
    · subst hr
      rw [Function.update_self]
    · rw [Function.update_of_ne hr]
  constructor
  · intro r
    by_cases hr : r = rings h
    · subst hr
      rw [Function.update_self, hl.others (rings h)]
    · rw [Function.update_of_ne hr]
      exact hl.others r
  · intro r hr
    rw [Function.update_of_ne (hr h).symm]
    exact hl.untouched r hr
  · intro hp r
    rw [dgamma]
    exact hl.terminal hp r
  · intro h' k' hD t ht
    by_cases hr : rings h' = rings h
    · rw [hr, Function.update_self]
      simp only [setBlock_block]
      split_ifs with hk
      · rfl
      · rcases hD with hD | hD
        · cases hD
          exact absurd ht hk
        · rw [← hr]
          exact hl.written hD t ht
    · rw [Function.update_of_ne hr]
      rcases hD with hD | hD
      · cases hD
        exact absurd rfl hr
      · exact hl.written hD t ht
  · intro hp h' k' hD t ht
    rw [dgamma]
    exact hl.reduced hp (hD.resolve_left (by simp)) t ht

theorem BackwardLeft.reduce {p : Fin P} {h : Fin n} {k : ℕ} {D : Set (Fin n × ℕ × Phase)}
    {e : Option ℕ → RankBufs dk dv R} (hl : BackwardLeft rings bufs K p D e) (hp : p.val ≠ 0)
    {x : Fin (dk / K) → R} (hx : x = blockCol (dk / K) (decayGrads (bufs (rings h)) p) k) :
    BackwardLeft rings bufs K p (insert (h, k, .reduce) D) (Function.update e (rings h)
      { e (rings h) with dgamma := setBlockCol (e (rings h)).dgamma k x }) := by
  subst hx
  have dS (r : Option ℕ) : (Function.update e (rings h) { e (rings h) with
      dgamma := setBlockCol (e (rings h)).dgamma k
        (blockCol (dk / K) (decayGrads (bufs (rings h)) p) k) } r).dS = (e r).dS := by
    by_cases hr : r = rings h
    · subst hr
      rw [Function.update_self]
    · rw [Function.update_of_ne hr]
  constructor
  · intro r
    by_cases hr : r = rings h
    · subst hr
      rw [Function.update_self, hl.others (rings h)]
    · rw [Function.update_of_ne hr]
      exact hl.others r
  · intro r hr
    rw [Function.update_of_ne (hr h).symm]
    exact hl.untouched r hr
  · exact fun h0 => absurd h0 hp
  · intro h' k' hD t ht
    rw [dS]
    exact hl.written (hD.resolve_left (by simp)) t ht
  · intro _ h' k' hD t ht
    by_cases hr : rings h' = rings h
    · rw [hr, Function.update_self]
      simp only [setBlockCol_block]
      split_ifs with hk
      · rfl
      · rcases hD with hD | hD
        · cases hD
          exact absurd ht hk
        · rw [← hr]
          exact hl.reduced hp hD t ht
    · rw [Function.update_of_ne hr]
      rcases hD with hD | hD
      · cases hD
        exact absurd rfl hr
      · exact hl.reduced hp hD t ht

theorem BackwardLeft.other {p : Fin P} {x : Fin n × ℕ × Phase} {D : Set (Fin n × ℕ × Phase)}
    {e : Option ℕ → RankBufs dk dv R} (hl : BackwardLeft rings bufs K p D e)
    (hx : x.2.2 ≠ .emit) (hx' : x.2.2 = .reduce → p.val = 0) :
    BackwardLeft rings bufs K p (insert x D) e := by
  refine ⟨hl.others, hl.untouched, hl.terminal, fun hD => hl.written (hD.resolve_left ?_),
    fun hp _ _ hD => hl.reduced hp (hD.resolve_left ?_)⟩
  · rintro rfl
    exact hx rfl
  · rintro rfl
    exact hp (hx' rfl)

-- Rank 0 forms no message and leaves `dgamma` alone.
theorem backwardRings_left (hK : 0 < K) {es : List (Event (Fin P) (Fin n))}
    {s : State (Fin P) (Fin n) ℕ R (Option ℕ → RankBufs dk dv R) (BackwardTiles (dk / K) dv R)}
    (hrun : (backwardRings d order rings bufs tmp inflight reg₀).Run es s) (p : Fin P) :
    BackwardLeft rings bufs K p {x | .act p x.1 x.2.1 x.2.2 ∈ es} (s.env p) := by
  apply Net.run_shared (backwardRings_wired hK) backwardRingsOutline
    (fun p D e => BackwardLeft rings bufs K p D e) ?_ ?_ ?_ ?_ hrun
  · intro p
    exact ⟨fun _ => rfl, fun _ _ => ⟨rfl, rfl⟩, fun _ _ => rfl, fun hD => absurd hD (by simp),
      fun _ _ _ hD => absurd hD (by simp)⟩
  · intro p h k D e g _ hat hl
    have hleft := hl.emit (hat.2.1 (by simp))
    simp only [backwardRings, ringNet, backwardEmit]
    split_ifs <;> exact hleft
  · intro p h k D e g _ hat hl
    simp only [backwardRings, ringNet, backwardReduce]
    split_ifs with hp
    · rw [Function.update_eq_self]
      exact hl.other (by simp) fun _ => hp
    · apply hl.reduce hp
      rw [hat.2.1 (by simp), (hat.1 (rings h)).2.2.2, decayGrads, blockCol_rowSum, block_hadamard]
  · intro p h k φ D e hφ hφ' hl
    exact hl.other hφ fun h => absurd h hφ'

theorem BackwardLeft.complete (hdvd : K ∣ dk) {p : Fin P} {D : Set (Fin n × ℕ × Phase)}
    {e : Option ℕ → RankBufs dk dv R} (hl : BackwardLeft rings bufs K p D e)
    (hD : ∀ h, ∀ k < K, (h, k, .emit) ∈ D ∧ (h, k, .reduce) ∈ D) (r : Option ℕ) :
    e r = rankBufs (if r ∈ List.ofFn rings then backwardRing (bufs r) else bufs r) p := by
  split_ifs with hr
  · obtain ⟨h, rfl⟩ := (List.mem_ofFn' rings r).mp hr
    have hdS : (e (rings h)).dS = reversed (bufs (rings h)) p := by
      funext t
      obtain ⟨k, hk, ht⟩ := exists_inBlock hdvd t
      exact hl.written (hD h k hk).1 t ht
    have hdgamma : (e (rings h)).dgamma = (backwardRing (bufs (rings h))).dgamma p := by
      by_cases hp : p.val = 0
      · rw [hl.terminal hp]
        exact (if_pos hp).symm
      · refine Eq.trans ?_ (if_neg hp).symm
        funext t
        obtain ⟨k, hk, ht⟩ := exists_inBlock hdvd t
        exact hl.reduced hp (hD h k hk).2 t ht
    rw [hl.others, hdS, hdgamma]
    rfl
  · have hne : ∀ h, rings h ≠ r := fun h hh => hr ((List.mem_ofFn' rings r).mpr ⟨h, hh⟩)
    rw [hl.others, (hl.untouched r hne).1, (hl.untouched r hne).2]
    rfl

theorem backwardRings_final (hK : 0 < K) (hdvd : K ∣ dk) {es : List (Event (Fin P) (Fin n))}
    {s : State (Fin P) (Fin n) ℕ R (Option ℕ → RankBufs dk dv R) (BackwardTiles (dk / K) dv R)}
    (hrun : (backwardRings d order rings bufs tmp inflight reg₀).Run es s)
    (hfinal : (backwardRings d order rings bufs tmp inflight reg₀).Final s) :
    hostBufs s.env = fun r => if r ∈ List.ofFn rings then backwardRing (bufs r) else bufs r := by
  funext r
  apply hostBufs_eq
  intro p
  apply (backwardRings_left hK hrun p).complete hdvd
  intro h k hk
  exact ⟨Net.final_did (backwardRings_wired hK) hrun hfinal (Finset.mem_univ h) hk trivial,
    Net.final_did (backwardRings_wired hK) hrun hfinal (Finset.mem_univ h) hk trivial⟩

end Backward

end ZeCo.SimplerAllscan
