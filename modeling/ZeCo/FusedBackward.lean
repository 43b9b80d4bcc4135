import ZeCo.FusedRing
import ZeCo.NetworkTermination

namespace ZeCo.Fused

open Matrix Network

variable {R X Y Z : Type*} {P dk dv K : ℕ}

inductive BackwardTask where
  | recompute | forwardRing | gradO | reverseRing | gradH
  deriving DecidableEq

instance : Fintype BackwardTask :=
  ⟨{.recompute, .forwardRing, .gradO, .reverseRing, .gradH}, fun t => by cases t <;> simp⟩

inductive BackwardTensor where
  | snap | cprev | bs | stot
  | sOut | sRecv
  | dQ | dKo | dVo | dgcso | dH | dCp | dSrecv
  | dStot | dgam
  | dK | dV | dA | dSl | dCv
  deriving DecidableEq

def backwardWrites (r : Fin P) : BackwardTask → List BackwardTensor
  | .recompute => [.snap, .cprev, .bs, .stot]
  | .forwardRing => if r.val = 0 then [.sOut] else [.sRecv]
  | .gradO => [.dQ, .dKo, .dVo, .dgcso, .dH, .dCp, .dSrecv]
  | .reverseRing => [.dStot, .dgam]
  | .gradH => [.dK, .dV, .dA, .dSl, .dCv]

def backwardReads (r : Fin P) : BackwardTask → List BackwardTensor
  | .recompute => []
  | .forwardRing => [.stot]
  | .gradO => [.snap, .cprev, .bs] ++ if r.val = 0 then [] else [.sRecv]
  | .reverseRing =>
    if r.val = P - 1 then [.dSrecv]
    else if r.val = 0 then []
    else [.dSrecv, .sRecv]
  | .gradH => [.snap, .cprev, .bs, .dH, .dCp, .dKo, .dVo, .dgcso, .dStot, .dgam]

/-- A dispatch needs the producers of its tensors; the ring steps also keep their order. -/
def backwardNeeds (r : Fin P) (t t' : BackwardTask) : Bool :=
  (backwardReads r t).any (· ∈ backwardWrites r t') || (t = .reverseRing && t' = .forwardRing)

/-- The contents of a rank's tensors: `record` are the tensors of `recompute` but `stot`, `adjoints`
those of `grad_o` but `dSrecv`, and `grads` those of `grad_h`. -/
structure BackwardEnv (dk dv : ℕ) (R X Y Z : Type*) where
  record : X
  stot : Matrix (Fin dk) (Fin dv) R
  sOut : Matrix (Fin dk) (Fin dv) R
  sRecv : Matrix (Fin dk) (Fin dv) R
  adjoints : Y
  dSrecv : Matrix (Fin dk) (Fin dv) R
  reverse : ReverseOut dk dv R
  grads : Z

structure BackwardKernels (P dk dv : ℕ) (R X Y Z : Type*) where
  recompute : Fin P → X × Matrix (Fin dk) (Fin dv) R
  gradO : Fin P → X → Matrix (Fin dk) (Fin dv) R → Y × Matrix (Fin dk) (Fin dv) R
  gradH : Fin P → X → Y → ReverseOut dk dv R → Z

section Program

variable [Semiring R] (kernels : BackwardKernels P dk dv R X Y Z) (gammas : Decays P dk R)

def backwardLoad (r : Fin P) (t : BackwardTask) (kk : ℕ) (env : BackwardEnv dk dv R X Y Z)
    (dst : Matrix (Fin (dk / K)) (Fin dv) R) (g : RingTiles (dk / K) dv R) :
    RingTiles (dk / K) dv R :=
  match t with
  | .forwardRing => allscanLoad r env.stot kk dst g
  | .reverseRing => bwdLoad r env.dSrecv kk dst g
  | .recompute | .gradO | .gradH => g

def backwardEmit (r : Fin P) (t : BackwardTask) (kk : ℕ) (env : BackwardEnv dk dv R X Y Z)
    (g : RingTiles (dk / K) dv R) : BackwardEnv dk dv R X Y Z × RingTiles (dk / K) dv R :=
  match t with
  | .recompute =>
    ({ env with record := (kernels.recompute r).1, stot := (kernels.recompute r).2 }, g)
  | .forwardRing =>
    let x := allscanEmit r env.stot (gammas r) kk env.sOut env.sRecv g
    ({ env with sOut := x.1, sRecv := x.2.1 }, x.2.2)
  | .gradO =>
    let boundary := if r.val = 0 then 0 else env.sRecv
    let x := kernels.gradO r env.record boundary
    ({ env with adjoints := x.1, dSrecv := x.2 }, g)
  | .reverseRing =>
    let x := bwdEmit r env.dSrecv (gammas r) kk env.reverse g
    ({ env with reverse := x.1 }, x.2)
  | .gradH => ({ env with grads := kernels.gradH r env.record env.adjoints env.reverse }, g)

def backwardReduce (r : Fin P) (t : BackwardTask) (kk : ℕ) (env : BackwardEnv dk dv R X Y Z)
    (g : RingTiles (dk / K) dv R) : BackwardEnv dk dv R X Y Z × RingTiles (dk / K) dv R :=
  match t with
  | .reverseRing => ({ env with reverse := bwdReduce r env.sRecv kk env.reverse g }, g)
  | .recompute | .forwardRing | .gradO | .gradH => (env, g)

def ringOf : BackwardTask → Option Ring
  | .forwardRing => some .forward
  | .reverseRing => some .reverse
  | .recompute | .gradO | .gradH => none

def backwardPeer (r : Fin P) : BackwardTask → Option (Fin P)
  | .forwardRing => nextRank r
  | .reverseRing => prevRank r
  | .recompute | .gradO | .gradH => none

def backwardWaits (r : Fin P) : BackwardTask → Bool
  | .forwardRing => r.val ≠ 0
  | .reverseRing => r.val ≠ P - 1
  | .recompute | .gradO | .gradH => false

def backwardProgram (K : ℕ) (env₀ : Fin P → BackwardEnv dk dv R X Y Z)
    (reg₀ : Fin P → RingTiles (dk / K) dv R)
    (inflight : Fin P → BackwardTask → ℕ → Matrix (Fin (dk / K)) (Fin dv) R) :
    Net (Fin P) BackwardTask (WindowWord P) R (BackwardEnv dk dv R X Y Z)
      (RingTiles (dk / K) dv R) (dk / K) dv where
  tasks _ := Finset.univ
  needs := backwardNeeds
  blocks _ t := if (ringOf t).isSome then K else 1
  waits := backwardWaits
  peer := backwardPeer
  epoch := 1
  recvAt r t kk := dstBlock (dk / K) dv ((ringOf t).getD .forward) r kk
  sigAt r t kk := .signal ((ringOf t).getD .forward) r kk
  storeAt r t kk := dstBlock (dk / K) dv ((ringOf t).getD .forward) ((backwardPeer r t).getD r) kk
  notifyAt r t kk := .signal ((ringOf t).getD .forward) ((backwardPeer r t).getD r) kk
  load := backwardLoad
  emit := backwardEmit kernels gammas
  outgoing _ _ _ g := g.send
  reduce := backwardReduce
  inflight := inflight
  mem₀ _ := .zero
  env₀ := env₀
  reg₀ := reg₀

variable {kernels gammas} {env₀ : Fin P → BackwardEnv dk dv R X Y Z}
  {reg₀ : Fin P → RingTiles (dk / K) dv R}
  {inflight : Fin P → BackwardTask → ℕ → Matrix (Fin (dk / K)) (Fin dv) R}

theorem backwardPeer_eq {p q : Fin P} {t : BackwardTask} (h : backwardPeer p t = some q) :
    t = .forwardRing ∧ p.val + 1 = q ∨ t = .reverseRing ∧ p.val = q + 1 := by
  cases t with
  | forwardRing => exact .inl ⟨rfl, nextRank_eq.mp h⟩
  | reverseRing => exact .inr ⟨rfl, prevRank_eq.mp h⟩
  | recompute | gradO | gradH => cases h

theorem backwardWaits_eq {q : Fin P} {t : BackwardTask} (h : backwardWaits q t) :
    t = .forwardRing ∧ q.val ≠ 0 ∨ t = .reverseRing ∧ q.val ≠ P - 1 := by
  cases t with
  | forwardRing => exact .inl ⟨rfl, of_decide_eq_true h⟩
  | reverseRing => exact .inr ⟨rfl, of_decide_eq_true h⟩
  | recompute | gradO | gradH => cases h

theorem ringOf_inj {t t' : BackwardTask} {q q' : Fin P} (h : backwardWaits q t)
    (h' : backwardWaits q' t') (he : (ringOf t).getD .forward = (ringOf t').getD .forward) :
    t = t' := by
  rcases backwardWaits_eq h with ⟨rfl, -⟩ | ⟨rfl, -⟩ <;>
    rcases backwardWaits_eq h' with ⟨rfl, -⟩ | ⟨rfl, -⟩ <;> first | rfl | cases he

theorem backwardProgram_wired (hK : 0 < K) :
    (backwardProgram kernels gammas K env₀ reg₀ inflight).Wired where
  blocks_pos p t _ := by
    simp only [backwardProgram]
    split_ifs
    exacts [hK, Nat.one_pos]
  receiver {p t q k} hl := by
    refine ⟨Finset.mem_univ t, ?_, hl.block⟩
    rcases backwardPeer_eq hl.peer with ⟨rfl, h⟩ | ⟨rfl, h⟩
    · exact decide_eq_true (by omega)
    · exact decide_eq_true (by omega)
  feeder {q t k} hs := by
    rcases backwardWaits_eq hs.waits with ⟨rfl, h⟩ | ⟨rfl, h⟩
    · refine ⟨⟨q - 1, by omega⟩, Finset.mem_univ _, ?_, hs.block⟩
      exact nextRank_eq.mpr (by simp only; omega)
    · have hq : prevRank (⟨q + 1, by omega⟩ : Fin P) = some q := prevRank_eq.mpr rfl
      exact ⟨⟨q + 1, by omega⟩, Finset.mem_univ _, hq, hs.block⟩
  feeder_unique hl hl' := by
    have h := backwardPeer_eq hl.peer
    have h' := backwardPeer_eq hl'.peer
    apply Fin.ext
    rcases h with ⟨rfl, h⟩ | ⟨rfl, h⟩ <;> rcases h' with ⟨ht, h'⟩ | ⟨ht, h'⟩ <;>
      first | omega | cases ht
  store_eq {p t q k} hl := by
    have hp : backwardPeer p t = some q := hl.peer
    simp only [backwardProgram, hp, Option.getD_some]
  notify_eq {p t q k} hl := by
    have hp : backwardPeer p t = some q := hl.peer
    simp only [backwardProgram, hp, Option.getD_some]
  recv_inj hs hs' he := by
    obtain ⟨ht, hq, hk, hij⟩ := dstBlock_inj he
    exact ⟨⟨hq, ringOf_inj hs.waits hs'.waits ht, hk⟩, hij⟩
  sig_inj hs hs' he := by
    simp only [backwardProgram, WindowWord.signal.injEq] at he
    exact ⟨he.2.1, ringOf_inj hs.waits hs'.waits he.1, he.2.2⟩
  sig_ne_recv _ _ := by simp [backwardProgram, dstBlock]
  epoch_one := rfl
  zeroed _ := rfl

def backwardOrder : BackwardTask → ℕ
  | .recompute => 0
  | .forwardRing => 1
  | .gradO => 2
  | .reverseRing => 3
  | .gradH => 4

def chainPosition (p : Fin P) : BackwardTask → ℕ
  | .reverseRing => 2 * P - p
  | .recompute | .forwardRing | .gradO | .gradH => p

def producer : BackwardTensor → BackwardTask
  | .snap | .cprev | .bs | .stot => .recompute
  | .sOut | .sRecv => .forwardRing
  | .dQ | .dKo | .dVo | .dgcso | .dH | .dCp | .dSrecv => .gradO
  | .dStot | .dgam => .reverseRing
  | .dK | .dV | .dA | .dSl | .dCv => .gradH

theorem backwardWrites_producer {r : Fin P} {t : BackwardTask} {x : BackwardTensor}
    (h : x ∈ backwardWrites r t) : producer x = t := by
  cases t with
  | forwardRing =>
    simp only [backwardWrites] at h
    split_ifs at h <;> revert x <;> decide
  | recompute | gradO | reverseRing | gradH =>
    simp only [backwardWrites] at h
    revert x
    decide

theorem backwardReads_producer {r : Fin P} {t : BackwardTask} {x : BackwardTensor}
    (h : x ∈ backwardReads r t) : backwardOrder (producer x) < backwardOrder t := by
  cases t with
  | gradO | reverseRing =>
    simp only [backwardReads] at h
    split_ifs at h <;> revert x <;> decide
  | recompute | forwardRing | gradH =>
    simp only [backwardReads] at h
    revert x
    decide

theorem backwardNeeds_prior {p : Fin P} {t t' : BackwardTask} (h : backwardNeeds p t t') :
    backwardOrder t' < backwardOrder t := by
  simp only [backwardNeeds, Bool.or_eq_true, Bool.and_eq_true, decide_eq_true_eq] at h
  rcases h with h | ⟨rfl, rfl⟩
  · obtain ⟨x, hread, hwrite⟩ := List.any_eq_true.mp h
    rw [← backwardWrites_producer (of_decide_eq_true hwrite)]
    exact backwardReads_producer hread
  · decide

theorem backwardProgram_progressive :
    (backwardProgram kernels gammas K env₀ reg₀ inflight).Progressive
      (fun _ => backwardOrder) chainPosition where
  needs_prior h := backwardNeeds_prior h
  feeder_lower {p t q k t' k'} hl hs := by
    -- across the rings only a forward step can stand in front of a reverse one
    rcases backwardPeer_eq hl.peer with ⟨rfl, h⟩ | ⟨rfl, h⟩ <;>
      rcases backwardWaits_eq hs.waits with ⟨rfl, -⟩ | ⟨rfl, -⟩
    · exact .inr (by simp only [chainPosition]; omega)
    · exact .inl (by simp [backwardProgram, backwardNeeds])
    · exact .inr (by simp only [chainPosition]; omega)
    · exact .inr (by simp only [chainPosition]; omega)

variable (kernels gammas)

def stotScan : States P dk dv R := expectedAllscan (fun q => (kernels.recompute q).2) gammas

def gradOut (p : Fin P) : Y × Matrix (Fin dk) (Fin dv) R :=
  kernels.gradO p (kernels.recompute p).1 (sRecv (stotScan kernels gammas) p)

def boundaryGrads : States P dk dv R := fun p => (gradOut kernels gammas p).2

def BackwardDone (p : Fin P) (t : BackwardTask) (env : BackwardEnv dk dv R X Y Z) : Prop :=
  let d := expectedAllscanBackward gammas (stotScan kernels gammas)
    (gOutOf (boundaryGrads kernels gammas))
  match t with
  | .recompute => env.record = (kernels.recompute p).1 ∧ env.stot = (kernels.recompute p).2
  | .forwardRing => p.val ≠ 0 → env.sRecv = sRecv (stotScan kernels gammas) p
  | .gradO => env.adjoints = (gradOut kernels gammas p).1 ∧
      env.dSrecv = boundaryGrads kernels gammas p
  | .reverseRing => env.reverse.dStot = d.1 p ∧ env.reverse.dgam = d.2 p
  | .gradH => env.grads =
      kernels.gradH p (kernels.recompute p).1 (gradOut kernels gammas p).1 ⟨d.1 p, d.2 p⟩

def ReverseInputs (p : Fin P) (env : BackwardEnv dk dv R X Y Z) : Prop :=
  (p.val ≠ 0 → env.dSrecv = boundaryGrads kernels gammas p) ∧
    (p.val ≠ 0 → env.sRecv = sRecv (stotScan kernels gammas) p)

def BackwardAt (K : ℕ) (p : Fin P) (t : BackwardTask) (kk : ℕ) (point : Net.Point)
    (env : BackwardEnv dk dv R X Y Z) (g : RingTiles (dk / K) dv R) : Prop :=
  let stots q := (kernels.recompute q).2
  let outs := stotScan kernels gammas
  let dSRecv := boundaryGrads kernels gammas
  match t, point with
  | .forwardRing, .before => env.stot = stots p ∧
      BoundaryRows (dk / K) stots gammas p kk env.sRecv
  | .forwardRing, .loaded => env.stot = stots p ∧
      BoundaryRows (dk / K) stots gammas p kk env.sRecv ∧ Loaded stots gammas p kk g
  | .forwardRing, .emitted => env.stot = stots p ∧
      BoundaryRows (dk / K) stots gammas p (kk + 1) env.sRecv ∧
      (p.val + 1 < P → g.send = block (dk / K) (outs p) kk)
  | .reverseRing, .before => ReverseInputs kernels gammas p env ∧
      ReverseRows (dk / K) gammas outs dSRecv p kk kk env.reverse
  | .reverseRing, .loaded => ReverseInputs kernels gammas p env ∧
      ReverseRows (dk / K) gammas outs dSRecv p kk kk env.reverse ∧
      ReverseLoaded gammas dSRecv p kk g
  | .reverseRing, .emitted => ReverseInputs kernels gammas p env ∧
      ReverseRows (dk / K) gammas outs dSRecv p (kk + 1) (dgamRows p kk) env.reverse ∧
      (p.val ≠ P - 1 → g.recv = block (dk / K) (reverseScan gammas (gOutOf dSRecv) p) kk) ∧
      ∀ q, prevRank p = some q → g.send = block (dk / K) (reverseScan gammas (gOutOf dSRecv) q) kk
  | t, .emitted => BackwardDone kernels gammas p t env
  | t, _ => ∀ t', backwardNeeds p t t' → BackwardDone kernels gammas p t' env

variable {kernels gammas}

theorem backward_start {p : Fin P} {t : BackwardTask} {env : BackwardEnv dk dv R X Y Z}
    {g : RingTiles (dk / K) dv R}
    (done : ∀ t', backwardNeeds p t t' → BackwardDone kernels gammas p t' env) :
    BackwardAt kernels gammas K p t 0 .before env g := by
  cases t with
  | forwardRing =>
    have h := done .recompute (by simp [backwardNeeds, backwardReads, backwardWrites])
    refine ⟨h.2, fun _ t ht => ?_⟩
    rw [Nat.zero_mul] at ht
    exact absurd ht (Nat.not_lt_zero _)
  | reverseRing =>
    refine ⟨⟨fun hp => ?_, fun hp => ?_⟩, reverseRows_zero p _⟩
    · apply (done .gradO ?_).2
      simp only [backwardNeeds, backwardReads, if_neg hp]
      split_ifs <;> simp [backwardWrites]
    · exact done .forwardRing (by simp [backwardNeeds]) hp
  | recompute | gradO | gradH => exact done

theorem backward_load {p : Fin P} {t : BackwardTask} {kk : ℕ} {env : BackwardEnv dk dv R X Y Z}
    {g : RingTiles (dk / K) dv R} (tile : BackwardTask → Matrix (Fin (dk / K)) (Fin dv) R)
    (forward : tile .forwardRing = if decide (p.val ≠ 0) then
      block (dk / K) (sRecv (stotScan kernels gammas) p) kk else 0)
    (reverse : tile .reverseRing = if decide (p.val ≠ P - 1) then
      block (dk / K) (reverseScan gammas (gOutOf (boundaryGrads kernels gammas)) p) kk else 0)
    (h : BackwardAt kernels gammas K p t kk .before env g) :
    BackwardAt kernels gammas K p t kk .loaded env (backwardLoad p t kk env (tile t) g) := by
  cases t with
  | forwardRing =>
    obtain ⟨hs, hrows⟩ := h
    simp only [backwardLoad, BackwardAt, hs, true_and, forward]
    exact ⟨hrows, allscanLoad_loaded p kk g⟩
  | reverseRing =>
    obtain ⟨hin, hrows⟩ := h
    refine ⟨hin, hrows, ?_⟩
    rw [backwardLoad, reverse]
    exact bwdLoad_loaded kk g hin.1
  | recompute | gradO | gradH => exact h

theorem backward_emit {p : Fin P} {t : BackwardTask} {kk : ℕ} {env : BackwardEnv dk dv R X Y Z}
    {g : RingTiles (dk / K) dv R} (h : BackwardAt kernels gammas K p t kk .loaded env g) :
    BackwardAt kernels gammas K p t kk .emitted (backwardEmit kernels gammas p t kk env g).1
      (backwardEmit kernels gammas p t kk env g).2 := by
  cases t with
  | recompute => exact ⟨rfl, rfl⟩
  | forwardRing =>
    obtain ⟨hs, hrows, hg⟩ := h
    simp only [backwardEmit, BackwardAt, hs]
    exact ⟨trivial, allscanEmit_rows hrows hg, allscanEmit_send hg⟩
  | gradO =>
    have hrec := h .recompute (by simp [backwardNeeds, backwardReads, backwardWrites])
    have hout : kernels.gradO p env.record (if p.val = 0 then 0 else env.sRecv) =
        gradOut kernels gammas p := by
      rw [gradOut, hrec.1]
      by_cases hp : p.val = 0
      · rw [if_pos hp, sRecv_first _ hp]
      · rw [if_neg hp,
          h .forwardRing (by simp [backwardNeeds, backwardReads, backwardWrites, hp]) hp]
    simp only [backwardEmit, BackwardAt, BackwardDone, hout]
    exact ⟨trivial, rfl⟩
  | reverseRing =>
    obtain ⟨hin, hrows, hg⟩ := h
    refine ⟨hin, bwdEmit_rows hrows hg, fun hp => ?_, fun q hq => bwdEmit_send hin.1 hg hq⟩
    rw [backwardEmit, bwdEmit_recv]
    exact hg.2 hp
  | gradH =>
    have hrec := h .recompute (by simp [backwardNeeds, backwardReads, backwardWrites])
    have hgrad := h .gradO (by simp [backwardNeeds, backwardReads, backwardWrites])
    have hrev := h .reverseRing (by simp [backwardNeeds, backwardReads, backwardWrites])
    simp only [backwardEmit, BackwardAt, BackwardDone, hrec.1, hgrad.1, ← hrev.1, ← hrev.2]

theorem backward_frame {p : Fin P} {t t' : BackwardTask} (kk : ℕ) {env : BackwardEnv dk dv R X Y Z}
    (g : RingTiles (dk / K) dv R) (hne : t' ≠ t) (h : BackwardDone kernels gammas p t' env) :
    BackwardDone kernels gammas p t' (backwardEmit kernels gammas p t kk env g).1 ∧
      BackwardDone kernels gammas p t' (backwardReduce p t kk env g).1 := by
  cases t <;> cases t' <;> first | exact absurd rfl hne | exact ⟨h, h⟩

def backwardIncoming (kernels : BackwardKernels P dk dv R X Y Z) (gammas : Decays P dk R) (K : ℕ)
    (q : Fin P) (t : BackwardTask) (kk : ℕ) : Matrix (Fin (dk / K)) (Fin dv) R :=
  match t with
  | .reverseRing => block (dk / K) (reverseScan gammas (gOutOf (boundaryGrads kernels gammas)) q) kk
  | .recompute | .forwardRing | .gradO | .gradH =>
    block (dk / K) (sRecv (stotScan kernels gammas) q) kk

def backwardOutline (hdvd : K ∣ dk) :
    (backwardProgram kernels gammas K env₀ reg₀ inflight).Outline where
  incoming := backwardIncoming kernels gammas K
  Fresh _ _ _ := True
  At := BackwardAt kernels gammas K
  Done := BackwardDone kernels gammas
  fresh _ _ _ := trivial
  start _ _ done := backward_start fun t' h => done t' (Finset.mem_univ t') h
  load {p t kk env g} _ _ h := backward_load
    (fun t => if backwardWaits p t then backwardIncoming kernels gammas K p t kk else 0) rfl rfl h
  emit _ _ h := backward_emit h
  send {p t q kk env g} hl h := by
    have hp : backwardPeer p t = some q := hl.peer
    rcases backwardPeer_eq hp with ⟨rfl, hq⟩ | ⟨rfl, -⟩
    · simp only [backwardIncoming, sRecv_nextRank _ hp]
      apply h.2.2
      omega
    · exact h.2.2.2 q hp
  reduce_next {p t kk env g} _ hk h := by
    cases t with
    | forwardRing => exact ⟨h.1, h.2.1⟩
    | reverseRing => exact ⟨h.1, bwdReduce_rows h.1.2 h.2.1 h.2.2.1⟩
    | recompute | gradO | gradH =>
      simp only [backwardProgram, ringOf, Option.isSome_none, Bool.false_eq_true, if_false] at hk
      omega
  reduce_done {p t kk env g} _ hk h := by
    cases t with
    | forwardRing =>
      intro hp
      exact eq_of_blocks hdvd hk (h.2.1 hp)
    | reverseRing =>
      apply ReverseRows.complete hdvd hk
      exact bwdReduce_rows h.1.2 h.2.1 h.2.2.1
    | recompute | gradO | gradH => exact h
  frame_fresh _ _ _ _ := ⟨trivial, trivial⟩
  frame_done _ _ hne h := backward_frame _ _ hne h

theorem backwardProgram_size : (backwardProgram kernels gammas K env₀ reg₀ inflight).size =
    P * (26 + 14 * K) := by
  have htasks : (Finset.univ : Finset BackwardTask) =
      {.recompute, .forwardRing, .gradO, .reverseRing, .gradH} := rfl
  simp [Net.size, backwardProgram, htasks, ringOf]
  omega

theorem backwardProgram_finishes (hK : 0 < K) (hdvd : K ∣ dk) :
    (backwardProgram kernels gammas K env₀ reg₀ inflight).Finishes (P * (26 + 14 * K)) := by
  have hw : (backwardProgram kernels gammas K env₀ reg₀ inflight).Wired := backwardProgram_wired hK
  have h := Net.finishes hw backwardProgram_progressive (backwardOutline hdvd)
  rwa [backwardProgram_size] at h

end Program

theorem backwardProgram_correct [Semiring R] (kernels : BackwardKernels P dk dv R X Y Z)
    (gammas : Decays P dk R) (env₀ : Fin P → BackwardEnv dk dv R X Y Z)
    (reg₀ : Fin P → RingTiles (dk / K) dv R)
    (inflight : Fin P → BackwardTask → ℕ → Matrix (Fin (dk / K)) (Fin dv) R) (hK : 0 < K)
    (hdvd : K ∣ dk) (es : List (Event (Fin P) BackwardTask))
    (s : State (Fin P) BackwardTask (WindowWord P) R (BackwardEnv dk dv R X Y Z)
      (RingTiles (dk / K) dv R))
    (hrun : (backwardProgram kernels gammas K env₀ reg₀ inflight).Run es s) :
    let N := backwardProgram kernels gammas K env₀ reg₀ inflight
    let outs := expectedAllscan (fun q => (kernels.recompute q).2) gammas
    let dSRecv : States P dk dv R := fun q =>
      (kernels.gradO q (kernels.recompute q).1 (sRecv outs q)).2
    let d := expectedAllscanBackward gammas outs (gOutOf dSRecv)
    N.ReadsVisible es ∧ N.StoresOnce es ∧
    (∀ r kk, s.cur r = some (.forwardRing, kk, .load) → r.val ≠ 0 →
      readTile s.mem (N.recvAt r .forwardRing kk) = block (dk / K) (sRecv outs r) kk) ∧
    (∀ r kk, s.cur r = some (.reverseRing, kk, .load) → r.val ≠ P - 1 →
      readTile s.mem (N.recvAt r .reverseRing kk) = block (dk / K) (d.1 r) kk) ∧
    (Runs.Stuck N.step s → N.Final s) ∧
    (N.Final s → ∀ r, (s.env r).stot = (kernels.recompute r).2 ∧ (s.env r).dSrecv = dSRecv r ∧
      (r.val ≠ 0 → (s.env r).sRecv = sRecv outs r) ∧
      (s.env r).reverse.dStot = d.1 r ∧ (s.env r).reverse.dgam = d.2 r) := by
  have hw : (backwardProgram kernels gammas K env₀ reg₀ inflight).Wired := backwardProgram_wired hK
  refine ⟨Net.run_readsVisible hw (backwardOutline hdvd) hrun,
    Net.run_storesOnce hw (backwardOutline hdvd) hrun, fun r kk hcur hr => ?_,
    fun r kk hcur hr => ?_,
    Net.final_of_stuck hw backwardProgram_progressive (backwardOutline hdvd) hrun,
    fun hfinal r => ?_⟩
  · exact Net.read_incoming hw (Net.run_safe hw (backwardOutline hdvd) hrun) hcur
      (decide_eq_true hr)
  · exact Net.read_incoming hw (Net.run_safe hw (backwardOutline hdvd) hrun) hcur
      (decide_eq_true hr)
  · have done (t : BackwardTask) : BackwardDone kernels gammas r t (s.env r) :=
      Net.final_done hw (backwardOutline hdvd) hrun hfinal (Finset.mem_univ t)
    exact ⟨(done .recompute).2, (done .gradO).2, done .forwardRing, (done .reverseRing).1,
      (done .reverseRing).2⟩

theorem backwardProgram_correct_two :
    let kernels : BackwardKernels 2 1 1 ℤ Unit Unit Unit :=
      ⟨fun p => ((), Matrix.of fun _ _ => (p.val : ℤ) + 2),
        fun _ _ boundary => ((), boundary + Matrix.of fun _ _ => 5), fun _ _ _ _ => ()⟩
    let N := backwardProgram kernels (fun _ _ => 3) 1
      (fun _ => ⟨(), 0, 0, 0, (), 0, ⟨0, 0⟩, ()⟩) (fun _ => ⟨0, 0⟩) (fun _ _ _ => 0)
    let compute (p : Fin 2) (t : BackwardTask) : List (Event (Fin 2) BackwardTask) :=
      [.start p t, .act p t 0 .load, .act p t 0 .emit, .act p t 0 .reduce]
    let send (p : Fin 2) (t : BackwardTask) : List (Event (Fin 2) BackwardTask) :=
      [.start p t, .act p t 0 .load, .act p t 0 .emit, .act p t 0 .store, .act p t 0 .flush,
        .act p t 0 .notify, .act p t 0 .reduce]
    let receive (p : Fin 2) (t : BackwardTask) : List (Event (Fin 2) BackwardTask) :=
      [.act p t 0 .wait, .act p t 0 .load, .act p t 0 .emit, .act p t 0 .reduce]
    let es := compute 1 .recompute ++ .start 1 .forwardRing ::
      compute 0 .recompute ++ send 0 .forwardRing ++ .start 0 .reverseRing ::
      receive 1 .forwardRing ++ compute 1 .gradO ++ send 1 .reverseRing ++ compute 1 .gradH ++
      receive 0 .reverseRing ++ compute 0 .gradO ++ compute 0 .gradH
    ∃ s, N.Run es s ∧ N.Final s ∧ (s.env 0).reverse.dStot 0 0 = 7 := by
  intro kernels N compute send receive es
  obtain ⟨s, hrun, hfinal⟩ := N.exists_final es (by decide +kernel)
  refine ⟨s, hrun, hfinal, ?_⟩
  have hout := ((backwardProgram_correct _ _ _ _ _ Nat.one_pos (one_dvd 1) es s hrun).2.2.2.2.2
    hfinal 0).2.2.2.1
  rw [hout]
  decide +kernel

end ZeCo.Fused
