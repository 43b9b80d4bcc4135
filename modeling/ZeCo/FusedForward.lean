import ZeCo.FusedRing
import ZeCo.NetworkTermination

namespace ZeCo.Fused

open Matrix Network

variable {R X Y : Type*} {P dk dv K : ℕ}

inductive ForwardTask where
  | stage1 | ring | stage2
  deriving DecidableEq

instance : Fintype ForwardTask := ⟨{.stage1, .ring, .stage2}, fun t => by cases t <;> simp⟩

inductive ForwardTensor where
  | snap | gsnap | sLocal | sOut | sRecv | o
  deriving DecidableEq

def forwardWrites (r : Fin P) : ForwardTask → List ForwardTensor
  | .stage1 => [.snap, .gsnap, .sLocal]
  | .ring => if r.val = 0 then [.sOut] else [.sRecv]
  | .stage2 => [.o]

/-- The produced tensors a dispatch reads; the boundary of rank 0 is the zero tensor. -/
def forwardReads (r : Fin P) : ForwardTask → List ForwardTensor
  | .stage1 => []
  | .ring => [.sLocal]
  | .stage2 => (if r.val = 0 then [] else [.sRecv]) ++ [.snap, .gsnap]

structure ForwardEnv (dk dv : ℕ) (R X Y : Type*) where
  snaps : X
  sLocal : Matrix (Fin dk) (Fin dv) R
  sOut : Matrix (Fin dk) (Fin dv) R
  sRecv : Matrix (Fin dk) (Fin dv) R
  o : Y

section Program

variable [Semiring R] (stage1 : Fin P → X × Matrix (Fin dk) (Fin dv) R)
  (stage2 : Fin P → Matrix (Fin dk) (Fin dv) R → X → Y) (gammas : Decays P dk R)

def forwardLoad (r : Fin P) (t : ForwardTask) (kk : ℕ) (env : ForwardEnv dk dv R X Y)
    (dst : Matrix (Fin (dk / K)) (Fin dv) R) (g : RingTiles (dk / K) dv R) :
    RingTiles (dk / K) dv R :=
  match t with
  | .ring => allscanLoad r env.sLocal kk dst g
  | .stage1 | .stage2 => g

def forwardEmit (r : Fin P) (t : ForwardTask) (kk : ℕ) (env : ForwardEnv dk dv R X Y)
    (g : RingTiles (dk / K) dv R) : ForwardEnv dk dv R X Y × RingTiles (dk / K) dv R :=
  match t with
  | .stage1 => ({ env with snaps := (stage1 r).1, sLocal := (stage1 r).2 }, g)
  | .ring =>
    let x := allscanEmit r env.sLocal (gammas r) kk env.sOut env.sRecv g
    ({ env with sOut := x.1, sRecv := x.2.1 }, x.2.2)
  | .stage2 =>
    let boundary := if r.val = 0 then 0 else env.sRecv
    ({ env with o := stage2 r boundary env.snaps }, g)

def forwardProgram (K : ℕ) (env₀ : Fin P → ForwardEnv dk dv R X Y)
    (reg₀ : Fin P → RingTiles (dk / K) dv R)
    (inflight : Fin P → ForwardTask → ℕ → Matrix (Fin (dk / K)) (Fin dv) R) :
    Net (Fin P) ForwardTask (WindowWord P) R (ForwardEnv dk dv R X Y) (RingTiles (dk / K) dv R)
      (dk / K) dv where
  tasks _ := Finset.univ
  needs r t t' := (forwardReads r t).any (· ∈ forwardWrites r t')
  blocks _ t := if t = .ring then K else 1
  waits r t := t = .ring ∧ r.val ≠ 0
  peer r t := if t = .ring then nextRank r else none
  epoch := 1
  recvAt r _ kk := dstBlock (dk / K) dv .forward r kk
  sigAt r _ kk := .signal .forward r kk
  storeAt r _ kk := dstBlock (dk / K) dv .forward ((nextRank r).getD r) kk
  notifyAt r _ kk := .signal .forward ((nextRank r).getD r) kk
  load := forwardLoad
  emit := forwardEmit stage1 stage2 gammas
  outgoing _ _ _ g := g.send
  reduce _ _ _ env g := (env, g)
  inflight := inflight
  mem₀ _ := .zero
  env₀ := env₀
  reg₀ := reg₀

variable {stage1 stage2 gammas} {env₀ : Fin P → ForwardEnv dk dv R X Y}
  {reg₀ : Fin P → RingTiles (dk / K) dv R}
  {inflight : Fin P → ForwardTask → ℕ → Matrix (Fin (dk / K)) (Fin dv) R}

theorem forwardProgram_link {p q : Fin P} {t : ForwardTask} {k : ℕ}
    (hl : (forwardProgram stage1 stage2 gammas K env₀ reg₀ inflight).Link p t q k) :
    t = .ring ∧ nextRank p = some q ∧ k < K := by
  have hp := hl.peer
  have hk := hl.block
  simp only [forwardProgram] at hp hk
  split_ifs at hp with ht
  rw [if_pos ht] at hk
  exact ⟨ht, hp, hk⟩

theorem forwardProgram_slot {q : Fin P} {t : ForwardTask} {k : ℕ}
    (hs : (forwardProgram stage1 stage2 gammas K env₀ reg₀ inflight).Slot q t k) :
    t = .ring ∧ q.val ≠ 0 ∧ k < K := by
  obtain ⟨ht, hq⟩ := of_decide_eq_true hs.waits
  have hk := hs.block
  simp only [forwardProgram, ht, if_true] at hk
  exact ⟨ht, hq, hk⟩

theorem forwardProgram_wired (hK : 0 < K) :
    (forwardProgram stage1 stage2 gammas K env₀ reg₀ inflight).Wired where
  blocks_pos p t _ := by
    simp only [forwardProgram]
    split_ifs
    exacts [hK, Nat.one_pos]
  receiver hl := by
    obtain ⟨rfl, hq, hk⟩ := forwardProgram_link hl
    have := nextRank_eq.mp hq
    exact ⟨Finset.mem_univ _, decide_eq_true ⟨rfl, by omega⟩, hk⟩
  feeder {q t k} hs := by
    obtain ⟨rfl, hq, hk⟩ := forwardProgram_slot hs
    exact ⟨⟨q - 1, by omega⟩, Finset.mem_univ _, nextRank_eq.mpr (by simp only; omega), hk⟩
  feeder_unique hl hl' := by
    have h := nextRank_eq.mp (forwardProgram_link hl).2.1
    have h' := nextRank_eq.mp (forwardProgram_link hl').2.1
    exact Fin.ext (by omega)
  store_eq hl := by
    simp only [forwardProgram, (forwardProgram_link hl).2.1, Option.getD_some]
  notify_eq hl := by
    simp only [forwardProgram, (forwardProgram_link hl).2.1, Option.getD_some]
  recv_inj hs hs' he := by
    obtain ⟨-, hq, hk, hij⟩ := dstBlock_inj he
    exact ⟨⟨hq, (forwardProgram_slot hs).1.trans (forwardProgram_slot hs').1.symm, hk⟩, hij⟩
  sig_inj hs hs' he := by
    simp only [forwardProgram, WindowWord.signal.injEq, true_and] at he
    exact ⟨he.1, (forwardProgram_slot hs).1.trans (forwardProgram_slot hs').1.symm, he.2⟩
  sig_ne_recv _ _ := by simp [forwardProgram, dstBlock]
  epoch_one := rfl
  zeroed _ := rfl

def forwardOrder : ForwardTask → ℕ
  | .stage1 => 0
  | .ring => 1
  | .stage2 => 2

theorem forwardProgram_progressive :
    (forwardProgram stage1 stage2 gammas K env₀ reg₀ inflight).Progressive
      (fun _ => forwardOrder) (fun p _ => p) where
  needs_prior {p t t'} h := by
    simp only [forwardProgram] at h
    by_cases hp : p.val = 0 <;> cases t <;> cases t' <;>
      simp_all [forwardReads, forwardWrites, forwardOrder]
  feeder_lower hl _ := by
    have := nextRank_eq.mp (forwardProgram_link hl).2.1
    exact .inr (by omega)

def ForwardDone (stage1 : Fin P → X × Matrix (Fin dk) (Fin dv) R)
    (stage2 : Fin P → Matrix (Fin dk) (Fin dv) R → X → Y) (gammas : Decays P dk R) (p : Fin P)
    (t : ForwardTask) (env : ForwardEnv dk dv R X Y) : Prop :=
  match t with
  | .stage1 => env.snaps = (stage1 p).1 ∧ env.sLocal = (stage1 p).2
  | .ring => p.val ≠ 0 → env.sRecv = sRecv (expectedAllscan (fun q => (stage1 q).2) gammas) p
  | .stage2 => env.o =
      stage2 p (sRecv (expectedAllscan (fun q => (stage1 q).2) gammas) p) (stage1 p).1

def ForwardAt (stage1 : Fin P → X × Matrix (Fin dk) (Fin dv) R)
    (stage2 : Fin P → Matrix (Fin dk) (Fin dv) R → X → Y) (gammas : Decays P dk R) (K : ℕ)
    (p : Fin P) (t : ForwardTask) (kk : ℕ) (point : Net.Point) (env : ForwardEnv dk dv R X Y)
    (g : RingTiles (dk / K) dv R) : Prop :=
  let sLocals q := (stage1 q).2
  match t, point with
  | .stage1, .emitted => ForwardDone stage1 stage2 gammas p .stage1 env
  | .stage1, _ => True
  | .ring, .before => env.sLocal = sLocals p ∧
      BoundaryRows (dk / K) sLocals gammas p kk env.sRecv
  | .ring, .loaded => env.sLocal = sLocals p ∧
      BoundaryRows (dk / K) sLocals gammas p kk env.sRecv ∧ Loaded sLocals gammas p kk g
  | .ring, .emitted => env.sLocal = sLocals p ∧
      BoundaryRows (dk / K) sLocals gammas p (kk + 1) env.sRecv ∧
      (p.val + 1 < P → g.send = block (dk / K) (expectedAllscan sLocals gammas p) kk)
  | .stage2, .emitted => ForwardDone stage1 stage2 gammas p .stage2 env
  | .stage2, _ => ForwardDone stage1 stage2 gammas p .stage1 env ∧
      ForwardDone stage1 stage2 gammas p .ring env

theorem forward_start {p : Fin P} {t : ForwardTask} {env : ForwardEnv dk dv R X Y}
    {g : RingTiles (dk / K) dv R}
    (done : ∀ t', (forwardReads p t).any (· ∈ forwardWrites p t') →
      ForwardDone stage1 stage2 gammas p t' env) :
    ForwardAt stage1 stage2 gammas K p t 0 .before env g := by
  cases t with
  | stage1 => trivial
  | ring =>
    have h := done .stage1 (by simp [forwardReads, forwardWrites])
    refine ⟨h.2, fun _ t ht => ?_⟩
    rw [Nat.zero_mul] at ht
    exact absurd ht (Nat.not_lt_zero _)
  | stage2 =>
    refine ⟨done .stage1 (by simp [forwardReads, forwardWrites]), fun hp => ?_⟩
    exact done .ring (by simp [forwardReads, forwardWrites, hp]) hp

theorem forward_emit {p : Fin P} {t : ForwardTask} {kk : ℕ} {env : ForwardEnv dk dv R X Y}
    {g : RingTiles (dk / K) dv R} (h : ForwardAt stage1 stage2 gammas K p t kk .loaded env g) :
    ForwardAt stage1 stage2 gammas K p t kk .emitted
      (forwardEmit stage1 stage2 gammas p t kk env g).1
      (forwardEmit stage1 stage2 gammas p t kk env g).2 := by
  cases t with
  | stage1 => exact ⟨rfl, rfl⟩
  | ring =>
    obtain ⟨hs, hrows, hg⟩ := h
    simp only [forwardEmit, ForwardAt, hs]
    exact ⟨trivial, allscanEmit_rows hrows hg, allscanEmit_send hg⟩
  | stage2 =>
    obtain ⟨⟨hsnaps, -⟩, hrecv⟩ := h
    simp only [forwardEmit, ForwardAt, ForwardDone, hsnaps]
    by_cases hp : p.val = 0
    · rw [if_pos hp, sRecv_first _ hp]
    · rw [if_neg hp, hrecv hp]

theorem forward_frame {p : Fin P} {t t' : ForwardTask} (kk : ℕ) {env : ForwardEnv dk dv R X Y}
    (g : RingTiles (dk / K) dv R) (hne : t' ≠ t) (h : ForwardDone stage1 stage2 gammas p t' env) :
    ForwardDone stage1 stage2 gammas p t' (forwardEmit stage1 stage2 gammas p t kk env g).1 := by
  cases t <;> cases t' <;> first | exact absurd rfl hne | exact h

def forwardOutline (hdvd : K ∣ dk) :
    (forwardProgram stage1 stage2 gammas K env₀ reg₀ inflight).Outline where
  incoming q _ kk := block (dk / K) (sRecv (expectedAllscan (fun q => (stage1 q).2) gammas) q) kk
  Fresh _ _ _ := True
  At := ForwardAt stage1 stage2 gammas K
  Done := ForwardDone stage1 stage2 gammas
  fresh _ _ _ := trivial
  start _ _ done := forward_start fun t' h => done t' (Finset.mem_univ t') h
  load {p t kk env g} _ _ h := by
    cases t with
    | stage1 => trivial
    | ring =>
      obtain ⟨hs, hrows⟩ := h
      simp only [forwardProgram, forwardLoad, ForwardAt, hs, true_and]
      exact ⟨hrows, allscanLoad_loaded p kk g⟩
    | stage2 => exact h
  emit _ _ h := forward_emit h
  send {p t q kk env g} hl h := by
    obtain ⟨rfl, hq, -⟩ := forwardProgram_link hl
    rw [sRecv_nextRank _ hq]
    apply h.2.2
    have := nextRank_eq.mp hq
    omega
  reduce_next {p t kk env g} _ hk h := by
    cases t with
    | ring => exact ⟨h.1, h.2.1⟩
    | stage1 | stage2 =>
      simp only [forwardProgram, reduceCtorEq, if_false] at hk
      omega
  reduce_done {p t kk env g} _ hk h := by
    cases t with
    | ring =>
      intro hp
      exact eq_of_blocks hdvd hk (h.2.1 hp)
    | stage1 | stage2 => exact h
  frame_fresh _ _ _ _ := ⟨trivial, trivial⟩
  frame_done _ _ hne h := ⟨forward_frame _ _ hne h, h⟩

theorem forwardProgram_size : (forwardProgram stage1 stage2 gammas K env₀ reg₀ inflight).size =
    P * (17 + 7 * K) := by
  have htasks : (Finset.univ : Finset ForwardTask) = {.stage1, .ring, .stage2} := rfl
  simp [Net.size, forwardProgram, htasks]
  omega

theorem forwardProgram_finishes (hK : 0 < K) (hdvd : K ∣ dk) :
    (forwardProgram stage1 stage2 gammas K env₀ reg₀ inflight).Finishes (P * (17 + 7 * K)) := by
  have hw : (forwardProgram stage1 stage2 gammas K env₀ reg₀ inflight).Wired := forwardProgram_wired hK
  have h := Net.finishes hw forwardProgram_progressive (forwardOutline hdvd)
  rwa [forwardProgram_size] at h

end Program

theorem forwardProgram_correct [Semiring R] (stage1 : Fin P → X × Matrix (Fin dk) (Fin dv) R)
    (stage2 : Fin P → Matrix (Fin dk) (Fin dv) R → X → Y) (gammas : Decays P dk R)
    (env₀ : Fin P → ForwardEnv dk dv R X Y) (reg₀ : Fin P → RingTiles (dk / K) dv R)
    (inflight : Fin P → ForwardTask → ℕ → Matrix (Fin (dk / K)) (Fin dv) R) (hK : 0 < K)
    (hdvd : K ∣ dk) (es : List (Event (Fin P) ForwardTask))
    (s : State (Fin P) ForwardTask (WindowWord P) R (ForwardEnv dk dv R X Y)
      (RingTiles (dk / K) dv R))
    (hrun : (forwardProgram stage1 stage2 gammas K env₀ reg₀ inflight).Run es s) :
    let N := forwardProgram stage1 stage2 gammas K env₀ reg₀ inflight
    (Runs.Stuck N.step s → N.Final s) ∧
      (N.Final s → ∀ r, (s.env r).o =
        stage2 r (sRecv (expectedAllscan (fun q => (stage1 q).2) gammas) r) (stage1 r).1) :=
  ⟨Net.final_of_stuck (forwardProgram_wired hK) forwardProgram_progressive (forwardOutline hdvd)
      hrun,
    fun hfinal _ => Net.final_done (t := .stage2) (forwardProgram_wired hK) (forwardOutline hdvd)
      hrun hfinal (Finset.mem_univ _)⟩

theorem forwardProgram_correct_two :
    let N := forwardProgram
      (fun p : Fin 2 => ((), (Matrix.of fun _ _ => (p.val : ℤ) + 2 : Matrix (Fin 1) (Fin 1) ℤ)))
      (fun _ boundary _ => boundary 0 0)
      (fun _ _ => 3) 1 (fun _ => ⟨(), 0, 0, 0, 0⟩) (fun _ => ⟨0, 0⟩) (fun _ _ _ => 0)
    let es : List (Event (Fin 2) ForwardTask) := [.start 1 .stage1, .act 1 .stage1 0 .load,
      .act 1 .stage1 0 .emit, .act 1 .stage1 0 .reduce, .start 1 .ring, .start 0 .stage1,
      .act 0 .stage1 0 .load, .act 0 .stage1 0 .emit, .act 0 .stage1 0 .reduce, .start 0 .stage2,
      .act 0 .stage2 0 .load, .act 0 .stage2 0 .emit, .act 0 .stage2 0 .reduce, .start 0 .ring,
      .act 0 .ring 0 .load, .act 0 .ring 0 .emit, .act 0 .ring 0 .store, .act 0 .ring 0 .flush,
      .act 0 .ring 0 .notify, .act 1 .ring 0 .wait, .act 1 .ring 0 .load, .act 1 .ring 0 .emit,
      .act 1 .ring 0 .reduce, .start 1 .stage2, .act 1 .stage2 0 .load, .act 1 .stage2 0 .emit,
      .act 0 .ring 0 .reduce, .act 1 .stage2 0 .reduce]
    ∃ s, N.Run es s ∧ N.Final s ∧ (s.env 1).o = 2 := by
  intro N es
  obtain ⟨s, hrun, hfinal⟩ := N.exists_final es (by decide +kernel)
  refine ⟨s, hrun, hfinal, ?_⟩
  have hout := (forwardProgram_correct _ _ _ _ _ _ Nat.one_pos (one_dvd 1) es s hrun).2 hfinal 1
  rw [hout]
  decide +kernel

end ZeCo.Fused
