import ZeCo.NetworkSession
import ZeCo.PyptoAllscan

namespace ZeCo.PyptoAllscan

open Matrix Network

variable {R : Type*} {P dk dv K B : ℕ}

inductive Role where
  | source | terminal | middle
  deriving DecidableEq

def roleOf (r : Fin P) : Role :=
  if r.val = P - 1 then .source else if r.val = 0 then .terminal else .middle

structure BwdTiles (n dv : ℕ) (R : Type*) where
  msg : Matrix (Fin n) (Fin dv) R
  d : Matrix (Fin n) (Fin dv) R
  msgOut : Matrix (Fin n) (Fin dv) R

structure BwdOut (dk dv : ℕ) (R : Type*) where
  dS : Matrix (Fin dk) (Fin dv) R
  dgamma : Fin dk → R

section Steps

variable [Semiring R] {n : ℕ}

def bwdStepLoad (r : Fin P) (gOut : Matrix (Fin dk) (Fin dv) R) (k : ℕ)
    (dst : Matrix (Fin n) (Fin dv) R) (g : BwdTiles n dv R) : BwdTiles n dv R :=
  match roleOf r with
  | .source => { g with d := block n gOut k }
  | .terminal | .middle => { g with msg := dst, d := block n gOut k + dst }

def bwdStepEmit (r : Fin P) (gamma : Fin dk → R) (k : ℕ) (out : BwdOut dk dv R)
    (g : BwdTiles n dv R) : BwdOut dk dv R × BwdTiles n dv R :=
  let out := { out with dS := setBlock out.dS k g.d }
  match roleOf r with
  | .terminal => (out, g)
  | .source | .middle => (out, { g with msgOut := rowScale (blockCol n gamma k) g.d })

def bwdStepReduce (r : Fin P) (outPrev : Matrix (Fin dk) (Fin dv) R) (k : ℕ) (out : BwdOut dk dv R)
    (g : BwdTiles n dv R) : BwdOut dk dv R :=
  match roleOf r with
  | .terminal => out
  | .source | .middle =>
    { out with dgamma := setBlockCol out.dgamma k (rowSum (g.d ⊙ block n outPrev k)) }

/-- The source of a ring of one rank would send to rank `-1`. -/
structure BwdDispatch (P dk dv K B : ℕ) (R : Type*) where
  ranks : 1 < P
  gOut : States P dk dv R
  gammas : Decays P dk R
  outs : States P dk dv R
  inflight : Fin P × Fin B → ℕ → Matrix (Fin (dk / K)) (Fin dv) R
  reg₀ : Fin P × Fin B → BwdTiles (dk / K) dv R

def ringPrev (r : Fin P × Fin B) (_ : Unit) : Option (Fin P × Fin B) :=
  (prevRank r.1).map (·, r.2)

def bwdDispatchNet (x : BwdDispatch P dk dv K B R) :
    Net (Fin P × Fin B) Unit (WindowWord P B) R (BwdOut dk dv R) (BwdTiles (dk / K) dv R)
      (dk / K) dv where
  tasks _ := Finset.univ
  needs _ _ _ := false
  blocks _ _ := K
  waits r _ := roleOf r.1 ≠ .source
  peer := ringPrev
  epoch := 1
  recvAt r _ k := dstBlock (dk / K) dv r.2 r.1 k
  sigAt r _ k := .signal r.2 r.1 k
  storeAt r _ k := dstBlock (dk / K) dv r.2 ((prevRank r.1).getD r.1) k
  notifyAt r _ k := .signal r.2 ((prevRank r.1).getD r.1) k
  load r _ k _ dst g := bwdStepLoad r.1 (x.gOut r.1) k dst g
  emit r _ k out g := bwdStepEmit r.1 (x.gammas r.1) k out g
  outgoing _ _ _ g := g.msgOut
  reduce r _ k out g := (bwdStepReduce r.1 (sRecv x.outs r.1) k out g, g)
  inflight r _ k := x.inflight r k
  mem₀ _ := .zero
  env₀ _ := ⟨0, 0⟩
  reg₀ := x.reg₀

variable {x : BwdDispatch P dk dv K B R}

theorem bwdDispatchNet_peer {r q : Fin P × Fin B} {t : Unit} :
    (bwdDispatchNet x).peer r t = some q ↔ r.1.val = q.1 + 1 ∧ r.2 = q.2 := by
  obtain ⟨q, b⟩ := q
  simp only [bwdDispatchNet, ringPrev, Option.map_eq_some_iff, Prod.mk.injEq]
  constructor
  · rintro ⟨p, hp, rfl, hb⟩
    exact ⟨prevRank_eq.mp hp, hb⟩
  · rintro ⟨hp, hb⟩
    exact ⟨q, prevRank_eq.mpr hp, rfl, hb⟩

theorem roleOf_source {r : Fin P} : roleOf r = .source ↔ r.val = P - 1 := by
  rw [roleOf]
  split_ifs with h h' <;> simp [h]

theorem roleOf_terminal {r : Fin P} (hP : 1 < P) : roleOf r = .terminal ↔ r.val = 0 := by
  rw [roleOf]
  split_ifs with h h'
  · simp
    omega
  · simp [h']
  · simp [h']

theorem bwdDispatchNet_wired (hK : 0 < K) : (bwdDispatchNet x).Wired where
  blocks_pos _ _ _ := hK
  receiver {p t q k} hl := by
    obtain ⟨hp, -⟩ := bwdDispatchNet_peer.mp hl.peer
    refine ⟨Finset.mem_univ _, decide_eq_true ?_, hl.block⟩
    rw [Ne, roleOf_source]
    omega
  feeder {q t k} hs := by
    have hq : q.1.val ≠ P - 1 := fun h => of_decide_eq_true hs.waits (roleOf_source.mpr h)
    exact ⟨(⟨q.1 + 1, by omega⟩, q.2), Finset.mem_univ _, bwdDispatchNet_peer.mpr ⟨rfl, rfl⟩,
      hs.block⟩
  feeder_unique {p p' t q k} hl hl' := by
    obtain ⟨h, hb⟩ := bwdDispatchNet_peer.mp hl.peer
    obtain ⟨h', hb'⟩ := bwdDispatchNet_peer.mp hl'.peer
    exact Prod.ext (Fin.ext (h.trans h'.symm)) (hb.trans hb'.symm)
  store_eq hl := by
    obtain ⟨h, hb⟩ := bwdDispatchNet_peer.mp hl.peer
    simp only [bwdDispatchNet, prevRank_eq.mpr h, hb, Option.getD_some]
  notify_eq hl := by
    obtain ⟨h, hb⟩ := bwdDispatchNet_peer.mp hl.peer
    simp only [bwdDispatchNet, prevRank_eq.mpr h, hb, Option.getD_some]
  recv_inj _ _ he := by
    obtain ⟨hb, hp, hk, hij⟩ := dstBlock_inj he
    exact ⟨⟨Prod.ext hp hb, rfl, hk⟩, hij⟩
  sig_inj _ _ he := by
    simp only [bwdDispatchNet, WindowWord.signal.injEq] at he
    exact ⟨Prod.ext he.2.1 he.1, rfl, he.2.2⟩
  sig_ne_recv _ _ := by simp [bwdDispatchNet, dstBlock]
  epoch_one := rfl
  zeroed _ := rfl

theorem bwdDispatchNet_progressive :
    (bwdDispatchNet x).Progressive (fun _ _ => 0) (fun r _ => P - r.1) where
  needs_prior h := nomatch h
  feeder_lower {p t q k t' k'} hl _ := by
    obtain ⟨hp, -⟩ := bwdDispatchNet_peer.mp hl.peer
    exact .inr (by omega)

variable (x) in
def adjoints : States P dk dv R := reverseScan x.gammas x.gOut

variable (x) in
structure BwdWritten (r : Fin P) (m n : ℕ) (out : BwdOut dk dv R) : Prop where
  dS : ∀ t : Fin dk, t.val < m * (dk / K) → out.dS t = adjoints x r t
  dgamma : ∀ t : Fin dk, t.val < n * (dk / K) ∨ r.val = 0 →
    out.dgamma t = rowSum (adjoints x r ⊙ sRecv x.outs r) t

theorem bwdWritten_zero (r : Fin P) : BwdWritten x r 0 0 ⟨0, 0⟩ := by
  constructor
  · intro t ht
    exact absurd ht (by simp)
  · rintro t (ht | hr)
    · exact absurd ht (by simp)
    · rw [sRecv_first _ hr]
      simp

theorem BwdWritten.complete {k : ℕ} (hdvd : K ∣ dk) (hk : k = K) {r : Fin P} {out : BwdOut dk dv R}
    (h : BwdWritten x r k k out) : out.dS = (expectedAllscanBackward x.gammas x.outs x.gOut).1 r ∧
      out.dgamma = (expectedAllscanBackward x.gammas x.outs x.gOut).2 r := by
  constructor
  · exact eq_of_blocks hdvd hk h.dS
  · have hd : (expectedAllscanBackward x.gammas x.outs x.gOut).2 r =
        rowSum (adjoints x r ⊙ sRecv x.outs r) := gammaGrads_apply _ _ _
    rw [hd]
    exact eq_of_blocks hdvd hk fun t ht => h.dgamma t (.inl ht)

theorem bwdStepLoad_d (r : Fin P) (k : ℕ) (g : BwdTiles (dk / K) dv R) :
    (bwdStepLoad r (x.gOut r) k (if decide (roleOf r ≠ .source) then
      block (dk / K) (message x.gammas (adjoints x) r) k else 0) g).d =
        block (dk / K) (adjoints x r) k := by
  have hs : adjoints x r = x.gOut r + message x.gammas (adjoints x) r :=
    reverseScan_reverse x.gammas x.gOut r
  rw [bwdStepLoad]
  cases hr : roleOf r with
  | source =>
    have hlast : ¬ r.val + 1 < P := by
      have := roleOf_source.mp hr
      omega
    rw [message, dif_neg hlast, add_zero] at hs
    rw [hs]
  | terminal | middle =>
    simp only [ne_eq, reduceCtorEq, not_false_eq_true, decide_true, if_true]
    rw [hs, block_add]

theorem bwdStepEmit_written {r : Fin P} {k : ℕ} {out : BwdOut dk dv R}
    {g : BwdTiles (dk / K) dv R} (hw : BwdWritten x r k k out)
    (hd : g.d = block (dk / K) (adjoints x r) k) :
    BwdWritten x r (k + 1) k (bwdStepEmit r (x.gammas r) k out g).1 ∧
      (bwdStepEmit r (x.gammas r) k out g).2.d = block (dk / K) (adjoints x r) k ∧
      (r.val ≠ 0 → (bwdStepEmit r (x.gammas r) k out g).2.msgOut =
        block (dk / K) (rowScale (x.gammas r) (adjoints x r)) k) := by
  have hrows : ∀ t : Fin dk, t.val < (k + 1) * (dk / K) →
      setBlock out.dS k g.d t = adjoints x r t := by
    rw [hd]
    exact setBlock_rows hw.dS
  rw [bwdStepEmit]
  cases hr : roleOf r with
  | terminal =>
    refine ⟨⟨hrows, hw.dgamma⟩, hd, fun h0 => ?_⟩
    exact absurd ((roleOf_terminal x.ranks).mp hr) h0
  | source | middle => exact ⟨⟨hrows, hw.dgamma⟩, hd, fun _ => by rw [hd, block_rowScale]⟩

theorem bwdStepReduce_written {r : Fin P} {k : ℕ} {out : BwdOut dk dv R}
    {g : BwdTiles (dk / K) dv R} (hw : BwdWritten x r (k + 1) k out)
    (hd : g.d = block (dk / K) (adjoints x r) k) :
    BwdWritten x r (k + 1) (k + 1) (bwdStepReduce r (sRecv x.outs r) k out g) := by
  have hrole := roleOf_terminal (r := r) x.ranks
  rw [bwdStepReduce]
  cases hr : roleOf r with
  | terminal => exact ⟨hw.dS, fun t _ => hw.dgamma t (.inr (hrole.mp hr))⟩
  | source | middle =>
    have h0 : r.val ≠ 0 := fun h0 => by
      rw [hrole.mpr h0] at hr
      cases hr
    refine ⟨hw.dS, fun t ht => ?_⟩
    simp only [hd, ← block_hadamard, ← blockCol_rowSum]
    exact setBlockCol_rows (fun t ht => hw.dgamma t (.inl ht)) t (ht.resolve_right h0)

def BwdAt (x : BwdDispatch P dk dv K B R) (p : Fin P) (k : ℕ) (out : BwdOut dk dv R)
    (g : BwdTiles (dk / K) dv R) : Net.Point → Prop
  | .before => BwdWritten x p k k out
  | .loaded => BwdWritten x p k k out ∧ g.d = block (dk / K) (adjoints x p) k
  | .emitted => BwdWritten x p (k + 1) k out ∧ g.d = block (dk / K) (adjoints x p) k ∧
      (p.val ≠ 0 → g.msgOut = block (dk / K) (rowScale (x.gammas p) (adjoints x p)) k)

def bwdDispatchOutline (hdvd : K ∣ dk) : (bwdDispatchNet x).Outline where
  incoming r _ k := block (dk / K) (message x.gammas (adjoints x) r.1) k
  Fresh _ _ out := out = ⟨0, 0⟩
  At r _ k point out g := BwdAt x r.1 k out g point
  Done r _ out := out.dS = (expectedAllscanBackward x.gammas x.outs x.gOut).1 r.1 ∧
    out.dgamma = (expectedAllscanBackward x.gammas x.outs x.gOut).2 r.1
  fresh _ _ _ := rfl
  start _ hfresh _ := hfresh ▸ bwdWritten_zero _
  load {r t k out g} _ _ hat := ⟨hat, bwdStepLoad_d r.1 k g⟩
  emit _ _ hat := bwdStepEmit_written hat.1 hat.2
  send {r t q k out g} hl hat := by
    obtain ⟨hr, -⟩ := bwdDispatchNet_peer.mp hl.peer
    rw [message_prevRank _ _ (prevRank_eq.mpr hr)]
    exact hat.2.2 (by omega)
  reduce_next _ _ hat := bwdStepReduce_written hat.1 hat.2.1
  reduce_done _ hk hat := (bwdStepReduce_written hat.1 hat.2.1).complete hdvd hk
  frame_fresh _ _ hne := absurd rfl hne
  frame_done _ _ hne := absurd rfl hne

theorem bwdDispatchNet_size (x : BwdDispatch P dk dv K B R) (mem : Memory P B R) :
    ((bwdDispatchNet x).onMemory mem).size = P * B * (1 + 7 * K) := by
  simp [Net.size, Net.onMemory, bwdDispatchNet]

end Steps

/-- `run_backward`, or `run_batch_backward`, call after call: on a retained domain the dispatches
after the first are right if their waits await the notifications of their own dispatch; where the
windows are zeroed each time they always are, and they always end. -/
theorem repeatedBackward_correct [Semiring R] (persistent : Bool) (hK : 0 < K) (hdvd : K ∣ dk)
    (ds : List (BwdDispatch P dk dv K B R × List (Event (Fin P × Fin B) Unit)))
    (envs : List (Fin P × Fin B → BwdOut dk dv R)) (mem : Memory P B R)
    (h : Net.Session bwdDispatchNet (startMemory persistent) (fun _ => .zero) ds envs mem)
    (hown : persistent = true → ∀ d ∈ ds.tail, AwaitsOwn ringPrev d.2) :
    (∀ b, envs.map (fun env => (fun r => (env (r, b)).dS, fun r => (env (r, b)).dgamma)) =
      ds.map fun d => expectedAllscanBackward d.1.gammas d.1.outs d.1.gOut) ∧
    ∀ (x : BwdDispatch P dk dv K B R) es s,
      ((bwdDispatchNet x).onMemory (startMemory persistent mem)).Run es s →
      es.length ≤ P * B * (1 + 7 * K) ∧
      ((persistent = true → ds ≠ [] → AwaitsOwn ringPrev es) →
        Runs.Stuck ((bwdDispatchNet x).onMemory (startMemory persistent mem)).step s →
        (bwdDispatchNet x).Final s) ∧
      (persistent = false → ∃ fs s',
        ((bwdDispatchNet x).onMemory (startMemory persistent mem)).Run (es ++ fs) s' ∧
          (bwdDispatchNet x).Final s') := by
  have hw (x : BwdDispatch P dk dv K B R) : (bwdDispatchNet x).Wired := bwdDispatchNet_wired hK
  have reset (x : BwdDispatch P dk dv K B R) {mem : Memory P B R}
      (hz : persistent = false ∨ mem = fun _ => .zero) :
      (bwdDispatchNet x).SignalsZero (startMemory persistent mem) := by
    intro q t k _
    rcases hz with rfl | rfl
    · rfl
    · cases persistent <;> rfl
  constructor
  · intro b
    have hdone := Net.session_done hw (fun _ => bwdDispatchOutline hdvd) h
      (fun d _ => .inl (reset d.1 (.inr rfl))) fun d hd mem => by
        cases hp : persistent with
        | false => exact .inl (hp ▸ reset d.1 (.inl hp))
        | true => exact .inr (hown hp d hd)
    clear h hown
    induction hdone with
    | nil => rfl
    | @cons d env ds envs hd _ ih =>
      rw [List.map_cons, List.map_cons, ih]
      congr 1
      exact Prod.ext (funext fun r => (hd (r, b) () (Finset.mem_univ _)).1)
        (funext fun r => (hd (r, b) () (Finset.mem_univ _)).2)
  · intro x es s hrun
    refine ⟨?_, fun hes hstuck => ?_, fun hp => ?_⟩
    · rw [← bwdDispatchNet_size x (startMemory persistent mem)]
      exact Net.run_length (fun _ _ _ => hK) hrun
    · apply Net.dispatch_final_of_stuck (hw x) bwdDispatchNet_progressive (bwdDispatchOutline hdvd)
        hrun hstuck
      cases hp : persistent with
      | false => exact .inl (hp ▸ reset x (.inl hp))
      | true =>
        cases h with
        | nil => exact .inl (hp ▸ reset x (.inr rfl))
        | cons => exact .inr (hes hp (List.cons_ne_nil _ _))
    · exact Net.run_finishes ((hw x).onMemory (reset x (.inl hp)))
        (bwdDispatchNet_progressive.onMemory _) ((bwdDispatchOutline hdvd).onMemory _) hrun

section Two

def bwdDispatchTwo (a c : ℤ) : BwdDispatch 2 1 1 1 1 ℤ :=
  ⟨by decide, ![Matrix.of fun _ _ => a, Matrix.of fun _ _ => c], fun _ _ => 3,
    fun _ => Matrix.of fun _ _ => 5, fun _ _ => 0, fun _ => ⟨0, 0, 0⟩⟩

theorem repeatedBackward_correct_two :
    let es : List (Event (Fin 2 × Fin 1) Unit) := sends (1, 0) ++ receives (0, 0)
    ∃ env env' mem, Net.Session bwdDispatchNet (startMemory true) (fun _ => .zero)
      [(bwdDispatchTwo 1 2, es), (bwdDispatchTwo 10 20, es)] [env, env'] mem ∧
      (env' (0, 0)).dS 0 0 = 70 ∧ (env' (1, 0)).dgamma 0 = 100 := by
  intro es
  have hrun : (Runs.exec (bwdDispatchNet (bwdDispatchTwo 1 2)).step
      (bwdDispatchNet (bwdDispatchTwo 1 2)).initial es).any (fun s =>
        decide ((bwdDispatchNet (bwdDispatchTwo 1 2)).Final s) &&
        (Runs.exec ((bwdDispatchNet (bwdDispatchTwo 10 20)).onMemory s.mem).step
          ((bwdDispatchNet (bwdDispatchTwo 10 20)).onMemory s.mem).initial es).any (fun s' =>
            decide ((bwdDispatchNet (bwdDispatchTwo 10 20)).Final s'))) = true := by
    decide +kernel
  obtain ⟨s, hs, hrest⟩ := (Option.any_eq_true _ _).mp hrun
  obtain ⟨hfinal, hrest⟩ := Bool.and_eq_true_iff.mp hrest
  obtain ⟨s', hs', hfinal'⟩ := (Option.any_eq_true _ _).mp hrest
  have h : Net.Session bwdDispatchNet (startMemory true) (fun _ => .zero)
      [(bwdDispatchTwo 1 2, es), (bwdDispatchTwo 10 20, es)] [s.env, s'.env] s'.mem :=
    .cons hs (of_decide_eq_true hfinal) (.cons hs' (of_decide_eq_true hfinal') (.nil _))
  have hown : AwaitsOwn (ringPrev (P := 2) (B := 1)) es := by decide +kernel
  have hout := (repeatedBackward_correct true Nat.one_pos (one_dvd 1) _ _ _ h fun _ d hd => by
    rw [List.mem_singleton.mp hd]
    exact hown).1 0
  have hlast := (List.cons.inj (List.cons.inj hout).2).1
  have hdS := congrFun (congrArg Prod.fst hlast) 0
  have hdgamma := congrFun (congrArg Prod.snd hlast) 1
  dsimp only at hdS hdgamma
  refine ⟨_, _, _, h, ?_, ?_⟩
  · rw [hdS]
    decide +kernel
  · rw [hdgamma]
    decide +kernel

end Two

end ZeCo.PyptoAllscan
