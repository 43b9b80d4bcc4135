import ZeCo.AllscanCommon
import ZeCo.Blocks
import ZeCo.NetworkRetained

/-!
The pypto AllScan dispatched again and again. One dispatch runs `B` rings, each on window buffers
of its own; every ring step of every rank is a process. The window buffers are zeroed when the comm
domain is allocated: before each dispatch, or once if the domain is retained.
-/

namespace ZeCo.PyptoAllscan

open Matrix Network

variable {R : Type*} {P dk dv K B : ℕ}

inductive WindowWord (P B : ℕ) where
  | dst (b : Fin B) (rank : Fin P) (row col : ℕ)
  | signal (b : Fin B) (rank : Fin P) (k : ℕ)
  deriving DecidableEq

def dstBlock (n dv : ℕ) (b : Fin B) (rank : Fin P) (k : ℕ) : Tile (WindowWord P B) n dv :=
  fun i j => .dst b rank (k * n + i) j

theorem dstBlock_inj {n : ℕ} {b b' : Fin B} {p q : Fin P} {k k' : ℕ} {i i' : Fin n}
    {j j' : Fin dv} (h : dstBlock n dv b p k i j = dstBlock n dv b' q k' i' j') :
    b = b' ∧ p = q ∧ k = k' ∧ i = i' ∧ j = j' := by
  simp only [dstBlock, WindowWord.dst.injEq] at h
  obtain ⟨hb, hp, hrow, hcol⟩ := h
  obtain ⟨hk, hi⟩ := radix_inj i.isLt i'.isLt hrow
  exact ⟨hb, hp, hk, Fin.ext hi, Fin.ext hcol⟩

structure StepTiles (n dv : ℕ) (R : Type*) where
  sRecv : Matrix (Fin n) (Fin dv) R
  sSend : Matrix (Fin n) (Fin dv) R

section Steps

variable [Semiring R]

def stepLoad {n : ℕ} (r : Fin P) (sLocal : Matrix (Fin dk) (Fin dv) R) (gamma : Fin dk → R) (k : ℕ)
    (dst : Matrix (Fin n) (Fin dv) R) (g : StepTiles n dv R) : StepTiles n dv R :=
  if r.val = 0 then { g with sSend := block n sLocal k }
  else
    let sRecv := dst
    let scaledRecv := rowScale (blockCol n gamma k) sRecv
    { sRecv, sSend := block n sLocal k + scaledRecv }

structure Dispatch (P dk dv K B : ℕ) (R : Type*) where
  sLocals : States P dk dv R
  gammas : Decays P dk R
  inflight : Fin P × Fin B → ℕ → Matrix (Fin (dk / K)) (Fin dv) R
  reg₀ : Fin P × Fin B → StepTiles (dk / K) dv R

abbrev Memory (P B : ℕ) (R : Type*) := WindowWord P B → Word R

def ringNext (r : Fin P × Fin B) (_ : Unit) : Option (Fin P × Fin B) :=
  (nextRank r.1).map (·, r.2)

/-- `host_orch` on windows that hold `mem`; `_dispatch` zeroes the outputs. -/
def dispatchNet (x : Dispatch P dk dv K B R) (mem : Memory P B R) :
    Net (Fin P × Fin B) Unit (WindowWord P B) R (Matrix (Fin dk) (Fin dv) R)
      (StepTiles (dk / K) dv R) (dk / K) dv where
  tasks _ := Finset.univ
  needs _ _ _ := false
  blocks _ _ := K
  waits r _ := r.1.val ≠ 0
  peer := ringNext
  epoch := 1
  recvAt r _ k := dstBlock (dk / K) dv r.2 r.1 k
  sigAt r _ k := .signal r.2 r.1 k
  storeAt r _ k := dstBlock (dk / K) dv r.2 ((nextRank r.1).getD r.1) k
  notifyAt r _ k := .signal r.2 ((nextRank r.1).getD r.1) k
  load r _ k _ dst g := stepLoad r.1 (x.sLocals r.1) (x.gammas r.1) k dst g
  emit _ _ k sOut g := (setBlock sOut k g.sSend, g)
  outgoing _ _ _ g := g.sSend
  reduce _ _ _ sOut g := (sOut, g)
  inflight r _ k := x.inflight r k
  mem₀ := mem
  env₀ _ := 0
  reg₀ := x.reg₀

variable {x : Dispatch P dk dv K B R} {mem : Memory P B R}

theorem dispatchNet_peer {r q : Fin P × Fin B} {t : Unit} :
    (dispatchNet x mem).peer r t = some q ↔ nextRank r.1 = some q.1 ∧ r.2 = q.2 := by
  obtain ⟨q, b⟩ := q
  simp only [dispatchNet, ringNext, Option.map_eq_some_iff, Prod.mk.injEq]
  constructor
  · rintro ⟨p, hp, rfl, hb⟩
    exact ⟨hp, hb⟩
  · rintro ⟨hp, hb⟩
    exact ⟨q, hp, rfl, hb⟩

def Zeroed (mem : Memory P B R) : Prop := ∀ b r k, mem (.signal b r k) = .zero

theorem dispatchNet_wired (hK : 0 < K) (hz : Zeroed mem) : (dispatchNet x mem).Wired where
  blocks_pos _ _ _ := hK
  receiver {p t q k} hl := by
    have hp := nextRank_eq.mp (dispatchNet_peer.mp hl.peer).1
    exact ⟨Finset.mem_univ _, decide_eq_true (by omega), hl.block⟩
  feeder {q t k} hs := by
    have hq : q.1.val ≠ 0 := of_decide_eq_true hs.waits
    have hp : nextRank (⟨q.1 - 1, pred_lt q.1⟩ : Fin P) = some q.1 :=
      nextRank_eq.mpr (by simp only; omega)
    exact ⟨(⟨q.1 - 1, pred_lt q.1⟩, q.2), Finset.mem_univ _, dispatchNet_peer.mpr ⟨hp, rfl⟩,
      hs.block⟩
  feeder_unique {p p' t q k} hl hl' := by
    obtain ⟨h, hb⟩ := dispatchNet_peer.mp hl.peer
    obtain ⟨h', hb'⟩ := dispatchNet_peer.mp hl'.peer
    rw [nextRank_eq] at h h'
    exact Prod.ext (Fin.ext (by omega)) (hb.trans hb'.symm)
  store_eq hl := by
    obtain ⟨h, hb⟩ := dispatchNet_peer.mp hl.peer
    simp only [dispatchNet, h, hb, Option.getD_some]
  notify_eq hl := by
    obtain ⟨h, hb⟩ := dispatchNet_peer.mp hl.peer
    simp only [dispatchNet, h, hb, Option.getD_some]
  recv_inj _ _ he := by
    obtain ⟨hb, hp, hk, hij⟩ := dstBlock_inj he
    exact ⟨⟨Prod.ext hp hb, rfl, hk⟩, hij⟩
  sig_inj _ _ he := by
    simp only [dispatchNet, WindowWord.signal.injEq] at he
    exact ⟨Prod.ext he.2.1 he.1, rfl, he.2.2⟩
  sig_ne_recv _ _ := by simp [dispatchNet, dstBlock]
  epoch_one := rfl
  zeroed _ := hz ..

theorem dispatchNet_progressive :
    (dispatchNet x mem).Progressive (fun _ _ => 0) (fun r _ => r.1) where
  needs_prior h := nomatch h
  feeder_lower hl _ := by
    have hp := nextRank_eq.mp (dispatchNet_peer.mp hl.peer).1
    exact .inr (by omega)

theorem stepLoad_sSend {n : ℕ} (sLocals : States P dk dv R) (gammas : Decays P dk R) (r : Fin P)
    (k : ℕ) (g : StepTiles n dv R) : (stepLoad r (sLocals r) (gammas r) k
      (if decide (r.val ≠ 0) then block n (sRecv (expectedAllscan sLocals gammas) r) k else 0)
      g).sSend = block n (expectedAllscan sLocals gammas r) k := by
  have hs := expectedAllscan_scans sLocals gammas r
  rw [ScansTo] at hs
  by_cases h : r.val = 0
  · rw [sRecv_first _ h, rowScale_zero, add_zero] at hs
    rw [stepLoad, if_pos h, hs]
  · rw [stepLoad, if_neg h, if_pos (decide_eq_true h), hs, block_add, block_rowScale]

def Written (x : Dispatch P dk dv K B R) (r : Fin P) (m : ℕ) (sOut : Matrix (Fin dk) (Fin dv) R) :
    Prop :=
  ∀ t : Fin dk, t.val < m * (dk / K) → sOut t = expectedAllscan x.sLocals x.gammas r t

def dispatchOutline (hdvd : K ∣ dk) : (dispatchNet x mem).Outline where
  incoming r _ k := block (dk / K) (sRecv (expectedAllscan x.sLocals x.gammas) r.1) k
  Fresh _ _ _ := True
  At r _ k point sOut g := match point with
    | .before => Written x r.1 k sOut
    | .loaded => Written x r.1 k sOut ∧
        g.sSend = block (dk / K) (expectedAllscan x.sLocals x.gammas r.1) k
    | .emitted => Written x r.1 (k + 1) sOut ∧
        g.sSend = block (dk / K) (expectedAllscan x.sLocals x.gammas r.1) k
  Done r _ sOut := sOut = expectedAllscan x.sLocals x.gammas r.1
  fresh _ _ _ := trivial
  start _ _ _ t ht := absurd ht (by simp)
  load {r t k sOut g} _ _ hat := ⟨hat, stepLoad_sSend x.sLocals x.gammas r.1 k g⟩
  emit {r t k sOut g} _ _ hat := by
    refine ⟨fun t ht => ?_, hat.2⟩
    simp only [dispatchNet, hat.2]
    exact setBlock_rows hat.1 t ht
  send hl hat := by
    rw [sRecv_nextRank _ (dispatchNet_peer.mp hl.peer).1]
    exact hat.2
  reduce_next _ _ hat := hat.1
  reduce_done _ hk hat := eq_of_blocks hdvd hk hat.1
  frame_fresh _ _ _ _ := ⟨trivial, trivial⟩
  frame_done _ _ hne := absurd rfl hne

def unsignalled (mem : Memory P B R) : Memory P B R
  | .signal _ _ _ => .zero
  | w => mem w

omit [Semiring R] in
theorem unsignalled_zeroed : Zeroed (unsignalled mem) := fun _ _ _ => rfl

theorem dispatchNet_agrees :
    (dispatchNet x (unsignalled mem)).Agrees mem (dispatchNet x (unsignalled mem)).initial :=
  ⟨fun _ => rfl, fun _ => Nat.zero_le _⟩

def startMemory (persistent : Bool) (mem : Memory P B R) : Memory P B R :=
  if persistent then mem else fun _ => .zero

inductive Session (persistent : Bool) (b : Fin B) : Memory P B R →
    List (Dispatch P dk dv K B R × List (Event (Fin P × Fin B) Unit)) → List (States P dk dv R) →
    Memory P B R → Prop
  | nil (mem : Memory P B R) : Session persistent b mem [] [] mem
  | cons {mem mem' : Memory P B R} {x : Dispatch P dk dv K B R}
      {es : List (Event (Fin P × Fin B) Unit)}
      {ds : List (Dispatch P dk dv K B R × List (Event (Fin P × Fin B) Unit))}
      {outs : List (States P dk dv R)}
      {s : State (Fin P × Fin B) Unit (WindowWord P B) R (Matrix (Fin dk) (Fin dv) R)
        (StepTiles (dk / K) dv R)}
      (run : (dispatchNet x (startMemory persistent mem)).Run es s)
      (final : (dispatchNet x (startMemory persistent mem)).Final s)
      (rest : Session persistent b s.mem ds outs mem') :
      Session persistent b mem ((x, es) :: ds) ((fun r => s.env (r, b)) :: outs) mem'

/-- What makes a dispatch right: its waits start from zero, or they await its own
notifications. -/
def Fresh (mem : Memory P B R) (es : List (Event (Fin P × Fin B) Unit)) : Prop :=
  Zeroed mem ∨ AwaitsOwn ringNext es

variable {es : List (Event (Fin P × Fin B) Unit)}
  {s : State (Fin P × Fin B) Unit (WindowWord P B) R (Matrix (Fin dk) (Fin dv) R)
    (StepTiles (dk / K) dv R)}

theorem dispatch_out (hK : 0 < K) (hdvd : K ∣ dk) (hrun : (dispatchNet x mem).Run es s)
    (hfinal : (dispatchNet x mem).Final s) (hfresh : Fresh mem es) (r : Fin P × Fin B) :
    s.env r = expectedAllscan x.sLocals x.gammas r.1 := by
  rcases hfresh with hz | hown
  · exact Net.final_done (dispatchNet_wired hK hz) (dispatchOutline hdvd) hrun hfinal
      (Finset.mem_univ ())
  · exact Net.retained_done (dispatchNet_wired hK unsignalled_zeroed) (dispatchOutline hdvd)
      dispatchNet_agrees hrun hown hfinal (Finset.mem_univ ())

theorem dispatch_progress (hK : 0 < K) (hdvd : K ∣ dk) (hrun : (dispatchNet x mem).Run es s)
    (hstuck : Runs.Stuck (dispatchNet x mem).step s) (hfresh : Fresh mem es) :
    (dispatchNet x mem).Final s := by
  rcases hfresh with hz | hown
  · exact Net.final_of_stuck (dispatchNet_wired hK hz) dispatchNet_progressive
      (dispatchOutline hdvd) hrun hstuck
  · exact Net.retained_final_of_stuck (dispatchNet_wired hK unsignalled_zeroed)
      dispatchNet_progressive (dispatchOutline hdvd) dispatchNet_agrees hrun hown hstuck

theorem session_outs {persistent : Bool} {b : Fin B} {mem mem' : Memory P B R}
    {ds : List (Dispatch P dk dv K B R × List (Event (Fin P × Fin B) Unit))}
    {outs : List (States P dk dv R)} (hK : 0 < K) (hdvd : K ∣ dk)
    (h : Session persistent b mem ds outs mem')
    (hfresh : ∀ d ∈ ds, persistent = true → AwaitsOwn ringNext d.2) :
    outs = ds.map fun d => expectedAllscan d.1.sLocals d.1.gammas := by
  induction h with
  | nil mem => rfl
  | @cons mem mem' x es ds outs s run final rest ih =>
    have first : Fresh (startMemory persistent mem) es := by
      cases persistent with
      | false => exact .inl fun _ _ _ => rfl
      | true => exact .inr (hfresh _ List.mem_cons_self rfl)
    have htail := ih fun d hd => hfresh d (List.mem_cons_of_mem _ hd)
    have hhead : (fun r => s.env (r, b)) = expectedAllscan x.sLocals x.gammas :=
      funext fun r => dispatch_out hK hdvd run final first (r, b)
    rw [List.map_cons, htail, hhead]

end Steps

theorem repeated_correct [Semiring R] (persistent : Bool) (b : Fin B) (hK : 0 < K) (hdvd : K ∣ dk)
    (ds : List (Dispatch P dk dv K B R × List (Event (Fin P × Fin B) Unit)))
    (outs : List (States P dk dv R)) (mem : Memory P B R)
    (h : Session persistent b (fun _ => .zero) ds outs mem)
    (hown : persistent = true → ∀ d ∈ ds.tail, AwaitsOwn ringNext d.2) :
    outs = ds.map (fun d => expectedAllscan d.1.sLocals d.1.gammas) ∧
      ∀ (x : Dispatch P dk dv K B R) es s, (persistent = true → ds ≠ [] → AwaitsOwn ringNext es) →
        (dispatchNet x (startMemory persistent mem)).Run es s →
        Runs.Stuck (dispatchNet x (startMemory persistent mem)).step s →
        (dispatchNet x (startMemory persistent mem)).Final s := by
  constructor
  · cases h with
    | nil => rfl
    | @cons _ mem x es ds outs s run final rest =>
      have first : Fresh (startMemory (R := R) persistent fun _ => .zero) es := by
        cases persistent <;> exact .inl fun _ _ _ => rfl
      have htail := session_outs hK hdvd rest fun d hd hp => hown hp d hd
      have hhead : (fun r => s.env (r, b)) = expectedAllscan x.sLocals x.gammas :=
        funext fun r => dispatch_out hK hdvd run final first (r, b)
      rw [List.map_cons, htail, hhead]
  · intro x es s hes hrun hstuck
    apply dispatch_progress hK hdvd hrun hstuck
    cases persistent with
    | false => exact .inl fun _ _ _ => rfl
    | true =>
      cases h with
      | nil => exact .inl fun _ _ _ => rfl
      | cons => exact .inr (hes rfl (List.cons_ne_nil _ _))

section Two

def sends (r : Fin P × Fin B) : List (Event (Fin P × Fin B) Unit) :=
  [.start r (), .act r () 0 .load, .act r () 0 .emit, .act r () 0 .store, .act r () 0 .flush,
    .act r () 0 .notify, .act r () 0 .reduce]

def receives (r : Fin P × Fin B) : List (Event (Fin P × Fin B) Unit) :=
  [.start r (), .act r () 0 .wait, .act r () 0 .load, .act r () 0 .emit, .act r () 0 .reduce]

def dispatchTwo (a c : ℤ) : Dispatch 2 1 1 1 1 ℤ :=
  ⟨![Matrix.of fun _ _ => a, Matrix.of fun _ _ => c], fun _ _ => 3, fun _ _ => 0, fun _ => ⟨0, 0⟩⟩

theorem session_two (es : List (Event (Fin 2 × Fin 1) Unit)) (out : ℤ)
    (h : (Runs.exec (dispatchNet (dispatchTwo 1 2) fun _ => .zero).step
      (dispatchNet (dispatchTwo 1 2) fun _ => .zero).initial
        (sends (0, 0) ++ receives (1, 0))).any (fun s =>
        decide ((dispatchNet (dispatchTwo 1 2) fun _ => .zero).Final s) &&
        (Runs.exec (dispatchNet (dispatchTwo 10 20) s.mem).step
          (dispatchNet (dispatchTwo 10 20) s.mem).initial es).any (fun s' =>
            decide ((dispatchNet (dispatchTwo 10 20) s.mem).Final s' ∧
              s'.env (1, 0) 0 0 = out))) = true) :
    ∃ o o' mem, Session true 0 (fun _ => .zero)
      [(dispatchTwo 1 2, sends (0, 0) ++ receives (1, 0)), (dispatchTwo 10 20, es)] [o, o'] mem ∧
      o' 1 0 0 = out := by
  obtain ⟨s, hs, hrest⟩ := (Option.any_eq_true _ _).mp h
  obtain ⟨hfinal, hrest⟩ := Bool.and_eq_true_iff.mp hrest
  obtain ⟨s', hs', hout⟩ := (Option.any_eq_true _ _).mp hrest
  obtain ⟨hfinal', hout⟩ := of_decide_eq_true hout
  exact ⟨_, _, _, .cons hs (of_decide_eq_true hfinal) (.cons hs' hfinal' (.nil _)), hout⟩

theorem repeated_correct_two : ∃ o o' mem, Session true 0 (fun _ => .zero)
    [(dispatchTwo 1 2, sends (0, 0) ++ receives (1, 0)),
      (dispatchTwo 10 20, sends (0, 0) ++ receives (1, 0))] [o, o']
      mem ∧ o' 1 0 0 = 50 := by
  obtain ⟨o, o', mem, h, -⟩ := session_two (sends (0, 0) ++ receives (1, 0)) 50 (by decide +kernel)
  refine ⟨o, o', mem, h, ?_⟩
  have hown : AwaitsOwn (ringNext (P := 2) (B := 1)) (sends (0, 0) ++ receives (1, 0)) := by
    decide +kernel
  have houts := (repeated_correct true 0 Nat.one_pos (one_dvd 1) _ _ _ h fun _ d hd => by
    rw [List.mem_singleton.mp hd]
    exact hown).1
  obtain ⟨-, ho', -⟩ := List.cons.inj (List.cons.inj houts).2
  rw [(List.cons.inj (List.cons.inj houts).2).1]
  decide +kernel

/-- In the second dispatch rank 1 runs before rank 0: its wait passes on the old count. -/
theorem repeated_stale : ¬ ∀ ds outs mem,
    Session (P := 2) true (0 : Fin 1) (fun _ => .zero) ds outs mem →
    outs = ds.map fun d : Dispatch 2 1 1 1 1 ℤ × _ => expectedAllscan d.1.sLocals d.1.gammas := by
  intro h
  obtain ⟨o, o', mem, hsession, hout⟩ :=
    session_two (receives (1, 0) ++ sends (0, 0)) 23 (by decide +kernel)
  have houts := (List.cons.inj (List.cons.inj (h _ _ _ hsession)).2).1
  rw [houts] at hout
  exact absurd hout (by decide +kernel)

end Two

end ZeCo.PyptoAllscan
