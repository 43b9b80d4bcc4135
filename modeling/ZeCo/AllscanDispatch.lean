import ZeCo.AllscanEpochs
import ZeCo.AllscanRings

namespace ZeCo.SimplerAllscan

open Matrix Network AllscanBuffers Calls

variable {R : Type*} {P dk dv K n : ℕ}

theorem forwardRings_correct [Semiring R] (d : Domain P dk dv K n)
    (order : Fin P → Equiv.Perm (Fin n)) (rings : Fin n → Option ℕ)
    (bufs : Option ℕ → Bufs P dk dv R)
    (inflight : Fin P → Fin n → ℕ → Matrix (Fin (dk / K)) (Fin dv) R)
    (reg₀ : Fin P → Tiles (dk / K) dv R) (hK : 0 < K) (hdvd : K ∣ dk)
    (es : List (Event (Fin P) (Fin n)))
    (s : State (Fin P) (Fin n) ℕ R (Option ℕ → RankBufs dk dv R) (Tiles (dk / K) dv R))
    (hrun : (forwardRings d order rings bufs inflight reg₀).Run es s) :
    let N := forwardRings d order rings bufs inflight reg₀
    (∀ p h k φ, .act p h k φ ∈ es → ∀ a ∈ N.touches (.act p h k φ), ∀ q h', a ∈ d.slot q h' →
      h' = h) ∧
    N.ReadsVisible es ∧ N.StoresOnce es ∧ es.length ≤ P * (n * (1 + 7 * K)) ∧
      (∃ fs s', N.Run (es ++ fs) s' ∧ N.Final s') ∧ (Runs.Stuck N.step s → N.Final s) ∧
      (N.Final s → hostBufs s.env = fun r =>
        if r ∈ List.ofFn rings then forwardRing (bufs r) else bufs r) := by
  have hw : (forwardRings d order rings bufs inflight reg₀).Wired := forwardRings_wired hK
  refine ⟨fun p h k φ he a ha q h' hslot => ringNet_isolated hw hrun he ha hslot,
    Net.run_readsVisible hw forwardRingsOutline hrun,
    Net.run_storesOnce hw forwardRingsOutline hrun, ?_,
    Net.run_finishes hw forwardRings_progressive forwardRingsOutline hrun,
    Net.final_of_stuck hw forwardRings_progressive forwardRingsOutline hrun,
    forwardRings_final hK hdvd hrun⟩
  have hsize : (forwardRings d order rings bufs inflight reg₀).size = P * (n * (1 + 7 * K)) :=
    ringNet_size
  exact hsize ▸ Net.run_length hw.blocks_pos hrun

theorem forwardRings_correct_batch :
    let d : Domain 2 1 1 1 2 := ⟨fun p => 4096 * p, 0, by decide, by decide⟩
    let bufs : Option ℕ → Bufs 2 1 1 ℤ := fun _ =>
      ⟨fun p _ _ => p + 1, fun _ _ => 3, fun _ _ _ => 9, 0, 0, 0, 0⟩
    let N := forwardRings d ![1, Equiv.swap 0 1] (fun _ => none) bufs (fun _ _ _ => 0)
      (fun _ => ⟨0, 0, 0⟩)
    let send (h : Fin 2) : List (Event (Fin 2) (Fin 2)) := [.start 0 h, .act 0 h 0 .load,
      .act 0 h 0 .emit, .act 0 h 0 .store, .act 0 h 0 .flush, .act 0 h 0 .notify,
      .act 0 h 0 .reduce]
    let receive (h : Fin 2) : List (Event (Fin 2) (Fin 2)) :=
      [.act 1 h 0 .wait, .act 1 h 0 .load, .act 1 h 0 .emit, .act 1 h 0 .reduce]
    let es := .start 1 1 :: send 0 ++ send 1 ++ receive 1 ++ .start 1 0 :: receive 0
    ∃ s, N.Run es s ∧ N.Final s ∧ (hostBufs s.env none).out 1 0 0 = 5 := by
  intro d bufs N send receive es
  obtain ⟨s, hrun, hfinal⟩ := N.exists_final es (by decide +kernel)
  have hout := (forwardRings_correct d _ _ _ _ _ Nat.one_pos (one_dvd 1) es s hrun).2.2.2.2.2.2
    hfinal
  refine ⟨s, hrun, hfinal, ?_⟩
  rw [hout]
  decide +kernel

theorem backwardRings_correct [Semiring R] (d : Domain P dk dv K n)
    (order : Fin P → Equiv.Perm (Fin n)) (rings : Fin n → Option ℕ)
    (bufs : Option ℕ → Bufs P dk dv R)
    (tmp inflight : Fin P → Fin n → ℕ → Matrix (Fin (dk / K)) (Fin dv) R)
    (reg₀ : Fin P → BackwardTiles (dk / K) dv R) (hK : 0 < K) (hdvd : K ∣ dk)
    (es : List (Event (Fin P) (Fin n)))
    (s : State (Fin P) (Fin n) ℕ R (Option ℕ → RankBufs dk dv R) (BackwardTiles (dk / K) dv R))
    (hrun : (backwardRings d order rings bufs tmp inflight reg₀).Run es s) :
    let N := backwardRings d order rings bufs tmp inflight reg₀
    (∀ p h k φ, .act p h k φ ∈ es → ∀ a ∈ N.touches (.act p h k φ), ∀ q h', a ∈ d.slot q h' →
      h' = h) ∧
    N.ReadsVisible es ∧ N.StoresOnce es ∧ es.length ≤ P * (n * (1 + 7 * K)) ∧
      (∃ fs s', N.Run (es ++ fs) s' ∧ N.Final s') ∧ (Runs.Stuck N.step s → N.Final s) ∧
      (N.Final s → hostBufs s.env = fun r =>
        if r ∈ List.ofFn rings then backwardRing (bufs r) else bufs r) := by
  have hw : (backwardRings d order rings bufs tmp inflight reg₀).Wired := backwardRings_wired hK
  refine ⟨fun p h k φ he a ha q h' hslot => ringNet_isolated hw hrun he ha hslot,
    Net.run_readsVisible hw backwardRingsOutline hrun,
    Net.run_storesOnce hw backwardRingsOutline hrun, ?_,
    Net.run_finishes hw backwardRings_progressive backwardRingsOutline hrun,
    Net.final_of_stuck hw backwardRings_progressive backwardRingsOutline hrun,
    backwardRings_final hK hdvd hrun⟩
  have hsize : (backwardRings d order rings bufs tmp inflight reg₀).size =
      P * (n * (1 + 7 * K)) := ringNet_size
  exact hsize ▸ Net.run_length hw.blocks_pos hrun

theorem backwardRings_correct_batch :
    let d : Domain 2 1 1 1 2 := ⟨fun p => 4096 * p, 0, by decide, by decide⟩
    let bufs : Option ℕ → Bufs 2 1 1 ℤ := fun _ =>
      ⟨0, fun _ _ => 3, 0, fun p _ _ => p + 1, fun p _ _ => 5 * p, 0, fun _ _ => 9⟩
    let N := backwardRings d ![1, Equiv.swap 0 1] (fun _ => none) bufs (fun _ _ _ => 0)
      (fun _ _ _ => 0) (fun _ => ⟨0, 0, 0, 0⟩)
    let send (h : Fin 2) : List (Event (Fin 2) (Fin 2)) := [.start 1 h, .act 1 h 0 .load,
      .act 1 h 0 .emit, .act 1 h 0 .store, .act 1 h 0 .flush, .act 1 h 0 .notify,
      .act 1 h 0 .reduce]
    let receive (h : Fin 2) : List (Event (Fin 2) (Fin 2)) :=
      [.act 0 h 0 .wait, .act 0 h 0 .load, .act 0 h 0 .emit, .act 0 h 0 .reduce]
    let es := .start 0 0 :: send 1 ++ send 0 ++ receive 0 ++ .start 0 1 :: receive 1
    ∃ s, N.Run es s ∧ N.Final s ∧ (hostBufs s.env none).dS 0 0 0 = 7 ∧
      (hostBufs s.env none).dgamma 0 0 = 9 ∧ (hostBufs s.env none).dgamma 1 0 = 10 := by
  intro d bufs N send receive es
  obtain ⟨s, hrun, hfinal⟩ := N.exists_final es (by decide +kernel)
  have hout := (backwardRings_correct d _ _ _ _ _ _ Nat.one_pos (one_dvd 1) es s
    hrun).2.2.2.2.2.2 hfinal
  refine ⟨s, hrun, hfinal, ?_⟩
  rw [hout]
  decide +kernel

section Session

variable [Semiring R]

def ForwardRun (K : ℕ) (rings : List (Option ℕ)) (bufs bufs' : Option ℕ → Bufs P dk dv R) : Prop :=
  ∃ (d : Domain P dk dv K rings.length) (order : Fin P → Equiv.Perm (Fin rings.length))
    (inflight : Fin P → Fin rings.length → ℕ → Matrix (Fin (dk / K)) (Fin dv) R)
    (reg₀ : Fin P → Tiles (dk / K) dv R) (es : List (Event (Fin P) (Fin rings.length)))
    (s : State (Fin P) (Fin rings.length) ℕ R (Option ℕ → RankBufs dk dv R) (Tiles (dk / K) dv R)),
    (forwardRings d order rings.get bufs inflight reg₀).Run es s ∧
      (forwardRings d order rings.get bufs inflight reg₀).Final s ∧ hostBufs s.env = bufs'

def BackwardRun (K : ℕ) (rings : List (Option ℕ)) (bufs bufs' : Option ℕ → Bufs P dk dv R) :
    Prop :=
  ∃ (d : Domain P dk dv K rings.length) (order : Fin P → Equiv.Perm (Fin rings.length))
    (tmp inflight : Fin P → Fin rings.length → ℕ → Matrix (Fin (dk / K)) (Fin dv) R)
    (reg₀ : Fin P → BackwardTiles (dk / K) dv R) (es : List (Event (Fin P) (Fin rings.length)))
    (s : State (Fin P) (Fin rings.length) ℕ R (Option ℕ → RankBufs dk dv R)
      (BackwardTiles (dk / K) dv R)),
    (backwardRings d order rings.get bufs tmp inflight reg₀).Run es s ∧
      (backwardRings d order rings.get bufs tmp inflight reg₀).Final s ∧ hostBufs s.env = bufs'

inductive DeviceCall (K : ℕ) : Allscan P dk dv R → Call P dk dv R → List (Reply P dk dv R) →
    Allscan P dk dv R → Prop where
  | run {a S gammas outputs bufs}
      (rings : ForwardRun K [none]
        (a.modify fun b => { loadForward S gammas b with out := 0 }).bufs bufs) :
      DeviceCall K a (.run S gammas outputs) [.outputs false [(bufs none).out]] { a with bufs }
  | runBackward {a gOut gammas outs dS dgamma bufs}
      (rings : BackwardRun K [none]
        (a.modify fun b => { loadBackward gOut gammas outs b with dS := 0, dgamma := 0 }).bufs
          bufs) :
      DeviceCall K a (.runBackward gOut gammas outs dS dgamma)
        [.grads false [((bufs none).dS, (bufs none).dgamma)]] { a with bufs }
  | runBatch {a S gammas nIters bufs}
      (rings : ForwardRun K (List.replicate nIters none) (a.modify (loadForward S gammas)).bufs
        bufs) :
      DeviceCall K a (.runBatch S gammas nIters) [] { a with bufs }
  | runBatchBackward {a gOut gammas outs nIters bufs}
      (rings : BackwardRun K (List.replicate nIters none)
        (a.modify (loadBackward gOut gammas outs)).bufs bufs) :
      DeviceCall K a (.runBatchBackward gOut gammas outs nIters) [] { a with bufs }
  | runMulti {a b : Allscan P dk dv R} {H : ℕ} {S : Fin H → States P dk dv R}
      {gammas : Fin H → Decays P dk R} {outputs : Fin H → States P dk dv R} {bufs}
      (ensured : a.ensureMultiBufs H = some b)
      (rings : ForwardRun K (heads H)
        (b.modifyMulti fun h b => { loadForward (S h) (gammas h) b with out := 0 }).bufs bufs) :
      DeviceCall K a (.runMulti S gammas outputs)
        [.outputs false (List.ofFn fun h : Fin H => (bufs (some h)).out)] { b with bufs }
  | runMultiRaises {a : Allscan P dk dv R} {H : ℕ} {S : Fin H → States P dk dv R}
      {gammas : Fin H → Decays P dk R} {outputs : Fin H → States P dk dv R}
      (refused : a.ensureMultiBufs H = none) :
      DeviceCall K a (.runMulti S gammas outputs) [.outputs true (List.ofFn outputs)] a
  | runMultiBackward {a b : Allscan P dk dv R} {H : ℕ} {gOut : Fin H → States P dk dv R}
      {gammas : Fin H → Decays P dk R} {outs dS : Fin H → States P dk dv R}
      {dgamma : Fin H → Decays P dk R} {bufs} (ensured : a.ensureMultiBufs H = some b)
      (rings : BackwardRun K (heads H) (b.modifyMulti fun h b =>
        { loadBackward (gOut h) (gammas h) (outs h) b with dS := 0, dgamma := 0 }).bufs bufs) :
      DeviceCall K a (.runMultiBackward gOut gammas outs dS dgamma)
        [.grads false (List.ofFn fun h : Fin H => ((bufs (some h)).dS, (bufs (some h)).dgamma))]
        { b with bufs }
  | runMultiBackwardRaises {a : Allscan P dk dv R} {H : ℕ} {gOut : Fin H → States P dk dv R}
      {gammas : Fin H → Decays P dk R} {outs dS : Fin H → States P dk dv R}
      {dgamma : Fin H → Decays P dk R} (refused : a.ensureMultiBufs H = none) :
      DeviceCall K a (.runMultiBackward gOut gammas outs dS dgamma)
        [.grads true (List.ofFn fun h => (dS h, dgamma h))] a

theorem forwardRun_bufs (hK : 0 < K) (hdvd : K ∣ dk) {rings : List (Option ℕ)}
    {a : Allscan P dk dv R} {bufs : Option ℕ → Bufs P dk dv R}
    (h : ForwardRun K rings a.bufs bufs) (schedule : Schedule) :
    bufs = (a.workerRun schedule forwardRing rings).bufs := by
  obtain ⟨d, order, inflight, reg₀, es, s, hrun, hfinal, rfl⟩ := h
  rw [forwardRings_final hK hdvd hrun hfinal]
  funext r
  rw [workerRun_bufs forwardRing_idem, List.ofFn_get]

theorem backwardRun_bufs (hK : 0 < K) (hdvd : K ∣ dk) {rings : List (Option ℕ)}
    {a : Allscan P dk dv R} {bufs : Option ℕ → Bufs P dk dv R}
    (h : BackwardRun K rings a.bufs bufs) (schedule : Schedule) :
    bufs = (a.workerRun schedule backwardRing rings).bufs := by
  obtain ⟨d, order, tmp, inflight, reg₀, es, s, hrun, hfinal, rfl⟩ := h
  rw [backwardRings_final hK hdvd hrun hfinal]
  funext r
  rw [workerRun_bufs backwardRing_idem, List.ofFn_get]

theorem forwardRun_exists (hK : 0 < K) (rings : List (Option ℕ))
    (bufs : Option ℕ → Bufs P dk dv R) : ∃ bufs', ForwardRun K rings bufs bufs' := by
  let N := forwardRings (Domain.slots P dk dv K rings.length) 1 rings.get bufs 0
    (fun _ => ⟨0, 0, 0⟩)
  have hstart : N.Run [] N.initial := rfl
  obtain ⟨fs, s, hrun, hfinal⟩ := Net.run_finishes (forwardRings_wired hK)
    forwardRings_progressive forwardRingsOutline hstart
  exact ⟨_, _, _, _, _, _, s, hrun, hfinal, rfl⟩

theorem backwardRun_exists (hK : 0 < K) (rings : List (Option ℕ))
    (bufs : Option ℕ → Bufs P dk dv R) : ∃ bufs', BackwardRun K rings bufs bufs' := by
  let N := backwardRings (Domain.slots P dk dv K rings.length) 1 rings.get bufs 0 0
    (fun _ => ⟨0, 0, 0, 0⟩)
  have hstart : N.Run [] N.initial := rfl
  obtain ⟨fs, s, hrun, hfinal⟩ := Net.run_finishes (backwardRings_wired hK)
    backwardRings_progressive backwardRingsOutline hstart
  exact ⟨_, _, _, _, _, _, _, s, hrun, hfinal, rfl⟩

theorem deviceCall_refines (hK : 0 < K) (hdvd : K ∣ dk) {a b : Allscan P dk dv R}
    {c : Call P dk dv R} {replies : List (Reply P dk dv R)} (h : DeviceCall K a c replies b)
    (schedule : Schedule) : call a (c, schedule) = some (replies, b) := by
  cases h with
  | run rings | runBatch rings =>
    obtain rfl := forwardRun_bufs hK hdvd rings schedule
    rfl
  | runBackward rings | runBatchBackward rings =>
    obtain rfl := backwardRun_bufs hK hdvd rings schedule
    rfl
  | runMulti ensured rings =>
    obtain rfl := forwardRun_bufs hK hdvd rings schedule
    simp only [call, ensured]
    rfl
  | runMultiBackward ensured rings =>
    obtain rfl := backwardRun_bufs hK hdvd rings schedule
    simp only [call, ensured]
    rfl
  | runMultiRaises refused | runMultiBackwardRaises refused => simp only [call, refused]

theorem deviceCall_exists (hK : 0 < K) (a : Allscan P dk dv R) (c : Call P dk dv R) :
    ∃ replies b, DeviceCall K a c replies b := by
  have forward (rings : List (Option ℕ)) (a : Allscan P dk dv R) :=
    forwardRun_exists hK rings a.bufs
  have backward (rings : List (Option ℕ)) (a : Allscan P dk dv R) :=
    backwardRun_exists hK rings a.bufs
  cases c with
  | run S gammas outputs => exact ⟨_, _, .run (forward _ _).choose_spec⟩
  | runBackward gOut gammas outs dS dgamma =>
    exact ⟨_, _, .runBackward (backward _ _).choose_spec⟩
  | runBatch S gammas nIters => exact ⟨_, _, .runBatch (forward _ _).choose_spec⟩
  | runBatchBackward gOut gammas outs nIters =>
    exact ⟨_, _, .runBatchBackward (backward _ _).choose_spec⟩
  | @runMulti H S gammas outputs =>
    cases he : a.ensureMultiBufs H with
    | none => exact ⟨_, _, .runMultiRaises he⟩
    | some b => exact ⟨_, _, .runMulti he (forward _ _).choose_spec⟩
  | @runMultiBackward H gOut gammas outs dS dgamma =>
    cases he : a.ensureMultiBufs H with
    | none => exact ⟨_, _, .runMultiBackwardRaises he⟩
    | some b => exact ⟨_, _, .runMultiBackward he (backward _ _).choose_spec⟩

end Session

theorem deviceSession_correct [Semiring R] (K : ℕ) (multiH : Option ℕ)
    (earlier : Option ℕ → Bufs P dk dv R) (a : Allscan P dk dv R) (hK : 0 < K)
    (hbuild : build K multiH earlier = some a) (calls : List (Call P dk dv R)) :
    (∃ replies b, History (DeviceCall K) a calls replies b) ∧
      ∀ replies b, History (DeviceCall K) a calls replies b →
        replies = calls.flatMap (reference multiH) ∧
          ∀ schedule, Calls.run call a (calls.map fun c => (c, schedule)) = some (replies, b) := by
  have hdvd : K ∣ dk := by
    rw [build] at hbuild
    split_ifs at hbuild with h
    exact Nat.dvd_of_mod_eq_zero (not_ne_iff.mp h)
  refine ⟨history_exists (I := fun _ : Allscan P dk dv R => True) (fun s c _ => ?_) trivial calls,
    ?_⟩
  · obtain ⟨replies, b, h⟩ := deviceCall_exists hK s c
    exact ⟨replies, b, h, trivial⟩
  · intro replies b h
    refine ⟨(history_replies (I := Built multiH) ?_ (build_built hbuild) h).1, fun schedule => ?_⟩
    · intro s c bs t hs hcall
      obtain ⟨t', href, ht'⟩ := call_reference hs (c, ⟨id, fun _ => .refl _⟩)
      rw [deviceCall_refines hK hdvd hcall] at href
      cases href
      exact ⟨rfl, ht'⟩
    · clear hbuild
      induction h with
      | nil => rfl
      | cons head _ ih =>
        exact run_cons.mpr ⟨_, _, deviceCall_refines hK hdvd head schedule, ih, rfl⟩

theorem deviceSession_correct_two :
    let S : States 2 1 1 ℤ := fun p _ _ => p + 1
    let g : Decays 2 1 ℤ := fun _ _ => 3
    let calls : List (Call 2 1 1 ℤ) := [.runBatchBackward S g S 2, .runBackward S g S S g,
      .runMulti (H := 3) (fun _ => S) (fun _ => g) (fun _ => S),
      .runMulti (H := 2) (fun _ => S) (fun _ => g) (fun _ => S)]
    ∃ a, build 1 (some 2) (fun _ => Bufs.zero) = some a ∧
      (∃ replies b, History (DeviceCall 1) a calls replies b) ∧
      ∀ replies b, History (DeviceCall 1) a calls replies b →
        replies = calls.flatMap (reference (some 2)) := by
  intro S g calls
  have h := deviceSession_correct 1 (some 2) (fun _ => Bufs.zero) _ Nat.one_pos rfl calls
  exact ⟨_, rfl, h.1, fun replies b hh => (h.2 replies b hh).1⟩

end ZeCo.SimplerAllscan
