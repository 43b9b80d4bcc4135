import ZeCo.AllscanDispatch
import ZeCo.DeviceRuns
import ZeCo.MultiHead
import ZeCo.SimplerBackward

namespace ZeCo.SimplerZeCo

open Matrix Buffer DeviceTasks Schedules SimplerKernels Recurrence
open AllscanBuffers (Call Reply)

variable {R : Type*} {P H N C dk dv : ℕ}

section Dispatch

variable [Ring R]

/-- The tasks of `gate_cumsum`, one a chunk, in the order in which they run. -/
def gateCumsumTasks (C dk : ℕ) (order : List (Fin N)) (tri g gCs : Buffer R) : Buffer R :=
  order.foldl (fun gCs (n : Fin N) =>
    let off := (u32 (n * (C * dk))).toNat
    gCs.store off (gateCumsum C dk tri (g.view off))) gCs

def gradOTensors (x : GradOBuffers R) : GradOTensors N C dk dv R :=
  { dQt := load (N * C) dk x.dQt
    dKin := load (N * C) dk x.dKin
    dVi := load (N * C) dv x.dVi
    dH n := load dk dv (x.dH.view (n * (dk * dv))) }

def gradHTensors (x : GradHBuffers R) : GradHTensors N C dk dv R :=
  { dKstate := load (N * C) dk x.dKstate, dVs := load (N * C) dv x.dVs }

/-- `staged` lists the argument tensors; the output tensors among them are zeroed. -/
def Dispatched (exp : R → R) (f : Orchestration) (C dk dv N : ℕ)
    (staged : List (Tensor × Buffer R)) (s' : Store R) : Prop :=
  ∃ (x : Schedule Feeds (f.tasks C dk dv N)) (s : Store R),
    (∀ y ∈ staged, buffer s y.1 = y.2) ∧ x.run (L0Task.run (simplerKernels exp f)) s = s'

structure OnDevice (exp : R → R) (r : Runner N C dk dv R) : Prop where
  gateCumsum (tri : Matrix (Fin C) (Fin C) R) (g : Matrix (Fin (N * C)) (Fin dk) R) :
    ∃ order : List (Fin N), order.Perm (List.finRange N) ∧ r.gateCumsum tri g =
      load (N * C) dk (gateCumsumTasks C dk order (flat tri) (flat g) fun _ => 0)
  chunkH (k : Matrix (Fin (N * C)) (Fin dk) R) (v : Matrix (Fin (N * C)) (Fin dv) R)
    (gCs : Matrix (Fin (N * C)) (Fin dk) R) : ∃ s, Dispatched exp .chunk_h C dk dv N
      [(.k, flat k), (.v, flat v), (.gcs, flat gCs), (.ssnap, fun _ => 0)] s ∧
        r.chunkH k v gCs = fun (n : Fin N) => load dk dv ((buffer s .ssnap).view (n * (dk * dv)))
  chunkO (q k : Matrix (Fin (N * C)) (Fin dk) R) (v : Matrix (Fin (N * C)) (Fin dv) R)
    (gCs : Matrix (Fin (N * C)) (Fin dk) R) (sSnap : Fin N → Matrix (Fin dk) (Fin dv) R)
    (tril : Matrix (Fin C) (Fin C) R) : ∃ s, Dispatched exp .chunk_o C dk dv N
      [(.q, flat q), (.k, flat k), (.v, flat v), (.gcs, flat gCs),
        (.ssnap, flat (flattenSeq sSnap)), (.tril, flat tril), (.o, fun _ => 0)] s ∧
        r.chunkO q k v gCs sSnap tril = load (N * C) dv (buffer s .o)
  gradO (q k : Matrix (Fin (N * C)) (Fin dk) R) (v : Matrix (Fin (N * C)) (Fin dv) R)
    (gCs : Matrix (Fin (N * C)) (Fin dk) R) (snap : Fin N → Matrix (Fin dk) (Fin dv) R)
    (dO : Matrix (Fin (N * C)) (Fin dv) R) (tril : Matrix (Fin C) (Fin C) R) :
    ∃ s, Dispatched exp .grad_o C dk dv N
      [(.q, flat q), (.k, flat k), (.v, flat v), (.gcs, flat gCs),
        (.snap, flat (flattenSeq snap)), (.dO, flat dO), (.tril, flat tril), (.dQt, fun _ => 0),
        (.dKin, fun _ => 0), (.dVi, fun _ => 0), (.dH, fun _ => 0)] s ∧
        r.gradO q k v gCs snap dO tril = gradOTensors (gradsO s)
  gradH (k : Matrix (Fin (N * C)) (Fin dk) R) (v : Matrix (Fin (N * C)) (Fin dv) R)
    (gCs : Matrix (Fin (N * C)) (Fin dk) R) (dSloc : Fin N → Matrix (Fin dk) (Fin dv) R) :
    ∃ s, Dispatched exp .grad_h C dk dv N
      [(.k, flat k), (.v, flat v), (.gcs, flat gCs), (.dSloc, flat (flattenSeq dSloc)),
        (.dKstate, fun _ => 0), (.dVs, fun _ => 0)] s ∧
        r.gradH k v gCs dSloc = gradHTensors (gradsH s)

theorem store_commute (X : Buffer R) {m n m' n' off off' : ℕ} (M : Matrix (Fin m) (Fin n) R)
    (M' : Matrix (Fin m') (Fin n') R) (h : off + m * n ≤ off' ∨ off' + m' * n' ≤ off) :
    (X.store off M).store off' M' = (X.store off' M').store off M := by
  funext x
  simp only [store]
  split_ifs <;> first | rfl | omega

theorem gateCumsumTasks_order (h : N * (C * dk) < 2 ^ 32) {order : List (Fin N)}
    (horder : order.Perm (List.finRange N)) (tri g gCs : Buffer R) :
    gateCumsumTasks C dk order tri g gCs = gateCumsumOrch C dk N tri g gCs := by
  have hoff (n : Fin N) : (u32 (n * (C * dk))).toNat = n * (C * dk) := by
    have hle := Nat.mul_le_mul_right (C * dk) n.isLt.le
    exact toNat_u32 (by omega)
  simp only [gateCumsumTasks, hoff]
  apply Loop.up_reorder _ horder
  intro m n X
  by_cases hmn : m = n
  · rw [hmn]
  · exact store_commute X _ _ (tile_disjoint (C * dk) (Fin.val_ne_of_ne hmn)).symm

theorem chunkHOrch_start (exp : R → R) (hC : 0 < C) (K G : Matrix (Fin (N * C)) (Fin dk) R)
    (V : Matrix (Fin (N * C)) (Fin dv) R) (sSnap sSnap' S S' : Buffer R) (n : Fin N) :
    load dk dv ((chunkHOrch exp C dk dv N (flat K) (flat V) (flat G) sSnap S).view
        (n * (dk * dv))) =
      load dk dv ((chunkHOrch exp C dk dv N (flat K) (flat V) (flat G) sSnap' S').view
        (n * (dk * dv))) := by
  let step (n : ℕ) (s : Matrix (Fin dk) (Fin dv) R) : Matrix (Fin dk) (Fin dv) R :=
    if h : n < N then
      let i : Fin N := ⟨n, h⟩
      rowScale (fun d => exp (lastRow (chunk G i) d)) s +
        (kRest exp (chunk K i) (chunk G i))ᵀ * chunk V i
    else s
  let state (n : ℕ) : Matrix (Fin dk) (Fin dv) R := Nat.rec 0 step n
  have hstep (n : Fin N) : state (n + 1) =
      rowScale (fun d => exp (lastRow (chunk G n) d)) (state n) +
        (kRest exp (chunk K n) (chunk G n))ᵀ * chunk V n := dif_pos n.isLt
  rw [chunkHOrch_spec hC state rfl hstep, chunkHOrch_spec hC state rfl hstep]

section Runs

variable {exp : R → R} {r : Runner N C dk dv R}

theorem dispatched_exists (f : Orchestration) {staged : List (Tensor × Buffer R)}
    (h : (staged.map Prod.fst).Nodup) : ∃ s, Dispatched exp f C dk dv N staged s := by
  refine ⟨_, Schedule.submitted _ _, fun l => ((staged.lookup l.1).getD fun _ => 0) l.2, ?_, rfl⟩
  intro y hy
  obtain ⟨before, after, rfl⟩ := List.append_of_mem hy
  have hfirst : (before ++ y :: after).lookup y.1 = some y.2 := by
    refine List.lookup_eq_some_iff.mpr ⟨before, after, rfl, fun z hz => ?_⟩
    rw [List.map_append, List.nodup_append] at h
    exact bne_iff_ne.mpr (h.2.2 _ (List.mem_map_of_mem hz) _ List.mem_cons_self).symm
  funext i
  exact congrArg (fun b => (Option.getD b fun _ => 0) i) hfirst

theorem onDevice_exists (exp : R → R) : ∃ r : Runner N C dk dv R, OnDevice exp r := by
  have hchunkH (k gCs : Matrix (Fin (N * C)) (Fin dk) R) (v : Matrix (Fin (N * C)) (Fin dv) R) :
      ∃ s, Dispatched exp .chunk_h C dk dv N
        [(.k, flat k), (.v, flat v), (.gcs, flat gCs), (.ssnap, fun _ => 0)] s :=
    dispatched_exists .chunk_h (by simp)
  have hchunkO (q k gCs : Matrix (Fin (N * C)) (Fin dk) R) (v : Matrix (Fin (N * C)) (Fin dv) R)
      (sSnap : Fin N → Matrix (Fin dk) (Fin dv) R) (tril : Matrix (Fin C) (Fin C) R) :
      ∃ s, Dispatched exp .chunk_o C dk dv N
        [(.q, flat q), (.k, flat k), (.v, flat v), (.gcs, flat gCs),
          (.ssnap, flat (flattenSeq sSnap)), (.tril, flat tril), (.o, fun _ => 0)] s :=
    dispatched_exists .chunk_o (by simp)
  have hgradO (q k gCs : Matrix (Fin (N * C)) (Fin dk) R) (v dO : Matrix (Fin (N * C)) (Fin dv) R)
      (snap : Fin N → Matrix (Fin dk) (Fin dv) R) (tril : Matrix (Fin C) (Fin C) R) :
      ∃ s, Dispatched exp .grad_o C dk dv N
        [(.q, flat q), (.k, flat k), (.v, flat v), (.gcs, flat gCs),
          (.snap, flat (flattenSeq snap)), (.dO, flat dO), (.tril, flat tril), (.dQt, fun _ => 0),
          (.dKin, fun _ => 0), (.dVi, fun _ => 0), (.dH, fun _ => 0)] s :=
    dispatched_exists .grad_o (by simp)
  have hgradH (k gCs : Matrix (Fin (N * C)) (Fin dk) R) (v : Matrix (Fin (N * C)) (Fin dv) R)
      (dSloc : Fin N → Matrix (Fin dk) (Fin dv) R) : ∃ s, Dispatched exp .grad_h C dk dv N
        [(.k, flat k), (.v, flat v), (.gcs, flat gCs), (.dSloc, flat (flattenSeq dSloc)),
          (.dKstate, fun _ => 0), (.dVs, fun _ => 0)] s :=
    dispatched_exists .grad_h (by simp)
  choose chunkH hchunkH using hchunkH
  choose chunkO hchunkO using hchunkO
  choose gradO hgradO using hgradO
  choose gradH hgradH using hgradH
  let r : Runner N C dk dv R :=
    { gateCumsum tri g := load (N * C) dk
        (gateCumsumTasks C dk (List.finRange N) (flat tri) (flat g) fun _ => 0)
      chunkH k v gCs n := load dk dv ((buffer (chunkH k gCs v) .ssnap).view (n * (dk * dv)))
      chunkO q k v gCs sSnap tril := load (N * C) dv (buffer (chunkO q k gCs v sSnap tril) .o)
      gradO q k v gCs snap dO tril := gradOTensors (gradsO (gradO q k gCs v dO snap tril))
      gradH k v gCs dSloc := gradHTensors (gradsH (gradH k gCs v dSloc)) }
  refine ⟨r, ?_, ?_, ?_, ?_, ?_⟩
  · exact fun tri g => ⟨_, .refl _, rfl⟩
  · exact fun k v gCs => ⟨_, hchunkH k gCs v, rfl⟩
  · exact fun q k v gCs sSnap tril => ⟨_, hchunkO q k gCs v sSnap tril, rfl⟩
  · exact fun q k v gCs snap dO tril => ⟨_, hgradO q k gCs v dO snap tril, rfl⟩
  · exact fun k v gCs dSloc => ⟨_, hgradH k gCs v dSloc, rfl⟩

variable (hr : OnDevice exp r) (h : Small C dk dv N) (S : Buffer R)
include hr h

theorem OnDevice.gateCumsum_eq :
    r.gateCumsum = (deviceRunner exp S : Runner N C dk dv R).gateCumsum := by
  funext tri g
  obtain ⟨order, horder, hrun⟩ := hr.gateCumsum tri g
  rw [hrun, gateCumsumTasks_order h.cdk horder]
  rfl

theorem OnDevice.chunkH_eq : r.chunkH = (deviceRunner exp S).chunkH := by
  funext k v gCs n
  obtain ⟨_, ⟨x, s, hs, rfl⟩, hrun⟩ := hr.chunkH k v gCs
  simp only [List.forall_mem_cons] at hs
  obtain ⟨hk, hv, hg, ho, -⟩ := hs
  rw [hrun, chunk_h_schedule exp h, hk, hv, hg, ho]
  exact chunkHOrch_start exp h.pos k gCs v _ _ _ _ n

theorem OnDevice.chunkO_eq : r.chunkO = (deviceRunner exp S).chunkO := by
  funext q k v gCs sSnap tril
  obtain ⟨_, ⟨x, s, hs, rfl⟩, hrun⟩ := hr.chunkO q k v gCs sSnap tril
  simp only [List.forall_mem_cons] at hs
  obtain ⟨hq, hk, hv, hg, hsnap, htril, ho, -⟩ := hs
  rw [hrun, chunk_o_schedule exp h, hq, hk, hv, hg, hsnap, htril, ho]
  rfl

theorem OnDevice.gradO_eq : r.gradO = (deviceRunner exp S).gradO := by
  funext q k v gCs snap dO tril
  obtain ⟨_, ⟨x, s, hs, rfl⟩, hrun⟩ := hr.gradO q k v gCs snap dO tril
  simp only [List.forall_mem_cons] at hs
  obtain ⟨hq, hk, hv, hg, hsnap, hdO, htril, hdQt, hdKin, hdVi, hdH, -⟩ := hs
  have hout : gradsO s = ⟨fun _ => 0, fun _ => 0, fun _ => 0, fun _ => 0⟩ := by
    rw [gradsO, hdQt, hdKin, hdVi, hdH]
  rw [hrun, grad_o_schedule exp h, hq, hk, hv, hg, hsnap, hdO, htril, hout]
  rfl

theorem OnDevice.gradH_eq : r.gradH = (deviceRunner exp S).gradH := by
  funext k v gCs dSloc
  obtain ⟨_, ⟨x, s, hs, rfl⟩, hrun⟩ := hr.gradH k v gCs dSloc
  simp only [List.forall_mem_cons] at hs
  obtain ⟨hk, hv, hg, hsloc, hdKstate, hdVs, -⟩ := hs
  have hout : gradsH s = ⟨fun _ => 0, fun _ => 0⟩ := by rw [gradsH, hdKstate, hdVs]
  rw [hrun, grad_h_schedule exp h, hk, hv, hg, hsloc, hout]
  rfl

theorem OnDevice.eq : r = deviceRunner exp S := by
  have hfields := And.intro (hr.gateCumsum_eq h S) (And.intro (hr.chunkH_eq h S)
    (And.intro (hr.chunkO_eq h S) (And.intro (hr.gradO_eq h S) (hr.gradH_eq h S))))
  obtain ⟨_, _, _, _, _⟩ := r
  exact (Runner.mk.injEq ..).mpr hfields

end Runs

end Dispatch

section Boundary

variable [Semiring R]

def Boundary (multiH : Option ℕ) (c : Call P dk dv R) (reply : Reply P dk dv R) : Prop :=
  ∃ (earlier : Option ℕ → AllscanBuffers.Bufs P dk dv R) (a b : AllscanBuffers.Allscan P dk dv R),
    AllscanBuffers.build 1 multiH earlier = some a ∧ SimplerAllscan.DeviceCall 1 a c [reply] b

variable {multiH : Option ℕ} {c : Call P dk dv R}

theorem boundary_call {a b : AllscanBuffers.Allscan P dk dv R} {replies : List (Reply P dk dv R)}
    {earlier : Option ℕ → AllscanBuffers.Bufs P dk dv R}
    (hbuild : AllscanBuffers.build 1 multiH earlier = some a)
    (hcall : SimplerAllscan.DeviceCall 1 a c replies b) :
    replies = AllscanBuffers.reference multiH c := by
  let schedule : AllscanBuffers.Schedule := ⟨id, fun _ => .refl _⟩
  have hrefines := SimplerAllscan.deviceCall_refines Nat.one_pos (one_dvd dk) hcall schedule
  obtain ⟨t, href, -⟩ := AllscanBuffers.call_reference (AllscanBuffers.build_built hbuild)
    (c, schedule)
  rw [hrefines] at href
  exact (Prod.mk.inj (Option.some.inj href)).1

theorem boundary_reply {reply : Reply P dk dv R} (h : Boundary multiH c reply) :
    [reply] = AllscanBuffers.reference multiH c := by
  obtain ⟨_, _, _, hbuild, hcall⟩ := h
  exact boundary_call hbuild hcall

theorem boundary_exists (hk : dk ≤ 128) (hv : dv ≤ 128) {reply : Reply P dk dv R}
    (h : AllscanBuffers.reference multiH c = [reply]) : Boundary multiH c reply := by
  have hbuild : ∃ a, AllscanBuffers.build 1 multiH (fun _ => (AllscanBuffers.Bufs.zero :
      AllscanBuffers.Bufs P dk dv R)) = some a := by
    have hdims : ¬ (dk > 128 ∨ dv > 128) := by omega
    rw [AllscanBuffers.build, if_neg (by simp [Nat.mod_one]), if_neg hdims]
    cases multiH with
    | none => exact ⟨_, rfl⟩
    | some H => exact ⟨_, rfl⟩
  obtain ⟨a, hbuild⟩ := hbuild
  obtain ⟨replies, b, hcall⟩ := SimplerAllscan.deviceCall_exists Nat.one_pos a c
  obtain rfl := (boundary_call hbuild hcall).trans h
  exact ⟨_, a, b, hbuild, hcall⟩

end Boundary

structure Devices [Ring R] (exp : R → R) (P N C dk dv : ℕ) where
  runners : Fin P → Runner N C dk dv R
  dispatches : ∀ p, OnDevice exp (runners p)
  run (S : States P dk dv R) (gammas : Decays P dk R) : States P dk dv R
  runs (S : States P dk dv R) (gammas : Decays P dk R) :
    Boundary none (.run S gammas 0) (.outputs false [run S gammas])
  runBackward (gOut : States P dk dv R) (gammas : Decays P dk R) (outs : States P dk dv R) :
    States P dk dv R × Decays P dk R
  runsBackward (gOut : States P dk dv R) (gammas : Decays P dk R) (outs : States P dk dv R) :
    Boundary none (.runBackward gOut gammas outs 0 0) (.grads false [runBackward gOut gammas outs])
  runMulti {H : ℕ} (S : Fin H → States P dk dv R) (gammas : Fin H → Decays P dk R) :
    Fin H → States P dk dv R
  runsMulti {H : ℕ} (S : Fin H → States P dk dv R) (gammas : Fin H → Decays P dk R) :
    Boundary (some H) (.runMulti S gammas 0) (.outputs false (List.ofFn (runMulti S gammas)))
  runMultiBackward {H : ℕ} (gOut : Fin H → States P dk dv R) (gammas : Fin H → Decays P dk R)
    (outs : Fin H → States P dk dv R) : Fin H → States P dk dv R × Decays P dk R
  runsMultiBackward {H : ℕ} (gOut : Fin H → States P dk dv R) (gammas : Fin H → Decays P dk R)
    (outs : Fin H → States P dk dv R) : Boundary (some H)
      (.runMultiBackward gOut gammas outs 0 0)
      (.grads false (List.ofFn (runMultiBackward gOut gammas outs)))

namespace Devices

variable [Ring R] {exp : R → R}

theorem nonempty (exp : R → R) (hk : dk ≤ 128) (hv : dv ≤ 128) :
    Nonempty (Devices exp P N C dk dv) := by
  have hrunner : ∃ r : Runner N C dk dv R, OnDevice exp r := onDevice_exists exp
  obtain ⟨r, hr⟩ := hrunner
  exact ⟨{
    runners := fun _ => r
    dispatches := fun _ => hr
    run := fun S gammas => expectedAllscan S gammas
    runs := fun S gammas => boundary_exists hk hv rfl
    runBackward := fun gOut gammas outs => expectedAllscanBackward gammas outs gOut
    runsBackward := fun gOut gammas outs => boundary_exists hk hv rfl
    runMulti := fun S gammas h => expectedAllscan (S h) (gammas h)
    runsMulti := fun S gammas => boundary_exists hk hv (if_pos rfl)
    runMultiBackward := fun gOut gammas outs h =>
      expectedAllscanBackward (gammas h) (outs h) (gOut h)
    runsMultiBackward := fun gOut gammas outs => boundary_exists hk hv (if_pos rfl) }⟩

variable (D : Devices exp P N C dk dv)

theorem run_eq : D.run = expectedAllscan := by
  funext S gammas
  have h := boundary_reply (D.runs S gammas)
  simpa [AllscanBuffers.reference] using h

theorem runBackward_eq : D.runBackward = fun gOut gammas outs =>
    expectedAllscanBackward gammas outs gOut := by
  funext gOut gammas outs
  have h := boundary_reply (D.runsBackward gOut gammas outs)
  simpa [AllscanBuffers.reference] using h

theorem runMulti_apply (S : Fin H → States P dk dv R) (gammas : Fin H → Decays P dk R)
    (h : Fin H) : D.runMulti S gammas h = D.run (S h) (gammas h) := by
  have hreply := boundary_reply (D.runsMulti S gammas)
  rw [AllscanBuffers.reference, if_pos rfl] at hreply
  injection hreply with hreply
  injection hreply with _ hlist
  rw [D.run_eq]
  exact congrFun (List.ofFn_injective hlist) h

theorem runMultiBackward_apply (gOut : Fin H → States P dk dv R)
    (gammas : Fin H → Decays P dk R) (outs : Fin H → States P dk dv R) (h : Fin H) :
    D.runMultiBackward gOut gammas outs h = D.runBackward (gOut h) (gammas h) (outs h) := by
  have hreply := boundary_reply (D.runsMultiBackward gOut gammas outs)
  rw [AllscanBuffers.reference, if_pos rfl] at hreply
  injection hreply with hreply
  injection hreply with _ hlist
  rw [D.runBackward_eq]
  exact congrFun (List.ofFn_injective hlist) h

theorem runner_eq (h : Small C dk dv N) (p : Fin P) :
    D.runners p = deviceRunner exp fun _ => 0 := (D.dispatches p).eq h _

end Devices

section Passes

variable (D : Devices Real.exp P N C dk dv) (h : Small C dk dv N)
  (Q K : Fin P → Matrix (Fin (N * C)) (Fin dk) ℝ) (V : Fin P → Matrix (Fin (N * C)) (Fin dv) ℝ)
  {A : Fin P → Matrix (Fin (N * C)) (Fin dk) ℝ} (dO : Fin P → Matrix (Fin (N * C)) (Fin dv) ℝ)
  (hA : ∀ p t d, 0 < A p t d)
include h hA

theorem Devices.stage1 (hN : 0 < N) (p : Fin P) : Stage1Spec (K p) (V p) (A p)
    ((D.runners p).stage1 Real.exp Real.log (K p) (V p) (A p)) := by
  rw [D.runner_eq h]
  exact stage1_spec (K p) (V p) (hA p) hN h.pos fun _ => 0

theorem Devices.forward_row (p : Fin P) (t : Fin (N * C)) :
    forwardOn Real.exp Real.log D.runners D.run Q K V A p t =
      expectedGla (flattenSeq Q) (flattenSeq K) (flattenSeq V) (flattenSeq A) (token p t) := by
  have hstage := D.stage1 h K V hA (Nat.pos_of_mul_pos_right t.pos)
  have hrecv := recv_boundary K V
    (allscan_boundary K V A (fun p => (hstage p).sTotal) (gammas_apply A))
  have hshift (n : Fin N) : shiftSnaps
      ((D.runners p).stage1 Real.exp Real.log (K p) (V p) (A p)).sSnap (A p)
        (boundaryState K V A p) n =
      stateAt (K p) (V p) (A p) (boundaryState K V A p) (n * C) := by
    rw [shiftSnaps_apply, (hstage p).sSnap, ← stateAt_eq_add]
  have hrow := stage2_row (Q p) (K p) (V p) (hA p) (hstage p).gCs (boundaryState K V A p) hshift t
  rw [forwardOn_apply, D.run_eq]
  simp only [hrecv]
  rw [D.runner_eq h] at hrow ⊢
  apply hrow.trans
  rw [expectedGla_row]
  exact outputAt_slice (rank_slice Q p) (rank_slice K p) (rank_slice V p) (rank_slice A p) 0 t _

theorem Devices.backward_row (p : Fin P) (t : Fin (N * C)) :
    (backwardOn Real.exp Real.log D.runners D.run D.runBackward Q K V A dO p).row t =
      (expectedGlaBackward (flattenSeq Q) (flattenSeq K) (flattenSeq V) (flattenSeq A)
        (flattenSeq dO)).row (token p t) := by
  have hstage := D.stage1 h K V hA (Nat.pos_of_mul_pos_right t.pos)
  rw [backwardOn_apply, D.run_eq, D.runBackward_eq]
  -- from here on only what stage 1 meets counts, not which runner it was on
  obtain ⟨st, hst⟩ : ∃ st : Fin P → Stage1 N C dk dv ℝ,
      ∀ p, (D.runners p).stage1 Real.exp Real.log (K p) (V p) (A p) = st p := ⟨_, fun _ => rfl⟩
  simp only [hst] at hstage ⊢
  have hgam (p : Fin P) : chunkGammas Real.exp (st p).gCs =
      fun n => lastRow (cumprod (chunk (A p) n)) :=
    funext fun n => chunkGammas_apply (K p) (V p) (hstage p) h.pos n
  have hpre (p : Fin P) : chunkPrefix (fun n => lastRow (cumprod (chunk (A p) n))) =
      fun (n : Fin N) d => decay (gate (A p) d) 0 (n * C) := by
    rw [← hgam]
    exact funext fun n => chunkPrefix_apply (K p) (V p) (hstage p) h.pos n
  have houts := allscan_boundary K V A (fun p => (hstage p).sTotal) (gammas_apply A)
  have hrecv := recv_boundary K V houts
  have hx (p : Fin P) := outputStage_spec (Q p) (K p) (V p) (dO p) (boundaryState K V A p)
    (hstage p) (hA p) fun _ => 0
  have hgrads := grads_boundary Q K V dO (gammas_apply A) houts (fun p => (hx p).dSRecv) p
  simp only [hgam, hpre, hrecv, D.runner_eq h]
  rw [hgrads.1, hgrads.2]
  exact row_of_rankGrads Q K V dO (fun p t d => (hA p t d).ne') p (stateStage_spec (Q p) (K p) (V p)
    (dO p) _ _ _ (hstage p) (hA p) h.pos (fun _ => 0) (hx p)) rfl t

end Passes

/-- Whatever the devices do, the passes return the rows of the sequential recurrence and of its
backward. The tiles of a head are at most 128 wide, as `build` asserts. -/
theorem devices_correct (h : Small C dk dv N) (hk : dk ≤ 128) (hv : dv ≤ 128)
    (Q K : Fin P → Matrix (Fin (N * C)) (Fin dk) ℝ) (V : Fin P → Matrix (Fin (N * C)) (Fin dv) ℝ)
    (A : Fin P → Matrix (Fin (N * C)) (Fin dk) ℝ) (dO : Fin P → Matrix (Fin (N * C)) (Fin dv) ℝ)
    (hA : ∀ p t d, 0 < A p t d) :
    Nonempty (Devices Real.exp P N C dk dv) ∧
      ∀ (D : Devices Real.exp P N C dk dv) (p : Fin P) (t : Fin (N * C)),
        forwardOn Real.exp Real.log D.runners D.run Q K V A p t =
            expectedGla (flattenSeq Q) (flattenSeq K) (flattenSeq V) (flattenSeq A) (token p t) ∧
          (backwardOn Real.exp Real.log D.runners D.run D.runBackward Q K V A dO p).row t =
            (expectedGlaBackward (flattenSeq Q) (flattenSeq K) (flattenSeq V) (flattenSeq A)
              (flattenSeq dO)).row (token p t) := by
  refine ⟨Devices.nonempty Real.exp hk hv, fun D p t => ⟨?_, ?_⟩⟩
  · exact D.forward_row h Q K V hA p t
  · exact D.backward_row h Q K V dO hA p t

theorem devices_correct_four :
    let K : Fin 2 → Matrix (Fin (2 * 1)) (Fin 1) ℝ := ![!![8; 4], !![2; 1]]
    let V : Fin 2 → Matrix (Fin (2 * 1)) (Fin 2) ℝ := ![!![1, 0; 1, 2], !![1, 0; 1, 3]]
    ∃ D : Devices Real.exp 2 2 1 1 2, forwardOn Real.exp Real.log D.runners D.run K K V
      (fun _ => of fun _ _ => 1 / 2) 1 1 = ![4, 5] := by
  intro K V
  have hsmall : Small 1 1 2 2 := by constructor <;> norm_num
  obtain ⟨⟨D⟩, h⟩ := devices_correct hsmall (by norm_num) (by norm_num) K K V
    (fun _ => of fun _ _ => 1 / 2) V fun _ _ _ => by norm_num
  refine ⟨D, ?_⟩
  rw [(h D 1 1).1, expectedGla_row]
  funext e
  fin_cases e <;>
    norm_num [outputAt, stateAt, Recurrence.affine, gate, inflow, vecMul, dotProduct, stream,
      flattenSeq, token, Fin.divNat, Fin.modNat, K, V]

def Devices.impl {R ε : Type} [Field R] {exp : R → R} (log : R → R)
    (D : Devices exp P N C dk dv) : MultiHead.ZeCoImpl P (N * C) dk dv R ε :=
  MultiHead.simplerZeCo exp log D.runners D.run D.runBackward D.runMulti D.runMultiBackward

theorem devicesModule_correct {ε : Type} (n : ℤ) (h : Small C dk dv N) (hk : dk ≤ 128)
    (hv : dv ≤ 128) (x : MultiHead.Inputs (Fin P × Fin H) (N * C) dk dv ℝ)
    (dO : MultiHead.Outputs (Fin P × Fin H) (N * C) dv ℝ) (hA : ∀ i t d, 0 < x.A i t d) :
    Nonempty (Devices Real.exp P N C dk dv) ∧ ∀ D : Devices Real.exp P N C dk dv,
      let m : MultiHead.MultiHeadZeCo P (N * C) dk dv ℝ ε := ⟨D.impl Real.log, n⟩
      ∃ O g, MultiHead.zeCoModule m.operator x dO = .ok (O, g) ∧
        ∀ (p : Fin P) (i : Fin H) (t : Fin (N * C)),
          O (p, i) t = expectedGla (flattenSeq (head x.Q i)) (flattenSeq (head x.K i))
            (flattenSeq (head x.V i)) (flattenSeq (head x.A i)) (token p t) ∧
          (g (p, i)).row t = (expectedGlaBackward (flattenSeq (head x.Q i))
            (flattenSeq (head x.K i)) (flattenSeq (head x.V i)) (flattenSeq (head x.A i))
            (flattenSeq (head dO i))).row (token p t) := by
  refine ⟨Devices.nonempty Real.exp hk hv, fun D => ?_⟩
  have hcovers : MultiHead.Covers
      (⟨D.impl Real.log, n⟩ : MultiHead.MultiHeadZeCo P (N * C) dk dv ℝ ε) x dO :=
    MultiHead.simplerZeCo_covers Real.exp Real.log D.runners D.run D.runBackward D.runMulti
      D.runMultiBackward D.runMulti_apply D.runMultiBackward_apply n x dO
  refine ⟨_, _, rfl, fun p i t => ⟨?_, ?_⟩⟩
  · have hhead := Except.ok.inj (hcovers.forward _ rfl i)
    apply Eq.trans (congrFun (congrFun hhead.symm p) t)
    exact D.forward_row h _ _ _ (fun p => hA (p, i)) p t
  · have hhead := Except.ok.inj (hcovers.backward _ rfl i)
    apply Eq.trans (congrArg (fun g => g.row t) (congrFun hhead.symm p))
    exact D.backward_row h _ _ _ _ (fun p => hA (p, i)) p t

theorem devicesModule_correct_heads :
    let X : Fin 2 × Fin 2 → Matrix (Fin (1 * 1)) (Fin 1) ℝ := fun i => of fun _ _ => i.2.val + 1
    let x : MultiHead.Inputs (Fin 2 × Fin 2) (1 * 1) 1 1 ℝ :=
      ⟨X, X, X, fun _ => of fun _ _ => 1 / 2⟩
    ∃ D : Devices Real.exp 2 1 1 1 1,
      let m : MultiHead.MultiHeadZeCo 2 (1 * 1) 1 1 ℝ Empty := ⟨D.impl Real.log, 1⟩
      ∃ O g, MultiHead.zeCoModule m.operator x X = .ok (O, g) ∧ O (1, 1) 0 0 = 12 ∧
        (g (1, 1)).dA 0 0 = 16 := by
  intro X x
  have hsmall : Small 1 1 1 1 := by constructor <;> norm_num
  have hA (i : Fin 2 × Fin 2) (t : Fin (1 * 1)) (d : Fin 1) : 0 < x.A i t d := by norm_num [x]
  obtain ⟨⟨D⟩, h⟩ := devicesModule_correct 1 hsmall (by norm_num) (by norm_num) x X hA
  obtain ⟨O, g, hmodule, hrows⟩ := h D
  refine ⟨D, O, g, hmodule, ?_, ?_⟩
  · rw [(hrows 1 1 0).1, expectedGla_row]
    norm_num [outputAt, stateAt, Recurrence.affine, gate, inflow, vecMul, dotProduct, stream,
      flattenSeq, token, Fin.divNat, Fin.modNat, head, X, x]
  · have hrow := (hrows 1 1 0).2
    rw [expectedGlaBackward_row] at hrow
    apply (congrFun (congrArg RowGrads.dA hrow) 0).trans
    norm_num [rowGradsAt, totalAt, adjointAt, stateAt, adjoint, adjointFrom, affine, gate, inflow,
      demand, stream, flattenSeq, token, Fin.divNat, Fin.modNat, head, X, x]

end ZeCo.SimplerZeCo
