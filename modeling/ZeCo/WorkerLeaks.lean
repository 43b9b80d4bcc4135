import ZeCo.DeviceWorkers
import ZeCo.HeldFailures
import ZeCo.HeldWorkers
import ZeCo.Raising

/-!
The workers of one `SimplerZeCo` object on a runtime that may raise. Every use of a worker, a
dispatch or a boundary phase, is given the stage at which the runtime raises in it; `raised` keeps
what has raised, and where.
-/

namespace ZeCo.WorkerLeaks

open HeldFailures Raising
open DeviceWorkers (Config)

inductive Site
  | perKernel
  | held
  | boundary
  deriving DecidableEq

inductive ComputeRunner
  | plain (device : ℕ)
  | persistent (runner : PersistentRunner HeldWorkers.Kernel)

structure Zeco where
  config : Config
  runners : List ComputeRunner
  runtime : Runtime
  uses : ℕ
  raised : List (Site × Stage)

def build (c : Config) : Zeco := ⟨c, c.devices.map .plain, ⟨0, ∅⟩, 0, []⟩

/-- A worker for one run. Only the run is under the `try` that closes it. -/
def withWorker (callables : ℕ) (fault : Option Stage) (devices : List ℕ) (t : Runtime) :
    Except Exc Unit × Runtime :=
  if fault = some .construct then (.error (.runtime .construct), t)
  else
    let (w, t) := t.construct devices
    match fault with
    | some (.register k) =>
      if k < callables then (.error (.runtime (.register k)), t) else (.ok (), (t.init w).close w)
    | some .init => (.error (.runtime .init), t.init w)
    | some .run => (.error (.runtime .run), (t.init w).close w)
    | _ => (.ok (), (t.init w).close w)

def computeRun (fault : Option Stage) (device : ℕ) (t : Runtime) : Except Exc Unit × Runtime :=
  withWorker 1 fault [device] t

/-- A `SimplerAllscan` built, run and closed; what else its `build` does comes before `init`. -/
def boundaryRun (fault : Option Stage) (devices : List ℕ) (t : Runtime) :
    Except Exc Unit × Runtime :=
  withWorker 2 fault devices t

def Zeco.record (site : Site) (result : Except Exc Unit) (s : Zeco) : Zeco :=
  match result with
  | .error (.runtime stage) => { s with raised := (site, stage) :: s.raised }
  | _ => s

def closeAll : List ComputeRunner → Runtime → List ComputeRunner × Runtime
  | [], t => ([], t)
  | .plain d :: rs, t =>
    let x := closeAll rs t
    (.plain d :: x.1, x.2)
  | .persistent r :: rs, t =>
    let y := r.close t
    let x := closeAll rs y.1
    (.persistent y.2 :: x.1, x.2)

def releaseDevices (s : Zeco) : Zeco :=
  let x := closeAll s.runners s.runtime
  { s with runners := x.1, runtime := x.2 }

def close (s : Zeco) : Zeco := { releaseDevices s with runners := [] }

def usePlainRunners (s : Zeco) : Zeco :=
  { releaseDevices s with runners := s.config.devices.map .plain }

def kernels : List HeldWorkers.Kernel := [.gate_cumsum, .chunk_h, .chunk_o, .grad_o, .grad_h]

def usePersistentRunners (s : Zeco) : Zeco :=
  { s with runners := s.config.devices.map fun d => .persistent (.prepared d kernels) }

section Passes

variable (raises : ℕ → Option Stage)

def dispatch (name : HeldWorkers.Kernel) (p : ℕ) : Program Exc Zeco := fun s =>
  match s.runners[p]? with
  | none => (.error .host, s)
  | some (ComputeRunner.plain device) =>
    let x := computeRun (raises s.uses) device s.runtime
    (x.1, { s with uses := s.uses + 1, runtime := x.2 }.record .perKernel x.1)
  | some (ComputeRunner.persistent r) =>
    let x := r.run name true (raises s.uses) s.runtime
    let runners := s.runners.set p (.persistent x.2.2)
    (x.1, { s with uses := s.uses + 1, runners, runtime := x.2.1 }.record .held x.1)

def boundary : Program Exc Zeco := fun s =>
  let x := boundaryRun (raises s.uses) s.config.devices s.runtime
  (x.1, { s with uses := s.uses + 1, runtime := x.2 }.record .boundary x.1)

def eachRank (program : ℕ → Program Exc Zeco) : Program Exc Zeco := fun s =>
  forEach program (List.range s.config.P) s

def times (n : ℕ) (program : Program Exc Zeco) : Program Exc Zeco :=
  forEach (fun _ => program) (List.range n)

def acrossRanks (program : Program Exc Zeco) : Program Exc Zeco := fun s =>
  if s.config.P = 1 then skip s else program s

def stage1 (p : ℕ) : Program Exc Zeco :=
  seq (dispatch raises .gate_cumsum p) (dispatch raises .chunk_h p)

def gradHThenGate (p : ℕ) : Program Exc Zeco :=
  seq (dispatch raises .grad_h p) (dispatch raises .gate_cumsum p)

def releasedBoundary : Program Exc Zeco :=
  acrossRanks (seq (apply releaseDevices) (boundary raises))

def forward : Program Exc Zeco :=
  seq (eachRank (stage1 raises))
    (seq (releasedBoundary raises) (eachRank (dispatch raises .chunk_o)))

def backward : Program Exc Zeco :=
  seq (eachRank (stage1 raises))
    (seq (releasedBoundary raises)
      (seq (eachRank (dispatch raises .grad_o))
        (seq (releasedBoundary raises) (eachRank (gradHThenGate raises)))))

-- the two multi-head passes do not release the devices
def forwardMultihead (H : ℕ) : Program Exc Zeco :=
  seq (times H (eachRank (stage1 raises)))
    (seq (acrossRanks (boundary raises)) (times H (eachRank (dispatch raises .chunk_o))))

def backwardMultihead (H : ℕ) : Program Exc Zeco :=
  seq (times H (eachRank (stage1 raises)))
    (seq (acrossRanks (boundary raises))
      (seq (times H (eachRank (dispatch raises .grad_o)))
        (seq (acrossRanks (boundary raises)) (times H (eachRank (gradHThenGate raises))))))

def gatePersistent (pass : Program Exc Zeco) (agree : Bool) : Program Exc Zeco :=
  seq (apply usePlainRunners) (seq pass (seq (apply usePersistentRunners)
    (seq pass (fun s => (if agree then .ok () else .error .host, s)))))

def timeOnPersistent (pass : Program Exc Zeco) (nIters : ℕ) : Program Exc Zeco :=
  protect (times nIters pass) releaseDevices

def measure (pass : Program Exc Zeco) (agree : Bool) (nIters : ℕ) : Program Exc Zeco :=
  seq (gatePersistent pass agree) (timeOnPersistent pass nIters)

inductive Op
  | forward
  | backward
  | forwardMultihead (H : ℕ)
  | backwardMultihead (H : ℕ)
  | measure (agree : Bool) (nIters : ℕ)
  | measureBackward (agree : Bool) (nIters : ℕ)
  | close

def Op.program : Op → Program Exc Zeco
  | .forward => WorkerLeaks.forward raises
  | .backward => WorkerLeaks.backward raises
  | .forwardMultihead H => WorkerLeaks.forwardMultihead raises H
  | .backwardMultihead H => WorkerLeaks.backwardMultihead raises H
  | .measure agree nIters => WorkerLeaks.measure (WorkerLeaks.forward raises) agree nIters
  | .measureBackward agree nIters => WorkerLeaks.measure (WorkerLeaks.backward raises) agree nIters
  | .close => apply WorkerLeaks.close

/-- A caller catches what an operation raises and goes on with the object. -/
def after (s : Zeco) (ops : List Op) : Zeco := ops.foldl (fun s op => (op.program raises s).2) s

end Passes

def ComputeRunner.worker : ComputeRunner → Option Worker
  | .plain _ => none
  | .persistent r => r.worker.map HeldWorker.worker

def Owned (rs : List ComputeRunner) (w : Worker) : Prop := ∃ r ∈ rs, r.worker = some w

def InitsHeld (raised : List (Site × Stage)) : Prop :=
  (.perKernel, .init) ∉ raised ∧ (.boundary, .init) ∉ raised

structure Accounted (s : Zeco) : Prop where
  alive : ∀ w ∈ s.runtime.alive, w.serial < s.runtime.created
  owned : ∀ w, Owned s.runners w → w.serial < s.runtime.created
  orphans : (∀ w ∈ s.runtime.alive, Owned s.runners w) ↔ InitsHeld s.raised

section Uses

variable {s : Zeco} {w : Worker}

@[simp] theorem record_runners (site : Site) (x : Except Exc Unit) (s : Zeco) :
    (s.record site x).runners = s.runners := by
  unfold Zeco.record
  split <;> rfl

@[simp] theorem record_runtime (site : Site) (x : Except Exc Unit) (s : Zeco) :
    (s.record site x).runtime = s.runtime := by
  unfold Zeco.record
  split <;> rfl

theorem initsHeld_record {site : Site} {x : Except Exc Unit}
    (h : site = .held ∨ x ≠ .error (.runtime .init)) :
    InitsHeld (s.record site x).raised ↔ InitsHeld s.raised := by
  unfold Zeco.record
  split
  · rename_i stage
    unfold InitsHeld
    rcases h with rfl | h
    · simp
    · have hstage : stage ≠ .init := fun heq => h (by rw [heq])
      simp [hstage.symm]
  · rfl

theorem not_initsHeld_record {site : Site} (h : site ≠ .held) :
    ¬ InitsHeld (s.record site (.error (.runtime .init))).raised := by
  unfold Zeco.record InitsHeld
  cases site with
  | perKernel => simp
  | held => exact absurd rfl h
  | boundary => simp

theorem withWorker_spec (n : ℕ) (fault : Option Stage) (devices : List ℕ) {t : Runtime}
    (ht : ∀ w ∈ t.alive, w.serial < t.created) :
    ((withWorker n fault devices t).1 = .error (.runtime .init) ∧
      (withWorker n fault devices t).2 = ⟨t.created + 1, insert ⟨t.created, devices⟩ t.alive⟩) ∨
    ((withWorker n fault devices t).1 ≠ .error (.runtime .init) ∧
      (withWorker n fault devices t).2.alive = t.alive ∧
      t.created ≤ (withWorker n fault devices t).2.created) := by
  have hnew : (⟨t.created, devices⟩ : Worker) ∉ t.alive := fun h => absurd (ht _ h) (lt_irrefl _)
  have hclosed : (insert (⟨t.created, devices⟩ : Worker) t.alive).erase ⟨t.created, devices⟩ =
      t.alive := Finset.erase_insert hnew
  have hle := Nat.le_succ t.created
  unfold withWorker
  split
  · exact Or.inr ⟨by simp, rfl, le_rfl⟩
  · dsimp only [Runtime.construct, Runtime.init, Runtime.close]
    split
    · split
      · exact Or.inr ⟨by simp, rfl, hle⟩
      · exact Or.inr ⟨by simp, hclosed, hle⟩
    · exact Or.inl ⟨rfl, rfl⟩
    · exact Or.inr ⟨by simp, hclosed, hle⟩
    · exact Or.inr ⟨by simp, hclosed, hle⟩

theorem Accounted.withWorker (h : Accounted s) (site : Site) (hsite : site ≠ .held) (n : ℕ)
    (fault : Option Stage) (devices : List ℕ) (uses : ℕ) :
    Accounted (Zeco.record site (withWorker n fault devices s.runtime).1
      { s with uses, runtime := (WorkerLeaks.withWorker n fault devices s.runtime).2 }) := by
  rcases withWorker_spec n fault devices h.alive with ⟨hx, ht⟩ | ⟨hx, halive, hcreated⟩
  · rw [hx, ht]
    constructor
    · rw [record_runtime]
      intro w hw
      obtain rfl | hw := Finset.mem_insert.mp hw
      · exact Nat.lt_succ_self _
      · exact Nat.lt_succ_of_lt (h.alive w hw)
    · rw [record_runners, record_runtime]
      exact fun w hw => Nat.lt_succ_of_lt (h.owned w hw)
    · apply iff_of_false
      · rw [record_runtime, record_runners]
        intro hall
        exact absurd (h.owned _ (hall _ (Finset.mem_insert_self _ _))) (lt_irrefl _)
      · exact not_initsHeld_record hsite
  · constructor
    · rw [record_runtime]
      intro w hw
      rw [halive] at hw
      exact lt_of_lt_of_le (h.alive w hw) hcreated
    · rw [record_runners, record_runtime]
      exact fun w hw => lt_of_lt_of_le (h.owned w hw) hcreated
    · rw [record_runtime, record_runners, initsHeld_record (Or.inr hx), halive]
      exact h.orphans

theorem owned_split {rs : List ComputeRunner} {p : ℕ} {r : ComputeRunner} (hr : rs[p]? = some r) :
    Owned rs w ↔ r.worker = some w ∨
      ∃ q ≠ p, ∃ r', rs[q]? = some r' ∧ ComputeRunner.worker r' = some w := by
  constructor
  · rintro ⟨r', hmem, hw⟩
    obtain ⟨q, hq⟩ := List.getElem?_of_mem hmem
    by_cases hqp : q = p
    · subst hqp
      obtain rfl := Option.some.inj (hq.symm.trans hr)
      exact Or.inl hw
    · exact Or.inr ⟨q, hqp, r', hq, hw⟩
  · rintro (hw | ⟨q, -, r', hq, hw⟩)
    · exact ⟨r, List.mem_of_getElem? hr, hw⟩
    · exact ⟨r', List.mem_of_getElem? hq, hw⟩

theorem owned_set {rs : List ComputeRunner} {p : ℕ} {r : ComputeRunner} (hr : rs[p]? = some r)
    (r' : ComputeRunner) : Owned (rs.set p r') w ↔ r'.worker = some w ∨
      ∃ q ≠ p, ∃ x, rs[q]? = some x ∧ ComputeRunner.worker x = some w := by
  obtain ⟨hlt, -⟩ := List.getElem?_eq_some_iff.mp hr
  rw [owned_split (List.getElem?_set_self hlt)]
  apply or_congr_right
  apply exists_congr
  intro q
  apply and_congr_right
  intro hqp
  rw [List.getElem?_set_ne (Ne.symm hqp)]

theorem run_owned {rs : List ComputeRunner} {p : ℕ} {r : PersistentRunner HeldWorkers.Kernel}
    (hr : rs[p]? = some (.persistent r)) (name : HeldWorkers.Kernel) (fault : Option Stage)
    (t : Runtime) :
    let x := (r.run name true fault t).2
    (x.1 = t ∧ ∀ w, Owned (rs.set p (.persistent x.2)) w ↔ Owned rs w) ∨
      ∃ new : Worker, new.serial = t.created ∧ x.1.created = t.created + 1 ∧
        t.alive ⊆ x.1.alive ∧ x.1.alive ⊆ insert new t.alive ∧
        ∀ w, Owned (rs.set p (.persistent x.2)) w ↔ w = new ∨ Owned rs w := by
  have hsame {r' : PersistentRunner HeldWorkers.Kernel} (hw : r'.worker = r.worker) (w : Worker) :
      Owned (rs.set p (.persistent r')) w ↔ Owned rs w := by
    rw [owned_set hr, owned_split hr, ComputeRunner.worker, ComputeRunner.worker, hw]
  dsimp only
  rw [run_snd, reach_snd]
  split
  · cases hworker : r.worker with
    | some h =>
      rw [open_held hworker]
      exact Or.inl ⟨rfl, hsame rfl⟩
    | none =>
      rcases open_runtime fault t hworker with
        ⟨ht, hnone⟩ | ⟨hcreated, h, hh, hnew, hold, halive⟩
      · exact Or.inl ⟨ht, hsame (hnone.trans hworker.symm)⟩
      · refine Or.inr ⟨h.worker, by rw [hnew], hcreated, hold, halive, fun w => ?_⟩
        rw [owned_set hr, owned_split hr, ComputeRunner.worker, ComputeRunner.worker, hh, hworker,
          Option.map_some, Option.map_none, Option.some.injEq, eq_comm]
        simp
  · exact Or.inl ⟨rfl, hsame rfl⟩

theorem Accounted.held (h : Accounted s) {p : ℕ} {r : PersistentRunner HeldWorkers.Kernel}
    (hr : s.runners[p]? = some (.persistent r)) (name : HeldWorkers.Kernel) (fault : Option Stage)
    (uses : ℕ) : Accounted (Zeco.record .held (r.run name true fault s.runtime).1
      { s with
        uses, runners := s.runners.set p (.persistent (r.run name true fault s.runtime).2.2),
        runtime := (r.run name true fault s.runtime).2.1 }) := by
  have halive := h.alive
  have howned := h.owned
  rcases run_owned hr name fault s.runtime with
    ⟨ht, hset⟩ | ⟨new, hnew, hcreated, hkept, hx, hset⟩
  · constructor
    · rw [record_runtime, ht]
      exact halive
    · rw [record_runners, record_runtime, ht]
      exact fun w hw => howned w ((hset w).mp hw)
    · rw [record_runtime, record_runners, initsHeld_record (Or.inl rfl), ht, ← h.orphans]
      exact forall₂_congr fun w _ => hset w
  · constructor
    · rw [record_runtime, hcreated]
      intro w hw
      obtain rfl | hw := Finset.mem_insert.mp (hx hw)
      · omega
      · exact Nat.lt_succ_of_lt (halive w hw)
    · rw [record_runners, record_runtime, hcreated]
      intro w hw
      obtain rfl | hw := (hset w).mp hw
      · omega
      · exact Nat.lt_succ_of_lt (howned w hw)
    · rw [record_runtime, record_runners, initsHeld_record (Or.inl rfl), ← h.orphans]
      have hold (w : Worker) (hw : w ∈ s.runtime.alive) : w ≠ new := by
        have hlt := halive w hw
        rintro rfl
        omega
      constructor
      · intro hall w hw
        exact ((hset w).mp (hall w (hkept hw))).resolve_left (hold w hw)
      · intro hall w hw
        obtain rfl | hw := Finset.mem_insert.mp (hx hw)
        · exact (hset w).mpr (Or.inl rfl)
        · exact (hset w).mpr (Or.inr (hall w hw))

theorem closeAll_spec (rs : List ComputeRunner) (t : Runtime) :
    (∀ r ∈ (closeAll rs t).1, r.worker = none) ∧ (closeAll rs t).2.created = t.created ∧
      ∀ w, w ∈ (closeAll rs t).2.alive ↔ w ∈ t.alive ∧ ¬ Owned rs w := by
  induction rs generalizing t with
  | nil => exact ⟨fun r hr => absurd hr List.not_mem_nil, rfl, fun w => by simp [closeAll, Owned]⟩
  | cons r rs ih =>
    cases r with
    | plain d =>
      obtain ⟨hnone, hcreated, halive⟩ := ih t
      refine ⟨fun r hr => ?_, hcreated, fun w => ?_⟩
      · obtain rfl | hr := List.mem_cons.mp hr
        · rfl
        · exact hnone r hr
      · rw [closeAll, halive]
        simp [Owned, ComputeRunner.worker]
    | persistent r =>
      obtain ⟨hnone, hcreated, halive⟩ := ih (r.close t).1
      have hclose := close_runtime t r
      refine ⟨fun r' hr => ?_, hcreated.trans hclose.1, fun w => ?_⟩
      · obtain rfl | hr := List.mem_cons.mp hr
        · simp [ComputeRunner.worker, (close_closed t r).1]
        · exact hnone r' hr
      · rw [closeAll, halive, hclose.2]
        simp [Owned, ComputeRunner.worker, and_assoc]

theorem releaseDevices_alive (s : Zeco) : (releaseDevices s).runtime.alive = ∅ ↔
    ∀ w ∈ s.runtime.alive, Owned s.runners w := by
  rw [Finset.eq_empty_iff_forall_notMem]
  apply forall_congr'
  intro w
  rw [releaseDevices, (closeAll_spec s.runners s.runtime).2.2 w]
  simp

theorem Accounted.replaced (h : Accounted s) {rs : List ComputeRunner}
    (hrs : ∀ r ∈ rs, r.worker = none) : Accounted { releaseDevices s with runners := rs } := by
  obtain ⟨-, hcreated, halive⟩ := closeAll_spec s.runners s.runtime
  have hnone (w : Worker) : ¬ Owned rs w := by
    rintro ⟨r, hr, hw⟩
    rw [hrs r hr] at hw
    cases hw
  constructor
  · intro w hw
    rw [releaseDevices, hcreated]
    exact h.alive w ((halive w).mp hw).1
  · exact fun w hw => absurd hw (hnone w)
  · refine Iff.trans ?_ ((releaseDevices_alive s).trans h.orphans)
    rw [Finset.eq_empty_iff_forall_notMem]
    exact forall₂_congr fun w _ => iff_false_intro (hnone w)

end Uses

section Keeping

variable (raises : ℕ → Option Stage)

def AllPlain (s : Zeco) : Prop := ∀ r ∈ s.runners, ∃ d, r = .plain d

theorem dispatch_keeps (name : HeldWorkers.Kernel) (p : ℕ) :
    Keeps Accounted (dispatch raises name p) := by
  apply Keeps.of_final
  intro s h
  unfold dispatch
  split
  · exact h
  · exact h.withWorker .perKernel (by decide) 1 _ _ _
  · rename_i r hr
    exact h.held hr name _ _

theorem dispatch_plain (name : HeldWorkers.Kernel) (p : ℕ) :
    Keeps (fun s => Accounted s ∧ AllPlain s) (dispatch raises name p) := by
  apply Keeps.of_final
  rintro s ⟨h, hplain⟩
  refine ⟨(dispatch_keeps raises name p).final h, ?_⟩
  unfold dispatch
  split
  · exact hplain
  · unfold AllPlain
    rw [record_runners]
    exact hplain
  · rename_i r hr
    obtain ⟨d, hd⟩ := hplain _ (List.mem_of_getElem? hr)
    cases hd

theorem boundary_keeps : Keeps Accounted (boundary raises) :=
  Keeps.of_final fun _ h => h.withWorker .boundary (by decide) 2 _ _ _

theorem boundary_plain : Keeps (fun s => Accounted s ∧ AllPlain s) (boundary raises) := by
  apply Keeps.of_final
  rintro s ⟨h, hplain⟩
  refine ⟨(boundary_keeps raises).final h, ?_⟩
  unfold boundary AllPlain
  rw [record_runners]
  exact hplain

theorem releaseDevices_keeps {s : Zeco} (h : Accounted s) : Accounted (releaseDevices s) :=
  h.replaced (closeAll_spec s.runners s.runtime).1

theorem closeAll_plain {rs : List ComputeRunner} (h : ∀ r ∈ rs, ∃ d, r = .plain d) (t : Runtime) :
    closeAll rs t = (rs, t) := by
  induction rs with
  | nil => rfl
  | cons r rs ih =>
    obtain ⟨d, rfl⟩ := h r List.mem_cons_self
    rw [closeAll, ih fun r' hr => h r' (List.mem_cons_of_mem _ hr)]

theorem releaseDevices_plain {s : Zeco} (h : AllPlain s) : releaseDevices s = s := by
  rw [releaseDevices, closeAll_plain h]

section Pass

variable {I : Zeco → Prop} (hdispatch : ∀ name p, Keeps I (dispatch raises name p))
  (hboundary : Keeps I (boundary raises)) (hrelease : ∀ s, I s → I (releaseDevices s))

theorem eachRank_keeps {program : ℕ → Program Exc Zeco} (h : ∀ p, Keeps I (program p)) :
    Keeps I (eachRank program) := by
  intro s hs
  exact Triple.forEach (List.range s.config.P) (fun p _ => h p) s hs

theorem times_keeps {program : Program Exc Zeco} (n : ℕ) (h : Keeps I program) :
    Keeps I (times n program) := Triple.forEach (List.range n) fun _ _ => h

theorem acrossRanks_keeps {program : Program Exc Zeco} (h : Keeps I program) :
    Keeps I (acrossRanks program) := by
  intro s hs
  unfold acrossRanks
  by_cases hP : s.config.P = 1
  · rw [if_pos hP]
    exact hs
  · rw [if_neg hP]
    exact h s hs

include hboundary hrelease in
theorem releasedBoundary_keeps : Keeps I (releasedBoundary raises) :=
  acrossRanks_keeps ((Triple.apply hrelease).seq hboundary)

include hdispatch hboundary

theorem forwardMultihead_keeps (H : ℕ) : Keeps I (forwardMultihead raises H) := by
  unfold forwardMultihead
  apply Triple.seq
  · exact times_keeps H (eachRank_keeps fun p => (hdispatch .gate_cumsum p).seq (hdispatch _ p))
  · apply Triple.seq
    · exact acrossRanks_keeps hboundary
    · exact times_keeps H (eachRank_keeps (hdispatch .chunk_o))

theorem backwardMultihead_keeps (H : ℕ) : Keeps I (backwardMultihead raises H) := by
  unfold backwardMultihead
  apply Triple.seq
  · exact times_keeps H (eachRank_keeps fun p => (hdispatch .gate_cumsum p).seq (hdispatch _ p))
  · apply Triple.seq
    · exact acrossRanks_keeps hboundary
    · apply Triple.seq
      · exact times_keeps H (eachRank_keeps (hdispatch .grad_o))
      · apply Triple.seq
        · exact acrossRanks_keeps hboundary
        · exact times_keeps H (eachRank_keeps fun p => (hdispatch .grad_h p).seq (hdispatch _ p))

include hrelease

theorem forward_keeps : Keeps I (forward raises) := by
  have hreleased := releasedBoundary_keeps raises hboundary hrelease
  unfold forward
  apply Triple.seq
  · exact eachRank_keeps fun p => (hdispatch .gate_cumsum p).seq (hdispatch _ p)
  · apply Triple.seq
    · exact hreleased
    · exact eachRank_keeps (hdispatch .chunk_o)

theorem backward_keeps : Keeps I (backward raises) := by
  have hreleased := releasedBoundary_keeps raises hboundary hrelease
  unfold backward
  apply Triple.seq
  · exact eachRank_keeps fun p => (hdispatch .gate_cumsum p).seq (hdispatch _ p)
  · apply Triple.seq
    · exact hreleased
    · apply Triple.seq
      · exact eachRank_keeps (hdispatch .grad_o)
      · apply Triple.seq
        · exact hreleased
        · exact eachRank_keeps fun p => (hdispatch .grad_h p).seq (hdispatch _ p)

end Pass

theorem measure_keeps {pass : Program Exc Zeco} (hpass : Keeps Accounted pass)
    (hplain : Keeps (fun s => Accounted s ∧ AllPlain s) pass) (agree : Bool) (nIters : ℕ) :
    Keeps Accounted (measure pass agree nIters) := by
  have huse : Triple Accounted (Raising.apply usePlainRunners : Program Exc Zeco)
      (fun s => Accounted s ∧ AllPlain s) Accounted := by
    apply Triple.apply
    intro s h
    have hmem : ∀ r ∈ s.config.devices.map ComputeRunner.plain, ∃ d, r = .plain d := by
      intro r hr
      obtain ⟨d, -, rfl⟩ := List.mem_map.mp hr
      exact ⟨d, rfl⟩
    refine ⟨h.replaced fun r hr => ?_, hmem⟩
    obtain ⟨d, rfl⟩ := hmem r hr
    rfl
  have hswap : Triple (fun s => Accounted s ∧ AllPlain s)
      (Raising.apply usePersistentRunners : Program Exc Zeco) Accounted Accounted := by
    apply Triple.apply
    rintro s ⟨h, hp⟩
    rw [← releaseDevices_plain hp]
    apply h.replaced
    intro r hr
    obtain ⟨d, -, rfl⟩ := List.mem_map.mp hr
    rfl
  unfold measure gatePersistent timeOnPersistent
  apply Triple.seq
  · apply huse.seq
    apply (hplain.weaken (fun _ h => h) (fun _ h => h) fun _ h => h.1).seq
    apply hswap.seq
    apply hpass.seq
    exact Keeps.of_final fun _ h => h
  · exact (times_keeps nIters hpass).protect (fun _ h => releaseDevices_keeps h)
      fun _ h => releaseDevices_keeps h

theorem op_keeps (op : Op) : Keeps Accounted (op.program raises) := by
  have hrelease (s : Zeco) (h : Accounted s) : Accounted (releaseDevices s) :=
    releaseDevices_keeps h
  have hplain (s : Zeco) (h : Accounted s ∧ AllPlain s) :
      Accounted (releaseDevices s) ∧ AllPlain (releaseDevices s) := by
    rwa [releaseDevices_plain h.2]
  have hforward := forward_keeps raises (dispatch_keeps raises) (boundary_keeps raises) hrelease
  have hbackward := backward_keeps raises (dispatch_keeps raises) (boundary_keeps raises) hrelease
  cases op with
  | forward => exact hforward
  | backward => exact hbackward
  | forwardMultihead H =>
    exact forwardMultihead_keeps raises (dispatch_keeps raises) (boundary_keeps raises) H
  | backwardMultihead H =>
    exact backwardMultihead_keeps raises (dispatch_keeps raises) (boundary_keeps raises) H
  | measure agree nIters =>
    apply measure_keeps hforward
    exact forward_keeps raises (dispatch_plain raises) (boundary_plain raises) hplain
  | measureBackward agree nIters =>
    apply measure_keeps hbackward
    exact backward_keeps raises (dispatch_plain raises) (boundary_plain raises) hplain
  | close => exact Triple.apply fun s h => h.replaced fun r hr => absurd hr List.not_mem_nil

theorem build_accounted (c : Config) : Accounted (build c) := by
  constructor
  · exact fun w hw => absurd hw (Finset.notMem_empty w)
  · rintro w ⟨r, hr, hw⟩
    obtain ⟨d, -, rfl⟩ := List.mem_map.mp hr
    cases hw
  · exact iff_of_true (fun w hw => absurd hw (Finset.notMem_empty w))
      ⟨List.not_mem_nil, List.not_mem_nil⟩

theorem after_accounted (c : Config) (ops : List Op) : Accounted (after raises (build c) ops) := by
  induction ops using List.reverseRecOn with
  | nil => exact build_accounted c
  | append_singleton ops op ih =>
    rw [after, List.foldl_append]
    exact (op_keeps raises op).final ih

/-- Closing the object leaves no worker alive exactly when every `init` that raised was that of a
held runner. -/
theorem close_alive_empty_iff (c : Config) (ops : List Op) :
    (close (after raises (build c) ops)).runtime.alive = ∅ ↔
      InitsHeld (after raises (build c) ops).raised :=
  (releaseDevices_alive _).trans (after_accounted raises c ops).orphans

end Keeping

def twoRanks : Config := ⟨2, [0, 1], by decide, by decide⟩

theorem init_leaks_worker :
    (close (after (fun n => if n = 0 then some .init else none) (build twoRanks)
        [.forward])).runtime.alive = {⟨0, [0]⟩} ∧
      (close (after (fun n => if n = 4 then some .init else none) (build twoRanks)
        [.forward])).runtime.alive = {⟨4, [0, 1]⟩} := by
  decide

end ZeCo.WorkerLeaks
