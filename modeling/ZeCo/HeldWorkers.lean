import ZeCo.Calls
import Mathlib.Data.List.Forall2
import Mathlib.Logic.Function.Basic
import Mathlib.Algebra.Ring.Int.Defs

/-!
The two compute runners of the simpler backend. `_ComputeRunner` stages every tensor in fresh
shared memory and stands a worker up for one dispatch; `_PersistentComputeRunner` keeps one buffer
set per orchestration and one worker between `open` and `close`. The caller's tensors are a
memory, so that a tensor may be passed twice and results are written in place.
-/

namespace ZeCo.HeldWorkers

open Calls

inductive ArgDirection where
  | input
  | output
  | inout
  deriving DecidableEq

inductive Dtype where
  | float32
  | int64
  | other (code : ℕ)
  deriving DecidableEq

inductive Kernel where
  | gate_cumsum
  | chunk_h
  | chunk_o
  | grad_o
  | grad_h
  deriving DecidableEq

def signature : Kernel → List ArgDirection
  | .gate_cumsum => [.input, .input, .output, .input]
  | .chunk_h => [.input, .input, .input, .output, .input]
  | .chunk_o => [.input, .input, .input, .input, .input, .input, .output, .input]
  | .grad_o => [.input, .input, .input, .input, .input, .input, .input, .output, .output, .output,
      .output, .input]
  | .grad_h => [.input, .input, .input, .input, .output, .output, .input]

section Runners

variable {α : Type*} [Zero α]

structure Tensor (α : Type*) where
  dtype : Dtype
  data : List α

abbrev Memory (α : Type*) := ℕ → Tensor α

structure Conversion (α : Type*) [Zero α] where
  cast : Dtype → α → α
  cast_zero : ∀ d, cast d 0 = 0

abbrev Orchestration (α : Type*) := List (List α) → ℕ → ℕ → α

structure Staged (α : Type*) where
  shm : List α
  dtype : Dtype
  direction : ArgDirection

def Staged.shape (s : Staged α) : ℕ × Dtype × ArgDirection := (s.shm.length, s.dtype, s.direction)

def stagedDtype (d : Dtype) : Dtype := if d = .int64 then .int64 else .float32

/-- `dst.copy_(src)` on flat tensors: one element is broadcast, other sizes must agree. -/
def copyInto (dst src : List α) : Option (List α) :=
  if src.length = dst.length then some src
  else if src.length = 1 then src.head?.map (List.replicate dst.length) else none

def submit (f : Orchestration α) (staged : List (Staged α)) : List (Staged α) :=
  staged.zipIdx.map fun x =>
    if x.1.direction = .input then x.1
    else { x.1 with shm := x.1.shm.zipIdx.map fun y => f (staged.map Staged.shm) x.2 y.2 }

def register (worker : List (Orchestration α)) (cc : Orchestration α) :
    List (Orchestration α) × ℕ :=
  (worker ++ [cc], worker.length)

section Staging

variable (conv : Conversion α)

def writeBack : Memory α → List (Staged α) → List ℕ → Option (Memory α)
  | m, s :: staged, t :: tensors =>
    if s.direction = .input then writeBack m staged tensors
    else (copyInto (m t).data (s.shm.map (conv.cast (m t).dtype))).bind fun data =>
      writeBack (Function.update m t { m t with data }) staged tensors
  | m, _, _ => some m

def stage (m : Memory α) : List ArgDirection → List ℕ → Option (List (Staged α))
  | _, [] => some []
  | [], _ :: _ => none
  | d :: sig, t :: tensors =>
    let dt := stagedDtype (m t).dtype
    (copyInto (List.replicate (m t).data.length 0) ((m t).data.map (conv.cast dt))).bind fun shm =>
      (stage m sig tensors).map (⟨shm, dt, d⟩ :: ·)

variable (compile : Kernel → Orchestration α)

def computeRun (m : Memory α) (name : Kernel) (sig : List ArgDirection) (tensors : List ℕ) :
    Option (Memory α) :=
  (stage conv m sig tensors).bind fun staged =>
    let w := register [] (compile name)
    w.1[w.2]?.bind fun cc => writeBack conv m (submit cc staged) tensors

structure Dispatch (α : Type*) where
  name : Kernel
  sig : List ArgDirection
  tensors : List (Tensor α)

structure PersistentRunner (α : Type*) where
  staged : Kernel → Option (List (Staged α))
  cids : Kernel → Option ℕ
  callables : List (Kernel × Orchestration α)
  worker : Option (List (Orchestration α))

def PersistentRunner.new : PersistentRunner α := ⟨fun _ => none, fun _ => none, [], none⟩

def allocate : List ArgDirection → List (Tensor α) → Option (List (Staged α))
  | _, [] => some []
  | [], _ :: _ => none
  | d :: sig, t :: tensors =>
    (allocate sig tensors).map (⟨List.replicate t.data.length 0, stagedDtype t.dtype, d⟩ :: ·)

def setItem (callables : List (Kernel × Orchestration α)) (name : Kernel) (cc : Orchestration α) :
    List (Kernel × Orchestration α) :=
  if name ∈ callables.map Prod.fst then
    callables.map fun p => if p.1 = name then (name, cc) else p
  else callables ++ [(name, cc)]

def PersistentRunner.prepare (r : PersistentRunner α) :
    List (Dispatch α) → Option (PersistentRunner α)
  | [] => some r
  | d :: dispatches => (allocate d.sig d.tensors).bind fun staged =>
    PersistentRunner.prepare
      { r with
        staged := Function.update r.staged d.name (some staged)
        callables := setItem r.callables d.name (compile d.name) } dispatches

def registerAll : List (Orchestration α) → (Kernel → Option ℕ) → List (Kernel × Orchestration α) →
    List (Orchestration α) × (Kernel → Option ℕ)
  | worker, cids, [] => (worker, cids)
  | worker, cids, p :: callables =>
    let w := register worker p.2
    registerAll w.1 (Function.update cids p.1 (some w.2)) callables

def PersistentRunner.open (r : PersistentRunner α) : PersistentRunner α :=
  match r.worker with
  | some _ => r
  | none =>
    let x := registerAll [] r.cids r.callables
    { r with worker := some x.1, cids := x.2 }

def PersistentRunner.close (r : PersistentRunner α) : PersistentRunner α :=
  match r.worker with
  | none => r
  | some _ => { r with worker := none, cids := fun _ => none }

def restage (m : Memory α) : List (Staged α) → List ℕ → Option (List (Staged α))
  | s :: staged, t :: tensors =>
    let shm := if s.direction = .output then some (List.replicate s.shm.length 0)
      else copyInto s.shm ((m t).data.map (conv.cast s.dtype))
    shm.bind fun shm => (restage m staged tensors).map ({ s with shm } :: ·)
  | staged, _ => some staged

def PersistentRunner.run (r : PersistentRunner α) (m : Memory α) (name : Kernel)
    (tensors : List ℕ) : Option (Memory α × PersistentRunner α) :=
  (r.staged name).bind fun staged =>
    if staged.length = tensors.length then
      let r := r.open
      (restage conv m staged tensors).bind fun staged => (r.cids name).bind fun cid =>
        r.worker.bind fun worker => worker[cid]?.bind fun cc =>
          let staged := submit cc staged
          (writeBack conv m staged tensors).map fun m =>
            (m, { r with staged := Function.update r.staged name (some staged) })
    else none

inductive Op (α : Type*) where
  | set (t : ℕ) (value : Tensor α)
  | run (name : Kernel) (sig : List ArgDirection) (tensors : List ℕ)
  | open
  | close

def heldCall (s : Memory α × PersistentRunner α) :
    Op α → Option (List (Memory α) × (Memory α × PersistentRunner α))
  | .set t value => some ([], (Function.update s.1 t value, s.2))
  | .run name _ tensors => (s.2.run conv s.1 name tensors).map fun x => ([x.1], x)
  | .open => some ([], (s.1, s.2.open))
  | .close => some ([], (s.1, s.2.close))

def freshCall (m : Memory α) : Op α → Option (List (Memory α) × Memory α)
  | .set t value => some ([], Function.update m t value)
  | .run name sig tensors => (computeRun conv compile m name sig tensors).map fun m => ([m], m)
  | .open => some ([], m)
  | .close => some ([], m)

end Staging

def FitsArgs (m : Memory α) : List ArgDirection → List (Tensor α) → List ℕ → Prop
  | _, [], [] => True
  | d :: sig, p :: prepared, t :: tensors =>
    (m t).dtype = p.dtype ∧ (m t).data.length = p.data.length ∧
      (d = .output → ∀ v ∈ (m t).data, v = 0) ∧ FitsArgs m sig prepared tensors
  | _, _, _ => False

def templates : (Kernel → Option (Dispatch α)) → List (Dispatch α) → Kernel → Option (Dispatch α)
  | known, [] => known
  | known, d :: dispatches => templates (Function.update known d.name (some d)) dispatches

def persistentDispatches (L C dk dv N : ℕ) (tril config : Tensor α) : List (Dispatch α) :=
  let z (n : ℕ) : Tensor α := ⟨.float32, List.replicate n 0⟩
  [⟨.gate_cumsum, signature .gate_cumsum, [tril, z (L * dk), z (L * dk), config]⟩,
    ⟨.chunk_h, signature .chunk_h, [z (L * dk), z (L * dv), z (L * dk), z (N * dk * dv), config]⟩,
    ⟨.chunk_o, signature .chunk_o, [z (L * dk), z (L * dk), z (L * dv), z (L * dk),
      z (N * dk * dv), tril, z (L * dv), config]⟩,
    ⟨.grad_o, signature .grad_o, [z (L * dk), z (L * dk), z (L * dv), z (L * dk), z (N * dk * dv),
      z (L * dv), z (C * C), z (L * dk), z (L * dk), z (L * dv), z (N * dk * dv), config]⟩,
    ⟨.grad_h, signature .grad_h, [z (L * dk), z (L * dv), z (L * dk), z (N * dk * dv), z (L * dk),
      z (L * dv), config]⟩]

def Fits (known : Kernel → Option (Dispatch α)) (m : Memory α) : Op α → Prop
  | .run name sig tensors =>
    ∃ d, known name = some d ∧ sig = d.sig ∧ FitsArgs m d.sig d.tensors tensors
  | _ => True

omit [Zero α] in
theorem copyInto_eq {dst src : List α} (h : src.length = dst.length) :
    copyInto dst src = some src := if_pos h

omit [Zero α] in
theorem submit_shape (f : Orchestration α) (staged : List (Staged α)) :
    (submit f staged).map Staged.shape = staged.map Staged.shape := by
  rw [submit, List.map_map]
  conv_rhs => rw [← List.zipIdx_map_fst 0 staged, List.map_map]
  apply List.map_congr_left
  rintro ⟨s, i⟩ -
  by_cases hs : s.direction = .input <;> simp [hs, Staged.shape]

def Holds (d : Dispatch α) (staged : List (Staged α)) : Prop :=
  (allocate d.sig d.tensors).map (List.map Staged.shape) = some (staged.map Staged.shape)

theorem holds_cons {name : Kernel} {d : ArgDirection} {sig : List ArgDirection} {p : Tensor α}
    {prepared : List (Tensor α)} {staged : List (Staged α)}
    (h : Holds ⟨name, d :: sig, p :: prepared⟩ staged) :
    ∃ s rest, staged = s :: rest ∧ s.shape = (p.data.length, stagedDtype p.dtype, d) ∧
      Holds ⟨name, sig, prepared⟩ rest := by
  rw [Holds, allocate, Option.map_map] at h
  obtain ⟨st, hst, heq⟩ := Option.map_eq_some_iff.mp h
  cases staged with
  | nil => cases heq
  | cons s rest =>
    obtain ⟨hs, hrest⟩ := List.cons.inj heq
    refine ⟨s, rest, rfl, ?_, ?_⟩
    · rw [← hs, Staged.shape, List.length_replicate]
    · rw [Holds, hst, ← hrest]
      rfl

section Staging

variable (conv : Conversion α) {compile : Kernel → Orchestration α}

theorem restage_eq_stage {m : Memory α} {d : Dispatch α} {staged : List (Staged α)}
    {tensors : List ℕ} (hheld : Holds d staged) (h : FitsArgs m d.sig d.tensors tensors) :
    ∃ st, restage conv m staged tensors = some st ∧ stage conv m d.sig tensors = some st ∧
      st.map Staged.shape = staged.map Staged.shape ∧
      List.Forall₂ (fun s t => s.shm.length = (m t).data.length) st tensors := by
  obtain ⟨name, sig, prepared⟩ := d
  induction prepared generalizing sig staged tensors with
  | nil =>
    cases tensors with
    | cons t tensors => cases sig <;> exact h.elim
    | nil =>
      have hnil : staged = [] := by
        cases sig <;> exact List.map_eq_nil_iff.mp (Option.some.inj hheld).symm
      subst hnil
      refine ⟨[], rfl, ?_, rfl, .nil⟩
      cases sig <;> rfl
  | cons p prepared ih =>
    cases sig with
    | nil => exact h.elim
    | cons dir sig =>
      cases tensors with
      | nil => exact h.elim
      | cons t tensors =>
        obtain ⟨htype, hlen, hzero, hrest⟩ := h
        obtain ⟨s, rest, rfl, hshape, hheld⟩ := holds_cons hheld
        obtain ⟨st, hre, hst, hshapes, hlens⟩ := ih sig hheld hrest
        simp only [Staged.shape, Prod.mk.injEq] at hshape
        obtain ⟨hs, hdt, hdir⟩ := hshape
        have hfill : (if s.direction = .output then some (List.replicate s.shm.length 0)
            else copyInto s.shm ((m t).data.map (conv.cast s.dtype))) =
            some ((m t).data.map (conv.cast s.dtype)) := by
          by_cases hout : s.direction = .output
          · rw [if_pos hout, hs, ← hlen, Option.some.injEq, eq_comm, List.eq_replicate_iff]
            refine ⟨List.length_map _, fun v hv => ?_⟩
            obtain ⟨u, hu, rfl⟩ := List.mem_map.mp hv
            rw [hzero (hdir.symm.trans hout) u hu, conv.cast_zero]
          · rw [if_neg hout, copyInto_eq (by rw [List.length_map, hlen, hs])]
        refine ⟨⟨(m t).data.map (conv.cast s.dtype), s.dtype, s.direction⟩ :: st, ?_, ?_, ?_, ?_⟩
        · rw [restage, hfill, hre]
          rfl
        · rw [stage, copyInto_eq (by simp), hst, htype, ← hdt, ← hdir]
          rfl
        · rw [List.map_cons, List.map_cons, hshapes, Staged.shape, List.length_map, hlen, ← hs]
          rfl
        · exact .cons (List.length_map _) hlens

theorem writeBack_isSome {m : Memory α} {staged : List (Staged α)} {tensors : List ℕ} {n : ℕ → ℕ}
    (h : List.Forall₂ (fun s t => s.shm.length = n t) staged tensors)
    (hm : ∀ t, (m t).data.length = n t) : ∃ m', writeBack conv m staged tensors = some m' := by
  induction h generalizing m with
  | nil => exact ⟨m, rfl⟩
  | @cons s t staged tensors hs _ ih =>
    rw [writeBack]
    by_cases hin : s.direction = .input
    · rw [if_pos hin]
      exact ih hm
    · have hlen : (s.shm.map (conv.cast (m t).dtype)).length = (m t).data.length := by
        rw [List.length_map, hs, hm]
      rw [if_neg hin, copyInto_eq hlen]
      apply ih
      intro u
      by_cases hu : u = t
      · rw [hu, Function.update_self, List.length_map, hs]
      · rw [Function.update_of_ne hu, hm]

structure Ready (compile : Kernel → Orchestration α) (known : Kernel → Option (Dispatch α))
    (r : PersistentRunner α) : Prop where
  staged : ∀ name d, known name = some d → ∃ st, r.staged name = some st ∧ Holds d st
  callables : ∀ p ∈ r.callables, p.2 = compile p.1
  named : ∀ name d, known name = some d → name ∈ r.callables.map Prod.fst
  worker : ∀ w, r.worker = some w → ∀ name ∈ r.callables.map Prod.fst,
    ∃ cid, r.cids name = some cid ∧ w[cid]? = some (compile name)

omit [Zero α] in
theorem mem_setItem (callables : List (Kernel × Orchestration α)) (name : Kernel)
    (cc : Orchestration α) : name ∈ (setItem callables name cc).map Prod.fst ∧
      (∀ n ∈ callables.map Prod.fst, n ∈ (setItem callables name cc).map Prod.fst) ∧
      ∀ p ∈ setItem callables name cc, p = (name, cc) ∨ p ∈ callables := by
  rw [setItem]
  by_cases hmem : name ∈ callables.map Prod.fst
  · have hkeys : (callables.map fun p => if p.1 = name then (name, cc) else p).map Prod.fst =
        callables.map Prod.fst := by
      rw [List.map_map]
      apply List.map_congr_left
      intro p _
      by_cases hp : p.1 = name <;> simp [hp]
    rw [if_pos hmem, hkeys]
    refine ⟨hmem, fun n hn => hn, fun p hp => ?_⟩
    obtain ⟨q, hq, rfl⟩ := List.mem_map.mp hp
    by_cases hname : q.1 = name
    · exact .inl (if_pos hname)
    · rw [if_neg hname]
      exact .inr hq
  · rw [if_neg hmem, List.map_append]
    refine ⟨List.mem_append_right _ List.mem_cons_self, fun n hn => List.mem_append_left _ hn,
      fun p hp => ?_⟩
    obtain hp | hp := List.mem_append.mp hp
    · exact .inr hp
    · exact .inl (List.mem_singleton.mp hp)

theorem prepare_ready {known : Kernel → Option (Dispatch α)} {r r' : PersistentRunner α}
    {dispatches : List (Dispatch α)} (hr : Ready compile known r) (hnone : r.worker = none)
    (h : r.prepare compile dispatches = some r') :
    Ready compile (templates known dispatches) r' := by
  induction dispatches generalizing known r with
  | nil =>
    obtain rfl := Option.some.inj h
    exact hr
  | cons d dispatches ih =>
    rw [PersistentRunner.prepare] at h
    obtain ⟨staged, hst, h⟩ := Option.bind_eq_some_iff.mp h
    obtain ⟨hnew, hold, honly⟩ := mem_setItem r.callables d.name (compile d.name)
    refine ih ?_ ?_ h
    rotate_left
    · exact hnone
    constructor
    · intro name d' hd'
      by_cases hname : name = d.name
      · subst hname
        rw [Function.update_self] at hd'
        obtain rfl := Option.some.inj hd'
        refine ⟨staged, Function.update_self .., ?_⟩
        rw [Holds, hst]
        rfl
      · rw [Function.update_of_ne hname] at hd'
        obtain ⟨st, hst', hheld⟩ := hr.staged name d' hd'
        exact ⟨st, (Function.update_of_ne hname ..).trans hst', hheld⟩
    · intro p hp
      obtain rfl | hp := honly p hp
      · rfl
      · exact hr.callables p hp
    · intro name d' hd'
      by_cases hname : name = d.name
      · subst hname
        exact hnew
      · rw [Function.update_of_ne hname] at hd'
        exact hold name (hr.named name d' hd')
    · intro w hw
      rw [hnone] at hw
      cases hw

omit [Zero α] in
theorem registerAll_spec {worker : List (Orchestration α)} {cids : Kernel → Option ℕ}
    {callables : List (Kernel × Orchestration α)} (hc : ∀ p ∈ callables, p.2 = compile p.1)
    {name : Kernel}
    (h : name ∈ callables.map Prod.fst ∨
      ∃ cid, cids name = some cid ∧ worker[cid]? = some (compile name)) :
    let x := registerAll worker cids callables
    ∃ cid, x.2 name = some cid ∧ x.1[cid]? = some (compile name) := by
  induction callables generalizing worker cids with
  | nil => exact h.resolve_left List.not_mem_nil
  | cons p callables ih =>
    apply ih fun q hq => hc q (List.mem_cons_of_mem p hq)
    by_cases hname : name = p.1
    · right
      refine ⟨worker.length, ?_, ?_⟩
      · rw [hname]
        exact Function.update_self ..
      · rw [hname, ← hc p List.mem_cons_self]
        exact List.getElem?_concat_length
    · rw [List.map_cons, List.mem_cons, or_iff_right hname] at h
      apply h.imp_right
      rintro ⟨cid, hcid, hw⟩
      refine ⟨cid, ?_, ?_⟩
      · rw [Function.update_of_ne hname, hcid]
      · obtain ⟨hlt, -⟩ := List.getElem?_eq_some_iff.mp hw
        rw [← hw]
        exact List.getElem?_append_left hlt

theorem open_ready {known : Kernel → Option (Dispatch α)} {r : PersistentRunner α}
    (hr : Ready compile known r) :
    Ready compile known r.open ∧ r.open.staged = r.staged ∧ ∃ w, r.open.worker = some w := by
  rw [PersistentRunner.open]
  cases hw : r.worker with
  | some w => exact ⟨hr, rfl, w, hw⟩
  | none =>
    refine ⟨⟨hr.staged, hr.callables, hr.named, ?_⟩, rfl, _, rfl⟩
    intro w hw name hname
    obtain rfl := Option.some.inj hw
    exact registerAll_spec hr.callables (.inl hname)

theorem close_ready {known : Kernel → Option (Dispatch α)} {r : PersistentRunner α}
    (hr : Ready compile known r) : Ready compile known r.close := by
  rw [PersistentRunner.close]
  cases hw : r.worker with
  | none => exact hr
  | some w => exact ⟨hr.staged, hr.callables, hr.named, fun _ h => nomatch h⟩

theorem run_eq_computeRun {known : Kernel → Option (Dispatch α)} {r : PersistentRunner α}
    {m : Memory α} {name : Kernel} {tensors : List ℕ} {d : Dispatch α}
    (hr : Ready compile known r) (hd : known name = some d)
    (h : FitsArgs m d.sig d.tensors tensors) :
    ∃ m' r', r.run conv m name tensors = some (m', r') ∧
      computeRun conv compile m name d.sig tensors = some m' ∧ Ready compile known r' := by
  obtain ⟨staged, hstaged, hheld⟩ := hr.staged name d hd
  obtain ⟨st, hre, hst, hshapes, hlens⟩ := restage_eq_stage conv hheld h
  obtain ⟨hopen, hsame, w, hw⟩ := open_ready hr
  obtain ⟨cid, hcid, hcc⟩ := hopen.worker w hw name (hopen.named name d hd)
  have hsubmit : List.Forall₂ (fun s t => s.shm.length = (m t).data.length)
      (submit (compile name) st) tensors := by
    have hmap : List.Forall₂ (fun k t => k.1 = (m t).data.length) (st.map Staged.shape) tensors :=
      List.forall₂_map_left_iff.mpr hlens
    rw [← submit_shape (compile name) st] at hmap
    exact List.forall₂_map_left_iff.mp hmap
  obtain ⟨m', hm'⟩ := writeBack_isSome conv hsubmit fun _ => rfl
  have hlen : staged.length = tensors.length := by
    rw [← hlens.length_eq, ← List.length_map Staged.shape, ← hshapes, List.length_map]
  refine ⟨m', { r.open with
    staged := Function.update r.open.staged name (some (submit (compile name) st)) }, ?_, ?_, ?_⟩
  · simp [PersistentRunner.run, hstaged, hlen, hre, hcid, hw, hcc, hm']
  · simp [computeRun, hst, register, hm']
  · refine ⟨fun n d' hn => ?_, hopen.callables, hopen.named, hopen.worker⟩
    by_cases hname : n = name
    · subst hname
      obtain rfl := Option.some.inj (hn.symm.trans hd)
      refine ⟨_, Function.update_self .., ?_⟩
      rw [Holds, submit_shape, hshapes]
      exact hheld
    · obtain ⟨st', hst', hheld'⟩ := hopen.staged n d' hn
      exact ⟨st', (Function.update_of_ne hname ..).trans hst', hheld'⟩

theorem held_correct (dispatches : List (Dispatch α)) (r : PersistentRunner α)
    (hr : PersistentRunner.new.prepare compile dispatches = some r) (m : Memory α)
    (ops : List (Op α))
    (h : Meets (freshCall conv compile) (Fits (templates (fun _ => none) dispatches)) m ops) :
    ∃ observed m' r', run (heldCall conv) (m, r) ops = some (observed, (m', r')) ∧
      run (freshCall conv compile) m ops = some (observed, m') := by
  have hstart : Ready compile (fun _ => none) (.new : PersistentRunner α) :=
    ⟨(fun _ _ hd => nomatch hd), fun _ hp => absurd hp List.not_mem_nil,
      (fun _ _ hd => nomatch hd), (fun _ hw => nomatch hw)⟩
  let agree (s : Memory α × PersistentRunner α) (t : Memory α) : Prop :=
    s.1 = t ∧ Ready compile (templates (fun _ => none) dispatches) s.2
  have hstart : agree (m, r) m := ⟨rfl, prepare_ready hstart rfl hr⟩
  suffices hstep : ∀ s t op, agree s t → Fits (templates (fun _ => none) dispatches) t op →
      ∃ b s' t', heldCall conv s op = some (b, s') ∧ freshCall conv compile t op = some (b, t') ∧
        agree s' t' by
    obtain ⟨observed, ⟨m', r'⟩, _, hheld, hfresh, rfl, -⟩ := run_simulation hstep hstart h
    exact ⟨observed, m', r', hheld, hfresh⟩
  rintro ⟨m, r⟩ _ op ⟨rfl, hr⟩ hfits
  cases op with
  | set t value => exact ⟨_, _, _, rfl, rfl, rfl, hr⟩
  | run name sig tensors =>
    obtain ⟨d, hd, rfl, hargs⟩ := hfits
    obtain ⟨m', r', hheld, hfresh, hr'⟩ := run_eq_computeRun conv hr hd hargs
    refine ⟨[m'], (m', r'), m', ?_, ?_, rfl, hr'⟩
    · rw [heldCall, hheld]
      rfl
    · rw [freshCall, hfresh]
      rfl
  | «open» => exact ⟨_, _, _, rfl, rfl, rfl, (open_ready hr).1⟩
  | close => exact ⟨_, _, _, rfl, rfl, rfl, close_ready hr⟩

/-- The reverse cumulative sum is a second `gate_cumsum`, in the slot of the first. -/
theorem gate_cumsum_fits {L C dk dv N : ℕ} {tril config : Tensor α} {m : Memory α}
    {a g out cfg : ℕ} (ha : (m a).dtype = tril.dtype ∧ (m a).data.length = tril.data.length)
    (hg : (m g).dtype = .float32 ∧ (m g).data.length = L * dk)
    (hout : m out = ⟨.float32, List.replicate (L * dk) 0⟩) (hcfg : m cfg = config) :
    Fits (templates (fun _ => none) (persistentDispatches L C dk dv N tril config)) m
      (.run .gate_cumsum (signature .gate_cumsum) [a, g, out, cfg]) := by
  refine ⟨_, rfl, rfl, ha.1, ha.2, nofun, hg.1, ?_, nofun, ?_, ?_, ?_, ?_, ?_, nofun, trivial⟩
  · rw [hg.2, List.length_replicate]
  · rw [hout]
  · rw [hout]
  · intro _ v hv
    rw [hout] at hv
    exact List.eq_of_mem_replicate hv
  · rw [hcfg]
  · rw [hcfg]

end Staging

end Runners

section Twice

def cumsumTwo : Kernel → Orchestration ℤ := fun _ b _ j =>
  (b.getD 0 []).getD (2 * j) 0 * (b.getD 1 []).getD 0 0 +
    (b.getD 0 []).getD (2 * j + 1) 0 * (b.getD 1 []).getD 1 0

def memoryTwo : Memory ℤ
  | 0 => ⟨.float32, [1, 0, 1, 1]⟩
  | 1 => ⟨.float32, [3, 5]⟩
  | 3 => ⟨.int64, [2, 1, 1, 1]⟩
  | 4 => ⟨.float32, [1, 1, 0, 1]⟩
  | 5 => ⟨.float32, [7, 9]⟩
  | _ => ⟨.float32, [0, 0]⟩

def opsTwo : List (Op ℤ) :=
  [.run .gate_cumsum (signature .gate_cumsum) [0, 1, 2, 3], .close,
    .run .gate_cumsum (signature .gate_cumsum) [4, 5, 6, 3]]

theorem held_correct_twice :
    let dispatches := persistentDispatches 2 2 1 1 1 (memoryTwo 0) (memoryTwo 3)
    ∃ r, PersistentRunner.new.prepare cumsumTwo dispatches = some r ∧
      ∃ observed m' r', run (heldCall ⟨fun _ x => x, fun _ => rfl⟩) (memoryTwo, r) opsTwo =
          some (observed, (m', r')) ∧
        run (freshCall ⟨fun _ x => x, fun _ => rfl⟩ cumsumTwo) memoryTwo opsTwo =
          some (observed, m') ∧
        m' 2 = ⟨.float32, [3, 8]⟩ ∧ m' 6 = ⟨.float32, [16, 9]⟩ := by
  intro dispatches
  refine ⟨_, rfl, ?_⟩
  obtain ⟨observed, m', r', hheld, hfresh⟩ :=
    held_correct ⟨fun _ x => x, fun _ => rfl⟩ dispatches _ rfl memoryTwo opsTwo (by
      refine ⟨gate_cumsum_fits ⟨rfl, rfl⟩ ⟨rfl, rfl⟩ rfl rfl, ?_⟩
      rintro _ ⟨⟩
      refine ⟨trivial, ?_⟩
      rintro _ ⟨⟩
      exact ⟨gate_cumsum_fits ⟨rfl, rfl⟩ ⟨rfl, rfl⟩ rfl rfl, fun _ _ => trivial⟩)
  refine ⟨observed, m', r', hheld, hfresh, ?_⟩
  cases hfresh
  exact ⟨rfl, rfl⟩

end Twice

end ZeCo.HeldWorkers
