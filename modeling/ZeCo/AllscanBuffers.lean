import ZeCo.Calls
import ZeCo.AllscanCommon

namespace ZeCo.AllscanBuffers

open Matrix Calls

variable {R : Type*} [Semiring R] {P dk dv : ℕ}

structure Bufs (P dk dv : ℕ) (R : Type*) where
  s : States P dk dv R
  g : Decays P dk R
  out : States P dk dv R
  gout : States P dk dv R
  outprev : States P dk dv R
  dS : States P dk dv R
  dgamma : Decays P dk R

def Bufs.zero : Bufs P dk dv R := ⟨0, 0, 0, 0, 0, 0, 0⟩

/-- The object after `build`: `bufs none` is the set `host_*`, `bufs (some h)` the set
`_mh_*[h]`. -/
structure Allscan (P dk dv : ℕ) (R : Type*) where
  bufs : Option ℕ → Bufs P dk dv R
  mhH : Option ℕ
  postInit : Bool

def forwardRing (b : Bufs P dk dv R) : Bufs P dk dv R :=
  { b with out := expectedAllscan b.s b.g }

def backwardRing (b : Bufs P dk dv R) : Bufs P dk dv R :=
  let dS := reverseScan b.g b.gout
  { b with
    dS
    dgamma := fun p => if p.val = 0 then b.dgamma p else rowSum (dS p ⊙ b.outprev p) }

structure Schedule where
  order : List (Option ℕ) → List (Option ℕ)
  perm : ∀ rings, (order rings).Perm rings

def Allscan.workerRun (schedule : Schedule) (ring : Bufs P dk dv R → Bufs P dk dv R)
    (rings : List (Option ℕ)) (a : Allscan P dk dv R) : Allscan P dk dv R :=
  let execute (bufs : Option ℕ → Bufs P dk dv R) (r : Option ℕ) :=
    Function.update bufs r (ring (bufs r))
  { a with bufs := (schedule.order rings).foldl execute a.bufs }

def heads (H : ℕ) : List (Option ℕ) := (List.range H).map some

/-- Raises once the chip children are forked. -/
def Allscan.ensureMultiBufs (a : Allscan P dk dv R) (H : ℕ) : Option (Allscan P dk dv R) :=
  if a.mhH = some H then some a
  else if a.postInit then none
  else some
    { a with
      bufs := fun r => if r ∈ heads H then Bufs.zero else a.bufs r
      mhH := some H }

/-- `earlier` is what attributes of an earlier build still hold. -/
def build (K : ℕ) (multiH : Option ℕ) (earlier : Option ℕ → Bufs P dk dv R) :
    Option (Allscan P dk dv R) :=
  if dk % K ≠ 0 then none
  else if dk > 128 ∨ dv > 128 then none
  else
    let a : Allscan P dk dv R := ⟨Function.update earlier none Bufs.zero, none, false⟩
    let prepared := match multiH with
      | none => some a
      | some H => a.ensureMultiBufs H
    prepared.map fun a => { a with postInit := true }

inductive Call (P dk dv : ℕ) (R : Type*) where
  | run (S : States P dk dv R) (gammas : Decays P dk R) (outputs : States P dk dv R)
  | runBackward (gOut : States P dk dv R) (gammas : Decays P dk R) (outs dS : States P dk dv R)
      (dgamma : Decays P dk R)
  | runBatch (S : States P dk dv R) (gammas : Decays P dk R) (nIters : ℕ)
  | runBatchBackward (gOut : States P dk dv R) (gammas : Decays P dk R) (outs : States P dk dv R)
      (nIters : ℕ)
  | runMulti {H : ℕ} (S : Fin H → States P dk dv R) (gammas : Fin H → Decays P dk R)
      (outputs : Fin H → States P dk dv R)
  | runMultiBackward {H : ℕ} (gOut : Fin H → States P dk dv R) (gammas : Fin H → Decays P dk R)
      (outs dS : Fin H → States P dk dv R) (dgamma : Fin H → Decays P dk R)

inductive Reply (P dk dv : ℕ) (R : Type*) where
  | outputs (raised : Bool) (out : List (States P dk dv R))
  | grads (raised : Bool) (g : List (States P dk dv R × Decays P dk R))

def loadForward (S : States P dk dv R) (gammas : Decays P dk R) (b : Bufs P dk dv R) :
    Bufs P dk dv R :=
  { b with s := S, g := gammas }

def loadBackward (gOut : States P dk dv R) (gammas : Decays P dk R) (outs : States P dk dv R)
    (b : Bufs P dk dv R) : Bufs P dk dv R :=
  { b with gout := gOut, g := gammas, outprev := sRecv outs }

def Allscan.modify (a : Allscan P dk dv R) (load : Bufs P dk dv R → Bufs P dk dv R) :
    Allscan P dk dv R :=
  { a with bufs := Function.update a.bufs none (load (a.bufs none)) }

def Allscan.modifyMulti (a : Allscan P dk dv R) {H : ℕ}
    (load : Fin H → Bufs P dk dv R → Bufs P dk dv R) : Allscan P dk dv R :=
  { a with bufs := fun r => match r with
      | none => a.bufs none
      | some h => if hh : h < H then load ⟨h, hh⟩ (a.bufs (some h)) else a.bufs (some h) }

def call (a : Allscan P dk dv R) (x : Call P dk dv R × Schedule) :
    Option (List (Reply P dk dv R) × Allscan P dk dv R) :=
  match x.1 with
  | .run S gammas _ =>
    let a := a.modify fun b => { loadForward S gammas b with out := 0 }
    let a := a.workerRun x.2 forwardRing [none]
    some ([.outputs false [(a.bufs none).out]], a)
  | .runBackward gOut gammas outs _ _ =>
    let a := a.modify fun b => { loadBackward gOut gammas outs b with dS := 0, dgamma := 0 }
    let a := a.workerRun x.2 backwardRing [none]
    some ([.grads false [((a.bufs none).dS, (a.bufs none).dgamma)]], a)
  | .runBatch S gammas nIters =>
    let a := a.modify (loadForward S gammas)
    some ([], a.workerRun x.2 forwardRing (List.replicate nIters none))
  | .runBatchBackward gOut gammas outs nIters =>
    let a := a.modify (loadBackward gOut gammas outs)
    some ([], a.workerRun x.2 backwardRing (List.replicate nIters none))
  | .runMulti (H := H) S gammas outputs =>
    match a.ensureMultiBufs H with
    | none => some ([.outputs true (List.ofFn outputs)], a)
    | some a =>
      let a := a.modifyMulti fun h b => { loadForward (S h) (gammas h) b with out := 0 }
      let a := a.workerRun x.2 forwardRing (heads H)
      some ([.outputs false (List.ofFn fun h : Fin H => (a.bufs (some h)).out)], a)
  | .runMultiBackward (H := H) gOut gammas outs dS dgamma =>
    match a.ensureMultiBufs H with
    | none => some ([.grads true (List.ofFn fun h => (dS h, dgamma h))], a)
    | some a =>
      let a := a.modifyMulti fun h b =>
        { loadBackward (gOut h) (gammas h) (outs h) b with dS := 0, dgamma := 0 }
      let a := a.workerRun x.2 backwardRing (heads H)
      some ([.grads false (List.ofFn fun h : Fin H =>
        ((a.bufs (some h)).dS, (a.bufs (some h)).dgamma))], a)

def reference (multiH : Option ℕ) : Call P dk dv R → List (Reply P dk dv R)
  | .run S gammas _ => [.outputs false [expectedAllscan S gammas]]
  | .runBackward gOut gammas outs _ _ => [.grads false [expectedAllscanBackward gammas outs gOut]]
  | .runBatch .. => []
  | .runBatchBackward .. => []
  | .runMulti (H := H) S gammas outputs =>
    if multiH = some H then
      [.outputs false (List.ofFn fun h => expectedAllscan (S h) (gammas h))]
    else [.outputs true (List.ofFn outputs)]
  | .runMultiBackward (H := H) gOut gammas outs dS dgamma =>
    if multiH = some H then
      [.grads false (List.ofFn fun h => expectedAllscanBackward (gammas h) (outs h) (gOut h))]
    else [.grads true (List.ofFn fun h => (dS h, dgamma h))]

theorem foldl_update {ι β : Type*} [DecidableEq ι] {k : β → β} (hk : ∀ b, k (k b) = k b)
    (l : List ι) (f : ι → β) (r : ι) :
    l.foldl (fun f i => Function.update f i (k (f i))) f r = if r ∈ l then k (f r) else f r := by
  induction l generalizing f with
  | nil => rfl
  | cons i l ih =>
    rw [List.foldl_cons, ih]
    by_cases hr : r = i
    · subst hr
      rw [Function.update_self, hk, ite_self, if_pos List.mem_cons_self]
    · simp only [Function.update_of_ne hr, List.mem_cons, hr, false_or]

omit [Semiring R] in
theorem workerRun_bufs {ring : Bufs P dk dv R → Bufs P dk dv R} (h : ∀ b, ring (ring b) = ring b)
    (schedule : Schedule) (rings : List (Option ℕ)) (a : Allscan P dk dv R) (r : Option ℕ) :
    (a.workerRun schedule ring rings).bufs r = if r ∈ rings then ring (a.bufs r) else a.bufs r := by
  have hmem : r ∈ schedule.order rings ↔ r ∈ rings := (schedule.perm rings).mem_iff
  apply (foldl_update h _ _ _).trans
  simp only [hmem]

theorem forwardRing_idem (b : Bufs P dk dv R) : forwardRing (forwardRing b) = forwardRing b := rfl

theorem backwardRing_idem (b : Bufs P dk dv R) :
    backwardRing (backwardRing b) = backwardRing b := by
  have hdgamma : (backwardRing (backwardRing b)).dgamma = (backwardRing b).dgamma := by
    funext p
    by_cases hp : p.val = 0 <;> simp [backwardRing, hp]
  change { backwardRing b with dgamma := (backwardRing (backwardRing b)).dgamma } = backwardRing b
  rw [hdgamma]

theorem gammaGrads_first (dS outs : States P dk dv R) {p : Fin P} (hp : p.val = 0) :
    gammaGrads dS outs p = 0 := by
  rw [gammaGrads_apply, sRecv_first outs hp]
  funext t
  simp

theorem backwardRing_reference (gOut : States P dk dv R) (gammas : Decays P dk R)
    (outs : States P dk dv R) (b : Bufs P dk dv R) :
    let r := backwardRing { loadBackward gOut gammas outs b with dS := 0, dgamma := 0 }
    (r.dS, r.dgamma) = expectedAllscanBackward gammas outs gOut := by
  apply Prod.ext
  · rfl
  · funext p
    change (if p.val = 0 then 0 else rowSum (reverseScan gammas gOut p ⊙ sRecv outs p)) =
      gammaGrads (reverseScan gammas gOut) outs p
    split_ifs with hp
    · exact (gammaGrads_first _ _ hp).symm
    · exact (gammaGrads_apply _ _ _).symm

theorem mem_heads {H : ℕ} (h : Fin H) : some h.val ∈ heads H :=
  List.mem_map_of_mem (List.mem_range.mpr h.isLt)

structure Built (multiH : Option ℕ) (a : Allscan P dk dv R) : Prop where
  mhH : a.mhH = multiH
  postInit : a.postInit = true

theorem build_built {K : ℕ} {multiH : Option ℕ} {earlier : Option ℕ → Bufs P dk dv R}
    {a : Allscan P dk dv R} (h : build K multiH earlier = some a) : Built multiH a := by
  rw [build] at h
  split_ifs at h
  obtain ⟨b, hb, rfl⟩ := Option.map_eq_some_iff.mp h
  cases multiH with
  | none =>
    obtain rfl := Option.some.inj hb
    exact ⟨rfl, rfl⟩
  | some H =>
    obtain rfl := Option.some.inj hb
    exact ⟨rfl, rfl⟩

theorem ensureMultiBufs_spec {multiH : Option ℕ} {a : Allscan P dk dv R}
    (ha : Built multiH a) (H : ℕ) :
    a.ensureMultiBufs H = if multiH = some H then some a else none := by
  rw [Allscan.ensureMultiBufs, ha.mhH, ha.postInit, if_pos rfl]

omit [Semiring R] in
theorem modify_run {ring : Bufs P dk dv R → Bufs P dk dv R} (h : ∀ b, ring (ring b) = ring b)
    (schedule : Schedule) (load : Bufs P dk dv R → Bufs P dk dv R) (a : Allscan P dk dv R) :
    ((a.modify load).workerRun schedule ring [none]).bufs none = ring (load (a.bufs none)) := by
  rw [workerRun_bufs h, if_pos List.mem_cons_self]
  change ring (Function.update a.bufs none (load (a.bufs none)) none) = _
  rw [Function.update_self]

omit [Semiring R] in
theorem modifyMulti_run {ring : Bufs P dk dv R → Bufs P dk dv R} (h : ∀ b, ring (ring b) = ring b)
    (schedule : Schedule) {H : ℕ} (load : Fin H → Bufs P dk dv R → Bufs P dk dv R)
    (a : Allscan P dk dv R) (i : Fin H) :
    ((a.modifyMulti load).workerRun schedule ring (heads H)).bufs (some i) =
      ring (load i (a.bufs (some i))) := by
  rw [workerRun_bufs h, if_pos (mem_heads i)]
  exact congrArg ring (dif_pos i.isLt)

theorem call_reference {multiH : Option ℕ} {a : Allscan P dk dv R} (ha : Built multiH a)
    (x : Call P dk dv R × Schedule) :
    ∃ t, call a x = some (reference multiH x.1, t) ∧ Built multiH t := by
  obtain ⟨c, schedule⟩ := x
  cases c with
  | run S gammas _ =>
    simp only [call, modify_run forwardRing_idem]
    exact ⟨_, rfl, ha.mhH, ha.postInit⟩
  | runBackward gOut gammas outs _ _ =>
    simp only [call, modify_run backwardRing_idem, backwardRing_reference]
    exact ⟨_, rfl, ha.mhH, ha.postInit⟩
  | runBatch S gammas nIters => exact ⟨_, rfl, ha.mhH, ha.postInit⟩
  | runBatchBackward gOut gammas outs nIters => exact ⟨_, rfl, ha.mhH, ha.postInit⟩
  | @runMulti H S gammas outputs =>
    simp only [call, reference, ensureMultiBufs_spec ha]
    by_cases hH : multiH = some H
    · simp only [hH, if_true, modifyMulti_run forwardRing_idem]
      exact ⟨_, rfl, ha.mhH.trans hH, ha.postInit⟩
    · simp only [hH, if_false]
      exact ⟨a, rfl, ha⟩
  | @runMultiBackward H gOut gammas outs dS dgamma =>
    simp only [call, reference, ensureMultiBufs_spec ha]
    by_cases hH : multiH = some H
    · simp only [hH, if_true, modifyMulti_run backwardRing_idem, backwardRing_reference]
      exact ⟨_, rfl, ha.mhH.trans hH, ha.postInit⟩
    · simp only [hH, if_false]
      exact ⟨a, rfl, ha⟩

def refused : Call P dk dv R → Option (ℕ × Reply P dk dv R)
  | .runMulti (H := H) _ _ outputs => some (H, .outputs true (List.ofFn outputs))
  | .runMultiBackward (H := H) _ _ _ dS dgamma =>
    some (H, .grads true (List.ofFn fun h => (dS h, dgamma h)))
  | _ => none

theorem call_refused {multiH : Option ℕ} {a : Allscan P dk dv R} (ha : Built multiH a)
    {c : Call P dk dv R} {H : ℕ} {reply : Reply P dk dv R} (hc : refused c = some (H, reply))
    (hH : multiH ≠ some H) (schedule : Schedule) : call a (c, schedule) = some ([reply], a) := by
  cases c with
  | run => cases hc
  | runBackward => cases hc
  | runBatch => cases hc
  | runBatchBackward => cases hc
  | runMulti S gammas outputs =>
    cases hc
    simp only [call, ensureMultiBufs_spec ha, if_neg hH]
  | runMultiBackward gOut gammas outs dS dgamma =>
    cases hc
    simp only [call, ensureMultiBufs_spec ha, if_neg hH]

theorem no_memory (K : ℕ) (multiH : Option ℕ) (earlier : Option ℕ → Bufs P dk dv R)
    (a : Allscan P dk dv R) (hbuild : build K multiH earlier = some a)
    (calls : List (Call P dk dv R × Schedule)) :
    ∃ b, run call a calls = some (calls.flatMap fun x => reference multiH x.1, b) ∧
      ∀ c H reply schedule, refused c = some (H, reply) → multiH ≠ some H →
        call b (c, schedule) = some ([reply], b) := by
  obtain ⟨b, hrun, hb⟩ := run_replies (fun _ x ha => call_reference ha x) (build_built hbuild) calls
  exact ⟨b, hrun, fun _ _ _ schedule hc hH => call_refused hb hc hH schedule⟩

theorem no_memory_two :
    let S : States 2 1 1 ℤ := fun p _ _ => p + 1
    let g : Decays 2 1 ℤ := fun _ _ => 3
    let schedule : Schedule := ⟨List.reverse, List.reverse_perm⟩
    let calls : List (Call 2 1 1 ℤ × Schedule) :=
      [(.runBatchBackward S g S 2, schedule), (.runBackward S g S S g, schedule),
        (.runMulti (H := 3) (fun _ => S) (fun _ => g) (fun _ => S), schedule),
        (.runMulti (H := 2) (fun _ => S) (fun _ => g) (fun _ => S), schedule)]
    ∃ a, build 1 (some 2) (fun _ => Bufs.zero) = some a ∧
      ∃ b, run call a calls = some (calls.flatMap fun x => reference (some 2) x.1, b) ∧
        ∀ c H reply schedule, refused c = some (H, reply) → some 2 ≠ some H →
          call b (c, schedule) = some ([reply], b) := by
  intro S g schedule calls
  exact ⟨_, rfl, no_memory 1 (some 2) _ _ rfl calls⟩

end ZeCo.AllscanBuffers
