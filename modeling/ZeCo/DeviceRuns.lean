import ZeCo.DeviceKernels

namespace ZeCo.DeviceTasks

open Schedules SimplerKernels Buffer

section Exact

variable {R : Type*}

def gradsO (s : Store R) : GradOBuffers R :=
  { dQt := buffer s .dQt, dKin := buffer s .dKin, dVi := buffer s .dVi, dH := buffer s .dH }

def gradsH (s : Store R) : GradHBuffers R :=
  { dKstate := buffer s .dKstate, dVs := buffer s .dVs }

variable {C dk dv N n : ℕ}

structure Small (C dk dv N : ℕ) : Prop where
  pos : 0 < C
  chunk : C < 2 ^ 32
  keys : dk < 2 ^ 32
  values : dv < 2 ^ 32
  cdk : N * (C * dk) < 2 ^ 32
  cdv : N * (C * dv) < 2 ^ 32
  kv : N * (dk * dv) < 2 ^ 32

structure Exact (C dk dv n : ℕ) : Prop where
  offCdk : (u32 n * cdk C dk).toNat = n * (C * dk)
  offCdv : (u32 n * cdv C dv).toNat = n * (C * dv)
  offKv : (u32 n * kv dk dv).toNat = n * (dk * dv)
  gtotOff : (gtotOff C dk n).toNat = n * (C * dk) + (C - 1) * dk
  cdk : (cdk C dk).toNat = C * dk
  cdv : (cdv C dv).toNat = C * dv
  kv : (kv dk dv).toNat = dk * dv
  row : (u32 dk).toNat = dk
  qeff : Scratch.qeff.size C dk dv = C * dk
  inter : Scratch.inter.size C dk dv = C * dv
  aqk : Scratch.aqk.size C dk dv = C * C
  kvSize : Scratch.kv.size C dk dv = dk * dv
  decay : Scratch.decay.size C dk dv = dk

theorem toNat_u32 {x : ℕ} (h : x < 2 ^ 32) : (u32 x).toNat = x := Nat.mod_eq_of_lt h

theorem toNat_chunk_len {a b : ℕ} (hn : n < N) (h : N * (a * b) < 2 ^ 32) :
    (u32 a * u32 b).toNat = a * b := by
  have hle : 1 * (a * b) ≤ N * (a * b) := Nat.mul_le_mul_right _ (by omega)
  rw [Nat.one_mul] at hle
  rw [u32, u32, ← UInt32.ofNat_mul]
  exact toNat_u32 (by omega)

theorem Small.exact (h : Small C dk dv N) (hn : n < N) : Exact C dk dv n where
  offCdk := chunk_off hn h.cdk.le
  offCdv := chunk_off hn h.cdv.le
  offKv := chunk_off hn h.kv.le
  gtotOff := by
    have hend := gtot_end hn h.pos dk
    have hfit := h.cdk
    rw [toNat_gtotOff h.pos, Nat.mod_eq_of_lt (by omega)]
  cdk := toNat_chunk_len hn h.cdk
  cdv := toNat_chunk_len hn h.cdv
  kv := toNat_chunk_len hn h.kv
  row := toNat_u32 h.keys
  qeff := congrArg₂ (· * ·) (toNat_u32 h.chunk) (toNat_u32 h.keys)
  inter := congrArg₂ (· * ·) (toNat_u32 h.chunk) (toNat_u32 h.values)
  aqk := congrArg₂ (· * ·) (toNat_u32 h.chunk) (toNat_u32 h.chunk)
  kvSize := congrArg₂ (· * ·) (toNat_u32 h.keys) (toNat_u32 h.values)
  decay := (Nat.mul_one _).trans (toNat_u32 h.keys)

theorem chunkTasks_straight (f : Orchestration) (C dk dv n : ℕ) :
    Straight (f.chunkTasks C dk dv n) := by
  constructor
  · cases f <;> simp [Orchestration.chunkTasks, chunkHTasks, chunkOTasks, gradOTasks, gradHTasks,
      KeepsInputs, inputTensors, outputTensors, Tensor.view, fresh]
  · exact chunkTasks_keepInputs C dk dv f n
  · cases f <;> simp [Orchestration.chunkTasks, chunkHTasks, chunkOTasks, gradOTasks, gradHTasks,
      WrittenOnce, outputTensors, Tensor.view, fresh]

theorem given_kept {kernel : Kernels R} (f : Orchestration) {s s' : Store R}
    (hs : runAll (L0Task.run kernel) (f.chunkTasks C dk dv n) s = s') {T : Tensor}
    (hT : T ∈ f.given) : buffer s' T = buffer s T := by
  rw [← hs]
  apply runAll_frame
  exact fun t ht hw => (chunkTasks_gives C dk dv f n t ht T hw).1 hT

theorem given_shown {kernel : Kernels R} (f : Orchestration) (T : Tensor)
    {s s' : Store R} (hs : runAll (L0Task.run kernel) (f.chunkTasks C dk dv n) s = s')
    (hT : T ∈ f.given) {x : View} (hx : x.tensor = T) {k : ℕ} (hoff : x.off = k) (m : ℕ) :
    Agrees m (shown x s') ((buffer s T).view k) := by
  intro i _
  rw [shown, hx, given_kept f hs hT, hoff]

theorem given_whole {kernel : Kernels R} (f : Orchestration) (T : Tensor)
    {s s' : Store R} (hs : runAll (L0Task.run kernel) (f.chunkTasks C dk dv n) s = s')
    (hT : T ∈ f.given) {x : View} (hx : x.tensor = T) (hoff : x.off = 0) (m : ℕ) :
    Agrees m (shown x s') (buffer s T) := by
  have hview := given_shown f T hs hT hx hoff m
  rwa [view_zero] at hview

end Exact

section Orchestrations

variable [Ring R] (exp : R → R) {C dk dv N n : ℕ} (x : Exact C dk dv n) {s s' : Store R}
include x

theorem chunkH_chunk
    (hs : runAll (L0Task.run (simplerKernels exp .chunk_h)) (chunkHTasks C dk dv n) s = s') :
    (buffer s' .S, buffer s' .ssnap) = chunkHChunk exp C dk dv (buffer s .k) (buffer s .v)
      (buffer s .gcs) n (buffer s .S, buffer s .ssnap) := by
  have hts := chunkTasks_straight .chunk_h C dk dv n
  obtain ⟨krest, decay⟩ := prepH_left exp .chunk_h hts hs (List.mem_of_getElem? (i := 0) rfl)
    (Or.inl rfl) x.cdk x.row x.cdk x.qeff (x.decay.trans (Nat.one_mul dk).symm) nofun
    (given_shown .chunk_h .gcs hs (by decide) rfl x.offCdk _)
    (given_shown .chunk_h .gcs hs (by decide) rfl x.gtotOff _)
    (given_shown .chunk_h .k hs (by decide) rfl x.offCdk _)
  have kv := mm_left exp .chunk_h hts hs (List.mem_of_getElem? (i := 1) rfl) nofun
    (x.qeff.trans (Nat.mul_comm C dk)) x.cdv x.kvSize (left_agrees krest).swap
    (given_shown .chunk_h .v hs (by decide) rfl x.offCdv _)
  obtain ⟨S, snap⟩ := update_left exp hts hs (List.mem_of_getElem? (i := 2) rfl) x.kvSize
    x.decay x.kvSize x.kv nofun (left_agrees kv) ((left_agrees decay).of_eq (Nat.one_mul dk))
    (view_zero (buffer s .S))
  exact Prod.ext (left_at S rfl) (left_at snap x.offKv)

theorem chunkO_chunk
    (hs : runAll (L0Task.run (simplerKernels exp .chunk_o)) (chunkOTasks C dk dv n) s = s') :
    let prep := chunkOPrep exp C dk ((buffer s .q).view (n * (C * dk)))
      ((buffer s .k).view (n * (C * dk))) ((buffer s .gcs).view (n * (C * dk)))
    let aqkm := chunkOElt 0 C C (flat (matmul 2 C C dk (flat prep.1) (flat prep.2)))
      (buffer s .tril)
    buffer s' .o = (buffer s .o).store (n * (C * dv)) (chunkOElt 1 C dv
      (flat (matmul 0 C dv dk (flat prep.1) ((buffer s .ssnap).view (n * (dk * dv)))))
      (flat (matmul 0 C dv C (flat aqkm) ((buffer s .v).view (n * (C * dv)))))) := by
  intro prep aqkm
  have hts := chunkTasks_straight .chunk_o C dk dv n
  obtain ⟨hqeff, hkeff⟩ := prepO_left exp .chunk_o hts hs (List.mem_of_getElem? (i := 0) rfl)
    (Or.inl rfl) x.cdk x.cdk x.cdk x.qeff x.qeff nofun
    (given_shown .chunk_o .q hs (by decide) rfl x.offCdk _)
    (given_shown .chunk_o .k hs (by decide) rfl x.offCdk _)
    (given_shown .chunk_o .gcs hs (by decide) rfl x.offCdk _)
  have inter := mm_left exp .chunk_o hts hs (List.mem_of_getElem? (i := 1) rfl) nofun x.qeff x.kv
    x.inter (left_agrees hqeff) (given_shown .chunk_o .ssnap hs (by decide) rfl x.offKv _)
  have aqk := mm_left exp .chunk_o hts hs (List.mem_of_getElem? (i := 2) rfl) nofun x.qeff
    (x.qeff.trans (Nat.mul_comm C dk)) x.aqk (left_agrees hqeff) (left_agrees hkeff).swap
  have aqkm := elt_left exp .chunk_o hts hs (List.mem_of_getElem? (i := 3) rfl) (Or.inl rfl) nofun
    x.aqk rfl x.aqk (left_agrees aqk) (given_whole .chunk_o .tril hs (by decide) rfl rfl _)
  have intra := mm_left exp .chunk_o hts hs (List.mem_of_getElem? (i := 4) rfl) nofun x.aqk x.cdv
    x.inter (left_agrees aqkm) (given_shown .chunk_o .v hs (by decide) rfl x.offCdv _)
  have out := elt_left exp .chunk_o hts hs (List.mem_of_getElem? (i := 5) rfl) (Or.inl rfl) nofun
    x.inter x.inter x.cdv (left_agrees inter) (left_agrees intra)
  exact left_at out x.offCdv

theorem gradO_chunk
    (hs : runAll (L0Task.run (simplerKernels exp .grad_o)) (gradOTasks C dk dv n) s = s') :
    gradsO s' = gradOChunk exp C dk dv (buffer s .q) (buffer s .k) (buffer s .v) (buffer s .gcs)
      (buffer s .snap) (buffer s .dO) (buffer s .tril) n (gradsO s) := by
  have hts := chunkTasks_straight .grad_o C dk dv n
  have dO (m : ℕ) : Agrees m (shown (Tensor.view .dO (cdv C dv) (u32 n * cdv C dv)) s')
      ((buffer s .dO).view (n * (C * dv))) :=
    given_shown .grad_o .dO hs (by decide) rfl x.offCdv m
  obtain ⟨qt, kin⟩ := prepO_left exp .grad_o hts hs (List.mem_of_getElem? (i := 0) rfl)
    (Or.inr rfl) x.cdk x.cdk x.cdk x.qeff x.qeff nofun
    (given_shown .grad_o .q hs (by decide) rfl x.offCdk _)
    (given_shown .grad_o .k hs (by decide) rfl x.offCdk _)
    (given_shown .grad_o .gcs hs (by decide) rfl x.offCdk _)
  have aqk := mm_left exp .grad_o hts hs (List.mem_of_getElem? (i := 1) rfl) nofun x.qeff
    (x.qeff.trans (Nat.mul_comm C dk)) x.aqk (left_agrees qt) (left_agrees kin).swap
  have scores := elt_left exp .grad_o hts hs (List.mem_of_getElem? (i := 2) rfl) (Or.inr rfl) nofun
    x.aqk rfl x.aqk (left_agrees aqk) (given_whole .grad_o .tril hs (by decide) rfl rfl _)
  have dH := mm_left exp .grad_o hts hs (List.mem_of_getElem? (i := 3) rfl) nofun
    (x.qeff.trans (Nat.mul_comm C dk)) x.cdv x.kv (left_agrees qt).swap (dO _)
  have dscRaw := mm_left exp .grad_o hts hs (List.mem_of_getElem? (i := 4) rfl) nofun x.cdv
    (x.cdv.trans (Nat.mul_comm C dv)) x.aqk (dO _)
    (given_shown .grad_o .v hs (by decide) rfl x.offCdv _)
  have dsc := elt_left exp .grad_o hts hs (List.mem_of_getElem? (i := 5) rfl) (Or.inr rfl) nofun
    x.aqk rfl x.aqk (left_agrees dscRaw) (given_whole .grad_o .tril hs (by decide) rfl rfl _)
  have dqtRecon := mm_left exp .grad_o hts hs (List.mem_of_getElem? (i := 6) rfl) nofun x.cdv
    (x.kv.trans (Nat.mul_comm dk dv)) x.qeff (dO _)
    (given_shown .grad_o .snap hs (by decide) rfl x.offKv _)
  have dqtIntra := mm_left exp .grad_o hts hs (List.mem_of_getElem? (i := 7) rfl) nofun x.aqk
    x.qeff x.qeff (left_agrees dsc) (left_agrees kin)
  have dQt := elt_left exp .grad_o hts hs (List.mem_of_getElem? (i := 8) rfl) (Or.inr rfl) nofun
    x.qeff x.qeff x.cdk (left_agrees dqtRecon) (left_agrees dqtIntra)
  have dKin := mm_left exp .grad_o hts hs (List.mem_of_getElem? (i := 9) rfl) nofun x.aqk
    x.qeff x.cdk (left_agrees dsc) (left_agrees qt)
  have dVi := mm_left exp .grad_o hts hs (List.mem_of_getElem? (i := 10) rfl) nofun x.aqk
    x.cdv x.cdv (left_agrees scores) (dO _)
  have hdQt : buffer s' .dQt = _ := left_at dQt x.offCdk
  have hdKin : buffer s' .dKin = _ := left_at dKin x.offCdk
  have hdVi : buffer s' .dVi = _ := left_at dVi x.offCdv
  have hdH : buffer s' .dH = _ := left_at dH x.offKv
  rw [gradsO, hdQt, hdKin, hdVi, hdH]
  rfl

theorem gradH_chunk
    (hs : runAll (L0Task.run (simplerKernels exp .grad_h)) (gradHTasks C dk dv n) s = s') :
    gradsH s' = gradHChunk exp C dk dv (buffer s .k) (buffer s .v) (buffer s .gcs)
      (buffer s .dSloc) n (gradsH s) := by
  have hts := chunkTasks_straight .grad_h C dk dv n
  obtain ⟨krest, -⟩ := prepH_left exp .grad_h hts hs (List.mem_of_getElem? (i := 0) rfl)
    (Or.inr rfl) x.cdk x.row x.cdk x.qeff (x.decay.trans (Nat.one_mul dk).symm) nofun
    (given_shown .grad_h .gcs hs (by decide) rfl x.offCdk _)
    (given_shown .grad_h .gcs hs (by decide) rfl x.gtotOff _)
    (given_shown .grad_h .k hs (by decide) rfl x.offCdk _)
  have dKstate := mm_left exp .grad_h hts hs (List.mem_of_getElem? (i := 1) rfl) nofun x.cdv
    (x.kv.trans (Nat.mul_comm dk dv)) x.cdk (given_shown .grad_h .v hs (by decide) rfl x.offCdv _)
    (given_shown .grad_h .dSloc hs (by decide) rfl x.offKv _)
  have dVs := mm_left exp .grad_h hts hs (List.mem_of_getElem? (i := 2) rfl) nofun x.qeff x.kv
    x.cdv (left_agrees krest) (given_shown .grad_h .dSloc hs (by decide) rfl x.offKv _)
  exact congrArg₂ GradHBuffers.mk (left_at dKstate x.offCdk) (left_at dVs x.offCdv)

end Orchestrations

section Schedules

variable {σ : Type*} {C dk dv N : ℕ} (f : Orchestration)

theorem tasks_kept {kernel : Kernels R} (m : ℕ) (s : Store R) {T : Tensor} (hT : T ∈ f.given) :
    buffer (runAll (L0Task.run kernel) (f.tasks C dk dv m) s) T = buffer s T := by
  apply runAll_frame
  intro t ht hw
  obtain ⟨n, -, ht⟩ := List.mem_flatMap.mp ht
  exact (chunkTasks_gives C dk dv f n t ht T hw).1 hT

theorem tasks_run {kernel : Kernels R} (s : Store R) (view : Store R → σ)
    (step : Fin N → σ → σ)
    (chunk : ∀ (n : Fin N) (t t' : Store R), (∀ T ∈ f.given, buffer t T = buffer s T) →
      runAll (L0Task.run kernel) (f.chunkTasks C dk dv n) t = t' → view t' = step n (view t)) :
    view (runAll (L0Task.run kernel) (f.tasks C dk dv N) s) = Loop.up N step (view s) := by
  apply Loop.up_invariant
    (fun m y => view (runAll (L0Task.run kernel) (f.tasks C dk dv m) s) = y) rfl
  intro n y hy
  subst hy
  apply chunk n _ _ fun T hT => tasks_kept f n s hT
  rw [Orchestration.tasks, Orchestration.tasks, List.range_succ, List.flatMap_append, runAll,
    runAll, runAll, List.foldl_append, List.flatMap_singleton]

variable [Ring R] (exp : R → R) (h : Small C dk dv N) (s : Store R)
include h

theorem chunk_h_run :
    let s' := runAll (L0Task.run (simplerKernels exp .chunk_h))
      (Orchestration.chunk_h.tasks C dk dv N) s
    (buffer s' .S, buffer s' .ssnap) = Loop.up N (fun n y =>
      chunkHChunk exp C dk dv (buffer s .k) (buffer s .v) (buffer s .gcs) n y)
        (buffer s .S, buffer s .ssnap) := by
  apply tasks_run .chunk_h s (fun s => (buffer s .S, buffer s .ssnap))
  intro n t t' hgiven ht
  rw [chunkH_chunk exp (h.exact n.isLt) ht, hgiven .k (by decide), hgiven .v (by decide),
    hgiven .gcs (by decide)]

theorem chunk_h_schedule (x : Schedule Feeds (Orchestration.chunk_h.tasks C dk dv N)) :
    buffer (x.run (L0Task.run (simplerKernels exp .chunk_h)) s) .ssnap =
      chunkHOrch exp C dk dv N (buffer s .k) (buffer s .v) (buffer s .gcs) (buffer s .ssnap)
        (buffer s .S) := by
  rw [schedule_run_eq]
  exact congrArg Prod.snd (chunk_h_run exp h s)

theorem chunk_o_schedule (x : Schedule Feeds (Orchestration.chunk_o.tasks C dk dv N)) :
    buffer (x.run (L0Task.run (simplerKernels exp .chunk_o)) s) .o =
      chunkOOrch exp C dk dv N (buffer s .q) (buffer s .k) (buffer s .v) (buffer s .gcs)
        (buffer s .ssnap) (buffer s .tril) (buffer s .o) := by
  rw [schedule_run_eq]
  apply tasks_run .chunk_o s (fun s => buffer s .o)
  intro n t t' hgiven ht
  rw [chunkO_chunk exp (h.exact n.isLt) ht, hgiven .q (by decide), hgiven .k (by decide),
    hgiven .v (by decide), hgiven .gcs (by decide), hgiven .ssnap (by decide),
    hgiven .tril (by decide)]

theorem grad_o_schedule (x : Schedule Feeds (Orchestration.grad_o.tasks C dk dv N)) :
    gradsO (x.run (L0Task.run (simplerKernels exp .grad_o)) s) =
      gradOOrch exp C dk dv N (buffer s .q) (buffer s .k) (buffer s .v) (buffer s .gcs)
        (buffer s .snap) (buffer s .dO) (buffer s .tril) (gradsO s) := by
  rw [schedule_run_eq]
  apply tasks_run .grad_o s gradsO
  intro n t t' hgiven ht
  rw [gradO_chunk exp (h.exact n.isLt) ht, hgiven .q (by decide), hgiven .k (by decide),
    hgiven .v (by decide), hgiven .gcs (by decide), hgiven .snap (by decide),
    hgiven .dO (by decide), hgiven .tril (by decide)]

theorem grad_h_schedule (x : Schedule Feeds (Orchestration.grad_h.tasks C dk dv N)) :
    gradsH (x.run (L0Task.run (simplerKernels exp .grad_h)) s) =
      gradHOrch exp C dk dv N (buffer s .k) (buffer s .v) (buffer s .gcs) (buffer s .dSloc)
        (gradsH s) := by
  rw [schedule_run_eq]
  apply tasks_run .grad_h s gradsH
  intro n t t' hgiven ht
  rw [gradH_chunk exp (h.exact n.isLt) ht, hgiven .k (by decide), hgiven .v (by decide),
    hgiven .gcs (by decide), hgiven .dSloc (by decide)]

end Schedules

end ZeCo.DeviceTasks
