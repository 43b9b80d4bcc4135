import ZeCo.DeviceTasks
import ZeCo.SimplerGradKernels

namespace ZeCo.DeviceTasks

open HeldWorkers (ArgDirection)
open Schedules SimplerKernels Buffer Matrix

variable {R : Type*}

section Agreement

variable {m n : ℕ} {A A' B B' X : Buffer R}

def Agrees (n : ℕ) (A B : Buffer R) : Prop := ∀ x < n, A x = B x

theorem Agrees.of_eq (hmn : m = n) (h : Agrees m A B) : Agrees n A B := hmn ▸ h

theorem Agrees.swap (h : Agrees (m * n) A B) : Agrees (n * m) A B := h.of_eq (Nat.mul_comm m n)

theorem load_congr (h : Agrees (m * n) A B) : load m n A = load m n B := by
  ext i j
  exact h _ (tile_lt i j)

theorem stored_agrees [Zero R] (X : Buffer R) (off : ℕ) (M : Matrix (Fin m) (Fin n) R) :
    Agrees (m * n) ((X.store off M).view off) (flat M) := by
  intro x hx
  rw [view, store, if_pos ⟨Nat.le_add_right off x, by omega⟩, Nat.add_sub_cancel_left]

variable [Ring R] (exp : R → R)

theorem matmul_congr (mode M N Kc : ℕ) (ha : Agrees (M * Kc) A A') (hb : Agrees (Kc * N) B B') :
    matmul mode M N Kc A B = matmul mode M N Kc A' B' := by
  have ha' : load Kc M A = load Kc M A' := load_congr ha.swap
  have hb' : load N Kc B = load N Kc B' := load_congr hb.swap
  unfold matmul
  rw [ha', hb', load_congr ha, load_congr hb]

theorem chunkOElt_congr (mode r c : ℕ) (ha : Agrees (r * c) A A') (hb : Agrees (r * c) B B') :
    chunkOElt mode r c A B = chunkOElt mode r c A' B' := by
  unfold chunkOElt
  rw [load_congr ha, load_congr hb]

theorem chunkOPrep_congr (C K : ℕ) {G G' : Buffer R} (ha : Agrees (C * K) A A')
    (hb : Agrees (C * K) B B') (hg : Agrees (C * K) G G') :
    chunkOPrep exp C K A B G = chunkOPrep exp C K A' B' G' := by
  unfold chunkOPrep
  rw [load_congr ha, load_congr hb, load_congr hg]

theorem chunkHPrep_congr (C K : ℕ) {G G' : Buffer R} (hg : Agrees (C * K) G G')
    (ha : Agrees K A A') (hb : Agrees (C * K) B B') :
    chunkHPrep exp C K G A B = chunkHPrep exp C K G' A' B' := by
  have hrow : load 1 K A = load 1 K A' := load_congr (by rwa [Nat.one_mul])
  unfold chunkHPrep
  rw [load_congr hg, load_congr hb, hrow]

theorem chunkHUpdate_congr (isFirst K V : ℕ) {S S' : Buffer R} (ha : Agrees (K * V) A A')
    (hb : Agrees K B B') (hs : Agrees (K * V) S S') :
    chunkHUpdate isFirst K V A B S = chunkHUpdate isFirst K V A' B' S' := by
  have hcol : load K 1 B = load K 1 B' := load_congr (by rwa [Nat.mul_one])
  unfold chunkHUpdate
  rw [load_congr ha, load_congr hs, hcol]

end Agreement

section Tasks

variable [Ring R] (exp : R → R) (f : Orchestration)

def simplerKernels : Kernels R := fun func scalars inputs i j =>
  let buf (m : ℕ) : Buffer R := fun x => (inputs.getD m []).getD x 0
  match func, scalars, f with
  | 0, [mode, M, N, Kc], _ => flat (matmul mode M N Kc (buf 0) (buf 1)) j
  | 1, [C, K], .chunk_h | 1, [C, K], .grad_h =>
    let prep := chunkHPrep exp C K (buf 0) (buf 1) (buf 2)
    if i = 3 then flat prep.1 j else flat prep.2 j
  | 1, [C, K], .chunk_o | 1, [C, K], .grad_o =>
    let prep := chunkOPrep exp C K (buf 0) (buf 1) (buf 2)
    if i = 3 then flat prep.1 j else flat prep.2 j
  | 2, [isFirst, K, V], .chunk_h =>
    let update := chunkHUpdate isFirst K V (buf 0) (buf 1) (buf 2)
    if i = 2 then flat update.2 j else flat update.1 j
  | 2, [mode, r, c], .chunk_o | 2, [mode, r, c], .grad_o =>
    flat (chunkOElt mode r c (buf 0) (buf 1)) j
  | _, _, _ => 0

def buffer (s : Store R) (T : Tensor) : Buffer R := fun i => s (T, i)

def shown (x : View) (s : Store R) : Buffer R := (buffer s x.tensor).view x.off

theorem contents_agrees (x : View) (s : Store R) {n : ℕ} (hlen : x.len = n) :
    Agrees n (fun i => (x.contents s).getD i 0) (shown x s) := by
  intro i hi
  simp [View.contents, hlen, hi, shown, buffer, view]

variable {func : ℕ} {scalars : List ℕ} {a b c d e : View} {dir : ArgDirection} {s : Store R}

omit [Ring R] in
theorem run_binary (kernel : Kernels R) (hdir : dir ≠ .input) (l : Tensor × ℕ) :
    L0Task.run kernel ⟨func, [(.input, a), (.input, b), (dir, c)], scalars⟩ s l =
      if c.Mem l then kernel func scalars
        (a.contents s :: b.contents s :: if dir = .output then [] else [c.contents s]) 2
          (l.2 - c.off)
      else s l := by
  cases dir with
  | input => exact absurd rfl hdir
  | output =>
    by_cases hc : c.Mem l <;> simp [L0Task.run, L0Task.inputs, List.zipIdx, List.find?, hc]
  | inout =>
    by_cases hc : c.Mem l <;> simp [L0Task.run, L0Task.inputs, List.zipIdx, List.find?, hc]

omit [Ring R] in
theorem run_prep (kernel : Kernels R) (l : Tensor × ℕ) : L0Task.run kernel ⟨func,
      [(.input, a), (.input, b), (.input, c), (.output, d), (.output, e)], scalars⟩ s l =
    if d.Mem l then kernel func scalars [a.contents s, b.contents s, c.contents s] 3 (l.2 - d.off)
    else if e.Mem l then
      kernel func scalars [a.contents s, b.contents s, c.contents s] 4 (l.2 - e.off)
    else s l := by
  by_cases hd : d.Mem l
  · simp [L0Task.run, L0Task.inputs, List.zipIdx, List.find?, hd]
  · by_cases he : e.Mem l <;> simp [L0Task.run, L0Task.inputs, List.zipIdx, List.find?, hd, he]

omit [Ring R] in
theorem run_update (kernel : Kernels R) (l : Tensor × ℕ) : L0Task.run kernel ⟨func,
      [(.input, a), (.input, b), (.inout, c), (.inout, d)], scalars⟩ s l =
    if c.Mem l then kernel func scalars
      [a.contents s, b.contents s, c.contents s, d.contents s] 2 (l.2 - c.off)
    else if d.Mem l then kernel func scalars
      [a.contents s, b.contents s, c.contents s, d.contents s] 3 (l.2 - d.off)
    else s l := by
  by_cases hc : c.Mem l
  · simp [L0Task.run, L0Task.inputs, List.zipIdx, List.find?, hc]
  · by_cases hd : d.Mem l <;> simp [L0Task.run, L0Task.inputs, List.zipIdx, List.find?, hc, hd]

theorem written_one {m n : ℕ} {x : View} (hlen : x.len = m * n) {M : Matrix (Fin m) (Fin n) R}
    {value : ℕ → R} (h : ∀ j, value j = flat M j) (T : Tensor) :
    (fun i => if x.Mem (T, i) then value (i - x.off) else s (T, i)) =
      if T = x.tensor then (buffer s T).store x.off M else buffer s T := by
  funext i
  by_cases hT : T = x.tensor
  · simp only [View.Mem, hT, true_and, if_true, hlen, store, h]
    rfl
  · simp only [View.Mem, hT, false_and, if_false]
    rfl

theorem written_two {m n m' n' : ℕ} {x y : View} (hne : x.tensor ≠ y.tensor)
    (hx : x.len = m * n) (hy : y.len = m' * n') {M : Matrix (Fin m) (Fin n) R}
    {M' : Matrix (Fin m') (Fin n') R} {value value' : ℕ → R} (h : ∀ j, value j = flat M j)
    (h' : ∀ j, value' j = flat M' j) (T : Tensor) :
    (fun i => if x.Mem (T, i) then value (i - x.off)
        else if y.Mem (T, i) then value' (i - y.off) else s (T, i)) =
      if T = x.tensor then (buffer s T).store x.off M
      else if T = y.tensor then (buffer s T).store y.off M' else buffer s T := by
  by_cases hT : T = x.tensor
  · have hmem (i : ℕ) : ¬ y.Mem (T, i) := fun hy' => hne (hT.symm.trans hy'.1)
    simp only [hmem, if_false]
    rw [written_one hx h, if_pos hT, if_pos hT]
  · have hmem (i : ℕ) : ¬ x.Mem (T, i) := fun hx' => hT hx'.1
    simp only [hmem, if_false]
    rw [written_one hy h', if_neg hT]

theorem mm_run (hdir : dir ≠ .input) (mode M N Kc : ℕ) (ha : a.len = M * Kc)
    (hb : b.len = Kc * N) (hc : c.len = M * N) (T : Tensor) :
    buffer (L0Task.run (simplerKernels exp f)
        ⟨mm, [(.input, a), (.input, b), (dir, c)], [mode, M, N, Kc]⟩ s) T =
      if T = c.tensor then (buffer s T).store c.off (matmul mode M N Kc (shown a s) (shown b s))
      else buffer s T := by
  apply (funext fun i => run_binary _ hdir (T, i)).trans
  apply written_one hc
  intro j
  rw [← matmul_congr mode M N Kc (contents_agrees a s ha) (contents_agrees b s hb)]
  rfl

theorem elt_run (hf : f = .chunk_o ∨ f = .grad_o) (hdir : dir ≠ .input) (mode r n : ℕ)
    (ha : a.len = r * n) (hb : b.len = r * n) (hc : c.len = r * n) (T : Tensor) :
    buffer (L0Task.run (simplerKernels exp f)
        ⟨vec, [(.input, a), (.input, b), (dir, c)], [mode, r, n]⟩ s) T =
      if T = c.tensor then (buffer s T).store c.off (chunkOElt mode r n (shown a s) (shown b s))
      else buffer s T := by
  apply (funext fun i => run_binary _ hdir (T, i)).trans
  apply written_one hc
  intro j
  rw [← chunkOElt_congr mode r n (contents_agrees a s ha) (contents_agrees b s hb)]
  rcases hf with rfl | rfl <;> rfl

theorem prepO_run (hf : f = .chunk_o ∨ f = .grad_o) (C K : ℕ) (ha : a.len = C * K)
    (hb : b.len = C * K) (hc : c.len = C * K) (hd : d.len = C * K) (he : e.len = C * K)
    (hne : d.tensor ≠ e.tensor) (T : Tensor) :
    buffer (L0Task.run (simplerKernels exp f) ⟨prep,
        [(.input, a), (.input, b), (.input, c), (.output, d), (.output, e)], [C, K]⟩ s) T =
      if T = d.tensor then
        (buffer s T).store d.off (chunkOPrep exp C K (shown a s) (shown b s) (shown c s)).1
      else if T = e.tensor then
        (buffer s T).store e.off (chunkOPrep exp C K (shown a s) (shown b s) (shown c s)).2
      else buffer s T := by
  have hprep := chunkOPrep_congr exp C K (contents_agrees a s ha) (contents_agrees b s hb)
    (contents_agrees c s hc)
  apply (funext fun i => run_prep _ (T, i)).trans
  apply written_two hne hd he
  · intro j
    rw [← hprep]
    rcases hf with rfl | rfl <;> rfl
  · intro j
    rw [← hprep]
    rcases hf with rfl | rfl <;> rfl

theorem prepH_run (hf : f = .chunk_h ∨ f = .grad_h) (C K : ℕ) (ha : a.len = C * K)
    (hb : b.len = K) (hc : c.len = C * K) (hd : d.len = C * K) (he : e.len = 1 * K)
    (hne : d.tensor ≠ e.tensor) (T : Tensor) :
    buffer (L0Task.run (simplerKernels exp f) ⟨prep,
        [(.input, a), (.input, b), (.input, c), (.output, d), (.output, e)], [C, K]⟩ s) T =
      if T = d.tensor then
        (buffer s T).store d.off (chunkHPrep exp C K (shown a s) (shown b s) (shown c s)).1
      else if T = e.tensor then
        (buffer s T).store e.off (chunkHPrep exp C K (shown a s) (shown b s) (shown c s)).2
      else buffer s T := by
  have hprep := chunkHPrep_congr exp C K (contents_agrees a s ha) (contents_agrees b s hb)
    (contents_agrees c s hc)
  apply (funext fun i => run_prep _ (T, i)).trans
  apply written_two hne hd he
  · intro j
    rw [← hprep]
    rcases hf with rfl | rfl <;> rfl
  · intro j
    rw [← hprep]
    rcases hf with rfl | rfl <;> rfl

theorem update_run (isFirst K V : ℕ) (ha : a.len = K * V) (hb : b.len = K) (hc : c.len = K * V)
    (hd : d.len = K * V) (hne : c.tensor ≠ d.tensor) (T : Tensor) :
    buffer (L0Task.run (simplerKernels exp .chunk_h)
        ⟨vec, [(.input, a), (.input, b), (.inout, c), (.inout, d)], [isFirst, K, V]⟩ s) T =
      if T = c.tensor then
        (buffer s T).store c.off (chunkHUpdate isFirst K V (shown a s) (shown b s) (shown c s)).2
      else if T = d.tensor then
        (buffer s T).store d.off (chunkHUpdate isFirst K V (shown a s) (shown b s) (shown c s)).1
      else buffer s T := by
  have hupdate := chunkHUpdate_congr isFirst K V (contents_agrees a s ha) (contents_agrees b s hb)
    (contents_agrees c s hc)
  apply (funext fun i => run_update _ (T, i)).trans
  apply written_two hne hc hd
  · intro j
    rw [← hupdate]
    rfl
  · intro j
    rw [← hupdate]
    rfl

end Tasks

section Final

variable [Ring R] (exp : R → R) (f : Orchestration) {ts : List L0Task} {func : ℕ}
  {scalars : List ℕ} {a b c d e : View} {dir : ArgDirection} (s : Store R)

omit [Ring R] in
theorem run_frame (kernel : Kernels R) (t : L0Task) {T : Tensor}
    (h : T ∉ outputTensors t.args) : buffer (t.run kernel s) T = buffer s T := by
  funext j
  apply (run_footprint kernel t).frame
  rintro ⟨⟨dir, x⟩, hx, hdir, hmem⟩
  apply h
  rw [show T = x.tensor from hmem.1]
  exact mem_outputTensors hx hdir

omit [Ring R] in
theorem runAll_frame (kernel : Kernels R) (ts : List L0Task) {T : Tensor}
    (h : ∀ t ∈ ts, T ∉ outputTensors t.args) :
    buffer (runAll (L0Task.run kernel) ts s) T = buffer s T := by
  induction ts generalizing s with
  | nil => rfl
  | cons t ts ih =>
    apply (ih (t.run kernel s) fun u hu => h u (List.mem_cons_of_mem t hu)).trans
    exact run_frame s kernel t (h t List.mem_cons_self)

def WrittenOnce (a b : L0Task) : Prop := ∀ T ∈ outputTensors a.args, T ∉ outputTensors b.args

structure Straight (ts : List L0Task) : Prop where
  apart : ∀ t ∈ ts, KeepsInputs t t
  keeps : ts.Pairwise KeepsInputs
  once : ts.Pairwise WrittenOnce

omit [Ring R] in
theorem Straight.before (h : Straight ts) (kernel : Kernels R) {t : L0Task} (ht : t ∈ ts) :
    ∃ s₀ : Store R,
      (∀ T ∈ inputTensors t.args,
        buffer s₀ T = buffer (runAll (L0Task.run kernel) ts s) T) ∧
      (∀ T ∈ outputTensors t.args, buffer s₀ T = buffer s T ∧
        buffer (runAll (L0Task.run kernel) ts s) T = buffer (t.run kernel s₀) T) := by
  have hapart := h.apart t ht
  obtain ⟨before, behind, rfl⟩ := List.append_of_mem ht
  obtain ⟨-, hkeeps, -⟩ := List.pairwise_append.mp h.keeps
  obtain ⟨-, honce, hearlier⟩ := List.pairwise_append.mp h.once
  have hkeeps := (List.pairwise_cons.mp hkeeps).1
  have honce := (List.pairwise_cons.mp honce).1
  refine ⟨runAll (L0Task.run kernel) before s, fun T hT => ?_, fun T hT => ⟨?_, ?_⟩⟩
  · rw [runAll, runAll, List.foldl_append, List.foldl_cons]
    rw [← run_frame _ kernel t (hapart T hT)]
    exact (runAll_frame _ kernel behind fun u hu => hkeeps u hu T hT).symm
  · exact runAll_frame s kernel before fun u hu hw => hearlier u hu t List.mem_cons_self T hw hT
  · rw [runAll, List.foldl_append, List.foldl_cons]
    exact runAll_frame _ kernel behind fun u hu => honce u hu T hT

variable {s} {s' : Store R} (h : Straight ts)

omit [Ring R] in
theorem shown_congr {x : View} (h : buffer s x.tensor = buffer s' x.tensor) :
    shown x s = shown x s' := by
  rw [shown, shown, h]

theorem left_agrees {m n : ℕ} {M : Matrix (Fin m) (Fin n) R}
    (h : buffer s' c.tensor = (buffer s c.tensor).store c.off M) :
    Agrees (m * n) (shown c s') (flat M) := by
  rw [shown, h]
  exact stored_agrees _ _ M

theorem left_at {m n : ℕ} {M : Matrix (Fin m) (Fin n) R} {k : ℕ}
    (h : buffer s' c.tensor = (buffer s c.tensor).store c.off M) (hoff : c.off = k) :
    buffer s' c.tensor = (buffer s c.tensor).store k M := by
  rwa [hoff] at h

omit [Ring R] in
theorem mem_output {args : List (ArgDirection × View)} {x : View} (hx : (.output, x) ∈ args) :
    x.tensor ∈ outputTensors args :=
  mem_outputTensors hx (by decide)

omit [Ring R] in
theorem mem_inout {args : List (ArgDirection × View)} {x : View} (hx : (.inout, x) ∈ args) :
    x.tensor ∈ outputTensors args :=
  mem_outputTensors hx (by decide)

section Chunk

variable {kernel : Kernels R} {m n m' n' : ℕ}
include h

theorem binary_left {value : Buffer R → Buffer R → Matrix (Fin m) (Fin n) R}
    (hs : runAll (L0Task.run kernel) ts s = s')
    (ht : ⟨func, [(.input, a), (.input, b), (dir, c)], scalars⟩ ∈ ts) (hdir : dir ≠ .input)
    (hrun : ∀ s T, buffer (L0Task.run kernel
        ⟨func, [(.input, a), (.input, b), (dir, c)], scalars⟩ s) T =
      if T = c.tensor then (buffer s T).store c.off (value (shown a s) (shown b s))
      else buffer s T) :
    buffer s' c.tensor = (buffer s c.tensor).store c.off (value (shown a s') (shown b s')) := by
  subst hs
  obtain ⟨s₀, hin, hout⟩ := h.before s kernel ht
  have ha := shown_congr (hin a.tensor (mem_inputTensors (by simp)))
  have hb := shown_congr (hin b.tensor (mem_inputTensors (by simp)))
  obtain ⟨hfirst, hlast⟩ := hout c.tensor (mem_outputTensors (by simp) hdir)
  rw [hlast, hrun, if_pos rfl, hfirst, ha, hb]

theorem prep_left {value : Buffer R → Buffer R → Buffer R →
      Matrix (Fin m) (Fin n) R × Matrix (Fin m') (Fin n') R}
    (hs : runAll (L0Task.run kernel) ts s = s')
    (ht : ⟨func, [(.input, a), (.input, b), (.input, c), (.output, d), (.output, e)],
      scalars⟩ ∈ ts) (hne : d.tensor ≠ e.tensor)
    (hrun : ∀ s T, buffer (L0Task.run kernel ⟨func,
        [(.input, a), (.input, b), (.input, c), (.output, d), (.output, e)], scalars⟩ s) T =
      if T = d.tensor then
        (buffer s T).store d.off (value (shown a s) (shown b s) (shown c s)).1
      else if T = e.tensor then
        (buffer s T).store e.off (value (shown a s) (shown b s) (shown c s)).2
      else buffer s T) :
    buffer s' d.tensor =
        (buffer s d.tensor).store d.off (value (shown a s') (shown b s') (shown c s')).1 ∧
      buffer s' e.tensor =
        (buffer s e.tensor).store e.off (value (shown a s') (shown b s') (shown c s')).2 := by
  subst hs
  obtain ⟨s₀, hin, hout⟩ := h.before s kernel ht
  have ha := shown_congr (hin a.tensor (mem_inputTensors (by simp)))
  have hb := shown_congr (hin b.tensor (mem_inputTensors (by simp)))
  have hc := shown_congr (hin c.tensor (mem_inputTensors (by simp)))
  obtain ⟨hfirst, hlast⟩ := hout d.tensor (mem_output (by simp))
  obtain ⟨hfirst', hlast'⟩ := hout e.tensor (mem_output (by simp))
  rw [← ha, ← hb, ← hc]
  constructor
  · rw [hlast, hrun, if_pos rfl, hfirst]
  · rw [hlast', hrun, if_neg hne.symm, if_pos rfl, hfirst']

end Chunk

variable (hs : runAll (L0Task.run (simplerKernels exp f)) ts s = s') {A B G S : Buffer R}
include h hs

theorem mm_left (ht : ⟨mm, [(.input, a), (.input, b), (dir, c)], [mode, M, N, Kc]⟩ ∈ ts)
    (hdir : dir ≠ .input) (hla : a.len = M * Kc) (hlb : b.len = Kc * N) (hlc : c.len = M * N)
    (ha : Agrees (M * Kc) (shown a s') A) (hb : Agrees (Kc * N) (shown b s') B) :
    buffer s' c.tensor = (buffer s c.tensor).store c.off (matmul mode M N Kc A B) := by
  rw [← matmul_congr mode M N Kc ha hb]
  apply binary_left h hs ht hdir
  exact fun s => mm_run exp f hdir mode M N Kc hla hlb hlc

theorem elt_left (ht : ⟨vec, [(.input, a), (.input, b), (dir, c)], [mode, r, n]⟩ ∈ ts)
    (hf : f = .chunk_o ∨ f = .grad_o) (hdir : dir ≠ .input) (hla : a.len = r * n)
    (hlb : b.len = r * n) (hlc : c.len = r * n) (ha : Agrees (r * n) (shown a s') A)
    (hb : Agrees (r * n) (shown b s') B) :
    buffer s' c.tensor = (buffer s c.tensor).store c.off (chunkOElt mode r n A B) := by
  rw [← chunkOElt_congr mode r n ha hb]
  apply binary_left h hs ht hdir
  exact fun s => elt_run exp f hf hdir mode r n hla hlb hlc

theorem prepO_left (ht : ⟨prep, [(.input, a), (.input, b), (.input, c), (.output, d),
      (.output, e)], [C, K]⟩ ∈ ts) (hf : f = .chunk_o ∨ f = .grad_o) (hla : a.len = C * K)
    (hlb : b.len = C * K) (hlc : c.len = C * K) (hld : d.len = C * K) (hle : e.len = C * K)
    (hne : d.tensor ≠ e.tensor) (ha : Agrees (C * K) (shown a s') A)
    (hb : Agrees (C * K) (shown b s') B) (hg : Agrees (C * K) (shown c s') G) :
    buffer s' d.tensor = (buffer s d.tensor).store d.off (chunkOPrep exp C K A B G).1 ∧
      buffer s' e.tensor = (buffer s e.tensor).store e.off (chunkOPrep exp C K A B G).2 := by
  rw [← chunkOPrep_congr exp C K ha hb hg]
  apply prep_left h hs ht hne
  exact fun s => prepO_run exp f hf C K hla hlb hlc hld hle hne

theorem prepH_left (ht : ⟨prep, [(.input, a), (.input, b), (.input, c), (.output, d),
      (.output, e)], [C, K]⟩ ∈ ts) (hf : f = .chunk_h ∨ f = .grad_h) (hla : a.len = C * K)
    (hlb : b.len = K) (hlc : c.len = C * K) (hld : d.len = C * K) (hle : e.len = 1 * K)
    (hne : d.tensor ≠ e.tensor) (ha : Agrees (C * K) (shown a s') A)
    (hb : Agrees K (shown b s') B) (hg : Agrees (C * K) (shown c s') G) :
    buffer s' d.tensor = (buffer s d.tensor).store d.off (chunkHPrep exp C K A B G).1 ∧
      buffer s' e.tensor = (buffer s e.tensor).store e.off (chunkHPrep exp C K A B G).2 := by
  rw [← chunkHPrep_congr exp C K ha hb hg]
  apply prep_left h hs ht hne
  exact fun s => prepH_run exp f hf C K hla hlb hlc hld hle hne

omit hs in
theorem update_left (hs : runAll (L0Task.run (simplerKernels exp .chunk_h)) ts s = s')
    (ht : ⟨vec, [(.input, a), (.input, b), (.inout, c), (.inout, d)], [isFirst, K, V]⟩ ∈ ts)
    (hla : a.len = K * V) (hlb : b.len = K) (hlc : c.len = K * V) (hld : d.len = K * V)
    (hne : c.tensor ≠ d.tensor) (ha : Agrees (K * V) (shown a s') A)
    (hb : Agrees K (shown b s') B) (hstate : shown c s = S) :
    let update := chunkHUpdate isFirst K V A B S
    buffer s' c.tensor = (buffer s c.tensor).store c.off update.2 ∧
      buffer s' d.tensor = (buffer s d.tensor).store d.off update.1 := by
  intro update
  subst hs
  obtain ⟨s₀, hin, hout⟩ := h.before s (simplerKernels exp .chunk_h) ht
  have ha₀ := shown_congr (hin a.tensor (mem_inputTensors (by simp)))
  have hb₀ := shown_congr (hin b.tensor (mem_inputTensors (by simp)))
  obtain ⟨hfirst, hlast⟩ := hout c.tensor (mem_inout (by simp))
  obtain ⟨hfirst', hlast'⟩ := hout d.tensor (mem_inout (by simp))
  have hrun := update_run exp (s := s₀) isFirst K V hla hlb hlc hld hne
  have hsame : chunkHUpdate isFirst K V (shown a s₀) (shown b s₀) (shown c s₀) = update := by
    rw [ha₀, hb₀, shown_congr hfirst, hstate]
    exact chunkHUpdate_congr isFirst K V ha hb fun _ _ => rfl
  rw [hsame] at hrun
  constructor
  · rw [hlast, hrun, if_pos rfl, hfirst]
  · rw [hlast', hrun, if_neg hne.symm, if_pos rfl, hfirst']

end Final

end ZeCo.DeviceTasks
