import ZeCo.SimplerDevices
import ZeCo.TileKernels

namespace ZeCo.DeviceTasks

open HeldWorkers (ArgDirection)
open Schedules SimplerKernels SimplerTiles Buffer Matrix Pipes Regions

variable {R : Type*}

section Tasks

variable [Ring R] (c : Core Pipe) (exp : R → R) (f : Orchestration)

def kernelCode (func : ℕ) (scalars : List ℕ) : Code R :=
  match func, scalars, f with
  | 0, [mode, M, N, Kc], _ => matmulEntry mode M N Kc
  | 1, [C, D], .chunk_h | 1, [C, D], .grad_h => hPrepEntry exp C D
  | 1, [C, D], .chunk_o | 1, [C, D], .grad_o => oPrepEntry exp C D
  | 2, [isFirst, K, V], .chunk_h => hUpdateEntry isFirst K V
  | 2, [mode, r, n], .chunk_o | 2, [mode, r, n], .grad_o => eltEntry mode r n
  | _, _, _ => []

def View.From (x : View) (l : Tensor × ℕ) : Prop := l.1 = x.tensor ∧ x.off ≤ l.2

instance (x : View) (l : Tensor × ℕ) : Decidable (x.From l) :=
  inferInstanceAs (Decidable (_ ∧ _))

def L0Task.writeBack (t : L0Task) (x : ℕ → Buffer R) (s : Store R) : Store R := fun l =>
  match t.args.zipIdx.find? fun y => y.1.1 ≠ .input ∧ y.1.2.From l with
  | some (y, i) => x i (l.2 - y.2.off)
  | none => s l

def L0Task.PointsTo (t : L0Task) (s : Store R) (x : ℕ → Buffer R) : Prop :=
  ∀ i y, t.args[i]? = some y → x i = shown y.2 s

/-- A run of `chunk_h_prep` subtracts the gates before it loads `k` over them. -/
def InTime (t : L0Task) (is : List ℕ) : Prop :=
  f = .chunk_h ∨ f = .grad_h → t.func = prep → is.idxOf 6 < is.idxOf 10

def PipeRun (t : L0Task) (s s' : Store R) : Prop := ∃ m is st, t.PointsTo s (args m) ∧
  Run c Access.run (kernelCode exp f t.func t.scalars) m is st ∧
    Finished (kernelCode exp f t.func t.scalars) st ∧ InTime f t is ∧
      s' = t.writeBack (args st.mem) s

end Tasks

section WriteBack

variable {func : ℕ} {scalars : List ℕ} {a b c d e : View} {dir : ArgDirection} {s : Store R}
  {y : ℕ → Buffer R}

theorem writeBack_binary (hdir : dir ≠ .input) (l : Tensor × ℕ) :
    L0Task.writeBack ⟨func, [(.input, a), (.input, b), (dir, c)], scalars⟩ y s l =
      if c.From l then y 2 (l.2 - c.off) else s l := by
  by_cases hc : c.From l <;>
    simp [L0Task.writeBack, List.zipIdx, List.find?, hdir, hc]

theorem writeBack_prep (l : Tensor × ℕ) : L0Task.writeBack ⟨func,
      [(.input, a), (.input, b), (.input, c), (.output, d), (.output, e)], scalars⟩ y s l =
    if d.From l then y 3 (l.2 - d.off)
    else if e.From l then y 4 (l.2 - e.off) else s l := by
  by_cases hd : d.From l
  · simp [L0Task.writeBack, List.zipIdx, List.find?, hd]
  · by_cases he : e.From l <;>
      simp [L0Task.writeBack, List.zipIdx, List.find?, hd, he]

theorem writeBack_update (l : Tensor × ℕ) : L0Task.writeBack ⟨func,
      [(.input, a), (.input, b), (.inout, c), (.inout, d)], scalars⟩ y s l =
    if c.From l then y 2 (l.2 - c.off)
    else if d.From l then y 3 (l.2 - d.off) else s l := by
  by_cases hc : c.From l
  · simp [L0Task.writeBack, List.zipIdx, List.find?, hc]
  · by_cases hd : d.From l <;>
      simp [L0Task.writeBack, List.zipIdx, List.find?, hc, hd]

theorem store_behind [Zero R] {m n : ℕ} (X : Buffer R) (off : ℕ) (M : Matrix (Fin m) (Fin n) R)
    (i : ℕ) : (if off ≤ i then (X.view off).store 0 M (i - off) else X i) = X.store off M i := by
  by_cases hi : off ≤ i
  · rw [if_pos hi, store, store, Nat.sub_zero, view, Nat.add_sub_cancel' hi]
    apply if_congr _ rfl rfl
    omega
  · rw [if_neg hi, store, if_neg fun h => hi h.1]

theorem backed_one [Zero R] {m n : ℕ} (x : View) (M : Matrix (Fin m) (Fin n) R) (T : Tensor) :
    (fun i => if x.From (T, i) then (shown x s).store 0 M (i - x.off) else s (T, i)) =
      if T = x.tensor then (buffer s T).store x.off M else buffer s T := by
  funext i
  by_cases hT : T = x.tensor
  · subst hT
    simp only [View.From, true_and, if_true]
    exact store_behind (buffer s x.tensor) x.off M i
  · rw [if_neg hT, if_neg fun h => hT h.1]
    rfl

theorem backed_two [Zero R] {m n m' n' : ℕ} {x z : View} (hne : x.tensor ≠ z.tensor)
    (M : Matrix (Fin m) (Fin n) R) (M' : Matrix (Fin m') (Fin n') R) (T : Tensor) :
    (fun i => if x.From (T, i) then (shown x s).store 0 M (i - x.off)
        else if z.From (T, i) then (shown z s).store 0 M' (i - z.off) else s (T, i)) =
      if T = x.tensor then (buffer s T).store x.off M
      else if T = z.tensor then (buffer s T).store z.off M' else buffer s T := by
  by_cases hT : T = x.tensor
  · have hz (i : ℕ) : ¬ z.From (T, i) := fun h => hne (hT.symm.trans h.1)
    simp only [hz, if_false]
    rw [backed_one, if_pos hT, if_pos hT]
  · have hx (i : ℕ) : ¬ x.From (T, i) := fun h => hT h.1
    simp only [hx, if_false]
    rw [backed_one, if_neg hT]

section Back

variable [Zero R] {m n m' n' : ℕ} {M : Matrix (Fin m) (Fin n) R} {M' : Matrix (Fin m') (Fin n') R}

theorem binary_back (hdir : dir ≠ .input) (hy : y 2 = (shown c s).store 0 M) (T : Tensor) :
    buffer (L0Task.writeBack ⟨func, [(.input, a), (.input, b), (dir, c)], scalars⟩ y s) T =
      if T = c.tensor then (buffer s T).store c.off M else buffer s T := by
  apply (funext fun i => writeBack_binary hdir (T, i)).trans
  rw [hy]
  exact backed_one c M T

theorem prep_back (hne : d.tensor ≠ e.tensor) (hy : y 3 = (shown d s).store 0 M)
    (hy' : y 4 = (shown e s).store 0 M') (T : Tensor) : buffer (L0Task.writeBack ⟨func,
      [(.input, a), (.input, b), (.input, c), (.output, d), (.output, e)], scalars⟩ y s) T =
    if T = d.tensor then (buffer s T).store d.off M
    else if T = e.tensor then (buffer s T).store e.off M' else buffer s T := by
  apply (funext fun i => writeBack_prep (T, i)).trans
  rw [hy, hy']
  exact backed_two hne M M' T

theorem update_back (hne : c.tensor ≠ d.tensor) (hy : y 2 = (shown c s).store 0 M)
    (hy' : y 3 = (shown d s).store 0 M') (T : Tensor) : buffer (L0Task.writeBack ⟨func,
      [(.input, a), (.input, b), (.inout, c), (.inout, d)], scalars⟩ y s) T =
    if T = c.tensor then (buffer s T).store c.off M
    else if T = d.tensor then (buffer s T).store d.off M' else buffer s T := by
  apply (funext fun i => writeBack_update (T, i)).trans
  rw [hy, hy']
  exact backed_two hne M M' T

end Back

theorem store_ext {s s' : Store R} (h : ∀ T, buffer s T = buffer s' T) : s = s' := by
  funext l
  exact congrFun (h l.1) l.2

end WriteBack

section Realized

variable [Ring R] {c : Core Pipe} {exp : R → R} {f : Orchestration} {t : L0Task} {s : Store R}

def Realized (c : Core Pipe) (exp : R → R) (f : Orchestration) (t : L0Task) : Prop :=
  (∀ s, ∃ s', PipeRun c exp f t s s') ∧
    ∀ s s', PipeRun c exp f t s s' → s' = t.run (simplerKernels exp f) s

theorem exists_pointsTo (t : L0Task) (s : Store R) :
    ∃ m : Memory Space R, t.PointsTo s (args m) := by
  let memory : Memory Space R
    | (.gm i, x) => (t.args[i]?).elim 0 fun y => shown y.2 s x
    | (.core _, _) => 0
  refine ⟨memory, fun i y hy => ?_⟩
  funext x
  change (t.args[i]?).elim 0 (fun y => shown y.2 s x) = _
  rw [hy]
  rfl

theorem realized_of_correct (stores : (ℕ → Buffer R) → ℕ → Buffer R)
    (hcode : Correct c (kernelCode exp f t.func t.scalars) stores) (hfree : ∀ is, InTime f t is)
    (h : ∀ s x, t.PointsTo s x → t.writeBack (stores x) s = t.run (simplerKernels exp f) s) :
    Realized c exp f t := by
  constructor
  · intro s
    obtain ⟨m, hm⟩ := exists_pointsTo t s
    obtain ⟨js, st, hrun, hfin⟩ := hcode.finishes m [] (start m) rfl
    exact ⟨_, m, _, st, hm, hrun, hfin, hfree _, rfl⟩
  · rintro s s' ⟨m, is, st, hm, hrun, hfin, -, rfl⟩
    rw [hcode.final m is st hrun hfin]
    exact h s _ hm

variable (serial : Pipe → Bool) (depth : ℕ) (exp f) {C K V : ℕ} {a b d e g : View}
  {dir : ArgDirection} (hC : C ∈ sizes) (hK : K ∈ sizes)
include hC hK

theorem mm_realized (hV : V ∈ sizes) (hdir : dir ≠ .input) (mode : ℕ) (ha : a.len = C * V)
    (hb : b.len = V * K) (hd : d.len = C * K) : Realized (aiCore serial depth) exp f
      ⟨mm, [(.input, a), (.input, b), (dir, d)], [mode, C, K, V]⟩ := by
  refine realized_of_correct _ (matmulEntry_correct serial depth hC hK hV mode)
    (fun _ _ => nofun) ?_
  intro s x hx
  apply store_ext
  intro T
  rw [mm_run exp f hdir mode C K V ha hb hd, ← hx 0 _ rfl, ← hx 1 _ rfl]
  apply binary_back hdir
  rw [matmulStores, Function.update_self, hx 2 _ rfl]

theorem elt_realized (hf : f = .chunk_o ∨ f = .grad_o) (hdir : dir ≠ .input) (mode : ℕ)
    (ha : a.len = C * K) (hb : b.len = C * K) (hd : d.len = C * K) :
    Realized (aiCore serial depth) exp f
      ⟨vec, [(.input, a), (.input, b), (dir, d)], [mode, C, K]⟩ := by
  have hcode : kernelCode exp f vec [mode, C, K] = eltEntry mode C K := by
    rcases hf with rfl | rfl <;> rfl
  refine realized_of_correct (eltStores mode C K) ?_ (fun _ _ => nofun) ?_
  · rw [hcode]
    exact eltEntry_correct serial depth hC hK mode
  · intro s x hx
    apply store_ext
    intro T
    rw [elt_run exp f hf hdir mode C K ha hb hd, ← hx 0 _ rfl, ← hx 1 _ rfl]
    apply binary_back hdir
    rw [eltStores, Function.update_self, hx 2 _ rfl]

theorem prepO_realized (hf : f = .chunk_o ∨ f = .grad_o) (ha : a.len = C * K)
    (hb : b.len = C * K) (hd : d.len = C * K) (he : e.len = C * K) (hg : g.len = C * K)
    (hne : e.tensor ≠ g.tensor) : Realized (aiCore serial depth) exp f ⟨prep,
      [(.input, a), (.input, b), (.input, d), (.output, e), (.output, g)], [C, K]⟩ := by
  have hcode : kernelCode exp f prep [C, K] = oPrepEntry exp C K := by
    rcases hf with rfl | rfl <;> rfl
  have hfree (t : L0Task) (is : List ℕ) : InTime f t is := by
    rcases hf with rfl | rfl <;> exact fun h => absurd h (by decide)
  refine realized_of_correct (oPrepStores exp C K) ?_ (hfree _) ?_
  · rw [hcode]
    exact oPrepEntry_correct serial depth exp hC hK
  · intro s x hx
    apply store_ext
    intro T
    rw [prepO_run exp f hf C K ha hb hd he hg hne, ← hx 0 _ rfl, ← hx 1 _ rfl, ← hx 2 _ rfl]
    apply prep_back hne
    · rw [← hx 3 _ rfl]
      rfl
    · rw [← hx 4 _ rfl]
      rfl

theorem update_realized (isFirst : ℕ) (ha : a.len = C * K) (hb : b.len = C) (hd : d.len = C * K)
    (he : e.len = C * K) (hne : d.tensor ≠ e.tensor) : Realized (aiCore serial depth) exp .chunk_h
      ⟨vec, [(.input, a), (.input, b), (.inout, d), (.inout, e)], [isFirst, C, K]⟩ := by
  refine realized_of_correct _ (hUpdateEntry_correct serial depth hC hK isFirst)
    (fun _ _ => nofun) ?_
  intro s x hx
  apply store_ext
  intro T
  rw [update_run exp isFirst C K ha hb hd he hne, ← hx 0 _ rfl, ← hx 1 _ rfl, ← hx 2 _ rfl]
  apply update_back hne
  · rw [← hx 2 _ rfl]
    rfl
  · rw [← hx 3 _ rfl]
    rfl

end Realized

section Commutative

variable [CommRing R] (exp : R → R) (f : Orchestration) (serial : Pipe → Bool) (depth : ℕ)

theorem prepH_realized {C K : ℕ} {a b d e g : View} (hC : C ∈ sizes) (hK : K ∈ sizes)
    (hf : f = .chunk_h ∨ f = .grad_h) (ha : a.len = C * K) (hb : b.len = K) (hd : d.len = C * K)
    (he : e.len = C * K) (hg : g.len = 1 * K) (hne : e.tensor ≠ g.tensor) :
    Realized (aiCore serial depth) exp f ⟨prep,
      [(.input, a), (.input, b), (.input, d), (.output, e), (.output, g)], [C, K]⟩ := by
  have hcode : kernelCode exp f prep [C, K] = SimplerTiles.chunkHPrep exp C K := by
    have hentry : kernelCode exp f prep [C, K] = hPrepEntry exp C K := by
      rcases hf with rfl | rfl <;> rfl
    rw [hentry, hPrepEntry, template_eq hC, template_eq hK]
  constructor
  · intro s
    obtain ⟨m, hm⟩ := exists_pointsTo ⟨prep, [(.input, a), (.input, b), (.input, d), (.output, e),
      (.output, g)], [C, K]⟩ s
    obtain ⟨is, st, hrun, hfin, htime⟩ := chunkHPrep_inTime exp serial depth C K m
    refine ⟨_, m, is, st, hm, ?_, ?_, fun _ _ => htime, rfl⟩
    · rwa [← hcode] at hrun
    · rwa [← hcode] at hfin
  · rintro s s' ⟨m, is, st, hm, hrun, hfin, htime, rfl⟩
    rw [hcode] at hrun hfin
    have hfinal := chunkHPrep_final exp serial depth C K hrun hfin
    rw [if_pos (htime hf rfl)] at hfinal
    rw [hfinal]
    apply store_ext
    intro T
    rw [prepH_run exp f hf C K ha hb hd he hg hne, ← hm 0 _ rfl, ← hm 1 _ rfl, ← hm 2 _ rfl]
    apply prep_back hne
    · rw [← hm 3 _ rfl]
      rfl
    · rw [← hm 4 _ rfl]
      rfl

theorem fresh_ne {C dk dv n : ℕ} {x y : Scratch} (h : x ≠ y) :
    (fresh C dk dv n x).tensor ≠ (fresh C dk dv n y).tensor :=
  fun heq => h (Tensor.fresh.inj heq).2

section Chunks

variable {C dk dv n : ℕ} (x : Exact C dk dv n) (hC : C ∈ sizes) (hk : dk ∈ sizes) (hv : dv ∈ sizes)
include x hC hk hv

theorem chunkHTasks_realized :
    ∀ t ∈ chunkHTasks C dk dv n, Realized (aiCore serial depth) exp .chunk_h t := by
  have hkq : Scratch.qeff.size C dk dv = dk * C := x.qeff.trans (Nat.mul_comm C dk)
  rw [chunkHTasks]
  simp only [List.forall_mem_cons]
  refine ⟨?_, ?_, ?_, List.forall_mem_nil _⟩
  · exact prepH_realized exp .chunk_h serial depth hC hk (.inl rfl) x.cdk x.row x.cdk x.qeff
      (x.decay.trans (Nat.one_mul dk).symm) (fresh_ne (by decide))
  · exact mm_realized exp .chunk_h serial depth hk hv hC (by decide) 1 hkq x.cdv x.kvSize
  · exact update_realized exp serial depth hk hv _ x.kvSize x.decay x.kvSize x.kv
      (by simp [Tensor.view])

theorem chunkOTasks_realized :
    ∀ t ∈ chunkOTasks C dk dv n, Realized (aiCore serial depth) exp .chunk_o t := by
  have hkq : Scratch.qeff.size C dk dv = dk * C := x.qeff.trans (Nat.mul_comm C dk)
  rw [chunkOTasks]
  simp only [List.forall_mem_cons]
  refine ⟨?_, ?_, ?_, ?_, ?_, ?_, List.forall_mem_nil _⟩
  · exact prepO_realized exp .chunk_o serial depth hC hk (.inl rfl) x.cdk x.cdk x.cdk x.qeff x.qeff
      (fresh_ne (by decide))
  · exact mm_realized exp .chunk_o serial depth hC hv hk (by decide) 0 x.qeff x.kv x.inter
  · exact mm_realized exp .chunk_o serial depth hC hC hk (by decide) 2 x.qeff hkq x.aqk
  · exact elt_realized exp .chunk_o serial depth hC hC (.inl rfl) (by decide) 0 x.aqk rfl x.aqk
  · exact mm_realized exp .chunk_o serial depth hC hv hC (by decide) 0 x.aqk x.cdv x.inter
  · exact elt_realized exp .chunk_o serial depth hC hv (.inl rfl) (by decide) 1 x.inter x.inter
      x.cdv

theorem gradOTasks_realized :
    ∀ t ∈ gradOTasks C dk dv n, Realized (aiCore serial depth) exp .grad_o t := by
  have hkq : Scratch.qeff.size C dk dv = dk * C := x.qeff.trans (Nat.mul_comm C dk)
  have hvc : (cdv C dv).toNat = dv * C := x.cdv.trans (Nat.mul_comm C dv)
  have hvk : (kv dk dv).toNat = dv * dk := x.kv.trans (Nat.mul_comm dk dv)
  rw [gradOTasks]
  simp only [List.forall_mem_cons]
  refine ⟨?_, ?_, ?_, ?_, ?_, ?_, ?_, ?_, ?_, ?_, ?_, List.forall_mem_nil _⟩
  · exact prepO_realized exp .grad_o serial depth hC hk (.inr rfl) x.cdk x.cdk x.cdk x.qeff x.qeff
      (fresh_ne (by decide))
  · exact mm_realized exp .grad_o serial depth hC hC hk (by decide) 2 x.qeff hkq x.aqk
  · exact elt_realized exp .grad_o serial depth hC hC (.inr rfl) (by decide) 0 x.aqk rfl x.aqk
  · exact mm_realized exp .grad_o serial depth hk hv hC (by decide) 1 hkq x.cdv x.kv
  · exact mm_realized exp .grad_o serial depth hC hC hv (by decide) 2 x.cdv hvc x.aqk
  · exact elt_realized exp .grad_o serial depth hC hC (.inr rfl) (by decide) 0 x.aqk rfl x.aqk
  · exact mm_realized exp .grad_o serial depth hC hk hv (by decide) 2 x.cdv hvk x.qeff
  · exact mm_realized exp .grad_o serial depth hC hk hC (by decide) 0 x.aqk x.qeff x.qeff
  · exact elt_realized exp .grad_o serial depth hC hk (.inr rfl) (by decide) 1 x.qeff x.qeff x.cdk
  · exact mm_realized exp .grad_o serial depth hC hk hC (by decide) 1 x.aqk x.qeff x.cdk
  · exact mm_realized exp .grad_o serial depth hC hv hC (by decide) 1 x.aqk x.cdv x.cdv

theorem gradHTasks_realized :
    ∀ t ∈ gradHTasks C dk dv n, Realized (aiCore serial depth) exp .grad_h t := by
  have hvk : (kv dk dv).toNat = dv * dk := x.kv.trans (Nat.mul_comm dk dv)
  rw [gradHTasks]
  simp only [List.forall_mem_cons]
  refine ⟨?_, ?_, ?_, List.forall_mem_nil _⟩
  · exact prepH_realized exp .grad_h serial depth hC hk (.inr rfl) x.cdk x.row x.cdk x.qeff
      (x.decay.trans (Nat.one_mul dk).symm) (fresh_ne (by decide))
  · exact mm_realized exp .grad_h serial depth hC hk hv (by decide) 2 x.cdv hvk x.cdk
  · exact mm_realized exp .grad_h serial depth hC hv hk (by decide) 0 x.qeff x.kv x.cdv

theorem chunkTasks_realized :
    ∀ t ∈ f.chunkTasks C dk dv n, Realized (aiCore serial depth) exp f t := by
  cases f with
  | chunk_h => exact chunkHTasks_realized exp serial depth x hC hk hv
  | chunk_o => exact chunkOTasks_realized exp serial depth x hC hk hv
  | grad_o => exact gradOTasks_realized exp serial depth x hC hk hv
  | grad_h => exact gradHTasks_realized exp serial depth x hC hk hv

end Chunks

section Schedules

variable {C dk dv N : ℕ} (h : Small C dk dv N) (hC : C ∈ sizes) (hk : dk ∈ sizes) (hv : dv ∈ sizes)
include h hC hk hv

theorem tasks_realized :
    ∀ t ∈ f.tasks C dk dv N, Realized (aiCore serial depth) exp f t := by
  intro t ht
  obtain ⟨n, hn, ht⟩ := List.mem_flatMap.mp ht
  exact chunkTasks_realized exp f serial depth (h.exact (List.mem_range.mp hn)) hC hk hv t ht

theorem schedule_onPipes (x : Schedule Feeds (f.tasks C dk dv N)) (s s' : Store R) :
    Carries (PipeRun (aiCore serial depth) exp f) x.tasks s s' ↔
      s' = x.run (L0Task.run (simplerKernels exp f)) s := by
  have hreal := tasks_realized exp f serial depth h hC hk hv
  have hrun (s s' : Store R) (hs : Carries (PipeRun (aiCore serial depth) exp f) x.tasks s s') :
      s' = x.run (L0Task.run (simplerKernels exp f)) s := by
    rw [x.run_tasks]
    exact hs.foldl_eq fun t ht => (hreal t (Schedule.mem_of_mem_tasks ht)).2
  constructor
  · exact hrun s s'
  · rintro rfl
    obtain ⟨s', hs'⟩ := exists_carries x.tasks
      (fun t ht => (hreal t (Schedule.mem_of_mem_tasks ht)).1) s
    rwa [hrun s s' hs'] at hs'

end Schedules

end Commutative

section Cumsum

variable [Ring R] {C dk dv N : ℕ}

def CumsumRun (c : Core Pipe) (C dk : ℕ) (tri g : Buffer R) (n : Fin N) (gCs gCs' : Buffer R) :
    Prop :=
  let off := (u32 (n * (C * dk))).toNat
  ∃ m is st, args m 0 = tri ∧ args m 1 = g.view off ∧ args m 2 = gCs.view off ∧
    Run c Access.run (cumsumEntry C dk) m is st ∧ Finished (cumsumEntry C dk : Code R) st ∧
      gCs' = fun i => if off ≤ i then args st.mem 2 (i - off) else gCs i

theorem cumsumRun_iff (serial : Pipe → Bool) (depth : ℕ) (hC : C ∈ sizes) (hk : dk ∈ sizes)
    (tri g : Buffer R) (n : Fin N) (gCs gCs' : Buffer R) :
    CumsumRun (aiCore serial depth) C dk tri g n gCs gCs' ↔
      let off := (u32 (n * (C * dk))).toNat
      gCs' = gCs.store off (gateCumsum C dk tri (g.view off)) := by
  have hcode := cumsumEntry_correct (R := R) serial depth hC hk
  have hrun (gCs' : Buffer R)
      (hs : CumsumRun (aiCore serial depth) C dk tri g n gCs gCs') :
      let off := (u32 (n * (C * dk))).toNat
      gCs' = gCs.store off (gateCumsum C dk tri (g.view off)) := by
    obtain ⟨m, is, st, h0, h1, h2, hrun, hfin, rfl⟩ := hs
    intro off
    funext i
    rw [hcode.final m is st hrun hfin, cumsumStores, Function.update_self, h0, h1, h2]
    exact store_behind gCs off (gateCumsum C dk tri (g.view off)) i
  constructor
  · exact hrun gCs'
  · rintro rfl
    let off := (u32 (n * (C * dk))).toNat
    let memory : Memory Space R
      | (.gm 0, x) => tri x
      | (.gm 1, x) => g.view off x
      | (.gm _, x) => gCs.view off x
      | (.core _, _) => 0
    obtain ⟨js, st, hst, hfin⟩ := hcode.finishes memory [] (start memory) rfl
    have hs : CumsumRun (aiCore serial depth) C dk tri g n gCs
        fun i => if off ≤ i then args st.mem 2 (i - off) else gCs i :=
      ⟨memory, _, st, rfl, rfl, rfl, hst, hfin, rfl⟩
    rwa [hrun _ hs] at hs

theorem cumsum_onPipes (serial : Pipe → Bool) (depth : ℕ) (h : Small C dk dv N) (hC : C ∈ sizes)
    (hk : dk ∈ sizes) {order : List (Fin N)} (horder : order.Perm (List.finRange N))
    (tri g gCs gCs' : Buffer R) :
    Carries (CumsumRun (aiCore serial depth) C dk tri g) order gCs gCs' ↔
      gCs' = gateCumsumOrch C dk N tri g gCs := by
  rw [← SimplerZeCo.gateCumsumTasks_order h.cdk horder, SimplerZeCo.gateCumsumTasks]
  have hrun (gCs' : Buffer R)
      (hs : Carries (CumsumRun (aiCore serial depth) C dk tri g) order gCs gCs') :=
    hs.foldl_eq fun n _ s s' => (cumsumRun_iff serial depth hC hk tri g n s s').mp
  constructor
  · exact hrun gCs'
  · rintro rfl
    obtain ⟨s', hs'⟩ := exists_carries order
      (fun n _ s => ⟨_, (cumsumRun_iff serial depth hC hk tri g n s _).mpr rfl⟩) gCs
    rwa [hrun s' hs'] at hs'

end Cumsum

/-- The device orchestrations with every kernel on the pipes of a core, in any schedule: they can be
carried out, and they leave what their loops over the chunks compute, where `chunk_h_prep` subtracts
the gates before `k` lands on them. -/
theorem orchestrations_onPipes [CommRing R] (exp : R → R) (serial : Pipe → Bool) (depth : ℕ)
    {C dk dv N : ℕ} (h : Small C dk dv N) (hC : C ∈ sizes) (hk : dk ∈ sizes) (hv : dv ∈ sizes) :
    (∀ (order : List (Fin N)) (tri g gCs gCs' : Buffer R), order.Perm (List.finRange N) →
      (Carries (CumsumRun (aiCore serial depth) C dk tri g) order gCs gCs' ↔
        gCs' = gateCumsumOrch C dk N tri g gCs)) ∧
    (∀ (f : Orchestration) (x : Schedule Feeds (f.tasks C dk dv N)) (s : Store R),
      ∃ s', Carries (PipeRun (aiCore serial depth) exp f) x.tasks s s') ∧
    (∀ (x : Schedule Feeds (Orchestration.chunk_h.tasks C dk dv N)) (s s' : Store R),
      Carries (PipeRun (aiCore serial depth) exp .chunk_h) x.tasks s s' →
        buffer s' .ssnap = chunkHOrch exp C dk dv N (buffer s .k) (buffer s .v) (buffer s .gcs)
          (buffer s .ssnap) (buffer s .S)) ∧
    (∀ (x : Schedule Feeds (Orchestration.chunk_o.tasks C dk dv N)) (s s' : Store R),
      Carries (PipeRun (aiCore serial depth) exp .chunk_o) x.tasks s s' →
        buffer s' .o = chunkOOrch exp C dk dv N (buffer s .q) (buffer s .k) (buffer s .v)
          (buffer s .gcs) (buffer s .ssnap) (buffer s .tril) (buffer s .o)) ∧
    (∀ (x : Schedule Feeds (Orchestration.grad_o.tasks C dk dv N)) (s s' : Store R),
      Carries (PipeRun (aiCore serial depth) exp .grad_o) x.tasks s s' →
        gradsO s' = gradOOrch exp C dk dv N (buffer s .q) (buffer s .k) (buffer s .v)
          (buffer s .gcs) (buffer s .snap) (buffer s .dO) (buffer s .tril) (gradsO s)) ∧
    (∀ (x : Schedule Feeds (Orchestration.grad_h.tasks C dk dv N)) (s s' : Store R),
      Carries (PipeRun (aiCore serial depth) exp .grad_h) x.tasks s s' →
        gradsH s' = gradHOrch exp C dk dv N (buffer s .k) (buffer s .v) (buffer s .gcs)
          (buffer s .dSloc) (gradsH s)) := by
  have hpipes (f : Orchestration) := schedule_onPipes exp f serial depth h hC hk hv
  refine ⟨fun order tri g gCs gCs' horder => ?_, fun f x s => ?_, fun x s s' hs => ?_,
    fun x s s' hs => ?_, fun x s s' hs => ?_, fun x s s' hs => ?_⟩
  · exact cumsum_onPipes serial depth h hC hk horder tri g gCs gCs'
  · exact ⟨_, (hpipes f x s _).mpr rfl⟩
  · rw [(hpipes .chunk_h x s s').mp hs]
    exact chunk_h_schedule exp h s x
  · rw [(hpipes .chunk_o x s s').mp hs]
    exact chunk_o_schedule exp h s x
  · rw [(hpipes .grad_o x s s').mp hs]
    exact grad_o_schedule exp h s x
  · rw [(hpipes .grad_h x s s').mp hs]
    exact grad_h_schedule exp h s x

theorem orchestrations_onPipes_snapshot :
    let core := aiCore (fun _ => false) 0
    ∃ s', Carries (PipeRun core (fun _ => 1) .chunk_h) (updatesLast 16 32 64 2).tasks
      (fun _ => (7 : ℤ)) s' ∧
        buffer s' .ssnap 5 = 0 ∧ buffer s' .ssnap (32 * 64 + 5) = 16 * 7 ^ 2 := by
  have hsmall : Small 16 32 64 2 := by constructor <;> decide
  obtain ⟨-, hruns, hchunkH, -⟩ := orchestrations_onPipes (fun _ : ℤ => 1) (fun _ => false) 0 hsmall
    (by decide) (by decide) (by decide)
  obtain ⟨s', hs'⟩ := hruns .chunk_h (updatesLast 16 32 64 2) fun _ => 7
  have hseven (T : Tensor) : buffer (fun _ => (7 : ℤ)) T = fun _ => 7 := rfl
  have hproduct (gcs gtot : Buffer ℤ) : matmul 1 32 64 16
      (flat (SimplerKernels.chunkHPrep (fun _ => 1) 16 32 gcs gtot fun _ => 7).1) (fun _ => 7) =
      of fun _ _ => 16 * 7 ^ 2 := by
    ext i j
    rw [matmul, if_pos rfl, load_flat]
    simp [SimplerKernels.chunkHPrep, load, mul_apply]
  refine ⟨s', hs', ?_⟩
  rw [hchunkH _ _ s' hs']
  constructor
  · simp [chunkHOrch, Loop.up, chunkHChunk, SimplerKernels.chunkHUpdate, Buffer.store, flat, stream]
  · simp [chunkHOrch, Loop.up, chunkHChunk, SimplerKernels.chunkHUpdate, Buffer.store, flat, stream,
      hseven, load_store_zero, load_flat, hproduct]

end ZeCo.DeviceTasks
