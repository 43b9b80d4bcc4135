import ZeCo.FlatBuffers
import ZeCo.HeldWorkers
import ZeCo.Schedules

/-!
The tasks that the orchestrations `chunk_h`, `chunk_o`, `grad_o` and `grad_h` submit, over flat
views at `uint32_t` offsets. A kernel is any function of the contents of its inputs, and every
create-info stands for a buffer of its own.
-/

namespace ZeCo.DeviceTasks

open HeldWorkers (ArgDirection)
open Schedules

inductive Scratch
  | krest
  | decay
  | kv
  | qeff
  | keff
  | inter
  | aqk
  | aqkm
  | intra
  | scores
  | dscRaw
  | dsc
  | dqtRecon
  | dqtIntra
  deriving DecidableEq

inductive Tensor
  | q
  | k
  | v
  | gcs
  | ssnap
  | snap
  | tril
  | o
  | dO
  | dQt
  | dKin
  | dVi
  | dH
  | dSloc
  | dKstate
  | dVs
  | S
  | fresh (n : ℕ) (x : Scratch)
  deriving DecidableEq

structure View where
  tensor : Tensor
  off : ℕ
  len : ℕ

def Tensor.view (T : Tensor) (len off : UInt32) : View := ⟨T, off.toNat, len.toNat⟩

structure L0Task where
  func : ℕ
  args : List (ArgDirection × View)
  scalars : List ℕ

inductive Orchestration
  | chunk_h
  | chunk_o
  | grad_o
  | grad_h
  deriving DecidableEq

section Tasks

variable (C dk dv : ℕ)

def u32 (x : ℕ) : UInt32 := UInt32.ofNat x

def cdk : UInt32 := u32 C * u32 dk

def cdv : UInt32 := u32 C * u32 dv

def kv : UInt32 := u32 dk * u32 dv

def gtotOff (n : ℕ) : UInt32 := u32 n * cdk C dk + (u32 C - 1) * u32 dk

def Scratch.shape : Scratch → UInt32 × UInt32
  | .krest | .qeff | .keff | .dqtRecon | .dqtIntra => (u32 C, u32 dk)
  | .inter | .intra => (u32 C, u32 dv)
  | .aqk | .aqkm | .scores | .dscRaw | .dsc => (u32 C, u32 C)
  | .kv => (u32 dk, u32 dv)
  | .decay => (u32 dk, 1)

def Scratch.size (x : Scratch) : ℕ := (x.shape C dk dv).1.toNat * (x.shape C dk dv).2.toNat

def fresh (n : ℕ) (x : Scratch) : View := ⟨.fresh n x, 0, x.size C dk dv⟩

def mm : ℕ := 0

def prep : ℕ := 1

/-- `FUNC_UPDATE` of `chunk_h`, and `FUNC_ELT` of `chunk_o` and `grad_o`. -/
def vec : ℕ := 2

def chunkHTasks (n : ℕ) : List L0Task :=
  let kN := Tensor.view .k (cdk C dk) (u32 n * cdk C dk)
  let vN := Tensor.view .v (cdv C dv) (u32 n * cdv C dv)
  let gcsN := Tensor.view .gcs (cdk C dk) (u32 n * cdk C dk)
  let gtotN := Tensor.view .gcs (u32 dk) (gtotOff C dk n)
  let snapN := Tensor.view .ssnap (kv dk dv) (u32 n * kv dk dv)
  let S : View := ⟨.S, 0, Scratch.kv.size C dk dv⟩
  let new := fresh C dk dv n
  [⟨prep, [(.input, gcsN), (.input, gtotN), (.input, kN), (.output, new .krest),
      (.output, new .decay)], [C, dk]⟩,
    ⟨mm, [(.input, new .krest), (.input, vN), (.output, new .kv)], [1, dk, dv, C]⟩,
    ⟨vec, [(.input, new .kv), (.input, new .decay), (.inout, S), (.inout, snapN)],
      [if n = 0 then 1 else 0, dk, dv]⟩]

def chunkOTasks (n : ℕ) : List L0Task :=
  let qN := Tensor.view .q (cdk C dk) (u32 n * cdk C dk)
  let kN := Tensor.view .k (cdk C dk) (u32 n * cdk C dk)
  let vN := Tensor.view .v (cdv C dv) (u32 n * cdv C dv)
  let gcsN := Tensor.view .gcs (cdk C dk) (u32 n * cdk C dk)
  let sN := Tensor.view .ssnap (kv dk dv) (u32 n * kv dk dv)
  let oN := Tensor.view .o (cdv C dv) (u32 n * cdv C dv)
  let tril : View := ⟨.tril, 0, C * C⟩
  let new := fresh C dk dv n
  [⟨prep, [(.input, qN), (.input, kN), (.input, gcsN), (.output, new .qeff),
      (.output, new .keff)], [C, dk]⟩,
    ⟨mm, [(.input, new .qeff), (.input, sN), (.output, new .inter)], [0, C, dv, dk]⟩,
    ⟨mm, [(.input, new .qeff), (.input, new .keff), (.output, new .aqk)], [2, C, C, dk]⟩,
    ⟨vec, [(.input, new .aqk), (.input, tril), (.output, new .aqkm)], [0, C, C]⟩,
    ⟨mm, [(.input, new .aqkm), (.input, vN), (.output, new .intra)], [0, C, dv, C]⟩,
    ⟨vec, [(.input, new .inter), (.input, new .intra), (.inout, oN)], [1, C, dv]⟩]

def gradOTasks (n : ℕ) : List L0Task :=
  let qN := Tensor.view .q (cdk C dk) (u32 n * cdk C dk)
  let kN := Tensor.view .k (cdk C dk) (u32 n * cdk C dk)
  let vN := Tensor.view .v (cdv C dv) (u32 n * cdv C dv)
  let gcsN := Tensor.view .gcs (cdk C dk) (u32 n * cdk C dk)
  let hN := Tensor.view .snap (kv dk dv) (u32 n * kv dk dv)
  let dON := Tensor.view .dO (cdv C dv) (u32 n * cdv C dv)
  let dQtN := Tensor.view .dQt (cdk C dk) (u32 n * cdk C dk)
  let dKinN := Tensor.view .dKin (cdk C dk) (u32 n * cdk C dk)
  let dViN := Tensor.view .dVi (cdv C dv) (u32 n * cdv C dv)
  let dHN := Tensor.view .dH (kv dk dv) (u32 n * kv dk dv)
  let tril : View := ⟨.tril, 0, C * C⟩
  let new := fresh C dk dv n
  [⟨prep, [(.input, qN), (.input, kN), (.input, gcsN), (.output, new .qeff),
      (.output, new .keff)], [C, dk]⟩,
    ⟨mm, [(.input, new .qeff), (.input, new .keff), (.output, new .aqk)], [2, C, C, dk]⟩,
    ⟨vec, [(.input, new .aqk), (.input, tril), (.output, new .scores)], [0, C, C]⟩,
    ⟨mm, [(.input, new .qeff), (.input, dON), (.inout, dHN)], [1, dk, dv, C]⟩,
    ⟨mm, [(.input, dON), (.input, vN), (.output, new .dscRaw)], [2, C, C, dv]⟩,
    ⟨vec, [(.input, new .dscRaw), (.input, tril), (.output, new .dsc)], [0, C, C]⟩,
    ⟨mm, [(.input, dON), (.input, hN), (.output, new .dqtRecon)], [2, C, dk, dv]⟩,
    ⟨mm, [(.input, new .dsc), (.input, new .keff), (.output, new .dqtIntra)], [0, C, dk, C]⟩,
    ⟨vec, [(.input, new .dqtRecon), (.input, new .dqtIntra), (.inout, dQtN)], [1, C, dk]⟩,
    ⟨mm, [(.input, new .dsc), (.input, new .qeff), (.inout, dKinN)], [1, C, dk, C]⟩,
    ⟨mm, [(.input, new .scores), (.input, dON), (.inout, dViN)], [1, C, dv, C]⟩]

def gradHTasks (n : ℕ) : List L0Task :=
  let kN := Tensor.view .k (cdk C dk) (u32 n * cdk C dk)
  let vN := Tensor.view .v (cdv C dv) (u32 n * cdv C dv)
  let gcsN := Tensor.view .gcs (cdk C dk) (u32 n * cdk C dk)
  let gtotN := Tensor.view .gcs (u32 dk) (gtotOff C dk n)
  let dSlocN := Tensor.view .dSloc (kv dk dv) (u32 n * kv dk dv)
  let dKstateN := Tensor.view .dKstate (cdk C dk) (u32 n * cdk C dk)
  let dVsN := Tensor.view .dVs (cdv C dv) (u32 n * cdv C dv)
  let new := fresh C dk dv n
  [⟨prep, [(.input, gcsN), (.input, gtotN), (.input, kN), (.output, new .krest),
      (.output, new .decay)], [C, dk]⟩,
    ⟨mm, [(.input, vN), (.input, dSlocN), (.inout, dKstateN)], [2, C, dk, dv]⟩,
    ⟨mm, [(.input, new .krest), (.input, dSlocN), (.inout, dVsN)], [0, C, dv, dk]⟩]

def Orchestration.chunkTasks : Orchestration → ℕ → List L0Task
  | .chunk_h => chunkHTasks C dk dv
  | .chunk_o => chunkOTasks C dk dv
  | .grad_o => gradOTasks C dk dv
  | .grad_h => gradHTasks C dk dv

def Orchestration.tasks (f : Orchestration) (N : ℕ) : List L0Task :=
  (List.range N).flatMap (f.chunkTasks C dk dv)

end Tasks

section Runs

variable {α : Type*}

abbrev Store (α : Type*) := Tensor × ℕ → α

def View.Mem (x : View) (l : Tensor × ℕ) : Prop :=
  l.1 = x.tensor ∧ x.off ≤ l.2 ∧ l.2 < x.off + x.len

instance (x : View) (l : Tensor × ℕ) : Decidable (x.Mem l) :=
  inferInstanceAs (Decidable (_ ∧ _))

def View.contents (x : View) (s : Store α) : List α :=
  (List.range x.len).map fun i => s (x.tensor, x.off + i)

def L0Task.inputs (t : L0Task) (s : Store α) : List (List α) :=
  (t.args.filter fun x => x.1 ≠ .output).map fun x => x.2.contents s

def L0Task.reads (t : L0Task) : Set (Tensor × ℕ) := {l | ∃ x ∈ t.args, x.1 ≠ .output ∧ x.2.Mem l}

def L0Task.writes (t : L0Task) : Set (Tensor × ℕ) := {l | ∃ x ∈ t.args, x.1 ≠ .input ∧ x.2.Mem l}

abbrev Kernels (α : Type*) := ℕ → List ℕ → List (List α) → ℕ → ℕ → α

def L0Task.run (kernel : Kernels α) (t : L0Task) (s : Store α) : Store α := fun l =>
  match t.args.zipIdx.find? fun x => x.1.1 ≠ .input ∧ x.1.2.Mem l with
  | some (x, i) => kernel t.func t.scalars (t.inputs s) i (l.2 - x.2.off)
  | none => s l

/-- The edge that the runtime puts from an earlier task to a later one. -/
def Feeds (a b : L0Task) : Prop := ∃ l ∈ a.writes, l ∈ b.reads ∨ l ∈ b.writes

theorem contents_congr {x : View} {s t : Store α} (h : ∀ l, x.Mem l → s l = t l) :
    x.contents s = x.contents t := by
  apply List.map_congr_left
  intro i hi
  rw [List.mem_range] at hi
  exact h _ ⟨rfl, by simp, by simpa using hi⟩

theorem run_footprint (kernel : Kernels α) (t : L0Task) :
    Footprint (t.run kernel) t.reads t.writes := by
  constructor
  · intro s l hl
    unfold L0Task.run
    split
    · rename_i x i hx
      have hmem := List.mem_of_find?_eq_some hx
      have hwrites := List.find?_some hx
      obtain ⟨-, harg⟩ := List.mem_zipIdx' hmem
      simp only [decide_eq_true_eq] at hwrites
      exact absurd ⟨x, harg ▸ List.getElem_mem _, hwrites⟩ hl
    · rfl
  · intro s s' hs l hl
    have hinputs : t.inputs s = t.inputs s' := by
      apply List.map_congr_left
      intro x hx
      obtain ⟨hmem, hdir⟩ := List.mem_filter.mp hx
      exact contents_congr fun k hk => hs k ⟨x, hmem, by simpa using hdir, hk⟩
    unfold L0Task.run
    split
    · rw [hinputs]
    · rename_i hnone
      obtain ⟨x, hmem, hdir, hx⟩ := hl
      obtain ⟨i, hi⟩ := List.getElem?_of_mem hmem
      have hzip : (x, i) ∈ t.args.zipIdx := List.mk_mem_zipIdx_iff_getElem?.mpr hi
      have habsent := List.find?_eq_none.mp hnone _ hzip
      simp only [decide_eq_true_eq] at habsent
      exact absurd ⟨hdir, hx⟩ habsent

def inputTensors : List (ArgDirection × View) → List Tensor
  | [] => []
  | (.input, x) :: args => x.tensor :: inputTensors args
  | (.output, _) :: args | (.inout, _) :: args => inputTensors args

def outputTensors : List (ArgDirection × View) → List Tensor
  | [] => []
  | (.input, _) :: args => outputTensors args
  | (.output, x) :: args | (.inout, x) :: args => x.tensor :: outputTensors args

theorem mem_inputTensors {args : List (ArgDirection × View)} {x : View}
    (hx : (.input, x) ∈ args) : x.tensor ∈ inputTensors args := by
  induction args with
  | nil => cases hx
  | cons y args ih =>
    obtain ⟨dir, y⟩ := y
    cases hx with
    | head => exact List.mem_cons_self
    | tail _ hx =>
      cases dir with
      | input => exact List.mem_cons_of_mem _ (ih hx)
      | output => exact ih hx
      | inout => exact ih hx

theorem mem_outputTensors {args : List (ArgDirection × View)} {dir : ArgDirection} {x : View}
    (hx : (dir, x) ∈ args) (h : dir ≠ .input) : x.tensor ∈ outputTensors args := by
  induction args with
  | nil => cases hx
  | cons y args ih =>
    obtain ⟨dir', y⟩ := y
    cases hx with
    | head =>
      cases dir with
      | input => exact absurd rfl h
      | output => exact List.mem_cons_self
      | inout => exact List.mem_cons_self
    | tail _ hx =>
      cases dir' with
      | input => exact ih hx
      | output => exact List.mem_cons_of_mem _ (ih hx)
      | inout => exact List.mem_cons_of_mem _ (ih hx)

theorem mem_tensors {args : List (ArgDirection × View)} {y : ArgDirection × View} (hy : y ∈ args) :
    y.2.tensor ∈ inputTensors args ∨ y.2.tensor ∈ outputTensors args := by
  obtain ⟨dir, x⟩ := y
  by_cases hdir : dir = .input
  · subst hdir
    exact Or.inl (mem_inputTensors hy)
  · exact Or.inr (mem_outputTensors hy hdir)

theorem Feeds.shares {a b : L0Task} (h : Feeds a b) :
    ∃ T ∈ outputTensors a.args, T ∈ inputTensors b.args ∨ T ∈ outputTensors b.args := by
  obtain ⟨l, ⟨⟨dir, x⟩, hx, hdir, hl⟩, hb⟩ := h
  refine ⟨x.tensor, mem_outputTensors hx hdir, ?_⟩
  rw [← hl.1]
  rcases hb with ⟨y, hy, -, hly⟩ | ⟨y, hy, -, hly⟩
  · exact hly.1 ▸ mem_tensors hy
  · exact hly.1 ▸ mem_tensors hy

def KeepsInputs (a b : L0Task) : Prop := ∀ T ∈ inputTensors a.args, T ∉ outputTensors b.args

theorem KeepsInputs.commute (kernel : Kernels α) {a b : L0Task} (h : KeepsInputs a b) :
    Feeds a b ∨ Function.Commute (a.run kernel) (b.run kernel) := by
  by_cases hfeeds : Feeds a b
  · exact Or.inl hfeeds
  · right
    apply (run_footprint kernel a).commute (run_footprint kernel b)
    · exact fun l hl => ⟨fun hr => hfeeds ⟨l, hl, Or.inl hr⟩, fun hw => hfeeds ⟨l, hl, Or.inr hw⟩⟩
    · rintro l ⟨y, hy, hdir, hmem⟩ ⟨⟨dir, x⟩, hx, -, hmem'⟩
      by_cases hin : dir = .input
      · subst hin
        apply h x.tensor (mem_inputTensors hx)
        rw [← hmem'.1, hmem.1]
        exact mem_outputTensors hy hdir
      · exact hfeeds ⟨l, ⟨(dir, x), hx, hin, hmem'⟩, Or.inr ⟨y, hy, hdir, hmem⟩⟩

end Runs

section Chunks

variable (C dk dv : ℕ)

def Orchestration.given : Orchestration → List Tensor
  | .chunk_h => [.k, .v, .gcs]
  | .chunk_o => [.q, .k, .v, .gcs, .ssnap, .tril]
  | .grad_o => [.q, .k, .v, .gcs, .snap, .dO, .tril]
  | .grad_h => [.k, .v, .gcs, .dSloc]

theorem chunkTasks_keepInputs (f : Orchestration) (n : ℕ) :
    (f.chunkTasks C dk dv n).Pairwise KeepsInputs := by
  cases f <;> simp [Orchestration.chunkTasks, chunkHTasks, chunkOTasks, gradOTasks, gradHTasks,
    KeepsInputs, inputTensors, outputTensors, Tensor.view, fresh]

theorem chunkTasks_takes (f : Orchestration) (n : ℕ) :
    ∀ t ∈ f.chunkTasks C dk dv n, ∀ T ∈ inputTensors t.args, T ∈ f.given ∨ ∃ x, T = .fresh n x := by
  cases f <;> simp [Orchestration.chunkTasks, chunkHTasks, chunkOTasks, gradOTasks, gradHTasks,
    Orchestration.given, inputTensors, Tensor.view, fresh]

theorem chunkTasks_gives (f : Orchestration) (n : ℕ) :
    ∀ t ∈ f.chunkTasks C dk dv n, ∀ T ∈ outputTensors t.args,
      T ∉ f.given ∧ ∀ m x, T = .fresh m x → m = n := by
  cases f <;> simp [Orchestration.chunkTasks, chunkHTasks, chunkOTasks, gradOTasks, gradHTasks,
    Orchestration.given, outputTensors, Tensor.view, fresh]

theorem tasks_keepInputs (f : Orchestration) (N : ℕ) :
    (f.tasks C dk dv N).Pairwise KeepsInputs := by
  apply List.pairwise_flatMap.mpr
  constructor
  · exact fun n _ => chunkTasks_keepInputs C dk dv f n
  · apply (List.pairwise_lt_range (n := N)).imp
    intro m n hmn a ha b hb T hT hT'
    obtain ⟨hgiven, hchunk⟩ := chunkTasks_gives C dk dv f n b hb T hT'
    rcases chunkTasks_takes C dk dv f m a ha T hT with hT | ⟨x, rfl⟩
    · exact hgiven hT
    · exact absurd (hchunk m x rfl) (Nat.ne_of_lt hmn)

theorem schedule_run_eq {α : Type*} (kernel : Kernels α) (f : Orchestration) (N : ℕ)
    (x : Schedule Feeds (f.tasks C dk dv N)) (s : Store α) :
    x.run (L0Task.run kernel) s = runAll (L0Task.run kernel) (f.tasks C dk dv N) s :=
  x.run_eq ((tasks_keepInputs C dk dv f N).imp fun h => h.commute kernel) s

theorem update_gives (n : ℕ) : ∀ t ∈ chunkHTasks C dk dv n, t.func = vec →
    ∀ T ∈ outputTensors t.args, T = .S ∨ T = .ssnap := by
  simp [chunkHTasks, outputTensors, Tensor.view, mm, prep, vec]

theorem others_avoid (n : ℕ) : ∀ t ∈ chunkHTasks C dk dv n, t.func ≠ vec →
    ∀ T, T = .S ∨ T = .ssnap → ¬ (T ∈ inputTensors t.args ∨ T ∈ outputTensors t.args) := by
  simp [chunkHTasks, inputTensors, outputTensors, Tensor.view, fresh, mm, prep, vec]

def updatesLast (N : ℕ) : Schedule Feeds (Orchestration.chunk_h.tasks C dk dv N) :=
  .first (fun t => t.func ≠ vec) (by
    intro a ha b hb hfeeds hother
    obtain ⟨m, -, ha⟩ := List.mem_flatMap.mp ha
    obtain ⟨n, -, hb⟩ := List.mem_flatMap.mp hb
    obtain ⟨T, hgives, htakes⟩ := hfeeds.shares
    refine decide_eq_true fun hvec => ?_
    exact others_avoid C dk dv n b hb (of_decide_eq_true hother) T
      (update_gives C dk dv m a ha hvec T hgives) htakes)

end Chunks

section Views

variable (C dk dv N : ℕ)

def Tensor.width : Tensor → ℕ
  | .q | .k | .gcs | .dQt | .dKin | .dKstate => C * dk
  | .v | .o | .dO | .dVi | .dVs => C * dv
  | .ssnap | .snap | .dH | .dSloc => dk * dv
  | .tril => C * C
  | .S => Scratch.kv.size C dk dv
  | .fresh _ x => x.size C dk dv

def Tensor.size : Tensor → ℕ
  | .tril => Tensor.tril.width C dk dv
  | .S => Tensor.S.width C dk dv
  | .fresh n x => (Tensor.fresh n x).width C dk dv
  | T => N * T.width C dk dv

def Orchestration.outputs : Orchestration → List Tensor
  | .chunk_h => [.ssnap]
  | .chunk_o => [.o]
  | .grad_o => [.dQt, .dKin, .dVi, .dH]
  | .grad_h => [.dKstate, .dVs]

def ViewsInside (f : Orchestration) : Prop :=
  ∀ n < N, ∀ t ∈ f.chunkTasks C dk dv n, ∀ x ∈ t.args,
    x.2.off + x.2.len ≤ x.2.tensor.size C dk dv N

def OutputsDisjoint (f : Orchestration) : Prop :=
  ∀ m < N, ∀ n < N, m ≠ n → ∀ a ∈ f.chunkTasks C dk dv m, ∀ b ∈ f.chunkTasks C dk dv n,
    ∀ x ∈ a.args, ∀ y ∈ b.args, x.2.tensor ∈ f.outputs → x.2.tensor = y.2.tensor →
      ∀ l, ¬ (x.2.Mem l ∧ y.2.Mem l)

structure FitsUint32 : Prop where
  cdk : N * (C * dk) ≤ 2 ^ 32
  cdv : N * (C * dv) ≤ 2 ^ 32
  kv : N * (dk * dv) ≤ 2 ^ 32

variable {C dk dv N}

theorem off_eq {n w : ℕ} (hn : n < N) (hw : N * w ≤ 2 ^ 32) : n * w % 2 ^ 32 = n * w := by
  rcases Nat.eq_zero_or_pos w with rfl | hpos
  · rfl
  · exact Nat.mod_eq_of_lt (lt_of_lt_of_le (Nat.mul_lt_mul_of_pos_right hn hpos) hw)

theorem toNat_mul_u32 (n a b : ℕ) : (u32 n * (u32 a * u32 b)).toNat = n * (a * b) % 2 ^ 32 := by
  simp [u32, Nat.mul_mod]

theorem toNat_len (a b : ℕ) : (u32 a * u32 b).toNat ≤ a * b := by
  rw [UInt32.toNat_mul]
  apply (Nat.mod_le _ _).trans
  exact Nat.mul_le_mul (Nat.mod_le _ _) (Nat.mod_le _ _)

theorem chunk_off {n a b : ℕ} (hn : n < N) (h : N * (a * b) ≤ 2 ^ 32) :
    (u32 n * (u32 a * u32 b)).toNat = n * (a * b) := by
  rw [toNat_mul_u32, off_eq hn h]

theorem chunk_inside {n : ℕ} (hn : n < N) (a b : ℕ) :
    (u32 n * (u32 a * u32 b)).toNat + (u32 a * u32 b).toNat ≤ N * (a * b) := by
  have hlast : (n + 1) * (a * b) ≤ N * (a * b) := Nat.mul_le_mul_right _ hn
  have hoff := Nat.mod_le (n * (a * b)) (2 ^ 32)
  have hlen := toNat_len a b
  rw [Nat.add_mul, Nat.one_mul] at hlast
  rw [toNat_mul_u32]
  omega

theorem gtot_end {n : ℕ} (hn : n < N) (hC : 0 < C) (dk : ℕ) :
    n * (C * dk) + (C - 1) * dk + dk ≤ N * (C * dk) := by
  obtain ⟨c, rfl⟩ : ∃ c, C = c + 1 := ⟨C - 1, (Nat.sub_add_cancel hC).symm⟩
  have hlast : (n + 1) * ((c + 1) * dk) ≤ N * ((c + 1) * dk) := Nat.mul_le_mul_right _ hn
  have hrow : (n + 1) * ((c + 1) * dk) = n * ((c + 1) * dk) + c * dk + dk := by ring
  rwa [hrow] at hlast

theorem toNat_gtotOff (hC : 0 < C) (dk n : ℕ) :
    (gtotOff C dk n).toNat = (n * (C * dk) + (C - 1) * dk) % 2 ^ 32 := by
  obtain ⟨c, rfl⟩ : ∃ c, C = c + 1 := ⟨C - 1, (Nat.sub_add_cancel hC).symm⟩
  have hc : u32 (c + 1) - 1 = u32 c := by
    rw [u32, UInt32.ofNat_add]
    exact UInt32.add_sub_cancel _ _
  rw [gtotOff, hc, UInt32.toNat_add, cdk, toNat_mul_u32, UInt32.toNat_mul]
  simp [u32, Nat.add_mod, Nat.mul_mod]

theorem gtot_inside {n : ℕ} (hn : n < N) (hC : 0 < C) (dk : ℕ) :
    (gtotOff C dk n).toNat + (u32 dk).toNat ≤ N * (C * dk) := by
  have hend := gtot_end hn hC dk
  have hmod := Nat.mod_le (n * (C * dk) + (C - 1) * dk) (2 ^ 32)
  have hlen : (u32 dk).toNat ≤ dk := Nat.mod_le _ _
  rw [toNat_gtotOff hC]
  omega

theorem viewsInside (hC : 0 < C) (f : Orchestration) : ViewsInside C dk dv N f := by
  intro n hn
  have hcdk := chunk_inside hn C dk
  have hcdv := chunk_inside hn C dv
  have hkv := chunk_inside hn dk dv
  have hgtot := gtot_inside hn hC dk
  cases f <;> simp only [Orchestration.chunkTasks, chunkHTasks, chunkOTasks, gradOTasks,
    gradHTasks, List.forall_mem_cons, Tensor.view, fresh, Tensor.size, Tensor.width, cdk, cdv, kv,
    hcdk, hcdv, hkv, hgtot, List.not_mem_nil, Nat.zero_add, le_refl, and_true, false_imp_iff,
    implies_true]

theorem output_view (h : FitsUint32 C dk dv N) (f : Orchestration) {n : ℕ} (hn : n < N) :
    ∀ t ∈ f.chunkTasks C dk dv n, ∀ x ∈ t.args, x.2.tensor ∈ f.outputs →
      x.2.off = n * x.2.tensor.width C dk dv ∧ x.2.len ≤ x.2.tensor.width C dk dv := by
  have hcdk := chunk_off hn h.cdk
  have hcdv := chunk_off hn h.cdv
  have hkv := chunk_off hn h.kv
  cases f <;> simp only [Orchestration.chunkTasks, chunkHTasks, chunkOTasks, gradOTasks,
    gradHTasks, List.forall_mem_cons, Tensor.view, fresh, Tensor.width, cdk, cdv, kv, hcdk, hcdv,
    hkv, toNat_len, and_true] <;> simp [Orchestration.outputs]

theorem outputsDisjoint (h : FitsUint32 C dk dv N) (f : Orchestration) :
    OutputsDisjoint C dk dv N f := by
  rintro m hm n hn hmn a ha b hb x hx y hy hout heq l ⟨⟨-, hxl, hxr⟩, -, hyl, hyr⟩
  obtain ⟨hxoff, hxlen⟩ := output_view h f hm a ha x hx hout
  obtain ⟨hyoff, hylen⟩ := output_view h f hn b hb y hy (heq ▸ hout)
  rw [← heq] at hyoff hylen
  rcases Buffer.tile_disjoint (x.2.tensor.width C dk dv) hmn with hle | hle
  · omega
  · omega

end Views

/-- A run of an orchestration does not depend on the schedule; its views lie inside their tensors,
and those of one output in different chunks are disjoint as long as no offset wraps. -/
theorem orchestration_scheduleIndependent {α : Type*} (kernel : Kernels α) (f : Orchestration)
    (C dk dv N : ℕ) :
    (∀ (x : Schedule Feeds (f.tasks C dk dv N)) (s : Store α), x.run (L0Task.run kernel) s =
        runAll (L0Task.run kernel) (f.tasks C dk dv N) s) ∧
      (0 < C → ViewsInside C dk dv N f) ∧ (FitsUint32 C dk dv N → OutputsDisjoint C dk dv N f) := by
  refine ⟨fun x s => schedule_run_eq C dk dv kernel f N x s, ?_, ?_⟩
  · exact fun hC => viewsInside hC f
  · exact fun h => outputsDisjoint h f

theorem orchestration_scheduleIndependent_two_chunks :
    (updatesLast 16 32 64 2).order.map Fin.val = [0, 1, 3, 4, 2, 5] ∧
      (∀ s : Store ℕ, (updatesLast 16 32 64 2).run
          (L0Task.run fun _ _ inputs _ _ => inputs.length) s =
        runAll (L0Task.run fun _ _ inputs _ _ => inputs.length)
          (Orchestration.chunk_h.tasks 16 32 64 2) s) ∧
      ViewsInside 16 32 64 2 .chunk_h ∧ OutputsDisjoint 16 32 64 2 .chunk_h := by
  obtain ⟨hrun, hinside, hdisjoint⟩ := orchestration_scheduleIndependent
    (fun _ _ inputs _ _ => inputs.length) .chunk_h 16 32 64 2
  exact ⟨rfl, hrun _, hinside (by decide), hdisjoint ⟨by decide, by decide, by decide⟩⟩

theorem chunkO_out (C dk dv n : ℕ) : ∃ t ∈ chunkOTasks C dk dv n,
    (.inout, Tensor.view .o (cdv C dv) (u32 n * cdv C dv)) ∈ t.args := by
  refine ⟨_, List.getLast_mem (List.cons_ne_nil _ _), ?_⟩
  simp

/-- The offset of chunk 262144 is zero again. -/
theorem outputs_overlap : ¬ OutputsDisjoint 128 128 128 262145 .chunk_o := by
  obtain ⟨a, ha, hx⟩ := chunkO_out 128 128 128 0
  obtain ⟨b, hb, hy⟩ := chunkO_out 128 128 128 262144
  intro h
  apply h 0 (by decide) 262144 (by decide) (by decide) a ha b hb _ hx _ hy (by decide) rfl (.o, 0)
  constructor
  · decide
  · decide

end ZeCo.DeviceTasks
