import Mathlib.Data.List.Nodup
import ZeCo.Texts

namespace ZeCo

open List

structure Plan where
  headBlocks : ℕ
  valueBlocks : ℕ
  ringDepth : ℕ
  ringBlocks : ℕ
  keyRowBlocks : ℕ
  deriving DecidableEq, Repr

def tileUnit : ℕ := 16

def splitsFrom (d n : ℕ) (hn : 0 < n) : List ℕ :=
  if n ≤ d then
    (if d % n = 0 ∧ (d / n) % tileUnit = 0 then [n] else []) ++ splitsFrom d (n * 2) (by omega)
  else []
termination_by d + 1 - n

def splits (d : ℕ) : List ℕ := splitsFrom d 1 Nat.one_pos

def ringDepths : List ℕ := [4, 2, 1]

def blockingPlans (C dk dv : ℕ) (distributed : Bool) : List Plan :=
  let ring := if distributed then splits dk else [1]
  (splits C).flatMap fun nc => (splits dv).flatMap fun nv => ring.flatMap fun rb =>
    (splits dk).flatMap fun nb => ringDepths.map fun slot => ⟨nb, nv, slot, rb, nc⟩

namespace Plan

def key (p : Plan) : ℕ × ℕ × ℕ := (p.valueBlocks, p.ringBlocks, p.keyRowBlocks)

end Plan

def fromkeys {α : Type*} [DecidableEq α] : List α → List α
  | [] => []
  | x :: xs => x :: (fromkeys xs).filter (· ≠ x)

def groupsOf (plans : List Plan) : List (List Plan) :=
  (fromkeys (plans.map Plan.key)).map fun k => plans.filter (·.key = k)

def floorOf (group : List Plan) (head : Plan) : Plan :=
  { head with
    headBlocks := (group.map Plan.headBlocks).foldl max head.headBlocks
    ringDepth := (group.map Plan.ringDepth).foldl min head.ringDepth }

section Groups

variable {α β : Type*} [DecidableEq β]

theorem mem_fromkeys {x : β} {xs : List β} : x ∈ fromkeys xs ↔ x ∈ xs := by
  induction xs with
  | nil => rfl
  | cons y xs ih =>
    by_cases h : x = y
    · simp [fromkeys, h]
    · simp [fromkeys, h, ih]

theorem nodup_fromkeys (xs : List β) : (fromkeys xs).Nodup := by
  induction xs with
  | nil => exact nodup_nil
  | cons x xs ih =>
    rw [fromkeys, nodup_cons]
    exact ⟨by simp, ih.filter _⟩

theorem fromkeys_eq_self {xs : List β} (h : xs.Nodup) : fromkeys xs = xs := by
  induction xs with
  | nil => rfl
  | cons x xs ih =>
    obtain ⟨hx, hxs⟩ := nodup_cons.mp h
    rw [fromkeys, ih hxs]
    congr 1
    apply filter_eq_self.mpr
    intro y hy
    have hne : y ≠ x := by
      rintro rfl
      exact hx hy
    simpa using hne

theorem fromkeys_run {k : β} {xs ys : List β} (hne : xs ≠ []) (hx : ∀ x ∈ xs, x = k)
    (hy : k ∉ ys) : fromkeys (xs ++ ys) = k :: fromkeys ys := by
  have hfilter : (fromkeys ys).filter (· ≠ k) = fromkeys ys := by
    apply filter_eq_self.mpr
    intro y hmem
    have : y ≠ k := by
      rintro rfl
      exact hy (mem_fromkeys.mp hmem)
    simpa using this
  induction xs with
  | nil => exact absurd rfl hne
  | cons x xs ih =>
    obtain rfl := hx x mem_cons_self
    rw [cons_append, fromkeys]
    congr 1
    cases xs with
    | nil => exact hfilter
    | cons z zs =>
      rw [ih (cons_ne_nil _ _) fun z hz => hx z (mem_cons_of_mem _ hz),
        filter_cons_of_neg (by simp), hfilter]

variable {f : α → β} {ks : List β} {block : β → List α}

theorem fromkeys_blocks (hks : ks.Nodup) (hne : ∀ k ∈ ks, block k ≠ [])
    (hf : ∀ k ∈ ks, ∀ x ∈ block k, f x = k) : fromkeys ((ks.flatMap block).map f) = ks := by
  induction ks with
  | nil => rfl
  | cons k ks ih =>
    obtain ⟨hk, hks⟩ := nodup_cons.mp hks
    have hrest := ih hks (fun j hj => hne j (mem_cons_of_mem _ hj))
      fun j hj => hf j (mem_cons_of_mem _ hj)
    rw [flatMap_cons, map_append, fromkeys_run (k := k), hrest]
    · simpa using hne k mem_cons_self
    · intro y hy
      obtain ⟨x, hx, rfl⟩ := mem_map.mp hy
      exact hf k mem_cons_self x hx
    · rw [← mem_fromkeys, hrest]
      exact hk

theorem filter_blocks (hks : ks.Nodup) (hf : ∀ k ∈ ks, ∀ x ∈ block k, f x = k) {k : β}
    (hk : k ∈ ks) : (ks.flatMap block).filter (fun x => f x = k) = block k := by
  induction ks with
  | nil => exact absurd hk not_mem_nil
  | cons j ks ih =>
    obtain ⟨hj, hks⟩ := nodup_cons.mp hks
    have hrest := fun i hi => hf i (mem_cons_of_mem j hi)
    rw [flatMap_cons, filter_append]
    rcases mem_cons.mp hk with rfl | hk
    · have hnone : (ks.flatMap block).filter (fun x => f x = k) = [] := by
        apply filter_eq_nil_iff.mpr
        intro x hx
        obtain ⟨i, hi, hx⟩ := mem_flatMap.mp hx
        have hne : i ≠ k := by
          rintro rfl
          exact hj hi
        simpa [hrest i hi x hx] using hne
      rw [hnone, append_nil]
      exact filter_eq_self.mpr fun x hx => by simpa using hf k mem_cons_self x hx
    · have hne : j ≠ k := by
        rintro rfl
        exact hj hk
      have hnone : (block j).filter (fun x => f x = k) = [] :=
        filter_eq_nil_iff.mpr fun x hx => by simpa [hf j mem_cons_self x hx] using hne
      rw [hnone, nil_append]
      exact ih hks hrest hk

end Groups

section Splits

theorem le_of_mem_splitsFrom {d n x : ℕ} {hn : 0 < n} (hx : x ∈ splitsFrom d n hn) : n ≤ x := by
  induction n, hn using splitsFrom.induct d with
  | case1 n hn h ih =>
    rw [splitsFrom, if_pos h, mem_append] at hx
    rcases hx with hx | hx
    · split_ifs at hx
      · exact (mem_singleton.mp hx).ge
      · exact absurd hx not_mem_nil
    · exact (Nat.le_mul_of_pos_right n (by decide)).trans (ih hx)
  | case2 n hn h =>
    rw [splitsFrom, if_neg h] at hx
    exact absurd hx not_mem_nil

theorem splitsFrom_nodup (d n : ℕ) (hn : 0 < n) : (splitsFrom d n hn).Nodup := by
  induction n, hn using splitsFrom.induct d with
  | case1 n hn h ih =>
    rw [splitsFrom, if_pos h]
    split_ifs
    · rw [singleton_append, nodup_cons]
      refine ⟨fun hx => ?_, ih⟩
      have := le_of_mem_splitsFrom hx
      omega
    · exact ih
  | case2 n hn h =>
    rw [splitsFrom, if_neg h]
    exact nodup_nil

theorem splits_nodup (d : ℕ) : (splits d).Nodup := splitsFrom_nodup d 1 _

end Splits

section Plans

variable (C dk dv : ℕ) (distributed : Bool)

def ringSplits : List ℕ := if distributed then splits dk else [1]

def planKeys : List (ℕ × ℕ × ℕ) :=
  (splits C).flatMap fun nc => (splits dv).flatMap fun nv =>
    (ringSplits dk distributed).map fun rb => (nv, rb, nc)

def planBlock (k : ℕ × ℕ × ℕ) : List Plan :=
  (splits dk).flatMap fun nb => ringDepths.map fun slot => ⟨nb, k.1, slot, k.2.1, k.2.2⟩

theorem blockingPlans_blocks :
    blockingPlans C dk dv distributed = (planKeys C dk dv distributed).flatMap (planBlock dk) := by
  simp only [blockingPlans, planKeys, ringSplits, planBlock, flatMap_assoc, flatMap_map]

theorem ringSplits_nodup : (ringSplits dk distributed).Nodup := by
  rw [ringSplits]
  split_ifs
  · exact splits_nodup dk
  · exact nodup_singleton 1

theorem planKeys_nodup : (planKeys C dk dv distributed).Nodup := by
  have hinner (nc nv : ℕ) : ((ringSplits dk distributed).map fun rb => (nv, rb, nc)).Nodup :=
    (ringSplits_nodup dk distributed).map fun a b h => by simpa using h
  refine nodup_flatMap.mpr ⟨fun nc _ => nodup_flatMap.mpr ⟨fun nv _ => hinner nc nv, ?_⟩, ?_⟩
  · apply (splits_nodup dv).imp
    intro a b hne
    simp only [Function.onFun, disjoint_left, mem_map]
    rintro x ⟨_, _, rfl⟩ ⟨_, _, h⟩
    exact hne (congrArg Prod.fst h).symm
  · apply (splits_nodup C).imp
    intro a b hne
    simp only [Function.onFun, disjoint_left, mem_flatMap, mem_map]
    rintro x ⟨_, _, _, _, rfl⟩ ⟨_, _, _, _, h⟩
    exact hne (congrArg (fun k => k.2.2) h).symm

theorem mem_planBlock {k : ℕ × ℕ × ℕ} {p : Plan} :
    p ∈ planBlock dk k ↔ p.headBlocks ∈ splits dk ∧ p.ringDepth ∈ ringDepths ∧ p.key = k := by
  simp only [planBlock, mem_flatMap, mem_map]
  constructor
  · rintro ⟨nb, hnb, slot, hslot, rfl⟩
    exact ⟨hnb, hslot, rfl⟩
  · rintro ⟨hnb, hslot, rfl⟩
    exact ⟨p.headBlocks, hnb, p.ringDepth, hslot, rfl⟩

variable {C dk dv distributed}

theorem planBlock_ne_nil (h : blockingPlans C dk dv distributed ≠ []) (k : ℕ × ℕ × ℕ) :
    planBlock dk k ≠ [] := by
  intro hk
  have hnil : splits dk = [] := by
    apply eq_nil_iff_forall_not_mem.mpr
    simpa [planBlock, ringDepths] using hk
  apply h
  simp [blockingPlans_blocks, planBlock, hnil]

theorem groupsOf_blockingPlans (h : blockingPlans C dk dv distributed ≠ []) :
    groupsOf (blockingPlans C dk dv distributed) =
      (planKeys C dk dv distributed).map (planBlock dk) := by
  have hkey (k) (_ : k ∈ planKeys C dk dv distributed) (p) (hp : p ∈ planBlock dk k) : p.key = k :=
    ((mem_planBlock dk).mp hp).2.2
  have hnodup := planKeys_nodup C dk dv distributed
  rw [groupsOf, blockingPlans_blocks,
    fromkeys_blocks hnodup (fun k _ => planBlock_ne_nil h k) hkey]
  apply map_congr_left
  intro k hk
  exact filter_blocks hnodup hkey hk

theorem groupsOf_flatten (h : blockingPlans C dk dv distributed ≠ []) :
    (groupsOf (blockingPlans C dk dv distributed)).flatten =
      blockingPlans C dk dv distributed := by
  rw [groupsOf_blockingPlans h, blockingPlans_blocks, flatMap_def]

theorem floorOf_spec {group : List Plan} {head : Plan} (hh : head ∈ group) :
    (∃ p ∈ group, (floorOf group head).headBlocks = p.headBlocks) ∧
    (∃ p ∈ group, (floorOf group head).ringDepth = p.ringDepth) ∧
    ∀ p ∈ group, p.headBlocks ≤ (floorOf group head).headBlocks ∧
      (floorOf group head).ringDepth ≤ p.ringDepth := by
  obtain ⟨hmax, hle⟩ := max?_eq_some_iff.mp
    (max?_cons' : (head.headBlocks :: group.map Plan.headBlocks).max? = _)
  obtain ⟨hmin, hge⟩ := min?_eq_some_iff.mp
    (min?_cons' : (head.ringDepth :: group.map Plan.ringDepth).min? = _)
  have hmem {f : Plan → ℕ} {x : ℕ} (hx : x ∈ f head :: group.map f) : ∃ p ∈ group, x = f p := by
    rcases mem_cons.mp hx with rfl | hx
    · exact ⟨head, hh, rfl⟩
    · obtain ⟨p, hp, rfl⟩ := mem_map.mp hx
      exact ⟨p, hp, rfl⟩
  refine ⟨hmem hmax, hmem hmin, fun p hp => ⟨?_, ?_⟩⟩
  · exact hle _ (mem_cons_of_mem _ (mem_map_of_mem hp))
  · exact hge _ (mem_cons_of_mem _ (mem_map_of_mem hp))

theorem floorOf_key (group : List Plan) (head : Plan) : (floorOf group head).key = head.key := rfl

theorem floorOf_mem_planBlock {k : ℕ × ℕ × ℕ} {head : Plan} (hh : head ∈ planBlock dk k) :
    floorOf (planBlock dk k) head ∈ planBlock dk k := by
  obtain ⟨⟨p, hp, hnb⟩, ⟨q, hq, hslot⟩, -⟩ := floorOf_spec hh
  rw [mem_planBlock, hnb, hslot, floorOf_key]
  exact ⟨((mem_planBlock dk).mp hp).1, ((mem_planBlock dk).mp hq).2.1,
    ((mem_planBlock dk).mp hh).2.2⟩

end Plans

end ZeCo
