import Mathlib.Algebra.Group.Nat.Even
import ZeCo.BlockingPlans

namespace ZeCo

open List

section Splits

variable {d n : ℕ}

structure TilesAxis (d n : ℕ) : Prop where
  dvd : n ∣ d
  pos : 0 < d / n
  unit : tileUnit ∣ d / n

theorem mem_splitsFrom {x : ℕ} {hn : 0 < n} : x ∈ splitsFrom d n hn ↔
    (∃ i, x = n * 2 ^ i) ∧ x ≤ d ∧ d % x = 0 ∧ d / x % tileUnit = 0 := by
  induction n, hn using splitsFrom.induct d with
  | case1 n hn h ih =>
    have hstep : (∃ i, x = n * 2 ^ i) ↔ x = n ∨ ∃ i, x = n * 2 * 2 ^ i := by
      constructor
      · rintro ⟨i, rfl⟩
        cases i with
        | zero => exact Or.inl (Nat.mul_one n)
        | succ i => exact Or.inr ⟨i, by rw [Nat.pow_succ', Nat.mul_assoc]⟩
      · rintro (rfl | ⟨i, rfl⟩)
        · exact ⟨0, (Nat.mul_one x).symm⟩
        · exact ⟨i + 1, by rw [Nat.pow_succ', Nat.mul_assoc]⟩
    rw [splitsFrom, if_pos h, mem_append, ih, hstep]
    constructor
    · rintro (hx | ⟨hx, hd⟩)
      · split_ifs at hx with hd
        · obtain rfl := mem_singleton.mp hx
          exact ⟨Or.inl rfl, h, hd⟩
        · exact absurd hx not_mem_nil
      · exact ⟨Or.inr hx, hd⟩
    · rintro ⟨rfl | hx, hd⟩
      · left
        rw [if_pos hd.2]
        exact mem_singleton_self x
      · exact Or.inr ⟨hx, hd⟩
  | case2 n hn h =>
    rw [splitsFrom, if_neg h]
    constructor
    · exact fun hx => absurd hx not_mem_nil
    · rintro ⟨⟨i, rfl⟩, hle, -⟩
      exact absurd ((Nat.le_mul_of_pos_right n (Nat.two_pow_pos i)).trans hle) h

theorem mem_splits : n ∈ splits d ↔ (∃ i, n = 2 ^ i) ∧ TilesAxis d n := by
  rw [splits, mem_splitsFrom]
  simp only [Nat.one_mul]
  constructor
  · rintro ⟨⟨i, rfl⟩, hle, hdvd, hunit⟩
    exact ⟨⟨i, rfl⟩, Nat.dvd_of_mod_eq_zero hdvd, Nat.div_pos hle (Nat.two_pow_pos i),
      Nat.dvd_of_mod_eq_zero hunit⟩
  · rintro ⟨hi, h⟩
    exact ⟨hi, (Nat.div_pos_iff.mp h.pos).2, Nat.mod_eq_zero_of_dvd h.dvd,
      Nat.mod_eq_zero_of_dvd h.unit⟩

theorem splits_eq_nil : splits d = [] ↔ ¬ (0 < d ∧ tileUnit ∣ d) := by
  constructor
  · rintro h ⟨hd, hunit⟩
    have hone : 1 ∈ splits d :=
      mem_splits.mpr ⟨⟨0, rfl⟩, Nat.one_dvd d, by rwa [Nat.div_one], by rwa [Nat.div_one]⟩
    rw [h] at hone
    exact not_mem_nil hone
  · intro h
    apply eq_nil_iff_forall_not_mem.mpr
    intro n hn
    obtain ⟨-, ht⟩ := mem_splits.mp hn
    apply h
    rw [← Nat.div_mul_cancel ht.dvd]
    exact ⟨Nat.mul_pos ht.pos (Nat.div_pos_iff.mp ht.pos).1, Nat.dvd_mul_right_of_dvd ht.unit n⟩

theorem splits_head (h : splits d ≠ []) : ∃ rest, splits d = 1 :: rest := by
  have hd := not_not.mp (mt splits_eq_nil.mpr h)
  have hone : d % 1 = 0 ∧ d / 1 % tileUnit = 0 :=
    ⟨Nat.mod_one d, by rw [Nat.div_one]; exact Nat.mod_eq_zero_of_dvd hd.2⟩
  have hle : 1 ≤ d := hd.1
  rw [splits, splitsFrom, if_pos hle, if_pos hone]
  exact ⟨_, rfl⟩

end Splits

section Plans

variable {C dk dv : ℕ} {distributed : Bool}

structure Plan.Tiles (C dk dv : ℕ) (distributed : Bool) (p : Plan) : Prop where
  head : TilesAxis dk p.headBlocks
  value : TilesAxis dv p.valueBlocks
  keyRow : TilesAxis C p.keyRowBlocks
  ring : p.ringBlocks ∣ dk
  ringOne : distributed = false → p.ringBlocks = 1

theorem Plan.Tiles.value_pos {p : Plan} (h : p.Tiles C dk dv distributed) : 0 < p.valueBlocks :=
  (Nat.div_pos_iff.mp h.value.pos).1

theorem Plan.Tiles.ring_pos {p : Plan} (h : p.Tiles C dk dv distributed) : 0 < p.ringBlocks := by
  obtain ⟨hnb, hle⟩ := Nat.div_pos_iff.mp h.head.pos
  exact Nat.pos_of_dvd_of_pos h.ring (hnb.trans_le hle)

structure Plan.Doubled (p : Plan) : Prop where
  head : ∃ i, p.headBlocks = 2 ^ i
  value : ∃ i, p.valueBlocks = 2 ^ i
  ring : ∃ i, p.ringBlocks = 2 ^ i
  keyRow : ∃ i, p.keyRowBlocks = 2 ^ i
  depth : p.ringDepth ∈ ringDepths

theorem mem_planKeys {k : ℕ × ℕ × ℕ} : k ∈ planKeys C dk dv distributed ↔
    k.2.2 ∈ splits C ∧ k.1 ∈ splits dv ∧ k.2.1 ∈ ringSplits dk distributed := by
  obtain ⟨nv, rb, nc⟩ := k
  simp only [planKeys, mem_flatMap, mem_map, Prod.mk.injEq]
  constructor
  · rintro ⟨_, hnc, _, hnv, _, hrb, rfl, rfl, rfl⟩
    exact ⟨hnc, hnv, hrb⟩
  · rintro ⟨hnc, hnv, hrb⟩
    exact ⟨nc, hnc, nv, hnv, rb, hrb, rfl, rfl, rfl⟩

theorem mem_blockingPlans {p : Plan} : p ∈ blockingPlans C dk dv distributed ↔
    (p.keyRowBlocks ∈ splits C ∧ p.valueBlocks ∈ splits dv ∧
      p.ringBlocks ∈ ringSplits dk distributed) ∧
      p.headBlocks ∈ splits dk ∧ p.ringDepth ∈ ringDepths := by
  rw [blockingPlans_blocks, mem_flatMap]
  constructor
  · rintro ⟨k, hk, hp⟩
    obtain ⟨hnb, hslot, rfl⟩ := (mem_planBlock dk).mp hp
    exact ⟨mem_planKeys.mp hk, hnb, hslot⟩
  · rintro ⟨hk, hnb, hslot⟩
    exact ⟨p.key, mem_planKeys.mpr hk, (mem_planBlock dk).mpr ⟨hnb, hslot, rfl⟩⟩

theorem mem_ringSplits {n : ℕ} : n ∈ ringSplits dk distributed ↔
    if distributed then (∃ i, n = 2 ^ i) ∧ TilesAxis dk n else n = 1 := by
  cases distributed with
  | true => exact mem_splits
  | false => exact mem_singleton

theorem tiles_of_mem {p : Plan} (hp : p ∈ blockingPlans C dk dv distributed) :
    p.Tiles C dk dv distributed := by
  obtain ⟨⟨hnc, hnv, hrb⟩, hnb, -⟩ := mem_blockingPlans.mp hp
  rw [mem_ringSplits] at hrb
  constructor
  · exact (mem_splits.mp hnb).2
  · exact (mem_splits.mp hnv).2
  · exact (mem_splits.mp hnc).2
  · cases distributed with
    | true => exact hrb.2.dvd
    | false => exact hrb ▸ Nat.one_dvd dk
  · rintro rfl
    exact hrb

theorem mem_of_tiles {p : Plan} (ht : p.Tiles C dk dv distributed) (hd : p.Doubled)
    (hring : distributed = true → TilesAxis dk p.ringBlocks) :
    p ∈ blockingPlans C dk dv distributed := by
  apply mem_blockingPlans.mpr
  refine ⟨⟨mem_splits.mpr ⟨hd.keyRow, ht.keyRow⟩, mem_splits.mpr ⟨hd.value, ht.value⟩, ?_⟩,
    mem_splits.mpr ⟨hd.head, ht.head⟩, hd.depth⟩
  rw [mem_ringSplits]
  cases distributed with
  | true => exact ⟨hd.ring, hring rfl⟩
  | false => exact ht.ringOne rfl

theorem planBlock_nodup (dk : ℕ) (k : ℕ × ℕ × ℕ) : (planBlock dk k).Nodup := by
  apply nodup_flatMap.mpr
  constructor
  · intro nb _
    apply (by decide : ringDepths.Nodup).map
    exact fun a b h => congrArg Plan.ringDepth h
  · apply (splits_nodup dk).imp
    intro a b hne
    simp only [Function.onFun, disjoint_left, mem_map]
    rintro p ⟨_, _, rfl⟩ ⟨_, _, h⟩
    exact hne (congrArg Plan.headBlocks h).symm

theorem blockingPlans_nodup : (blockingPlans C dk dv distributed).Nodup := by
  rw [blockingPlans_blocks]
  apply nodup_flatMap.mpr
  constructor
  · exact fun k _ => planBlock_nodup dk k
  · apply (planKeys_nodup C dk dv distributed).imp
    intro j k hne
    simp only [Function.onFun, disjoint_left]
    intro p hj hk
    exact hne (((mem_planBlock dk).mp hj).2.2.symm.trans ((mem_planBlock dk).mp hk).2.2)

theorem blockingPlans_eq_nil : blockingPlans C dk dv distributed = [] ↔
    ¬ ((0 < C ∧ tileUnit ∣ C) ∧ (0 < dk ∧ tileUnit ∣ dk) ∧ 0 < dv ∧ tileUnit ∣ dv) := by
  have hsplit {d : ℕ} : splits d ≠ [] ↔ 0 < d ∧ tileUnit ∣ d := by
    rw [Ne, splits_eq_nil, not_not]
  rw [← not_iff_not, not_not, ← hsplit, ← hsplit, ← hsplit]
  constructor
  · intro h
    obtain ⟨p, hp⟩ := exists_mem_of_ne_nil _ h
    obtain ⟨⟨hnc, hnv, -⟩, hnb, -⟩ := mem_blockingPlans.mp hp
    exact ⟨ne_nil_of_mem hnc, ne_nil_of_mem hnb, ne_nil_of_mem hnv⟩
  · rintro ⟨hC, hdk, hdv⟩
    obtain ⟨nc, hnc⟩ := exists_mem_of_ne_nil _ hC
    obtain ⟨nb, hnb⟩ := exists_mem_of_ne_nil _ hdk
    obtain ⟨nv, hnv⟩ := exists_mem_of_ne_nil _ hdv
    obtain ⟨rb, hrb⟩ : ∃ rb, rb ∈ ringSplits dk distributed := by
      cases distributed with
      | true => exact ⟨nb, hnb⟩
      | false => exact ⟨1, mem_singleton_self 1⟩
    have hp : Plan.mk nb nv 4 rb nc ∈ blockingPlans C dk dv distributed :=
      mem_blockingPlans.mpr ⟨⟨hnc, hnv, hrb⟩, hnb, mem_cons_self⟩
    exact ne_nil_of_mem hp

def Contiguous (plans : List Plan) : Prop :=
  ∀ xs ys zs p q, plans = xs ++ p :: (ys ++ q :: zs) → p.key = q.key → ∀ r ∈ ys, r.key = p.key

theorem contiguous_of_pairwise {plans : List Plan} (position : ℕ × ℕ × ℕ → ℕ)
    (horder : plans.Pairwise fun p q => position p.key ≤ position q.key)
    (hinj : ∀ p ∈ plans, ∀ q ∈ plans, position p.key = position q.key → p.key = q.key) :
    Contiguous plans := by
  rintro xs ys zs p q rfl hkey r hr
  obtain ⟨-, htail, -⟩ := pairwise_append.mp horder
  obtain ⟨hp, htail⟩ := pairwise_cons.mp htail
  obtain ⟨-, -, hmiddle⟩ := pairwise_append.mp htail
  have hpr := hp r (mem_append_left _ hr)
  have hrq := hmiddle r hr q mem_cons_self
  rw [← hkey] at hrq
  exact hinj r (by simp [hr]) p (by simp) (Nat.le_antisymm hrq hpr)

theorem blockingPlans_contiguous : Contiguous (blockingPlans C dk dv distributed) := by
  have hkeys := planKeys_nodup C dk dv distributed
  have hmem {p : Plan} (hp : p ∈ blockingPlans C dk dv distributed) :
      p.key ∈ planKeys C dk dv distributed :=
    mem_planKeys.mpr (mem_blockingPlans.mp hp).1
  -- a key counts as often as it comes
  apply contiguous_of_pairwise (planKeys C dk dv distributed).idxOf
  · rw [blockingPlans_blocks]
    apply pairwise_flatMap.mpr
    constructor
    · intro k _
      apply pairwise_of_forall_mem_list
      intro p hp q hq
      rw [((mem_planBlock dk).mp hp).2.2, ((mem_planBlock dk).mp hq).2.2]
    · apply pairwise_iff_getElem.mpr
      intro i j hi hj hij p hp q hq
      rw [((mem_planBlock dk).mp hp).2.2, ((mem_planBlock dk).mp hq).2.2, hkeys.idxOf_getElem,
        hkeys.idxOf_getElem]
      exact hij.le
  · intro p hp q hq hpos
    exact (idxOf_inj (hmem hp)).mp hpos

def GroupOrder (plans : List Plan) (k : ℕ × ℕ × ℕ) : Prop :=
  ∀ head rest, plans.filter (·.key = k) = head :: rest →
    let group := head :: rest
    let floor := floorOf group head
    floor ∈ group ∧ ∀ q ∈ group,
      (head.headBlocks ≤ q.headBlocks ∧ q.ringDepth ≤ head.ringDepth) ∧
        q.headBlocks ≤ floor.headBlocks ∧ floor.ringDepth ≤ q.ringDepth

theorem planBlock_head {k : ℕ × ℕ × ℕ} {head : Plan} {rest : List Plan}
    (h : planBlock dk k = head :: rest) : head.headBlocks = 1 ∧ head.ringDepth = 4 := by
  have hne : splits dk ≠ [] := by
    rintro hnil
    rw [planBlock, hnil] at h
    cases h
  obtain ⟨finer, hsplits⟩ := splits_head hne
  rw [planBlock, hsplits] at h
  obtain ⟨rfl, -⟩ := cons.inj h
  exact ⟨rfl, rfl⟩

theorem ringDepths_bounds : ∀ x ∈ ringDepths, x ≤ 4 := by decide

theorem blockingPlans_groupOrder (k : ℕ × ℕ × ℕ) :
    GroupOrder (blockingPlans C dk dv distributed) k := by
  intro head rest hgroup
  have hfilter : head ∈ (blockingPlans C dk dv distributed).filter (·.key = k) := by
    rw [hgroup]
    exact mem_cons_self
  obtain ⟨hhead, hkey⟩ := mem_filter.mp hfilter
  have hk : k ∈ planKeys C dk dv distributed := by
    rw [← of_decide_eq_true hkey]
    exact mem_planKeys.mpr (mem_blockingPlans.mp hhead).1
  have hblock : planBlock dk k = head :: rest := by
    rw [← hgroup, blockingPlans_blocks]
    exact (filter_blocks (planKeys_nodup C dk dv distributed)
      (fun j _ p hp => ((mem_planBlock dk).mp hp).2.2) hk).symm
  obtain ⟨hnb, hslot⟩ := planBlock_head hblock
  rw [← hblock]
  have hmem : head ∈ planBlock dk k := hblock ▸ mem_cons_self
  refine ⟨floorOf_mem_planBlock hmem, fun q hq => ⟨?_, (floorOf_spec hmem).2.2 q hq⟩⟩
  obtain ⟨hq, hdepth, -⟩ := (mem_planBlock dk).mp hq
  obtain ⟨⟨i, hi⟩, -⟩ := mem_splits.mp hq
  rw [hnb, hslot, hi]
  exact ⟨Nat.one_le_two_pow, ringDepths_bounds _ hdepth⟩

structure Candidates (C dk dv : ℕ) (distributed : Bool) (plans : List Plan) : Prop where
  tiles : ∀ p ∈ plans, p.Tiles C dk dv distributed ∧ dk % p.ringBlocks = 0
  nodup : plans.Nodup
  complete : ∀ p : Plan, p.Tiles C dk dv distributed → p.Doubled →
    (distributed = true → TilesAxis dk p.ringBlocks) → p ∈ plans
  contiguous : Contiguous plans
  groups : ∀ k, GroupOrder plans k
  empty : plans = [] ↔
    ¬ ((0 < C ∧ tileUnit ∣ C) ∧ (0 < dk ∧ tileUnit ∣ dk) ∧ 0 < dv ∧ tileUnit ∣ dv)

theorem blockingPlans_candidates (C dk dv : ℕ) (distributed : Bool) :
    Candidates C dk dv distributed (blockingPlans C dk dv distributed) where
  tiles _ hp := ⟨tiles_of_mem hp, Nat.mod_eq_zero_of_dvd (tiles_of_mem hp).ring⟩
  nodup := blockingPlans_nodup
  complete _ ht hd hring := mem_of_tiles ht hd hring
  contiguous := blockingPlans_contiguous
  groups := blockingPlans_groupOrder
  empty := blockingPlans_eq_nil

theorem ring_split_left_out :
    (Plan.mk 1 1 4 2 1).Tiles 16 16 16 true ∧ (Plan.mk 1 1 4 2 1).Doubled ∧
      Plan.mk 1 1 4 2 1 ∉ blockingPlans 16 16 16 true := by
  have hwhole : TilesAxis 16 1 := ⟨by decide, by decide, by decide⟩
  refine ⟨⟨hwhole, hwhole, hwhole, by decide, nofun⟩,
    ⟨⟨0, rfl⟩, ⟨0, rfl⟩, ⟨1, rfl⟩, ⟨0, rfl⟩, by decide⟩, fun hp => ?_⟩
  obtain ⟨⟨-, -, hrb⟩, -⟩ := mem_blockingPlans.mp hp
  have hunit := (mem_splits.mp hrb).2.unit
  revert hunit
  decide

end Plans

end ZeCo
