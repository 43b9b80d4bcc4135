import Mathlib.Data.List.GetD
import Mathlib.Data.List.Sort
import Mathlib.Data.Rat.Floor
import Mathlib.Algebra.Order.Field.Basic
import Mathlib.Algebra.Ring.Parity
import Mathlib.Tactic.FieldSimp
import Mathlib.Tactic.Linarith

namespace ZeCo.LatencyStats

open List

def dispersionThreshold : ℚ := 2

def minSamples : ℕ := 10

def sorted (data : List ℚ) : List ℚ := data.insertionSort (· ≤ ·)

/-- Python's `int` of a number: it cuts towards zero. -/
def int (x : ℚ) : ℤ := if 0 ≤ x then ⌊x⌋ else ⌈x⌉

def percentile (data : List ℚ) (p : ℚ) : Option ℚ :=
  let s := sorted data
  let idx := max 0 (min (int (s.length * p / 100)) (s.length - 1))
  s[idx.toNat]?

structure Stats where
  n : ℕ
  p05Ms : ℚ
  p50Ms : ℚ
  p95Ms : ℚ
  meanMs : ℚ
  minMs : ℚ
  maxMs : ℚ
  spread : ℚ
  dispersed : Bool
  enoughSamples : Bool

def latencyStats (samples : List ℚ) : Option Stats := do
  guard (samples ≠ [])
  let p05 ← percentile samples 5
  let p50 ← percentile samples 50
  let p95 ← percentile samples 95
  let spread := max (if p50 > 0 then p95 / p50 else 1) (if p05 > 0 then p50 / p05 else 1)
  let least ← samples.min?
  let greatest ← samples.max?
  return {
    n := samples.length
    p05Ms := p05
    p50Ms := p50
    p95Ms := p95
    meanMs := samples.sum / samples.length
    minMs := least
    maxMs := greatest
    spread
    dispersed := spread ≥ dispersionThreshold
    enoughSamples := samples.length ≥ minSamples }

def Stats.verdict (s : Stats) : ℚ × Bool := (s.spread, s.dispersed)

def verdictOf (spread : ℚ) : ℚ × Bool := (spread, spread ≥ dispersionThreshold)

def rank (data : List ℚ) (i : ℕ) : ℚ := (sorted data).getD i 0

def tail (data : List ℚ) (i j k : ℕ) : ℚ :=
  max (rank data k / rank data j) (rank data j / rank data i)

section Ranks

variable {data : List ℚ} {i : ℕ}

theorem length_sorted (data : List ℚ) : (sorted data).length = data.length :=
  length_insertionSort _ data

theorem rank_eq (hi : i < data.length) : ∃ h, rank data i = (sorted data).get ⟨i, h⟩ := by
  rw [← length_sorted] at hi
  exact ⟨hi, getD_eq_getElem _ _ hi⟩

theorem rank_pos (hpos : ∀ x ∈ data, 0 < x) (hi : i < data.length) : 0 < rank data i := by
  obtain ⟨h, hr⟩ := rank_eq hi
  rw [hr]
  exact hpos _ ((mem_insertionSort _).mp (get_mem _ _))

theorem rank_mono {j : ℕ} (hij : i ≤ j) (hj : j < data.length) : rank data i ≤ rank data j := by
  obtain ⟨h, hr⟩ := rank_eq (hij.trans_lt hj)
  obtain ⟨h', hr'⟩ := rank_eq hj
  rw [hr, hr']
  exact sortedLE_insertionSort hij

theorem sorted_inv (hpos : ∀ x ∈ data, 0 < x) :
    sorted (data.map (·⁻¹)) = ((sorted data).map (·⁻¹)).reverse := by
  apply Perm.eq_of_pairwise' (r := (· ≤ ·))
  · exact pairwise_insertionSort _ _
  · rw [pairwise_reverse, pairwise_map]
    refine (pairwise_insertionSort (· ≤ ·) data).imp_of_mem fun {a b} ha _ hab => ?_
    exact inv_anti₀ (hpos a ((mem_insertionSort _).mp ha)) hab
  · exact (perm_insertionSort _ _).trans
      (((perm_insertionSort _ data).symm.map _).trans (reverse_perm _).symm)

theorem rank_inv (hpos : ∀ x ∈ data, 0 < x) (hi : i < data.length) :
    rank (data.map (·⁻¹)) i = (rank data (data.length - 1 - i))⁻¹ := by
  have hj : data.length - 1 - i < (sorted data).length := by
    rw [length_sorted]
    omega
  have hi' : i < ((sorted data).map (·⁻¹)).reverse.length := by
    rw [length_reverse, length_map, length_sorted]
    exact hi
  rw [rank, rank, sorted_inv hpos, getD_eq_getElem _ _ hi', getD_eq_getElem _ _ hj]
  simp [length_sorted]

end Ranks

section Spread

variable {data : List ℚ}

theorem int_div (n p : ℕ) : int (n * p / 100) = (n * p / 100 : ℕ) := by
  have h := Rat.floor_natCast_div_natCast (n * p) 100
  rw [int, if_pos (by positivity)]
  push_cast at h ⊢
  exact h

theorem index_lt {p : ℕ} (hp : p < 100) (hne : data ≠ []) :
    data.length * p / 100 < data.length := by
  rw [Nat.div_lt_iff_lt_mul (by omega)]
  exact Nat.mul_lt_mul_of_pos_left hp (length_pos_of_ne_nil hne)

theorem percentile_eq {p : ℕ} (hp : p < 100) (hne : data ≠ []) :
    percentile data p = some (rank data (data.length * p / 100)) := by
  have hlt := index_lt hp hne
  obtain ⟨h, hr⟩ := rank_eq hlt
  have hidx : (max 0 (min (int (data.length * p / 100)) (data.length - 1)) : ℤ) =
      (data.length * p / 100 : ℕ) := by
    rw [int_div]
    omega
  dsimp only [percentile]
  rw [length_sorted, hidx, hr]
  exact getElem?_eq_getElem h

theorem latencyStats_verdict (hpos : ∀ x ∈ data, 0 < x) (hne : data ≠ []) :
    (latencyStats data).map Stats.verdict = some (verdictOf (tail data (data.length / 20)
      (data.length / 2) (data.length * 95 / 100))) := by
  have h5 : percentile data 5 = _ := percentile_eq (p := 5) (by omega) hne
  have h50 : percentile data 50 = _ := percentile_eq (p := 50) (by omega) hne
  have h95 : percentile data 95 = _ := percentile_eq (p := 95) (by omega) hne
  have hrank {p : ℕ} (hp : p < 100) : 0 < rank data (data.length * p / 100) :=
    rank_pos hpos (index_lt hp hne)
  obtain ⟨least, hmin⟩ := Option.ne_none_iff_exists'.mp (mt min?_eq_none_iff.mp hne)
  obtain ⟨greatest, hmax⟩ := Option.ne_none_iff_exists'.mp (mt max?_eq_none_iff.mp hne)
  have h5pos := hrank (p := 5) (by omega)
  have h50pos := hrank (p := 50) (by omega)
  have hn5 : data.length * 5 / 100 = data.length / 20 := by omega
  have hn50 : data.length * 50 / 100 = data.length / 2 := by omega
  rw [hn5] at h5 h5pos
  rw [hn50] at h50 h50pos
  simp [latencyStats, h5, h50, h95, hmin, hmax, hne, h5pos, h50pos, tail, verdictOf, Stats.verdict]

theorem tail_inv (hpos : ∀ x ∈ data, 0 < x) {i j k : ℕ} (hi : i < data.length)
    (hj : j < data.length) (hk : k < data.length) : tail (data.map (·⁻¹)) i j k =
      tail data (data.length - 1 - k) (data.length - 1 - j) (data.length - 1 - i) := by
  rw [tail, tail, rank_inv hpos hi, rank_inv hpos hj, rank_inv hpos hk, inv_div_inv, inv_div_inv,
    max_comm]

theorem latencyStats_inv_verdict (hpos : ∀ x ∈ data, 0 < x) (hne : data ≠ []) :
    (latencyStats (data.map (·⁻¹))).map Stats.verdict =
      some (verdictOf (tail data (data.length - 1 - data.length * 95 / 100)
        (data.length - 1 - data.length / 2) (data.length - 1 - data.length / 20))) := by
  have hn := length_pos_of_ne_nil hne
  have hpos' : ∀ x ∈ data.map (·⁻¹), 0 < x :=
    forall_mem_map.mpr fun x hx => inv_pos.mpr (hpos x hx)
  rw [latencyStats_verdict hpos' (by simpa using hne), length_map,
    tail_inv hpos (by omega) (by omega) (by omega)]

def TwoSided (data : List ℚ) : Prop :=
  (latencyStats (data.map (·⁻¹))).map Stats.verdict = (latencyStats data).map Stats.verdict

theorem twoSided_iff_tail (hpos : ∀ x ∈ data, 0 < x) (hne : data ≠ []) : TwoSided data ↔
    tail data (data.length - 1 - data.length * 95 / 100) (data.length - 1 - data.length / 2)
        (data.length - 1 - data.length / 20) =
      tail data (data.length / 20) (data.length / 2) (data.length * 95 / 100) := by
  rw [TwoSided, latencyStats_verdict hpos hne, latencyStats_inv_verdict hpos hne]
  constructor
  · intro h
    exact congrArg Prod.fst (Option.some.inj h)
  · intro h
    rw [h]

/-- The tails of `a`, `s`, `b` and those of `a'`, `s'`, `b'` have the same longer one. -/
def Mirrored (a a' s s' b b' : ℚ) : Prop :=
  (s * s' = a * b' ∧ a * b ≤ s * s ∧ s' * s' ≤ a' * b') ∨
    (s * s' = a' * b ∧ s * s ≤ a * b ∧ a' * b' ≤ s' * s') ∨
    (s * a' = a * s' ∧ a * b ≤ s * s ∧ a' * b' ≤ s' * s') ∨
    (s * b' = s' * b ∧ s * s ≤ a * b ∧ s' * s' ≤ a' * b')

theorem max_div_eq_iff {a b s t : ℚ} (ha : 0 < a) (hb : 0 < b) (hs : 0 < s) (hst : s ≤ t) :
    max (b / s) (s / a) = max (b / t) (t / a) ↔ s = t ∨ s * t = a * b := by
  have ht := hs.trans_le hst
  constructor
  · intro h
    rcases hst.eq_or_lt with heq | hlt
    · exact .inl heq
    · right
      have hb' : b / t < b / s := by gcongr
      have ha' : s / a < t / a := by gcongr
      have hle : b / s ≤ t / a :=
        (le_max_iff.mp (h ▸ le_max_left (b / s) (s / a))).resolve_left hb'.not_ge
      have hge : t / a ≤ b / s :=
        (le_max_iff.mp (h ▸ le_max_right (b / t) (t / a))).resolve_right ha'.not_ge
      have heq := (div_eq_div_iff hs.ne' ha.ne').mp (hle.antisymm hge)
      linarith
  · rintro (rfl | h)
    · rfl
    · have hbs : b / s = t / a := by
        rw [div_eq_div_iff hs.ne' ha.ne']
        linarith
      have hbt : b / t = s / a := by
        rw [div_eq_div_iff ht.ne' ha.ne']
        linarith
      rw [hbs, hbt, max_comm]

theorem max_div_eq_max_div_iff {a a' s s' b b' : ℚ} (ha : 0 < a) (ha' : 0 < a') (hs : 0 < s)
    (hs' : 0 < s') : max (b / s) (s / a) = max (b' / s') (s' / a') ↔ Mirrored a a' s s' b b' := by
  have hfirst : b / s ≤ s / a ↔ a * b ≤ s * s := by rw [div_le_div_iff₀ hs ha, mul_comm b]
  have hfirst' : s / a ≤ b / s ↔ s * s ≤ a * b := by rw [div_le_div_iff₀ ha hs, mul_comm b]
  have hsecond : b' / s' ≤ s' / a' ↔ a' * b' ≤ s' * s' := by
    rw [div_le_div_iff₀ hs' ha', mul_comm b']
  have hsecond' : s' / a' ≤ b' / s' ↔ s' * s' ≤ a' * b' := by
    rw [div_le_div_iff₀ ha' hs', mul_comm b']
  constructor
  · intro h
    rcases le_total (b / s) (s / a) with h₁ | h₁ <;>
      rcases le_total (b' / s') (s' / a') with h₂ | h₂
    · rw [max_eq_right h₁, max_eq_right h₂, div_eq_div_iff ha.ne' ha'.ne'] at h
      exact .inr (.inr (.inl ⟨h.trans (mul_comm s' a), hfirst.mp h₁, hsecond.mp h₂⟩))
    · rw [max_eq_right h₁, max_eq_left h₂, div_eq_div_iff ha.ne' hs'.ne'] at h
      exact .inl ⟨h.trans (mul_comm b' a), hfirst.mp h₁, hsecond'.mp h₂⟩
    · rw [max_eq_left h₁, max_eq_right h₂, div_eq_div_iff hs.ne' ha'.ne'] at h
      exact .inr (.inl ⟨by linarith, hfirst'.mp h₁, hsecond.mp h₂⟩)
    · rw [max_eq_left h₁, max_eq_left h₂, div_eq_div_iff hs.ne' hs'.ne'] at h
      exact .inr (.inr (.inr ⟨by linarith, hfirst'.mp h₁, hsecond'.mp h₂⟩))
  · rintro (⟨h, h₁, h₂⟩ | ⟨h, h₁, h₂⟩ | ⟨h, h₁, h₂⟩ | ⟨h, h₁, h₂⟩)
    · rw [max_eq_right (hfirst.mpr h₁), max_eq_left (hsecond'.mpr h₂),
        div_eq_div_iff ha.ne' hs'.ne', h, mul_comm]
    · rw [max_eq_left (hfirst'.mpr h₁), max_eq_right (hsecond.mpr h₂),
        div_eq_div_iff hs.ne' ha'.ne', mul_comm b, ← h, mul_comm]
    · rw [max_eq_right (hfirst.mpr h₁), max_eq_right (hsecond.mpr h₂),
        div_eq_div_iff ha.ne' ha'.ne', h, mul_comm]
    · rw [max_eq_left (hfirst'.mpr h₁), max_eq_left (hsecond'.mpr h₂),
        div_eq_div_iff hs.ne' hs'.ne', mul_comm b, ← h, mul_comm]

end Spread

section Balance

variable {data : List ℚ}

/--
An odd number of samples is balanced. An even number is when the middle two are equal, or their
product is that of the two tails; for a multiple of 20 the tails are one rank off as well.
-/
def Balanced (data : List ℚ) : Prop :=
  if 20 ∣ data.length then
    Mirrored (rank data (data.length / 20 - 1)) (rank data (data.length / 20))
      (rank data (data.length / 2 - 1)) (rank data (data.length / 2))
      (rank data (19 * (data.length / 20) - 1)) (rank data (19 * (data.length / 20)))
  else
    Odd data.length ∨ rank data (data.length / 2 - 1) = rank data (data.length / 2) ∨
      rank data (data.length / 2 - 1) * rank data (data.length / 2) =
        rank data (data.length / 20) * rank data (data.length - 1 - data.length / 20)

theorem twoSided_iff_balanced (hpos : ∀ x ∈ data, 0 < x) (hne : data ≠ []) :
    TwoSided data ↔ Balanced data := by
  have hn := length_pos_of_ne_nil hne
  rw [twoSided_iff_tail hpos hne, Balanced]
  split
  · next h20 =>
    obtain ⟨k, hk⟩ := h20
    have hlow : data.length - 1 - data.length * 95 / 100 = data.length / 20 - 1 := by omega
    have hmid : data.length - 1 - data.length / 2 = data.length / 2 - 1 := by omega
    have hhigh : data.length - 1 - data.length / 20 = 19 * (data.length / 20) - 1 := by omega
    have h95 : data.length * 95 / 100 = 19 * (data.length / 20) := by omega
    rw [hlow, hmid, hhigh, h95, tail, tail]
    exact max_div_eq_max_div_iff (rank_pos hpos (by omega)) (rank_pos hpos (by omega))
      (rank_pos hpos (by omega)) (rank_pos hpos (by omega))
  · next h20 =>
    -- the ranks of p05 and p95 mirror each other, and only that of p50 may be off
    have h95 : data.length * 95 / 100 = data.length - 1 - data.length / 20 := by omega
    have hlow : data.length - 1 - (data.length - 1 - data.length / 20) = data.length / 20 := by
      omega
    rw [h95, hlow]
    rcases Nat.even_or_odd data.length with heven | hodd
    · have hmid : data.length - 1 - data.length / 2 = data.length / 2 - 1 := by
        obtain ⟨k, hk⟩ := heven
        omega
      rw [hmid, tail, tail, max_div_eq_iff (rank_pos hpos (by omega)) (rank_pos hpos (by omega))
        (rank_pos hpos (by omega)) (rank_mono (by omega) (by omega)),
        or_iff_right (Nat.not_odd_iff_even.mpr heven)]
    · have hmid : data.length - 1 - data.length / 2 = data.length / 2 := by
        obtain ⟨k, hk⟩ := hodd
        omega
      rw [hmid]
      exact iff_of_true rfl (.inl hodd)

theorem twoSided_of_length (hpos : ∀ x ∈ data, 0 < x) (hne : data ≠ [])
    (h : Odd data.length ∨ data.length = 2) : TwoSided data := by
  rw [twoSided_iff_balanced hpos hne, Balanced]
  rcases h with h | h
  · have h20 : ¬ 20 ∣ data.length := by
      obtain ⟨k, hk⟩ := h
      omega
    rw [if_neg h20]
    exact .inl h
  · rw [h]
    exact .inr (.inr rfl)

end Balance

section Lopsided

variable {n : ℕ}

def SameFlag (data : List ℚ) : Prop :=
  (latencyStats (data.map (·⁻¹))).map Stats.dispersed = (latencyStats data).map Stats.dispersed

theorem TwoSided.sameFlag {data : List ℚ} (h : TwoSided data) : SameFlag data := by
  have hsnd := congrArg (Option.map Prod.snd) h
  rw [Option.map_map, Option.map_map] at hsnd
  exact hsnd

theorem sameFlag_iff_tail {data : List ℚ} (hpos : ∀ x ∈ data, 0 < x) (hne : data ≠ []) :
    SameFlag data ↔
      (dispersionThreshold ≤ tail data (data.length - 1 - data.length * 95 / 100)
          (data.length - 1 - data.length / 2) (data.length - 1 - data.length / 20) ↔
        dispersionThreshold ≤
          tail data (data.length / 20) (data.length / 2) (data.length * 95 / 100)) := by
  have hsnd : Stats.dispersed = Prod.snd ∘ Stats.verdict := rfl
  rw [SameFlag, hsnd, ← Option.map_map, ← Option.map_map, latencyStats_verdict hpos hne,
    latencyStats_inv_verdict hpos hne]
  simp [verdictOf]

theorem rank_map_range {f : ℕ → ℚ} (hf : Monotone f) {i : ℕ} (hi : i < n) :
    rank ((range n).map f) i = f i := by
  have hsort : Pairwise (· ≤ ·) ((range n).map f) :=
    pairwise_map.mpr (pairwise_lt_range.imp fun h => hf h.le)
  rw [rank, sorted, hsort.insertionSort_eq, getD_eq_getElem _ _ (by simpa using hi)]
  simp

def lopsided (n i : ℕ) : ℚ :=
  if 20 ∣ n then if i < n / 20 then 1 / 2 else 1
  else if i < n / 2 then 1 else if i = n / 2 then 3 / 2 else 2

theorem lopsided_pos (n i : ℕ) : 0 < lopsided n i := by
  unfold lopsided
  split_ifs <;> norm_num

theorem lopsided_mono (n : ℕ) : Monotone (lopsided n) := by
  intro i j hij
  unfold lopsided
  split_ifs <;> first | omega | norm_num

theorem tail_lopsided {i j k : ℕ} (hi : i < n) (hj : j < n) (hk : k < n) :
    tail ((range n).map (lopsided n)) i j k =
      max (lopsided n k / lopsided n j) (lopsided n j / lopsided n i) := by
  rw [tail, rank_map_range (lopsided_mono n) hi, rank_map_range (lopsided_mono n) hj,
    rank_map_range (lopsided_mono n) hk]

theorem lopsided_not_sameFlag (heven : Even n) (hn : 0 < n) (h2 : n ≠ 2) :
    ¬ SameFlag ((range n).map (lopsided n)) := by
  have hlen : ((range n).map (lopsided n)).length = n := by simp
  have hne : (range n).map (lopsided n) ≠ [] := ne_nil_of_length_pos (hn.trans_eq hlen.symm)
  have hpos : ∀ x ∈ (range n).map (lopsided n), 0 < x :=
    forall_mem_map.mpr fun i _ => lopsided_pos n i
  have heven := Nat.even_iff.mp heven
  rw [sameFlag_iff_tail hpos hne, hlen, tail_lopsided (by omega) (by omega) (by omega),
    tail_lopsided (by omega) (by omega) (by omega), dispersionThreshold]
  by_cases h20 : 20 ∣ n
  · -- the twentieth that is low is below the rank of p05, and not above that of p95
    have hone {i : ℕ} (hi : n / 20 ≤ i) : lopsided n i = 1 := by
      rw [lopsided, if_pos h20, if_neg hi.not_gt]
    have hlow : lopsided n (n - 1 - n * 95 / 100) = 1 / 2 := by
      rw [lopsided, if_pos h20, if_pos (by omega)]
    rw [hlow, hone (i := n - 1 - n / 2) (by omega), hone (i := n - 1 - n / 20) (by omega),
      hone (i := n / 20) (by omega), hone (i := n / 2) (by omega),
      hone (i := n * 95 / 100) (by omega)]
    norm_num
  · have hlow {i : ℕ} (hi : i < n / 2) : lopsided n i = 1 := by
      rw [lopsided, if_neg h20, if_pos hi]
    have hmid : lopsided n (n / 2) = 3 / 2 := by
      rw [lopsided, if_neg h20, if_neg (by omega), if_pos rfl]
    have hhigh {i : ℕ} (hi : n / 2 < i) : lopsided n i = 2 := by
      rw [lopsided, if_neg h20, if_neg (by omega), if_neg (by omega)]
    rw [hmid, hlow (i := n - 1 - n * 95 / 100) (by omega), hlow (i := n - 1 - n / 2) (by omega),
      hhigh (i := n - 1 - n / 20) (by omega), hlow (i := n / 20) (by omega),
      hhigh (i := n * 95 / 100) (by omega)]
    norm_num

theorem dispersion_two_sided_iff {data : List ℚ} (hpos : ∀ x ∈ data, 0 < x) (hne : data ≠ []) :
    (TwoSided data ↔ Balanced data) ∧
      ((∀ xs : List ℚ, xs.length = data.length → (∀ x ∈ xs, 0 < x) → TwoSided xs) ↔
        Odd data.length ∨ data.length = 2) ∧
      ((∀ xs : List ℚ, xs.length = data.length → (∀ x ∈ xs, 0 < x) → SameFlag xs) ↔
        Odd data.length ∨ data.length = 2) := by
  have hn := length_pos_of_ne_nil hne
  have htwo (h : Odd data.length ∨ data.length = 2) (xs : List ℚ) (hlen : xs.length = data.length)
      (hxs : ∀ x ∈ xs, 0 < x) : TwoSided xs :=
    twoSided_of_length hxs (ne_nil_of_length_pos (hlen ▸ hn)) (hlen ▸ h)
  have hflag (h : ∀ xs : List ℚ, xs.length = data.length → (∀ x ∈ xs, 0 < x) → SameFlag xs) :
      Odd data.length ∨ data.length = 2 := by
    by_contra! hnot
    exact lopsided_not_sameFlag (Nat.not_odd_iff_even.mp hnot.1) hn hnot.2
      (h _ (by simp) (forall_mem_map.mpr fun i _ => lopsided_pos data.length i))
  refine ⟨twoSided_iff_balanced hpos hne, ⟨fun h => ?_, htwo⟩, hflag, fun h xs hlen hxs => ?_⟩
  · exact hflag fun xs hlen hxs => (h xs hlen hxs).sameFlag
  · exact (htwo h xs hlen hxs).sameFlag

theorem dispersion_two_sided_three : TwoSided [1, 2, 3] :=
  (dispersion_two_sided_iff (by norm_num) (by simp)).2.1.mpr (.inl (by decide)) _ rfl (by norm_num)

theorem fast_outlier_missed :
    (latencyStats (1 / 10 :: replicate 19 1)).map Stats.verdict = some (1, false) ∧
      (latencyStats (10 :: replicate 19 1)).map Stats.verdict = some (10, true) ∧
      ¬ TwoSided (1 / 10 :: replicate 19 1) := by
  have hfast : (latencyStats (1 / 10 :: replicate 19 1)).map Stats.verdict = some (1, false) := by
    decide +kernel
  have hslow : (latencyStats (10 :: replicate 19 1)).map Stats.verdict = some (10, true) := by
    decide +kernel
  refine ⟨hfast, hslow, fun h => ?_⟩
  have hinv : (1 / 10 :: replicate 19 1 : List ℚ).map (·⁻¹) = 10 :: replicate 19 1 := by simp
  rw [TwoSided, hinv, hfast, hslow] at h
  exact absurd h (by decide +kernel)

end Lopsided

end ZeCo.LatencyStats
