import Mathlib.Algebra.BigOperators.Ring.Finset
import Mathlib.Algebra.BigOperators.Intervals
import Mathlib.Tactic.Ring
import Mathlib.Tactic.LinearCombination
import Mathlib.Tactic.FieldSimp

namespace ZeCo.Recurrence

open Finset

section Ring

variable {R : Type*} [CommRing R]

def affine (a u : ℕ → R) (s : R) : ℕ → R
  | 0 => s
  | t + 1 => a t * affine a u s t + u t

def decay (a : ℕ → R) (i n : ℕ) : R := ∏ j ∈ range n, a (i + j)

/-- The sensitivity that enters step `i` from the right, `n` steps before the end, when `e`
enters there and step `j` contributes `w j` to the state it produces. -/
def adjointFrom (a w : ℕ → R) (e : R) : ℕ → ℕ → R
  | 0, _ => e
  | n + 1, i => a i * (w i + adjointFrom a w e n (i + 1))

def adjoint (a w : ℕ → R) (e : R) (T t : ℕ) : R := adjointFrom a w e (T - t) t

@[simp] theorem affine_zero (a u : ℕ → R) (s : R) : affine a u s 0 = s := rfl

theorem affine_succ (a u : ℕ → R) (s : R) (t : ℕ) :
    affine a u s (t + 1) = a t * affine a u s t + u t := rfl

@[simp] theorem decay_zero (a : ℕ → R) (i : ℕ) : decay a i 0 = 1 := by simp [decay]

theorem decay_succ (a : ℕ → R) (i n : ℕ) : decay a i (n + 1) = decay a i n * a (i + n) := by
  simp [decay, prod_range_succ]

theorem decay_add (a : ℕ → R) (i m n : ℕ) :
    decay a i (m + n) = decay a i m * decay a (i + m) n := by
  simp only [decay, prod_range_add, Nat.add_assoc]

theorem decay_shift (a : ℕ → R) (i n : ℕ) : decay (fun t => a (i + t)) 0 n = decay a i n := by
  simp [decay]

theorem affine_add (a u : ℕ → R) (s : R) (m n : ℕ) :
    affine a u s (m + n) =
      affine (fun t => a (m + t)) (fun t => u (m + t)) (affine a u s m) n := by
  induction n with
  | zero => rfl
  | succ n ih => rw [← Nat.add_assoc, affine_succ, affine_succ, ih]

theorem affine_eq_decay (a u : ℕ → R) (s : R) (n : ℕ) :
    affine a u s n = decay a 0 n * s + affine a u 0 n := by
  induction n with
  | zero => simp
  | succ n ih =>
    rw [affine_succ, affine_succ, ih, decay_succ, Nat.zero_add]
    ring

theorem affine_congr {a a' u u' : ℕ → R} {s : R} {n : ℕ} (ha : ∀ t < n, a t = a' t)
    (hu : ∀ t < n, u t = u' t) : affine a u s n = affine a' u' s n := by
  induction n with
  | zero => rfl
  | succ n ih =>
    rw [affine_succ, affine_succ, ha n (by omega), hu n (by omega),
      ih (fun t ht => ha t (by omega)) (fun t ht => hu t (by omega))]

theorem decay_congr {a a' : ℕ → R} {i n : ℕ} (h : ∀ t < n, a (i + t) = a' (i + t)) :
    decay a i n = decay a' i n :=
  prod_congr rfl fun t ht => h t (mem_range.mp ht)

theorem affine_map {S : Type*} [CommRing S] (φ : R →+* S) (a u : ℕ → R) (s : R) (t : ℕ) :
    φ (affine a u s t) = affine (fun j => φ (a j)) (fun j => φ (u j)) (φ s) t := by
  induction t with
  | zero => rfl
  | succ t ih => rw [affine_succ, affine_succ, map_add, map_mul, ih]

theorem decay_map {S : Type*} [CommRing S] (φ : R →+* S) (a : ℕ → R) (i n : ℕ) :
    φ (decay a i n) = decay (fun j => φ (a j)) i n := map_prod φ _ _

@[simp] theorem adjoint_self (a w : ℕ → R) (e : R) (T : ℕ) : adjoint a w e T T = e := by
  simp [adjoint, adjointFrom]

theorem adjoint_step (a w : ℕ → R) (e : R) {T t : ℕ} (h : t < T) :
    adjoint a w e T t = a t * (w t + adjoint a w e T (t + 1)) := by
  obtain ⟨n, hn⟩ : ∃ n, T - t = n + 1 := ⟨T - t - 1, by omega⟩
  have hn' : T - (t + 1) = n := by omega
  simp only [adjoint, hn, hn', adjointFrom]

theorem adjoint_unique {a w : ℕ → R} {e : R} {T : ℕ} {f : ℕ → R} (last : f T = e)
    (step : ∀ t < T, f t = a t * (w t + f (t + 1))) {t : ℕ} (ht : t ≤ T) :
    f t = adjoint a w e T t := by
  induction ht using Nat.decreasingInduction with
  | self => rw [last, adjoint_self]
  | of_succ t ht ih => rw [step t ht, ih, adjoint_step a w e ht]

theorem adjoint_shift (a w : ℕ → R) (e : R) (m : ℕ) {T t : ℕ} (ht : t ≤ T) :
    adjoint (fun j => a (m + j)) (fun j => w (m + j)) e T t = adjoint a w e (m + T) (m + t) := by
  symm
  apply adjoint_unique (f := fun t => adjoint a w e (m + T) (m + t)) (adjoint_self _ _ _ _) _ ht
  intro t ht
  exact adjoint_step a w e (by omega)

theorem adjoint_split (a w : ℕ → R) (e : R) {T M t : ℕ} (hM : M ≤ T) (ht : t ≤ M) :
    adjoint a w e T t = adjoint a w (adjoint a w e T M) M t := by
  apply adjoint_unique (f := fun t => adjoint a w e T t) rfl _ ht
  intro t ht
  exact adjoint_step a w e (by omega)

theorem adjoint_congr {a a' w w' : ℕ → R} {e : R} {T t : ℕ} (ha : ∀ j < T, a j = a' j)
    (hw : ∀ j < T, w j = w' j) (ht : t ≤ T) : adjoint a w e T t = adjoint a' w' e T t := by
  apply adjoint_unique (adjoint_self _ _ _ _) _ ht
  intro j hj
  rw [adjoint_step a w e hj, ha j hj, hw j hj]

theorem adjoint_zero_eq_sum (a w : ℕ → R) (e : R) (T : ℕ) :
    adjoint a w e T 0 = ∑ j ∈ range T, decay a 0 (j + 1) * w j + decay a 0 T * e := by
  induction T generalizing e with
  | zero => simp
  | succ T ih =>
    rw [adjoint_split a w e (Nat.le_succ T) (Nat.zero_le T), ih,
      adjoint_step a w e (Nat.lt_succ_self T), adjoint_self, sum_range_succ, decay_succ,
      Nat.zero_add]
    ring

theorem decay_mul_total (a w : ℕ → R) (e : R) {T t : ℕ} (ht : t < T) :
    decay a 0 (t + 1) * (w t + adjoint a w e T (t + 1)) =
      ∑ j ∈ Ico t T, decay a 0 (j + 1) * w j + decay a 0 T * e := by
  obtain ⟨n, rfl⟩ : ∃ n, T = t + 1 + n := ⟨T - t - 1, by omega⟩
  induction n generalizing e with
  | zero => simp [mul_add]
  | succ n ih =>
    rw [← Nat.add_assoc, adjoint_split a w e (Nat.le_succ (t + 1 + n)) (by omega), ih _ (by omega),
      adjoint_step a w e (Nat.lt_succ_self _), adjoint_self, sum_Ico_succ_top (by omega),
      decay_succ a 0 (t + 1 + n), Nat.zero_add]
    ring

/-- Summation by parts for a recurrence and its adjoint: the sensitivities seen by the outputs
and by the inputs differ by the flow through the two ends. -/
theorem telescope (a u w : ℕ → R) (s e : R) {T t : ℕ} (ht : t ≤ T) :
    ∑ j ∈ Ico t T, (affine a u s (j + 1) * w j - (w j + adjoint a w e T (j + 1)) * u j) =
      adjoint a w e T t * affine a u s t - e * affine a u s T := by
  induction ht using Nat.decreasingInduction with
  | self => simp
  | of_succ t ht ih =>
    rw [sum_eq_sum_Ico_succ_bot ht, ih, adjoint_step a w e ht, affine_succ]
    ring

theorem pairing (a f w : ℕ → R) (T : ℕ) :
    ∑ j ∈ range T, w j * affine a f 0 (j + 1) =
      ∑ j ∈ range T, (w j + adjoint a w 0 T (j + 1)) * f j := by
  have h := telescope a f w 0 0 (Nat.zero_le T)
  simp only [sum_sub_distrib, affine_zero, mul_zero, zero_mul, sub_self, sub_eq_zero] at h
  simpa only [range_eq_Ico, mul_comm] using h

end Ring

section Field

variable {𝕜 : Type*} [Field 𝕜]

theorem decay_ne_zero {a : ℕ → 𝕜} {i n : ℕ} (h : ∀ t < n, a (i + t) ≠ 0) : decay a i n ≠ 0 :=
  prod_ne_zero_iff.mpr fun t ht => h t (mem_range.mp ht)

theorem affine_factored (a u : ℕ → 𝕜) (s : 𝕜) {n : ℕ} (h : ∀ t < n, a t ≠ 0) :
    affine a u s n = decay a 0 n * (s + ∑ j ∈ range n, u j / decay a 0 (j + 1)) := by
  induction n with
  | zero => simp
  | succ n ih =>
    have hn : decay a 0 (n + 1) ≠ 0 := decay_ne_zero fun t ht => by simpa using h t ht
    rw [affine_succ, ih fun t ht => h t (by omega), sum_range_succ, ← add_assoc, mul_add _ (s + _),
      mul_div_cancel₀ _ hn, decay_succ, Nat.zero_add]
    ring

theorem total_eq_div (a w : ℕ → 𝕜) (e : 𝕜) {T t : ℕ} (ht : t < T) (h : ∀ j < T, a j ≠ 0) :
    w t + adjoint a w e T (t + 1) =
      (∑ j ∈ Ico t T, decay a 0 (j + 1) * w j + decay a 0 T * e) / decay a 0 (t + 1) := by
  rw [eq_div_iff (decay_ne_zero fun j hj => by simpa using h j (by omega)),
    ← decay_mul_total a w e ht, mul_comm]

end Field

end ZeCo.Recurrence
