import Mathlib.Analysis.SpecialFunctions.Log.Basic
import ZeCo.GlaForward

namespace ZeCo

open Matrix Recurrence

variable {R : Type*} {T C dk dv : ℕ}

theorem prod_eq_decay [CommRing R] (A : Matrix (Fin T) (Fin dk) R) (d : Fin dk) :
    ∏ t, A t d = decay (gate A d) 0 T := by
  simp only [decay, Nat.zero_add]
  rw [← Fin.prod_univ_eq_prod_range (gate A d)]
  apply Finset.prod_congr rfl
  intro t _
  exact (stream_fin A t d).symm

section Logarithms

variable {a : Matrix (Fin C) (Fin dk) ℝ}

theorem exp_tril_log (ha : ∀ t d, 0 < a t d) :
    ((tril C : Matrix (Fin C) (Fin C) ℝ) * a.map Real.log).map Real.exp = cumprod a := by
  ext t d
  have hsum : ((tril C : Matrix (Fin C) (Fin C) ℝ) * a.map Real.log) t d =
      ∑ s ∈ Finset.range (t + 1), Real.log (stream a s d) := by
    rw [← sum_fin_le, mul_apply]
    apply Finset.sum_congr rfl
    intro s _
    rw [tril_apply, stream_fin, map_apply]
    split_ifs <;> simp
  rw [map_apply, hsum, Real.exp_sum, cumprod_apply, decay]
  apply Finset.prod_congr rfl
  intro s hs
  have hlt : s < C := by
    have := Finset.mem_range.mp hs
    omega
  rw [Nat.zero_add, stream_of_lt a hlt, Real.exp_log (ha _ _)]

theorem exp_colSum_log (ha : ∀ t d, 0 < a t d) (d : Fin dk) :
    Real.exp (colSum (a.map Real.log) d) = decay (gate a d) 0 C := by
  rw [colSum_apply, Real.exp_sum, ← prod_eq_decay]
  apply Finset.prod_congr rfl
  intro t _
  rw [map_apply, Real.exp_log (ha t d)]

end Logarithms

end ZeCo
