import Mathlib.Algebra.BigOperators.Ring.Finset
import Mathlib.Analysis.Calculus.Deriv.Polynomial
import Mathlib.Data.Matrix.Basic
import Mathlib.Topology.Algebra.Module.ModuleTopology

namespace ZeCo.Autodiff

open Polynomial Topology

class Tensors (X : Type) [AddCommGroup X] [Module ℝ X] where
  pair : X → X → ℝ
  pair_zero : ∀ x, pair x 0 = 0
  ext : ∀ {g g'}, (∀ v, pair g v = pair g' v) → g = g'

export Tensors (pair)

section Instances

variable {ι : Type} [Fintype ι] {m n : ℕ} {X Y : Type} [AddCommGroup X] [Module ℝ X] [Tensors X]
  [AddCommGroup Y] [Module ℝ Y] [Tensors Y]

instance : Tensors ℝ where
  pair x y := x * y
  pair_zero := mul_zero
  ext {g g'} h := by simpa using h 1

theorem sum_pair_single [DecidableEq ι] (f : ι → X) (i : ι) (v : X) :
    ∑ j, pair (f j) ((Pi.single i v : ι → X) j) = pair (f i) v := by
  rw [Finset.sum_eq_single i]
  · rw [Pi.single_eq_same]
  · intro j _ hj
    rw [Pi.single_eq_of_ne hj, Tensors.pair_zero]
  · exact fun hi => absurd (Finset.mem_univ i) hi

instance : Tensors (ι → X) where
  pair x y := ∑ i, pair (x i) (y i)
  pair_zero x := by simp [Tensors.pair_zero]
  ext {g g'} h := by
    classical
    funext i
    apply Tensors.ext
    intro v
    rw [← sum_pair_single g, ← sum_pair_single g']
    exact h _

instance : Tensors (Matrix (Fin m) (Fin n) ℝ) :=
  inferInstanceAs (Tensors (Fin m → Fin n → ℝ))

instance : Tensors (X × Y) where
  pair x y := pair x.1 y.1 + pair x.2 y.2
  pair_zero x := by simp [Tensors.pair_zero]
  ext {g g'} h := by
    apply Prod.ext
    · apply Tensors.ext
      intro v
      simpa [Tensors.pair_zero] using h (v, 0)
    · apply Tensors.ext
      intro v
      simpa [Tensors.pair_zero] using h (0, v)

@[simp] theorem pair_real (x y : ℝ) : pair x y = x * y := rfl

@[simp] theorem pair_pi (x y : ι → X) : pair x y = ∑ i, pair (x i) (y i) := rfl

@[simp] theorem pair_matrix (A B : Matrix (Fin m) (Fin n) ℝ) :
    pair A B = ∑ i, ∑ j, A i j * B i j := rfl

@[simp] theorem pair_prod (x y : X × Y) : pair x y = pair x.1 y.1 + pair x.2 y.2 := rfl

end Instances

section Gradients

variable {X Y : Type} [AddCommGroup X] [Module ℝ X] [Tensors X] [AddCommGroup Y] [Module ℝ Y]
  [Tensors Y]

def IsGrad (F : X → Y) (x : X) (w : Y) (g : X) : Prop :=
  ∀ v, HasDerivAt (fun ε : ℝ => pair w (F (x + ε • v))) (pair g v) 0

theorem IsGrad.unique {F : X → Y} {x : X} {w : Y} {g g' : X} (h : IsGrad F x w g)
    (h' : IsGrad F x w g') : g = g' :=
  Tensors.ext fun v => (h v).unique (h' v)

theorem hasDerivAt_of_polynomial {f : ℝ → ℝ} {Φ : ℝ[X]} (h : ∀ᶠ ε in 𝓝 0, f ε = Φ.eval ε) :
    HasDerivAt f (Φ.coeff 1) 0 := by
  have hcoeff : (derivative Φ).eval 0 = Φ.coeff 1 := by
    rw [← coeff_zero_eq_eval_zero, coeff_derivative]
    simp
  have hΦ := Φ.hasDerivAt 0
  rw [hcoeff] at hΦ
  exact hΦ.congr_of_eventuallyEq h

theorem isGrad_of_polynomial {F : X → Y} {x : X} {w : Y} {g : X}
    (h : ∀ v, ∃ Φ : ℝ[X], (∀ᶠ ε in 𝓝 0, pair w (F (x + ε • v)) = Φ.eval ε) ∧
      Φ.coeff 1 = pair g v) : IsGrad F x w g := by
  intro v
  obtain ⟨Φ, hΦ, hcoeff⟩ := h v
  rw [← hcoeff]
  exact hasDerivAt_of_polynomial hΦ

end Gradients

structure Autograd where
  grad : ∀ {X Y : Type} [AddCommGroup X] [Module ℝ X] [Tensors X] [AddCommGroup Y] [Module ℝ Y]
    [Tensors Y], (X → Y) → X → Y → X
  grad_eq : ∀ {X Y : Type} [AddCommGroup X] [Module ℝ X] [Tensors X] [AddCommGroup Y] [Module ℝ Y]
    [Tensors Y] {F : X → Y} {x : X} {w : Y} {g : X}, IsGrad F x w g → grad F x w = g

open Classical in
noncomputable def Autograd.exact : Autograd where
  grad F x w := if h : ∃ g, IsGrad F x w g then h.choose else 0
  grad_eq {X Y} _ _ _ _ _ _ {F x w g} h := by
    have hex : ∃ g, IsGrad F x w g := ⟨g, h⟩
    rw [dif_pos hex]
    exact hex.choose_spec.unique h

end ZeCo.Autodiff
