import ZeCo.GlaCommon

namespace ZeCo

open Matrix Finset Recurrence

variable {R : Type*} {T dk dv : ℕ}

section Ring

variable [CommRing R] (Q K : Matrix (Fin T) (Fin dk) R) (V : Matrix (Fin T) (Fin dv) R)
  (A : Matrix (Fin T) (Fin dk) R) (dO : Matrix (Fin T) (Fin dv) R)

def gate (d : Fin dk) (t : ℕ) : R := stream A t d

def inflow (d : Fin dk) (e : Fin dv) (t : ℕ) : R := stream K t d * stream V t e

def demand (d : Fin dk) (e : Fin dv) (t : ℕ) : R := stream Q t d * stream dO t e

def stateAt (S : Matrix (Fin dk) (Fin dv) R) (t : ℕ) : Matrix (Fin dk) (Fin dv) R :=
  of fun d e => affine (gate A d) (inflow K V d e) (S d e) t

/-- The gradient that flows into the state before token `t` from the tokens `t, .., T - 1`, when
`E` flows into the state after the last one. -/
def adjointAt (E : Matrix (Fin dk) (Fin dv) R) (t : ℕ) : Matrix (Fin dk) (Fin dv) R :=
  of fun d e => adjoint (gate A d) (demand Q dO d e) (E d e) T t

def totalAt (E : Matrix (Fin dk) (Fin dv) R) (t : ℕ) : Matrix (Fin dk) (Fin dv) R :=
  of fun d e => demand Q dO d e t + adjointAt Q A dO E (t + 1) d e

@[simp] theorem stateAt_zero (S : Matrix (Fin dk) (Fin dv) R) : stateAt K V A S 0 = S := rfl

theorem stateAt_apply (S : Matrix (Fin dk) (Fin dv) R) (t : ℕ) (d : Fin dk) (e : Fin dv) :
    stateAt K V A S t d e = affine (gate A d) (inflow K V d e) (S d e) t := rfl

theorem adjointAt_apply (E : Matrix (Fin dk) (Fin dv) R) (t : ℕ) (d : Fin dk) (e : Fin dv) :
    adjointAt Q A dO E t d e = adjoint (gate A d) (demand Q dO d e) (E d e) T t := rfl

theorem totalAt_apply (E : Matrix (Fin dk) (Fin dv) R) (t : ℕ) (d : Fin dk) (e : Fin dv) :
    totalAt Q A dO E t d e = demand Q dO d e t + adjointAt Q A dO E (t + 1) d e := rfl

theorem stateAt_succ (S : Matrix (Fin dk) (Fin dv) R) (t : Fin T) :
    stateAt K V A S (t + 1) = rowScale (A t) (stateAt K V A S t) + vecMulVec (K t) (V t) := by
  ext d e
  simp [stateAt_apply, affine_succ, gate, inflow, stream_fin, vecMulVec_apply]

@[simp] theorem adjointAt_last (E : Matrix (Fin dk) (Fin dv) R) : adjointAt Q A dO E T = E := by
  ext d e
  simp [adjointAt_apply]

theorem totalAt_fin (E : Matrix (Fin dk) (Fin dv) R) (t : Fin T) :
    totalAt Q A dO E t = adjointAt Q A dO E (t + 1) + vecMulVec (Q t) (dO t) := by
  ext d e
  simp [totalAt_apply, demand, stream_fin, vecMulVec_apply, add_comm]

theorem adjointAt_step (E : Matrix (Fin dk) (Fin dv) R) (t : Fin T) :
    adjointAt Q A dO E t = rowScale (A t) (totalAt Q A dO E t) := by
  ext d e
  rw [adjointAt_apply, adjoint_step _ _ _ t.isLt, rowScale_apply, totalAt_apply, adjointAt_apply,
    gate, stream_fin]

def outputAt (S : Matrix (Fin dk) (Fin dv) R) (t : Fin T) : Fin dv → R :=
  Q t ᵥ* stateAt K V A S (t + 1)

theorem expectedGla_row (t : Fin T) : expectedGla Q K V A t = outputAt Q K V A 0 t := by
  have key := Loop.up_invariant
    (f := fun t (x : Matrix (Fin dk) (Fin dv) R × Matrix (Fin T) (Fin dv) R) =>
      let S := rowScale (A t) x.1 + vecMulVec (K t) (V t)
      (S, updateRow x.2 t (Q t ᵥ* S))) (s := (0, 0))
    (fun n x => x.1 = stateAt K V A 0 n ∧
      ∀ i : Fin T, i.val < n → x.2 i = outputAt Q K V A 0 i)
    ⟨rfl, fun i hi => absurd hi (Nat.not_lt_zero _)⟩ ?_
  · exact key.2 t t.isLt
  · rintro t ⟨S, O⟩ ⟨rfl, hO⟩
    have hs := stateAt_succ K V A 0 t
    refine ⟨hs.symm, fun i hi => ?_⟩
    by_cases h : i = t
    · subst h
      rw [← hs]
      exact updateRow_self
    · have hne : i.val ≠ t := fun he => h (Fin.ext he)
      exact (updateRow_ne h).trans (hO i (by omega))

theorem stateHist_apply (t : Fin T) : stateHist K V A t = stateAt K V A 0 (t + 1) := by
  have key := Loop.up_invariant
    (f := fun t (x : Matrix (Fin dk) (Fin dv) R × (Fin T → Matrix (Fin dk) (Fin dv) R)) =>
      let S := rowScale (A t) x.1 + vecMulVec (K t) (V t)
      (S, Function.update x.2 t S)) (s := (0, fun _ => 0))
    (fun n x => x.1 = stateAt K V A 0 n ∧
      ∀ i : Fin T, i.val < n → x.2 i = stateAt K V A 0 (i + 1))
    ⟨rfl, fun i hi => absurd hi (Nat.not_lt_zero _)⟩ ?_
  · exact key.2 t t.isLt
  · rintro t ⟨S, hist⟩ ⟨rfl, hh⟩
    have hs := stateAt_succ K V A 0 t
    refine ⟨hs.symm, ?_⟩
    rw [← hs]
    exact Loop.written_slot (fun i => stateAt K V A 0 (i + 1)) hh

structure RowGrads (dk dv : ℕ) (R : Type*) where
  dQ : Fin dk → R
  dK : Fin dk → R
  dV : Fin dv → R
  dA : Fin dk → R

def Grads.row (g : Grads T dk dv R) (t : Fin T) : RowGrads dk dv R :=
  ⟨g.dQ t, g.dK t, g.dV t, g.dA t⟩

def rowGradsAt (S E : Matrix (Fin dk) (Fin dv) R) (t : Fin T) : RowGrads dk dv R :=
  { dQ := stateAt K V A S (t + 1) *ᵥ dO t
    dK := totalAt Q A dO E t *ᵥ V t
    dV := K t ᵥ* totalAt Q A dO E t
    dA := rowSum (totalAt Q A dO E t ⊙ stateAt K V A S t) }

theorem expectedGlaBackward_row (t : Fin T) :
    (expectedGlaBackward Q K V A dO).row t = rowGradsAt Q K V A dO 0 0 t := by
  have key := Loop.down_invariant
    (f := fun t (x : Matrix (Fin dk) (Fin dv) R × Grads T dk dv R) =>
      let dS := x.1 + vecMulVec (Q t) (dO t)
      let sPrev := if t.val = 0 then 0 else stateHist K V A ⟨t - 1, pred_lt t⟩
      let g : Grads T dk dv R :=
        { dQ := updateRow x.2.dQ t (stateHist K V A t *ᵥ dO t)
          dK := updateRow x.2.dK t (dS *ᵥ V t)
          dV := updateRow x.2.dV t (K t ᵥ* dS)
          dA := updateRow x.2.dA t (rowSum (dS ⊙ sPrev)) }
      (rowScale (A t) dS, g)) (s := (0, ⟨0, 0, 0, 0⟩))
    (fun n x => x.1 = adjointAt Q A dO 0 n ∧
      ∀ i : Fin T, n ≤ i.val → x.2.row i = rowGradsAt Q K V A dO 0 0 i)
    ⟨(adjointAt_last Q A dO 0).symm, fun i hi => absurd i.isLt (by omega)⟩ ?_
  · exact key.2 t (Nat.zero_le _)
  · rintro t ⟨dS, g⟩ ⟨rfl, hg⟩
    have ht := totalAt_fin Q A dO 0 t
    refine ⟨?_, fun i hi => ?_⟩
    · change rowScale (A t) (adjointAt Q A dO 0 (t + 1) + vecMulVec (Q t) (dO t)) = _
      rw [← ht, adjointAt_step]
    simp only [← ht]
    by_cases h : i = t
    · subst h
      -- the state before token 0 is the zero state, not an entry of `S_hist`
      have hp : (if i.val = 0 then 0 else stateHist K V A ⟨i - 1, by omega⟩) =
          stateAt K V A 0 i := by
        split_ifs with h0
        · rw [h0, stateAt_zero]
        · rw [stateHist_apply]
          congr 1
          change i.val - 1 + 1 = i.val
          omega
      simp only [Grads.row, updateRow_self, rowGradsAt, hp]
      rw [stateHist_apply]
    · have hne : i.val ≠ t := fun he => h (Fin.ext he)
      refine Eq.trans ?_ (hg i (by omega))
      simp only [Grads.row, updateRow_ne h]

end Ring

end ZeCo
