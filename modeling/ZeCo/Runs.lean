import Mathlib.Data.List.Induction

namespace ZeCo.Runs

variable {σ ε : Type*} (step : σ → ε → Option σ)

def exec : σ → List ε → Option σ
  | s, [] => some s
  | s, e :: es => (step s e).bind fun s' => exec s' es

def Stuck (s : σ) : Prop := ∀ e, step s e = none

variable {step}

theorem exec_append (s : σ) (es fs : List ε) :
    exec step s (es ++ fs) = (exec step s es).bind fun x => exec step x fs := by
  induction es generalizing s with
  | nil => rfl
  | cons e es ih =>
    change (step s e).bind _ = ((step s e).bind _).bind _
    cases step s e with
    | none => rfl
    | some x => exact ih x

theorem exec_snoc {s y : σ} {es : List ε} {e : ε} :
    exec step s (es ++ [e]) = some y ↔ ∃ x, exec step s es = some x ∧ step x e = some y := by
  rw [exec_append]
  cases exec step s es with
  | none => simp
  | some x => simp [exec]

theorem exec_prefix {s y : σ} {es fs : List ε} (h : exec step s (es ++ fs) = some y) :
    ∃ x, exec step s es = some x := by
  rw [exec_append] at h
  cases hx : exec step s es with
  | none => simp [hx] at h
  | some x => exact ⟨x, rfl⟩

theorem exec_invariant {s y : σ} {es : List ε} (I : List ε → σ → Prop) (start : I [] s)
    (next : ∀ es x e y, I es x → step x e = some y → I (es ++ [e]) y)
    (h : exec step s es = some y) : I es y := by
  induction es using List.reverseRecOn generalizing y with
  | nil =>
    cases h
    exact start
  | append_singleton es e ih =>
    obtain ⟨x, hx, hy⟩ := exec_snoc.mp h
    exact next es x e y (ih hx) hy

theorem exists_stuck {s y : σ} {es : List ε} {n : ℕ}
    (bound : ∀ es y, exec step s es = some y → es.length ≤ n) (h : exec step s es = some y) :
    ∃ fs x, exec step s (es ++ fs) = some x ∧ Stuck step x := by
  induction hm : n - es.length using Nat.strongRecOn generalizing es y with
  | ind d ih =>
    by_cases hstuck : Stuck step y
    · exact ⟨[], y, by rwa [List.append_nil], hstuck⟩
    · obtain ⟨e, he⟩ := not_forall.mp hstuck
      obtain ⟨x, hx⟩ := Option.ne_none_iff_exists'.mp he
      have hnext : exec step s (es ++ [e]) = some x := exec_snoc.mpr ⟨y, h, hx⟩
      have hle := bound _ _ hnext
      rw [List.length_append, List.length_singleton] at hle
      obtain ⟨fs, z, hz, hstuck⟩ := ih _ (by
        rw [List.length_append, List.length_singleton]
        omega) hnext rfl
      exact ⟨e :: fs, z, by rwa [List.append_cons], hstuck⟩

def Always (C : List ε → ε → Prop) (es : List ε) : Prop :=
  ∀ es₁ e es₂, es = es₁ ++ e :: es₂ → C es₁ e

variable {C : List ε → ε → Prop} {es : List ε}

theorem always_iff : Always C es ↔ ∀ i (h : i < es.length), C (es.take i) es[i] := by
  constructor
  · intro h i hi
    apply h _ _ (es.drop (i + 1))
    rw [List.getElem_cons_drop, List.take_append_drop]
  · rintro h es₁ e es₂ rfl
    simpa using h es₁.length (by simp)

instance [∀ es e, Decidable (C es e)] : Decidable (Always C es) :=
  decidable_of_iff _ always_iff.symm

theorem Always.init {e : ε} (h : Always C (es ++ [e])) : Always C es ∧ C es e := by
  refine ⟨fun es₁ e' es₂ he => ?_, h es e [] rfl⟩
  apply h es₁ e' (es₂ ++ [e])
  rw [he, List.append_assoc, List.cons_append]

theorem exec_invariant_of_always {s y : σ} (I : List ε → σ → Prop) (start : I [] s)
    (next : ∀ es x e y, I es x → C es e → step x e = some y → I (es ++ [e]) y)
    (h : exec step s es = some y) (hC : Always C es) : I es y := by
  revert hC
  refine exec_invariant (fun es y => Always C es → I es y) (fun _ => start) ?_ h
  intro es x e y ih hstep hC
  exact next es x e y (ih hC.init.1) hC.init.2 hstep

end ZeCo.Runs
