import Mathlib.Data.Set.Insert
import ZeCo.NetworkTermination

namespace ZeCo.Network

variable {ρ τ Loc R E G : Type*} {m n : ℕ} [DecidableEq ρ] [DecidableEq τ] [DecidableEq Loc]
  [Zero R]

namespace Net

variable {N : Net ρ τ Loc R E G m n}

theorem run_shared (hw : N.Wired) (O : N.Outline) (J : ρ → Set (τ × ℕ × Phase) → E → Prop)
    (start : ∀ p, J p ∅ (N.env₀ p))
    (emit : ∀ {p t k D e g}, k < N.blocks p t → O.At p t k .loaded e g → J p D e →
      J p (insert (t, k, .emit) D) (N.emit p t k e g).1)
    (reduce : ∀ {p t k D e g}, k < N.blocks p t → O.At p t k .emitted e g → J p D e →
      J p (insert (t, k, .reduce) D) (N.reduce p t k e g).1)
    (other : ∀ {p t k φ D e}, φ ≠ .emit → φ ≠ .reduce → J p D e → J p (insert (t, k, φ) D) e)
    {es : List (Event ρ τ)} {s : State ρ τ Loc R E G} (h : N.Run es s) :
    ∀ p, J p {x | .act p x.1 x.2.1 x.2.2 ∈ es} (s.env p) := by
  have key : N.Run es s ∧ ∀ p, J p {x | .act p x.1 x.2.1 x.2.2 ∈ es} (s.env p) := by
    refine Runs.exec_invariant (fun es s =>
      N.Run es s ∧ ∀ p, J p {x | .act p x.1 x.2.1 x.2.2 ∈ es} (s.env p)) ?_ ?_ h
    · refine ⟨rfl, fun p => ?_⟩
      simpa [initial] using start p
    · rintro es s e s' ⟨hrun, hJ⟩ hstep
      refine ⟨Runs.exec_snoc.mpr ⟨s, hrun, hstep⟩, fun p => ?_⟩
      have hs := run_safe hw O hrun
      obtain ⟨q, t, rfl, -, rfl⟩ | ⟨q, t, k, φ, rfl, ⟨hcur, -⟩, rfl⟩ := step_cases hstep
      · simpa using hJ p
      · obtain ⟨-, -, hk, -⟩ := hs.control.current hcur
        have hnow := hs.now hcur
        by_cases hp : p = q
        · subst hp
          have hset : {x : τ × ℕ × Phase | Event.act p x.1 x.2.1 x.2.2 ∈ es ++ [.act p t k φ]} =
              insert (t, k, φ) {x | .act p x.1 x.2.1 x.2.2 ∈ es} := by
            ext ⟨t', k', φ'⟩
            simp only [Set.mem_ofPred_eq, List.mem_append, List.mem_singleton, Event.act.injEq,
              true_and, Set.mem_insert_iff, Prod.mk.injEq]
            exact or_comm
          rw [hset, advance_env]
          cases φ with
          | emit =>
            simp only [effect, Function.update_self]
            exact emit hk hnow (hJ p)
          | reduce =>
            simp only [effect, Function.update_self]
            exact reduce hk hnow (hJ p)
          | wait | load | store | flush | notify => exact other (by simp) (by simp) (hJ p)
        · rw [(act_other s t k φ hp).1]
          have hset : {x : τ × ℕ × Phase | Event.act p x.1 x.2.1 x.2.2 ∈ es ++ [.act q t k φ]} =
              {x | .act p x.1 x.2.1 x.2.2 ∈ es} := by
            ext x
            simp [hp]
          rw [hset]
          exact hJ p
  exact key.2

theorem final_did (hw : N.Wired) {es : List (Event ρ τ)} {s : State ρ τ Loc R E G}
    (h : N.Run es s) (hfinal : N.Final s) {p : ρ} {t : τ} {k : ℕ} {φ : Phase}
    (ht : t ∈ N.tasks p) (hk : k < N.blocks p t) (hd : N.Does p t φ) : .act p t k φ ∈ es := by
  rw [(run_control hw.blocks_pos h).2]
  exact ⟨hk, hd, .inl (hfinal p ▸ ht)⟩

end Net

end ZeCo.Network
