import Mathlib.Algebra.Order.BigOperators.Group.Finset
import ZeCo.NetworkProgress

namespace ZeCo.Network

variable {ρ τ Loc R E G : Type*} {m n : ℕ}

namespace Net

theorem position_lt {k b : ℕ} (φ : Phase) (hk : k < b) : position k φ < 7 * b := by
  cases φ <;> simp only [position, Phase.index] <;> omega

theorem position_next {N : Net ρ τ Loc R E G m n} {p : ρ} {t : τ} {k k' : ℕ} {φ φ' : Phase}
    (h : N.next p t k φ = some (k', φ')) : position k φ < position k' φ' := by
  cases φ <;> simp only [next, Option.some.injEq, Prod.mk.injEq] at h
  case emit =>
    obtain ⟨rfl, rfl⟩ := h
    split_ifs <;> simp only [position, Phase.index] <;> omega
  case reduce =>
    split_ifs at h
    obtain ⟨rfl, rfl⟩ := Prod.mk.inj (Option.some.inj h)
    simp only [position, Phase.index]
    omega
  all_goals
    obtain ⟨rfl, rfl⟩ := h
    simp only [position, Phase.index]
    omega

variable (N : Net ρ τ Loc R E G m n)

def size [Fintype ρ] : ℕ := ∑ p, ∑ t ∈ N.tasks p, (1 + 7 * N.blocks p t)

variable [DecidableEq τ]

def worked (s : State ρ τ Loc R E G) (p : ρ) (t : τ) : ℕ :=
  if t ∈ s.finished p then 1 + 7 * N.blocks p t
  else match s.cur p with
    | some (t', k, φ) => if t' = t then 1 + position k φ else 0
    | none => 0

def total [Fintype ρ] (s : State ρ τ Loc R E G) : ℕ := ∑ p, ∑ t ∈ N.tasks p, N.worked s p t

variable {N}

theorem worked_le {s : State ρ τ Loc R E G} (hc : N.Control s) (p : ρ) (t : τ) :
    N.worked s p t ≤ 1 + 7 * N.blocks p t := by
  unfold worked
  split_ifs
  · exact le_rfl
  · split
    next t' k φ hcur =>
      split_ifs with ht
      · subst ht
        have := position_lt φ (hc.current hcur).2.2.1
        omega
      · exact Nat.zero_le _
    · exact Nat.zero_le _

theorem total_le [Fintype ρ] {s : State ρ τ Loc R E G} (hc : N.Control s) :
    N.total s ≤ N.size := by
  apply Finset.sum_le_sum
  intro p _
  apply Finset.sum_le_sum
  intro t _
  exact worked_le hc p t

theorem total_lt [Fintype ρ] {s s' : State ρ τ Loc R E G} {p : ρ} {t : τ} (ht : t ∈ N.tasks p)
    (h : ∀ p' t', N.worked s p' t' ≤ N.worked s' p' t' ∧ N.worked s p t < N.worked s' p t) :
    N.total s < N.total s' := by
  apply Finset.sum_lt_sum
  · intro p' _
    exact Finset.sum_le_sum fun t' _ => (h p' t').1
  · refine ⟨p, Finset.mem_univ p, ?_⟩
    apply Finset.sum_lt_sum
    · exact fun t' _ => (h p t').1
    · exact ⟨t, ht, (h p t).2⟩

variable [DecidableEq ρ]

theorem worked_start {s : State ρ τ Loc R E G} {p : ρ} {t : τ} (h : N.CanStart s p t) (p' : ρ)
    (t' : τ) :
    let s' := { s with cur := Function.update s.cur p (some (t, 0, N.first p t)) }
    N.worked s p' t' ≤ N.worked s' p' t' ∧ N.worked s p t < N.worked s' p t := by
  obtain ⟨hidle, -, hf, -⟩ := h
  constructor
  · by_cases hp : p' = p
    · subst hp
      simp only [worked, hidle, Function.update_self]
      split_ifs <;> omega
    · simp only [worked, Function.update_of_ne hp, le_refl]
  · simp only [worked, hf, hidle, Function.update_self, if_true, if_false]
    omega

theorem worked_act {s : State ρ τ Loc R E G} (hc : N.Control s) {p : ρ} {t : τ} {k : ℕ}
    {φ : Phase} (hcur : s.cur p = some (t, k, φ)) (p' : ρ) (t' : τ) :
    let s' := N.advance s p t k φ
    N.worked s p' t' ≤ N.worked s' p' t' ∧ N.worked s p t < N.worked s' p t := by
  obtain ⟨-, hf, hk, -⟩ := hc.current hcur
  have self : N.worked s p t < N.worked (N.advance s p t k φ) p t := by
    cases hn : N.next p t k φ with
    | some c =>
      have hlt := position_next hn
      simp only [worked, advance, hn, hf, hcur, Function.update_self, if_true, if_false]
      omega
    | none =>
      have hlt := position_lt φ hk
      simp only [worked, advance, hn, hf, hcur, Function.update_self, Finset.mem_insert_self,
        if_true, if_false]
      omega
  refine ⟨?_, self⟩
  by_cases hp : p' = p
  · subst hp
    by_cases ht : t' = t
    · subst ht
      exact self.le
    · cases hn : N.next p' t k φ <;>
        simp only [worked, advance, hn, hcur, Function.update_self, Finset.mem_insert, ht,
          Ne.symm ht, if_false, false_or, le_refl]
  · cases hn : N.next p t k φ <;>
      simp only [worked, advance, hn, Function.update_of_ne hp, le_refl]

variable [DecidableEq Loc] [Zero R]

theorem effect_worked (s : State ρ τ Loc R E G) (p : ρ) (t : τ) (k : ℕ) (φ : Phase) :
    N.worked (N.effect s p t k φ) = N.worked s := by
  funext p' t'
  simp only [worked, effect_cur, effect_finished]

theorem step_total [Fintype ρ] {s s' : State ρ τ Loc R E G} {e : Event ρ τ} (hc : N.Control s)
    (h : N.step s e = some s') : N.total s < N.total s' := by
  obtain ⟨p, t, rfl, hs, rfl⟩ | ⟨p, t, k, φ, rfl, ⟨hcur, -⟩, rfl⟩ := step_cases h
  · exact total_lt hs.2.1 (worked_start hs)
  · have hcur' : (N.effect s p t k φ).cur p = some (t, k, φ) := by rw [effect_cur, hcur]
    refine total_lt (hc.current hcur).1 fun p' t' => ?_
    rw [← effect_worked s p t k φ]
    exact worked_act (effect_control hc p t k φ) hcur' p' t'

theorem run_length [Fintype ρ] (hb : ∀ p, ∀ t ∈ N.tasks p, 0 < N.blocks p t)
    {es : List (Event ρ τ)} {s : State ρ τ Loc R E G} (h : N.Run es s) : es.length ≤ N.size := by
  have key : N.Control s ∧ es.length ≤ N.total s := by
    refine Runs.exec_invariant (fun es s => N.Control s ∧ es.length ≤ N.total s) ?_ ?_ h
    · exact ⟨by constructor <;> simp [initial], Nat.zero_le _⟩
    · rintro es s e s' ⟨hc, hle⟩ hstep
      have hlt := step_total hc hstep
      refine ⟨?_, by rw [List.length_append, List.length_singleton]; omega⟩
      obtain ⟨p, t, rfl, hs, rfl⟩ | ⟨p, t, k, φ, rfl, ⟨hcur, -⟩, rfl⟩ := step_cases hstep
      · exact start_control hc hs (hb p t hs.2.1)
      · exact advance_control (effect_control hc p t k φ) (by rw [effect_cur, hcur])
  exact key.2.trans (total_le key.1)

theorem run_finishes [Fintype ρ] {prior measure : ρ → τ → ℕ} (hw : N.Wired)
    (hp : N.Progressive prior measure) (O : N.Outline) {es : List (Event ρ τ)}
    {s : State ρ τ Loc R E G} (h : N.Run es s) : ∃ fs s', N.Run (es ++ fs) s' ∧ N.Final s' := by
  obtain ⟨fs, s', hrun, hstuck⟩ :=
    Runs.exists_stuck (fun es s h => run_length hw.blocks_pos h) h
  exact ⟨fs, s', hrun, final_of_stuck hw hp O hrun hstuck⟩

def Finishes (N : Net ρ τ Loc R E G m n) (bound : ℕ) : Prop :=
  ∀ es s, N.Run es s → es.length ≤ bound ∧ ∃ fs s', N.Run (es ++ fs) s' ∧ N.Final s'

theorem finishes [Fintype ρ] {prior measure : ρ → τ → ℕ} (hw : N.Wired)
    (hp : N.Progressive prior measure) (O : N.Outline) : N.Finishes N.size :=
  fun _ _ h => ⟨run_length hw.blocks_pos h, run_finishes hw hp O h⟩

theorem Finishes.exists_final {bound : ℕ} (h : N.Finishes bound) : ∃ es s, N.Run es s ∧ N.Final s :=
  (h [] N.initial rfl).2

end Net

end ZeCo.Network
