import ZeCo.Network

namespace ZeCo.Network

variable {ρ τ Loc R E G : Type*} {m n : ℕ}

namespace Net

variable (N : Net ρ τ Loc R E G m n)

def Does (p : ρ) (t : τ) : Phase → Prop
  | .wait => N.waits p t
  | .store | .flush | .notify => (N.peer p t).isSome
  | .load | .emit | .reduce => True

def position (k : ℕ) (φ : Phase) : ℕ := 7 * k + φ.index

def Did (s : State ρ τ Loc R E G) (p : ρ) (t : τ) (k : ℕ) (φ : Phase) : Prop :=
  k < N.blocks p t ∧ N.Does p t φ ∧ (t ∈ s.finished p ∨
    ∃ k' φ', s.cur p = some (t, k', φ') ∧ position k φ < position k' φ')

structure Control (s : State ρ τ Loc R E G) : Prop where
  current : ∀ {p t k φ}, s.cur p = some (t, k, φ) →
    t ∈ N.tasks p ∧ t ∉ s.finished p ∧ k < N.blocks p t ∧ N.Does p t φ
  finished : ∀ {p t}, t ∈ s.finished p → t ∈ N.tasks p
  needs : ∀ {p t t'}, (t ∈ s.finished p ∨ ∃ c, s.cur p = some (t, c)) → t' ∈ N.tasks p →
    N.needs p t t' → t' ∈ s.finished p

variable {N}

theorem position_inj {k k' : ℕ} {φ φ' : Phase} (h : position k φ = position k' φ') :
    k = k' ∧ φ = φ' := by
  cases φ <;> cases φ' <;> simp only [position, Phase.index] at h <;>
    first
    | exact ⟨by omega, rfl⟩
    | (exfalso; omega)

theorem next_some {p : ρ} {t : τ} {k k' : ℕ} {φ φ' : Phase} (hk : k < N.blocks p t)
    (hd : N.Does p t φ) (h : N.next p t k φ = some (k', φ')) :
    k' < N.blocks p t ∧ N.Does p t φ' ∧ ∀ j ψ, N.Does p t ψ →
      (position j ψ < position k' φ' ↔ position j ψ < position k φ ∨ (j = k ∧ ψ = φ)) := by
  have line (j : ℕ) (ψ : Phase) (hψ : position j ψ = position k φ ↔ j = k ∧ ψ = φ) :
      (position j ψ < position k φ ∨ (j = k ∧ ψ = φ)) ↔ position j ψ ≤ position k φ := by
    rw [← hψ]
    omega
  have same (j : ℕ) (ψ : Phase) : position j ψ = position k φ ↔ j = k ∧ ψ = φ :=
    ⟨position_inj, by rintro ⟨rfl, rfl⟩; rfl⟩
  simp only [line _ _ (same _ _)]
  cases φ <;> simp only [next, Option.some.injEq, Prod.mk.injEq] at h
  case emit =>
    obtain ⟨rfl, rfl⟩ := h
    by_cases hp : (N.peer p t).isSome
    · rw [if_pos hp]
      refine ⟨hk, hp, fun j ψ hψ => ?_⟩
      cases ψ <;> simp only [position, Phase.index] <;> omega
    · rw [if_neg hp]
      refine ⟨hk, trivial, fun j ψ hψ => ?_⟩
      cases ψ <;> simp only [Does] at hψ <;>
        first
        | exact absurd hψ hp
        | (simp only [position, Phase.index]; omega)
  case reduce =>
    split_ifs at h with hn
    obtain ⟨rfl, rfl⟩ := Prod.mk.inj (Option.some.inj h)
    by_cases hw : N.waits p t
    · rw [first, if_pos hw]
      refine ⟨hn, hw, fun j ψ hψ => ?_⟩
      cases ψ <;> simp only [position, Phase.index] <;> omega
    · rw [first, if_neg hw]
      refine ⟨hn, trivial, fun j ψ hψ => ?_⟩
      cases ψ <;> simp only [Does] at hψ <;>
        first
        | exact absurd hψ hw
        | (simp only [position, Phase.index]; omega)
  all_goals
    obtain ⟨rfl, rfl⟩ := h
    refine ⟨hk, ?_, fun j ψ hψ => ?_⟩
    · first | exact hd | trivial
    · cases ψ <;> simp only [position, Phase.index] <;> omega

theorem next_none {p : ρ} {t : τ} {k : ℕ} {φ : Phase} (h : N.next p t k φ = none) :
    φ = .reduce ∧ N.blocks p t ≤ k + 1 := by
  cases φ <;> simp only [next, reduceCtorEq] at h
  split_ifs at h with hn
  exact ⟨rfl, by omega⟩

theorem did_current {s : State ρ τ Loc R E G} {p : ρ} {t : τ} {k : ℕ} {φ : Phase}
    (hcur : s.cur p = some (t, k, φ)) (hf : t ∉ s.finished p) (k' : ℕ) (φ' : Phase) :
    N.Did s p t k' φ' ↔
      k' < N.blocks p t ∧ N.Does p t φ' ∧ position k' φ' < position k φ := by
  simp [Did, hcur, hf]

theorem not_did_current {s : State ρ τ Loc R E G} (hc : N.Control s) {p : ρ} {t : τ} {k : ℕ}
    {φ : Phase} (hcur : s.cur p = some (t, k, φ)) {k' : ℕ} {φ' : Phase}
    (h : position k φ ≤ position k' φ') : ¬ N.Did s p t k' φ' := by
  rintro ⟨-, -, hf | ⟨k'', φ'', hcur', hlt⟩⟩
  · exact (hc.current hcur).2.1 hf
  · rw [hcur] at hcur'
    cases hcur'
    omega

variable [DecidableEq ρ]

theorem next_control {s : State ρ τ Loc R E G} (hc : N.Control s) {p : ρ} {t : τ} {k k' : ℕ}
    {φ φ' : Phase} (hcur : s.cur p = some (t, k, φ)) (hn : N.next p t k φ = some (k', φ')) :
    N.Control { s with cur := Function.update s.cur p (some (t, k', φ')) } := by
  obtain ⟨ht, hf, hk, hd⟩ := hc.current hcur
  obtain ⟨hk', hd', -⟩ := next_some hk hd hn
  constructor
  · intro q t' j ψ h
    by_cases hq : q = p
    · subst hq
      simp only [Function.update_self] at h
      cases h
      exact ⟨ht, hf, hk', hd'⟩
    · simp only [Function.update_of_ne hq] at h
      exact hc.current h
  · exact hc.finished
  · intro q t₁ t₂ h
    by_cases hq : q = p
    · subst hq
      refine hc.needs (h.imp_right ?_)
      rintro ⟨c, hcq⟩
      simp only [Function.update_self] at hcq
      cases hcq
      exact ⟨_, hcur⟩
    · simp only [Function.update_of_ne hq] at h
      exact hc.needs h

theorem start_control {s : State ρ τ Loc R E G} (hc : N.Control s) {p : ρ} {t : τ}
    (hs : N.CanStart s p t) (hb : 0 < N.blocks p t) :
    N.Control { s with cur := Function.update s.cur p (some (t, 0, N.first p t)) } := by
  obtain ⟨hidle, ht, hf, hneeds⟩ := hs
  constructor
  · intro q t' j ψ h
    by_cases hq : q = p
    · subst hq
      simp only [Function.update_self, Option.some.injEq, Prod.mk.injEq] at h
      obtain ⟨rfl, rfl, rfl⟩ := h
      refine ⟨ht, hf, hb, ?_⟩
      by_cases hw : N.waits q t
      · rw [first, if_pos hw]
        exact hw
      · rw [first, if_neg hw]
        trivial
    · simp only [Function.update_of_ne hq] at h
      exact hc.current h
  · exact hc.finished
  · intro q t₁ t₂ h ht₂ hneed
    by_cases hq : q = p
    · subst hq
      rcases h with h | ⟨c, h⟩
      · exact hc.needs (.inl h) ht₂ hneed
      · simp only [Function.update_self, Option.some.injEq, Prod.mk.injEq] at h
        obtain ⟨rfl, -⟩ := h
        exact hneeds t₂ ht₂ hneed
    · simp only [Function.update_of_ne hq] at h
      exact hc.needs h ht₂ hneed

section Effects

variable [DecidableEq Loc] [Zero R]

@[simp] theorem effect_cur (s : State ρ τ Loc R E G) (p : ρ) (t : τ) (k : ℕ) (φ : Phase) :
    (N.effect s p t k φ).cur = s.cur := by
  cases φ <;> rfl

@[simp] theorem effect_finished (s : State ρ τ Loc R E G) (p : ρ) (t : τ) (k : ℕ) (φ : Phase) :
    (N.effect s p t k φ).finished = s.finished := by
  cases φ <;> rfl

theorem effect_did (s : State ρ τ Loc R E G) (p : ρ) (t : τ) (k : ℕ) (φ : Phase) (p' : ρ) (t' : τ)
    (k' : ℕ) (φ' : Phase) : N.Did (N.effect s p t k φ) p' t' k' φ' ↔ N.Did s p' t' k' φ' := by
  simp only [Did, effect_cur, effect_finished]

theorem effect_control {s : State ρ τ Loc R E G} (hc : N.Control s) (p : ρ) (t : τ) (k : ℕ)
    (φ : Phase) : N.Control (N.effect s p t k φ) := by
  constructor <;> simp only [effect_cur, effect_finished]
  exacts [hc.current, hc.finished, hc.needs]

end Effects

variable [DecidableEq τ]

@[simp] theorem advance_mem (s : State ρ τ Loc R E G) (p : ρ) (t : τ) (k : ℕ) (φ : Phase) :
    (N.advance s p t k φ).mem = s.mem := by
  rw [advance]
  split <;> rfl

@[simp] theorem advance_env (s : State ρ τ Loc R E G) (p : ρ) (t : τ) (k : ℕ) (φ : Phase) :
    (N.advance s p t k φ).env = s.env := by
  rw [advance]
  split <;> rfl

@[simp] theorem advance_reg (s : State ρ τ Loc R E G) (p : ρ) (t : τ) (k : ℕ) (φ : Phase) :
    (N.advance s p t k φ).reg = s.reg := by
  rw [advance]
  split <;> rfl

theorem did_advance_self {s : State ρ τ Loc R E G} {p : ρ} {t : τ} {k : ℕ} {φ : Phase}
    (hc : N.Control s) (hcur : s.cur p = some (t, k, φ)) (k' : ℕ) (φ' : Phase) :
    N.Did (N.advance s p t k φ) p t k' φ' ↔ N.Did s p t k' φ' ∨ (k' = k ∧ φ' = φ) := by
  obtain ⟨-, hf, hk, hd⟩ := hc.current hcur
  rw [did_current hcur hf]
  cases hn : N.next p t k φ with
  | some c =>
    obtain ⟨k'', φ''⟩ := c
    obtain ⟨-, -, hline⟩ := next_some hk hd hn
    have after : N.Did (N.advance s p t k φ) p t k' φ' ↔
        k' < N.blocks p t ∧ N.Does p t φ' ∧ position k' φ' < position k'' φ'' :=
      did_current (by simp [advance, hn]) (by simp [advance, hn, hf]) k' φ'
    rw [after]
    constructor
    · rintro ⟨hk', hd', hlt⟩
      rcases (hline k' φ' hd').mp hlt with hlt | hsame
      · exact .inl ⟨hk', hd', hlt⟩
      · exact .inr hsame
    · rintro (⟨hk', hd', hlt⟩ | ⟨rfl, rfl⟩)
      · exact ⟨hk', hd', (hline k' φ' hd').mpr (.inl hlt)⟩
      · exact ⟨hk, hd, (hline k' φ' hd).mpr (.inr ⟨rfl, rfl⟩)⟩
  | none =>
    obtain ⟨rfl, hlast⟩ := next_none hn
    have after : N.Did (N.advance s p t k .reduce) p t k' φ' ↔
        k' < N.blocks p t ∧ N.Does p t φ' := by
      simp [Did, advance, hn]
    rw [after]
    constructor
    · rintro ⟨hk', hd'⟩
      have hle : position k' φ' ≤ position k .reduce := by
        cases φ' <;> simp only [position, Phase.index] <;> omega
      rcases Nat.lt_or_eq_of_le hle with hlt | heq
      · exact .inl ⟨hk', hd', hlt⟩
      · exact .inr (position_inj heq)
    · rintro (⟨hk', hd', -⟩ | ⟨rfl, rfl⟩)
      · exact ⟨hk', hd'⟩
      · exact ⟨hk, hd⟩

theorem did_advance_ne {s : State ρ τ Loc R E G} {p p' : ρ} {t t' : τ} {k : ℕ} {φ : Phase}
    (hcur : s.cur p = some (t, k, φ)) (h : ¬ (p' = p ∧ t' = t)) (k' : ℕ) (φ' : Phase) :
    N.Did (N.advance s p t k φ) p' t' k' φ' ↔ N.Did s p' t' k' φ' := by
  by_cases hp : p' = p
  · subst hp
    have ht : t' ≠ t := fun ht => h ⟨rfl, ht⟩
    cases hn : N.next p' t k φ <;> simp [Did, advance, hn, ht, ht.symm, hcur]
  · cases hn : N.next p t k φ <;> simp [Did, advance, hn, hp]

theorem did_act {s : State ρ τ Loc R E G} {p : ρ} {t : τ} {k : ℕ} {φ : Phase} (hc : N.Control s)
    (hcur : s.cur p = some (t, k, φ)) (p' : ρ) (t' : τ) (k' : ℕ) (φ' : Phase) :
    N.Did (N.advance s p t k φ) p' t' k' φ' ↔
      N.Did s p' t' k' φ' ∨ (p' = p ∧ t' = t ∧ k' = k ∧ φ' = φ) := by
  by_cases h : p' = p ∧ t' = t
  · obtain ⟨rfl, rfl⟩ := h
    rw [did_advance_self hc hcur]
    simp only [true_and]
  · rw [did_advance_ne hcur h]
    exact ⟨.inl, fun hd => hd.elim id fun he => absurd ⟨he.1, he.2.1⟩ h⟩

theorem did_start {s : State ρ τ Loc R E G} {p : ρ} {t : τ} (hs : N.CanStart s p t) (p' : ρ)
    (t' : τ) (k' : ℕ) (φ' : Phase) :
    N.Did { s with cur := Function.update s.cur p (some (t, 0, N.first p t)) } p' t' k' φ' ↔
      N.Did s p' t' k' φ' := by
  obtain ⟨hidle, -, hf, -⟩ := hs
  by_cases hp : p' = p
  · subst hp
    by_cases ht : t' = t
    · subst ht
      have hfirst (hd : N.Does p' t' φ') : ¬ position k' φ' < position 0 (N.first p' t') := by
        intro hlt
        rw [first] at hlt
        split_ifs at hlt with hw
        · simp only [position, Phase.index] at hlt
          omega
        · cases φ' <;> simp only [position, Phase.index] at hlt <;>
            first
            | exact hw hd
            | omega
      simp only [Did, Function.update_self, hf, hidle, false_or]
      constructor
      · rintro ⟨-, hd, k, φ, h, hlt⟩
        cases h
        exact absurd hlt (hfirst hd)
      · rintro ⟨-, -, k, φ, h, -⟩
        cases h
    · simp [Did, hidle, Ne.symm ht]
  · simp [Did, hp]

theorem finish_control {s : State ρ τ Loc R E G} (hc : N.Control s) {p : ρ} {t : τ} {k : ℕ}
    {φ : Phase} (hcur : s.cur p = some (t, k, φ)) :
    N.Control { s with
      cur := Function.update s.cur p none
      finished := Function.update s.finished p (insert t (s.finished p)) } := by
  constructor
  · intro q t' j ψ h
    by_cases hq : q = p
    · subst hq
      simp only [Function.update_self] at h
      cases h
    · simp only [Function.update_of_ne hq] at h ⊢
      exact hc.current h
  · intro q t' h
    by_cases hq : q = p
    · subst hq
      simp only [Function.update_self, Finset.mem_insert] at h
      rcases h with rfl | h
      · exact (hc.current hcur).1
      · exact hc.finished h
    · simp only [Function.update_of_ne hq] at h
      exact hc.finished h
  · intro q t₁ t₂ h ht₂ hneed
    by_cases hq : q = p
    · subst hq
      simp only [Function.update_self, Finset.mem_insert] at h ⊢
      rcases h with (rfl | h) | ⟨c, h⟩
      · exact .inr (hc.needs (.inr ⟨_, hcur⟩) ht₂ hneed)
      · exact .inr (hc.needs (.inl h) ht₂ hneed)
      · cases h
    · simp only [Function.update_of_ne hq] at h ⊢
      exact hc.needs h ht₂ hneed

theorem advance_control {s : State ρ τ Loc R E G} (hc : N.Control s) {p : ρ} {t : τ} {k : ℕ}
    {φ : Phase} (hcur : s.cur p = some (t, k, φ)) : N.Control (N.advance s p t k φ) := by
  cases hn : N.next p t k φ with
  | some c =>
    simp only [advance, hn]
    exact next_control hc hcur hn
  | none =>
    simp only [advance, hn]
    exact finish_control hc hcur

variable [DecidableEq Loc] [Zero R]

theorem step_cases {s s' : State ρ τ Loc R E G} {e : Event ρ τ} (h : N.step s e = some s') :
    (∃ p t, e = .start p t ∧ N.CanStart s p t ∧
      s' = { s with cur := Function.update s.cur p (some (t, 0, N.first p t)) }) ∨
    (∃ p t k φ, e = .act p t k φ ∧ N.CanAct s p t k φ ∧
      s' = N.advance (N.effect s p t k φ) p t k φ) := by
  cases e with
  | start p t =>
    rw [step] at h
    split_ifs at h with hs
    exact .inl ⟨p, t, rfl, hs, (Option.some.inj h).symm⟩
  | act p t k φ =>
    rw [step] at h
    split_ifs at h with ha
    exact .inr ⟨p, t, k, φ, rfl, ha, (Option.some.inj h).symm⟩

variable (hb : ∀ p, ∀ t ∈ N.tasks p, 0 < N.blocks p t)
include hb

theorem run_control {es : List (Event ρ τ)} {s : State ρ τ Loc R E G} (h : N.Run es s) :
    N.Control s ∧ ∀ p t k φ, Event.act p t k φ ∈ es ↔ N.Did s p t k φ := by
  refine Runs.exec_invariant (fun es s => N.Control s ∧ ∀ p t k φ, Event.act p t k φ ∈ es ↔
    N.Did s p t k φ) ?_ ?_ h
  · refine ⟨⟨?_, ?_, ?_⟩, ?_⟩ <;> simp [initial, Did]
  · rintro es s e s' ⟨hc, ht⟩ hstep
    obtain ⟨p, t, rfl, hs, rfl⟩ | ⟨p, t, k, φ, rfl, ⟨hcur, -⟩, rfl⟩ := step_cases hstep
    · refine ⟨start_control hc hs (hb p t hs.2.1), fun p' t' k' φ' => ?_⟩
      rw [did_start hs, ← ht]
      simp
    · have hcur' : (N.effect s p t k φ).cur p = some (t, k, φ) := by rw [effect_cur, hcur]
      have hc' := effect_control hc p t k φ
      refine ⟨advance_control hc' hcur', fun p' t' k' φ' => ?_⟩
      rw [did_act hc' hcur', effect_did, ← ht]
      simp

theorem act_once {es : List (Event ρ τ)} {s : State ρ τ Loc R E G} {p : ρ} {t : τ} {k : ℕ}
    {φ : Phase} (h : N.Run (es ++ [.act p t k φ]) s) : Event.act p t k φ ∉ es := by
  obtain ⟨x, hx, hstep⟩ := Runs.exec_snoc.mp h
  obtain ⟨hc, ht⟩ := run_control hb hx
  obtain ⟨p', t', he, -⟩ | ⟨p', t', k', φ', he, ⟨hcur, -⟩, -⟩ := step_cases hstep
  · cases he
  · cases he
    rw [ht]
    exact not_did_current hc hcur le_rfl

end Net

end ZeCo.Network
