import Mathlib.Data.Finset.Max
import ZeCo.NetworkSafety

namespace ZeCo.Network

variable {ρ τ Loc R E G : Type*} {m n : ℕ}

namespace Net

variable (N : Net ρ τ Loc R E G m n)

structure Progressive (prior measure : ρ → τ → ℕ) : Prop where
  needs_prior : ∀ {p t t'}, N.needs p t t' → prior p t' < prior p t
  feeder_lower : ∀ {p t q k t' k'}, N.Link q t p k → N.Slot q t' k' →
    N.needs q t' t ∨ measure q t' < measure p t

variable {N} {prior measure : ρ → τ → ℕ}

theorem exists_start [DecidableEq τ] (hp : N.Progressive prior measure)
    {s : State ρ τ Loc R E G} {p : ρ} (hidle : s.cur p = none) {t : τ} (ht : t ∈ N.tasks p)
    (hf : t ∉ s.finished p) : ∃ t, N.CanStart s p t := by
  have hne : (N.tasks p \ s.finished p).Nonempty := ⟨t, Finset.mem_sdiff.mpr ⟨ht, hf⟩⟩
  obtain ⟨t₀, ht₀, hmin⟩ := Finset.exists_min_image _ (prior p) hne
  obtain ⟨ht₀, hf₀⟩ := Finset.mem_sdiff.mp ht₀
  refine ⟨t₀, hidle, ht₀, hf₀, fun t' ht' hneed => ?_⟩
  by_contra hf'
  have hle := hmin t' (Finset.mem_sdiff.mpr ⟨ht', hf'⟩)
  have hlt := hp.needs_prior hneed
  omega

variable [DecidableEq ρ] [DecidableEq τ] [DecidableEq Loc] [Zero R]

theorem waiting_of_stuck {s : State ρ τ Loc R E G} (hstuck : Runs.Stuck N.step s) {p : ρ} {t : τ}
    {k : ℕ} {φ : Phase} (hcur : s.cur p = some (t, k, φ)) :
    φ = .wait ∧ (s.mem (N.sigAt p t k)).toInt < N.epoch := by
  have h := hstuck (.act p t k φ)
  rw [step] at h
  split_ifs at h with hact
  have hnot : ¬ (φ = .wait → N.epoch ≤ (s.mem (N.sigAt p t k)).toInt) := fun h => hact ⟨hcur, h⟩
  push Not at hnot
  exact hnot

theorem not_start_of_stuck {s : State ρ τ Loc R E G} (hstuck : Runs.Stuck N.step s) {p : ρ}
    {t : τ} : ¬ N.CanStart s p t := fun hs => by
  have h := hstuck (.start p t)
  rw [step, if_pos hs] at h
  cases h

theorem not_waiting_of_stuck (hw : N.Wired) (hp : N.Progressive prior measure) {O : N.Outline}
    {s : State ρ τ Loc R E G} (hs : N.Safe O s) (hstuck : Runs.Stuck N.step s) (p : ρ) (t : τ)
    (k : ℕ) (φ : Phase) : s.cur p ≠ some (t, k, φ) := by
  -- the feeder of the awaited tile would itself wait, at a lower measure
  induction hm : measure p t using Nat.strongRecOn generalizing p t k φ with
  | ind d ih =>
    intro hcur
    have hc := hs.control
    obtain ⟨rfl, hlow⟩ := waiting_of_stuck hstuck hcur
    obtain ⟨ht, -, hk, hwait⟩ := hc.current hcur
    obtain ⟨q, hl⟩ := hw.feeder ⟨ht, hwait, hk⟩
    have hnot : ¬ N.Did s q t k .notify := fun hd => by
      rw [hs.signal_on hl hd, hw.epoch_one] at hlow
      omega
    have hf : t ∉ s.finished q := fun hf => hnot ⟨hl.block, by
      rw [Does, hl.peer]
      rfl, .inl hf⟩
    cases hq : s.cur q with
    | none =>
      obtain ⟨t', hstart⟩ := exists_start hp hq hl.task hf
      exact not_start_of_stuck hstuck hstart
    | some c =>
      obtain ⟨t', k', φ'⟩ := c
      obtain ⟨rfl, -⟩ := waiting_of_stuck hstuck hq
      obtain ⟨ht', -, hk', hwait'⟩ := hc.current hq
      rcases hp.feeder_lower hl ⟨ht', hwait', hk'⟩ with hneed | hlt
      · exact hf (hc.needs (.inr ⟨_, hq⟩) hl.task hneed)
      · exact ih _ (hm ▸ hlt) q t' k' .wait rfl hq

theorem final_of_stuck (hw : N.Wired) (hp : N.Progressive prior measure) (O : N.Outline)
    {es : List (Event ρ τ)} {s : State ρ τ Loc R E G} (h : N.Run es s)
    (hstuck : Runs.Stuck N.step s) : N.Final s := by
  have hs := run_safe hw O h
  intro p
  ext t
  refine ⟨hs.control.finished, fun ht => ?_⟩
  by_contra hf
  cases hcur : s.cur p with
  | none =>
    obtain ⟨t', hstart⟩ := exists_start hp hcur ht hf
    exact not_start_of_stuck hstuck hstart
  | some c => exact not_waiting_of_stuck hw hp hs hstuck p c.1 c.2.1 c.2.2 hcur

end Net

end ZeCo.Network
