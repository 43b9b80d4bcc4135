import ZeCo.NetworkProgress

namespace ZeCo.Network

variable {ρ τ Loc R E G : Type*} {m n : ℕ}

def NotifiedBefore (peer : ρ → τ → Option ρ) (seen : List (Event ρ τ)) : Event ρ τ → Prop
  | .act q t k .wait => ∀ p, peer p t = some q → .act p t k .notify ∈ seen
  | _ => True

def AwaitsOwn (peer : ρ → τ → Option ρ) (es : List (Event ρ τ)) : Prop :=
  Runs.Always (NotifiedBefore peer) es

instance [Fintype ρ] [DecidableEq ρ] [DecidableEq τ] (peer : ρ → τ → Option ρ) :
    (seen : List (Event ρ τ)) → (e : Event ρ τ) → Decidable (NotifiedBefore peer seen e)
  | _, .start _ _ => isTrue trivial
  | seen, .act q t _ .wait =>
    inferInstanceAs (Decidable (∀ p, peer p t = some q → _ ∈ seen))
  | _, .act _ _ _ .load => isTrue trivial
  | _, .act _ _ _ .emit => isTrue trivial
  | _, .act _ _ _ .store => isTrue trivial
  | _, .act _ _ _ .flush => isTrue trivial
  | _, .act _ _ _ .notify => isTrue trivial
  | _, .act _ _ _ .reduce => isTrue trivial

instance [Fintype ρ] [DecidableEq ρ] [DecidableEq τ] (peer : ρ → τ → Option ρ)
    (es : List (Event ρ τ)) : Decidable (AwaitsOwn peer es) :=
  inferInstanceAs (Decidable (Runs.Always _ _))

namespace Net

def onMemory (N : Net ρ τ Loc R E G m n) (mem : Loc → Word R) : Net ρ τ Loc R E G m n :=
  { N with mem₀ := mem }

def withMemory (a : State ρ τ Loc R E G) (mem : Loc → Word R) : State ρ τ Loc R E G :=
  { a with mem := mem }

structure Agrees [Zero R] (N : Net ρ τ Loc R E G m n) (mem : Loc → Word R)
    (a : State ρ τ Loc R E G) : Prop where
  tile : ∀ {p q t k}, N.Link p t q k →
    readTile mem (N.recvAt q t k) = readTile a.mem (N.recvAt q t k)
  signal : ∀ {p q t k}, N.Link p t q k →
    (a.mem (N.sigAt q t k)).toInt ≤ (mem (N.sigAt q t k)).toInt

variable {N : Net ρ τ Loc R E G m n} {a : State ρ τ Loc R E G} {mem : Loc → Word R}

theorem withMemory_control (hc : N.Control a) : N.Control (withMemory a mem) :=
  ⟨hc.current, hc.finished, hc.needs⟩

theorem advance_withMemory [DecidableEq ρ] [DecidableEq τ] (p : ρ) (t : τ) (k : ℕ) (φ : Phase) :
    N.advance (withMemory a mem) p t k φ = withMemory (N.advance a p t k φ) mem := by
  rw [advance, advance]
  cases N.next p t k φ <;> rfl

theorem effect_withMemory [DecidableEq ρ] [DecidableEq Loc] [Zero R] {p : ρ} {t : τ} {k : ℕ}
    {φ : Phase} (h : φ = .load → N.waits p t → readTile mem (N.recvAt p t k) =
      readTile a.mem (N.recvAt p t k)) :
    N.effect (withMemory a mem) p t k φ =
      withMemory (N.effect a p t k φ) (N.effect (withMemory a mem) p t k φ).mem := by
  cases φ with
  | load =>
    have htile : (if N.waits p t then readTile mem (N.recvAt p t k) else 0) =
        if N.waits p t then readTile a.mem (N.recvAt p t k) else 0 := by
      split_ifs with hwait
      · exact h rfl hwait
      · rfl
    exact congrArg (fun X => (⟨mem, a.env, Function.update a.reg p
      (N.load p t k (a.env p) X (a.reg p)), a.finished, a.cur⟩ : State ρ τ Loc R E G)) htile
  | wait | emit | store | flush | notify | reduce => rfl

section Simulation

variable [DecidableEq ρ] [DecidableEq τ] [DecidableEq Loc] [Zero R]

variable (hw : N.Wired)
include hw

theorem Agrees.effect (h : N.Agrees mem a) (hc : N.Control a) {p : ρ} {t : τ} {k : ℕ} {φ : Phase}
    (hcur : a.cur p = some (t, k, φ)) :
    N.Agrees (N.effect (withMemory a mem) p t k φ).mem (N.effect a p t k φ) := by
  have hc' : N.Control (withMemory a mem) := withMemory_control hc
  constructor
  · intro p' q t' k' hl
    have hs := hw.receiver hl
    by_cases hself : (φ = .store ∨ φ = .flush) ∧ p = p' ∧ t = t' ∧ k = k'
    · obtain ⟨hφ, rfl, rfl, rfl⟩ := hself
      have written (mem' : Loc → Word R) (B : Matrix (Fin m) (Fin n) R) :
          readTile (writeTile mem' (N.storeAt p t k) B) (N.recvAt q t k) = B := by
        rw [hw.store_eq hl]
        exact readTile_writeTile _ _ fun _ _ _ _ he => (hw.recv_inj hs hs he).2
      rcases hφ with rfl | rfl
      · exact (written _ _).trans (written _ _).symm
      · exact (written _ _).trans (written _ _).symm
    · have hne : φ = .store ∨ φ = .flush → ¬ (p = p' ∧ t = t' ∧ k = k') :=
        fun hφ hp => hself ⟨hφ, hp⟩
      rw [effect_tile_ne hw hc hcur hl hne, effect_tile_ne hw hc' hcur hl hne]
      exact h.tile hl
  · intro p' q t' k' hl
    have hle := h.signal hl
    by_cases hself : φ = .notify ∧ p = p' ∧ t = t' ∧ k = k'
    · obtain ⟨rfl, rfl, rfl, rfl⟩ := hself
      rw [effect_signal_self hw _ hl, effect_signal_self hw _ hl]
      exact Nat.add_le_add_right hle 1
    · have hne : φ = .notify → ¬ (p = p' ∧ t = t' ∧ k = k') := fun hφ hp => hself ⟨hφ, hp⟩
      rw [effect_signal_ne hw hc hcur hl hne, effect_signal_ne hw hc' hcur hl hne]
      exact hle

theorem step_agrees {O : N.Outline} (h : N.Agrees mem a) (hs : N.Safe O a) {e : Event ρ τ}
    {s : State ρ τ Loc R E G} (hstep : N.step (withMemory a mem) e = some s)
    (hown : ∀ p q t k, e = .act q t k .wait → N.Link p t q k → N.Did a p t k .notify) :
    ∃ a' mem', s = withMemory a' mem' ∧ N.step a e = some a' ∧ N.Agrees mem' a' := by
  have hc := hs.control
  obtain ⟨p, t, rfl, hstart, rfl⟩ | ⟨p, t, k, φ, rfl, hact, rfl⟩ := step_cases hstep
  · have hstart' : N.CanStart a p t := hstart
    exact ⟨_, mem, rfl, if_pos hstart', ⟨h.tile, h.signal⟩⟩
  · have hcur : a.cur p = some (t, k, φ) := hact.1
    obtain ⟨ht, -, hk, hd⟩ := hc.current hcur
    have hact' : N.CanAct a p t k φ := by
      refine ⟨hcur, fun hφ => ?_⟩
      subst hφ
      obtain ⟨q, hl⟩ := hw.feeder ⟨ht, hd, hk⟩
      rw [hs.signal_on hl (hown q p t k rfl hl), hw.epoch_one]
    have htile : φ = .load → N.waits p t →
        readTile mem (N.recvAt p t k) = readTile a.mem (N.recvAt p t k) := by
      intro _ hwaits
      obtain ⟨q, hl⟩ := hw.feeder ⟨ht, hwaits, hk⟩
      exact h.tile hl
    refine ⟨_, (N.effect (withMemory a mem) p t k φ).mem, ?_, if_pos hact', ?_⟩
    · rw [effect_withMemory htile, advance_withMemory]
      rfl
    · have hagree := h.effect hw hc hcur
      constructor
      · rw [advance_mem]
        exact hagree.tile
      · rw [advance_mem]
        exact hagree.signal

theorem retained_refines (O : N.Outline) (h : N.Agrees mem N.initial) {es : List (Event ρ τ)}
    {s : State ρ τ Loc R E G} (hrun : (N.onMemory mem).Run es s) (hown : AwaitsOwn N.peer es) :
    ∃ a mem', s = withMemory a mem' ∧ N.Run es a ∧ N.Agrees mem' a := by
  refine Runs.exec_invariant_of_always
    (fun es s => ∃ a mem', s = withMemory a mem' ∧ N.Run es a ∧ N.Agrees mem' a) ?_ ?_ hrun hown
  · exact ⟨N.initial, mem, rfl, rfl, h⟩
  · rintro es _ e s' ⟨a, mem', rfl, ha, hagree⟩ hown hstep
    have htrace := (run_control hw.blocks_pos ha).2
    obtain ⟨a', mem'', rfl, ha', hagree'⟩ := step_agrees hw hagree (run_safe hw O ha) hstep (by
      rintro p q t k rfl hl
      exact (htrace p t k .notify).mp (hown p hl.peer))
    exact ⟨a', mem'', rfl, Runs.exec_snoc.mpr ⟨a, ha, ha'⟩, hagree'⟩

theorem Agrees.stuck (h : N.Agrees mem a) (hc : N.Control a)
    (hstuck : Runs.Stuck N.step (withMemory a mem)) : Runs.Stuck N.step a := by
  intro e
  by_contra hne
  obtain ⟨a', hstep⟩ := Option.ne_none_iff_exists'.mp hne
  obtain ⟨p, t, rfl, hstart, -⟩ | ⟨p, t, k, φ, rfl, ⟨hcur, hwait⟩, -⟩ := step_cases hstep
  · exact not_start_of_stuck (s := withMemory a mem) hstuck hstart
  · obtain ⟨rfl, hlow⟩ := waiting_of_stuck (s := withMemory a mem) hstuck hcur
    obtain ⟨ht, -, hk, hd⟩ := hc.current hcur
    obtain ⟨q, hl⟩ := hw.feeder ⟨ht, hd, hk⟩
    have hle := (hwait rfl).trans (h.signal hl)
    exact absurd hle (not_le.mpr hlow)

theorem retained_final_of_stuck {prior measure : ρ → τ → ℕ} (hp : N.Progressive prior measure)
    (O : N.Outline) (h : N.Agrees mem N.initial) {es : List (Event ρ τ)} {s : State ρ τ Loc R E G}
    (hrun : (N.onMemory mem).Run es s) (hown : AwaitsOwn N.peer es)
    (hstuck : Runs.Stuck (N.onMemory mem).step s) : N.Final s := by
  obtain ⟨a, mem', rfl, ha, hagree⟩ := retained_refines hw O h hrun hown
  have hc := (run_safe hw O ha).control
  have hfinal : N.Final a := final_of_stuck hw hp O ha (hagree.stuck hw hc hstuck)
  exact hfinal

theorem retained_done (O : N.Outline) (h : N.Agrees mem N.initial) {es : List (Event ρ τ)}
    {s : State ρ τ Loc R E G} (hrun : (N.onMemory mem).Run es s) (hown : AwaitsOwn N.peer es)
    (hfinal : N.Final s) {p : ρ} {t : τ} (ht : t ∈ N.tasks p) : O.Done p t (s.env p) := by
  obtain ⟨a, mem', rfl, ha, -⟩ := retained_refines hw O h hrun hown
  exact final_done hw O ha hfinal ht

end Simulation

end Net

end ZeCo.Network
