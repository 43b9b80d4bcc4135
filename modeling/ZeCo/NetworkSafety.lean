import ZeCo.NetworkTrace

namespace ZeCo.Network

variable {ρ τ Loc R E G : Type*} {m n : ℕ}

namespace Net

variable (N : Net ρ τ Loc R E G m n)

structure Link (p : ρ) (t : τ) (q : ρ) (k : ℕ) : Prop where
  task : t ∈ N.tasks p
  peer : N.peer p t = some q
  block : k < N.blocks p t

structure Slot (q : ρ) (t : τ) (k : ℕ) : Prop where
  task : t ∈ N.tasks q
  waits : N.waits q t
  block : k < N.blocks q t

structure Wired : Prop where
  blocks_pos : ∀ p, ∀ t ∈ N.tasks p, 0 < N.blocks p t
  receiver : ∀ {p t q k}, N.Link p t q k → N.Slot q t k
  feeder : ∀ {q t k}, N.Slot q t k → ∃ p, N.Link p t q k
  feeder_unique : ∀ {p p' t q k}, N.Link p t q k → N.Link p' t q k → p = p'
  store_eq : ∀ {p t q k}, N.Link p t q k → N.storeAt p t k = N.recvAt q t k
  notify_eq : ∀ {p t q k}, N.Link p t q k → N.notifyAt p t k = N.sigAt q t k
  recv_inj : ∀ {q t k q' t' k' i j i' j'}, N.Slot q t k → N.Slot q' t' k' →
    N.recvAt q t k i j = N.recvAt q' t' k' i' j' → (q = q' ∧ t = t' ∧ k = k') ∧ i = i' ∧ j = j'
  sig_inj : ∀ {q t k q' t' k'}, N.Slot q t k → N.Slot q' t' k' → N.sigAt q t k = N.sigAt q' t' k' →
    q = q' ∧ t = t' ∧ k = k'
  sig_ne_recv : ∀ {q t k q' t' k' i j}, N.Slot q t k → N.Slot q' t' k' →
    N.recvAt q' t' k' i j ≠ N.sigAt q t k
  epoch_one : N.epoch = 1
  zeroed : ∀ {q t k}, N.Slot q t k → N.mem₀ (N.sigAt q t k) = .zero

def stores : Event ρ τ → Set Loc
  | .act p t k .store => {a | (N.peer p t).isSome ∧ ∃ i j, N.storeAt p t k i j = a}
  | _ => ∅

def loads : Event ρ τ → Set Loc
  | .act p t k .load => {a | N.waits p t ∧ ∃ i j, N.recvAt p t k i j = a}
  | _ => ∅

def touches : Event ρ τ → Set Loc
  | .act p t k .wait => {a | N.waits p t ∧ N.sigAt p t k = a}
  | .act p t k .load => {a | N.waits p t ∧ ∃ i j, N.recvAt p t k i j = a}
  | .act p t k .store => {a | (N.peer p t).isSome ∧ ∃ i j, N.storeAt p t k i j = a}
  | .act p t k .flush => {a | (N.peer p t).isSome ∧ ∃ i j, N.storeAt p t k i j = a}
  | .act p t k .notify => {a | (N.peer p t).isSome ∧ N.notifyAt p t k = a}
  | _ => ∅

def ReadsVisible (es : List (Event ρ τ)) : Prop :=
  ∀ es₁ es₂ q t k, es = es₁ ++ .act q t k .load :: es₂ → N.waits q t →
    ∃ p, N.peer p t = some q ∧ N.storeAt p t k = N.recvAt q t k ∧ .act p t k .flush ∈ es₁

def StoresOnce (es : List (Event ρ τ)) : Prop :=
  ∀ es₁ e es₂, es = es₁ ++ e :: es₂ → ∀ e' ∈ es₁, ∀ a ∈ N.stores e,
    a ∉ N.stores e' ∧ a ∉ N.loads e'

inductive Point where
  | before | loaded | emitted

def pointOf : Phase → Point
  | .wait | .load => .before
  | .emit => .loaded
  | .store | .flush | .notify | .reduce => .emitted

section Positions

variable {N}

theorem link_of_sends {s : State ρ τ Loc R E G} (hc : N.Control s) {p : ρ} {t : τ} {k : ℕ}
    {φ : Phase} (hcur : s.cur p = some (t, k, φ))
    (h : φ = .store ∨ φ = .flush ∨ φ = .notify) : ∃ q, N.Link p t q k := by
  obtain ⟨ht, -, hk, hd⟩ := hc.current hcur
  have hp : (N.peer p t).isSome := by
    rcases h with rfl | rfl | rfl <;> exact hd
  obtain ⟨q, hq⟩ := Option.isSome_iff_exists.mp hp
  exact ⟨q, ht, hq, hk⟩

theorem Did.mono {s : State ρ τ Loc R E G} {p : ρ} {t : τ} {k : ℕ} {φ ψ : Phase}
    (h : N.Did s p t k φ) (hd : N.Does p t ψ) (hle : ψ.index ≤ φ.index) : N.Did s p t k ψ := by
  refine ⟨h.1, hd, h.2.2.imp_right ?_⟩
  rintro ⟨k', φ', hcur, hlt⟩
  refine ⟨k', φ', hcur, ?_⟩
  simp only [position] at hlt ⊢
  omega

theorem Did.task {s : State ρ τ Loc R E G} (hc : N.Control s) {p : ρ} {t : τ} {k : ℕ} {φ : Phase}
    (h : N.Did s p t k φ) : t ∈ N.tasks p := by
  rcases h.2.2 with hf | ⟨k', φ', hcur, -⟩
  · exact hc.finished hf
  · exact (hc.current hcur).1

theorem Did.link {s : State ρ τ Loc R E G} (hc : N.Control s) {p : ρ} {t : τ} {k : ℕ}
    (h : N.Did s p t k .store) : ∃ q, N.Link p t q k := by
  obtain ⟨q, hq⟩ := Option.isSome_iff_exists.mp h.2.1
  exact ⟨q, h.task hc, hq, h.1⟩

end Positions

variable [Zero R]

/-- A proof outline: what holds of a process's own state while its tasks run one after another, if
the tiles it reads are the intended ones. -/
structure Outline where
  incoming : ρ → τ → ℕ → Matrix (Fin m) (Fin n) R
  Fresh : ρ → τ → E → Prop
  At : ρ → τ → ℕ → Point → E → G → Prop
  Done : ρ → τ → E → Prop
  fresh : ∀ p, ∀ t ∈ N.tasks p, Fresh p t (N.env₀ p)
  start : ∀ {p t e g}, t ∈ N.tasks p → Fresh p t e →
    (∀ t' ∈ N.tasks p, N.needs p t t' → Done p t' e) → At p t 0 .before e g
  load : ∀ {p t k e g}, t ∈ N.tasks p → k < N.blocks p t → At p t k .before e g →
    At p t k .loaded e (N.load p t k e (if N.waits p t then incoming p t k else 0) g)
  emit : ∀ {p t k e g}, t ∈ N.tasks p → k < N.blocks p t → At p t k .loaded e g →
    At p t k .emitted (N.emit p t k e g).1 (N.emit p t k e g).2
  send : ∀ {p t q k e g}, N.Link p t q k → At p t k .emitted e g →
    N.outgoing p t k g = incoming q t k
  reduce_next : ∀ {p t k e g}, t ∈ N.tasks p → k + 1 < N.blocks p t → At p t k .emitted e g →
    At p t (k + 1) .before (N.reduce p t k e g).1 (N.reduce p t k e g).2
  reduce_done : ∀ {p t k e g}, t ∈ N.tasks p → k + 1 = N.blocks p t → At p t k .emitted e g →
    Done p t (N.reduce p t k e g).1
  frame_fresh : ∀ {p t t' k e g}, t ∈ N.tasks p → t' ∈ N.tasks p → t' ≠ t → Fresh p t' e →
    Fresh p t' (N.emit p t k e g).1 ∧ Fresh p t' (N.reduce p t k e g).1
  frame_done : ∀ {p t t' k e g}, t ∈ N.tasks p → t' ∈ N.tasks p → t' ≠ t → Done p t' e →
    Done p t' (N.emit p t k e g).1 ∧ Done p t' (N.reduce p t k e g).1

variable {N}

structure Safe (O : N.Outline) (s : State ρ τ Loc R E G) : Prop where
  control : N.Control s
  signal_on : ∀ {p t q k}, N.Link p t q k → N.Did s p t k .notify →
    (s.mem (N.sigAt q t k)).toInt = 1
  signal_off : ∀ {p t q k}, N.Link p t q k → ¬ N.Did s p t k .notify →
    (s.mem (N.sigAt q t k)).toInt = 0
  order : ∀ {p t q k}, N.Link p t q k → N.Did s q t k .wait → N.Did s p t k .notify
  tile : ∀ {p t q k}, N.Link p t q k → N.Did s p t k .flush →
    readTile s.mem (N.recvAt q t k) = O.incoming q t k
  fresh : ∀ {p t}, t ∈ N.tasks p → t ∉ s.finished p → (∀ c, s.cur p ≠ some (t, c)) →
    O.Fresh p t (s.env p)
  done : ∀ {p t}, t ∈ s.finished p → O.Done p t (s.env p)
  now : ∀ {p t k φ}, s.cur p = some (t, k, φ) → O.At p t k (pointOf φ) (s.env p) (s.reg p)

section Frames

variable [DecidableEq ρ] [DecidableEq Loc]

theorem effect_frame {O : N.Outline} (s : State ρ τ Loc R E G) {p : ρ} {t t' : τ} (k : ℕ)
    (φ : Phase) (ht : t ∈ N.tasks p) (ht' : t' ∈ N.tasks p) (h : t' ≠ t) :
    (O.Fresh p t' (s.env p) → O.Fresh p t' ((N.effect s p t k φ).env p)) ∧
    (O.Done p t' (s.env p) → O.Done p t' ((N.effect s p t k φ).env p)) := by
  cases φ with
  | emit =>
    simp only [effect, Function.update_self]
    exact ⟨fun hf => (O.frame_fresh ht ht' h hf).1, fun hd => (O.frame_done ht ht' h hd).1⟩
  | reduce =>
    simp only [effect, Function.update_self]
    exact ⟨fun hf => (O.frame_fresh ht ht' h hf).2, fun hd => (O.frame_done ht ht' h hd).2⟩
  | wait | load | store | flush | notify => exact ⟨id, id⟩

variable [DecidableEq τ]

theorem act_other (s : State ρ τ Loc R E G) {p p' : ρ} (t : τ) (k : ℕ) (φ : Phase) (h : p' ≠ p) :
    (N.advance (N.effect s p t k φ) p t k φ).env p' = s.env p' ∧
    (N.advance (N.effect s p t k φ) p t k φ).reg p' = s.reg p' ∧
    (N.advance (N.effect s p t k φ) p t k φ).cur p' = s.cur p' ∧
    (N.advance (N.effect s p t k φ) p t k φ).finished p' = s.finished p' := by
  refine ⟨?_, ?_, ?_, ?_⟩
  · rw [advance_env]
    cases φ <;> simp [effect, h]
  · rw [advance_reg]
    cases φ <;> simp [effect, h]
  · cases hn : N.next p t k φ <;> simp [advance, hn, h]
  · cases hn : N.next p t k φ <;> simp [advance, hn, h]

theorem act_fresh {O : N.Outline} {s : State ρ τ Loc R E G} (hs : N.Safe O s) {p : ρ} {t : τ}
    {k : ℕ} {φ : Phase} (hcur : s.cur p = some (t, k, φ)) {t' : τ} (ht' : t' ∈ N.tasks p)
    (hf : t' ∉ (N.advance (N.effect s p t k φ) p t k φ).finished p)
    (hnow : ∀ c, (N.advance (N.effect s p t k φ) p t k φ).cur p ≠ some (t', c)) :
    O.Fresh p t' ((N.effect s p t k φ).env p) := by
  obtain ⟨ht, -, -, -⟩ := hs.control.current hcur
  have hne : t' ≠ t := by
    rintro rfl
    cases hn : N.next p t' k φ with
    | some c => exact hnow c (by simp [advance, hn])
    | none => exact hf (by simp [advance, hn])
  have hf' : t' ∉ s.finished p := fun h => hf (by
    cases hn : N.next p t k φ <;> simp [advance, hn, h])
  refine (effect_frame s k φ ht ht' hne).1 (hs.fresh ht' hf' fun c hc => ?_)
  rw [hcur] at hc
  exact hne (congrArg Prod.fst (Option.some.inj hc)).symm

theorem act_done {O : N.Outline} {s : State ρ τ Loc R E G} (hs : N.Safe O s) {p : ρ} {t : τ}
    {k : ℕ} {φ : Phase} (hcur : s.cur p = some (t, k, φ)) {t' : τ}
    (hf : t' ∈ (N.advance (N.effect s p t k φ) p t k φ).finished p) :
    O.Done p t' ((N.effect s p t k φ).env p) := by
  obtain ⟨ht, hnf, hk, -⟩ := hs.control.current hcur
  have old (h : t' ∈ s.finished p) : O.Done p t' ((N.effect s p t k φ).env p) := by
    have hne : t' ≠ t := by
      rintro rfl
      exact hnf h
    exact (effect_frame s k φ ht (hs.control.finished h) hne).2 (hs.done h)
  cases hn : N.next p t k φ with
  | some c => exact old (by simpa [advance, hn] using hf)
  | none =>
    obtain ⟨rfl, hlast⟩ := next_none hn
    simp only [advance, hn, Function.update_self, Finset.mem_insert] at hf
    rcases hf with rfl | hf
    · simp only [effect, Function.update_self]
      exact O.reduce_done ht (by omega) (hs.now hcur)
    · exact old (by simpa using hf)

end Frames

section Memory

variable (hw : N.Wired)
include hw

theorem initial_safe (O : N.Outline) : N.Safe O N.initial where
  control := by constructor <;> simp [initial]
  signal_on hl hd := by simp [Did, initial] at hd
  signal_off hl _ := by
    have hz := hw.zeroed (hw.receiver hl)
    simp only [initial, hz, Word.toInt]
  order hl hd := by simp [Did, initial] at hd
  tile hl hd := by simp [Did, initial] at hd
  fresh ht _ _ := O.fresh _ _ ht
  done h := by simp [initial] at h
  now h := by simp [initial] at h

theorem read_incoming {O : N.Outline} {s : State ρ τ Loc R E G} (hs : N.Safe O s) {q : ρ} {t : τ}
    {k : ℕ} (hcur : s.cur q = some (t, k, .load)) (hwait : N.waits q t) :
    readTile s.mem (N.recvAt q t k) = O.incoming q t k := by
  obtain ⟨ht, -, hk, -⟩ := hs.control.current hcur
  obtain ⟨p, hl⟩ := hw.feeder ⟨ht, hwait, hk⟩
  have hdid : N.Did s q t k .wait :=
    ⟨hk, hwait, .inr ⟨k, .load, hcur, by simp [position, Phase.index]⟩⟩
  have hnotify := hs.order hl hdid
  exact hs.tile hl (hnotify.mono hnotify.2.1 (by simp [Phase.index]))

variable [DecidableEq ρ]

theorem start_safe [DecidableEq τ] {O : N.Outline} {s : State ρ τ Loc R E G} (hs : N.Safe O s)
    {p : ρ} {t : τ} (h : N.CanStart s p t) :
    N.Safe O { s with cur := Function.update s.cur p (some (t, 0, N.first p t)) } where
  control := start_control hs.control h (hw.blocks_pos p t h.2.1)
  signal_on hl hd := hs.signal_on hl ((did_start h _ _ _ _).mp hd)
  signal_off hl hd := hs.signal_off hl fun hd' => hd ((did_start h _ _ _ _).mpr hd')
  order hl hd := (did_start h _ _ _ _).mpr (hs.order hl ((did_start h _ _ _ _).mp hd))
  tile hl hd := hs.tile hl ((did_start h _ _ _ _).mp hd)
  fresh {p' t'} ht hf hcur := by
    refine hs.fresh ht hf fun c hc => ?_
    by_cases hp : p' = p
    · subst hp
      rw [h.1] at hc
      cases hc
    · exact hcur c (by simpa only [Function.update_of_ne hp] using hc)
  done := hs.done
  now {p' t' k φ} hcur := by
    by_cases hp : p' = p
    · subst hp
      simp only [Function.update_self, Option.some.injEq, Prod.mk.injEq] at hcur
      obtain ⟨rfl, rfl, rfl⟩ := hcur
      have hbefore : pointOf (N.first p' t) = .before := by
        rw [first]
        split_ifs <;> rfl
      rw [hbefore]
      exact O.start h.2.1 (hs.fresh h.2.1 h.2.2.1 fun c hc => by rw [h.1] at hc; cases hc)
        fun t' ht' hn => hs.done (h.2.2.2 t' ht' hn)
    · simp only [Function.update_of_ne hp] at hcur
      exact hs.now hcur

variable [DecidableEq Loc]

theorem effect_signal_ne {s : State ρ τ Loc R E G} (hc : N.Control s) {p p' q : ρ} {t t' : τ}
    {k k' : ℕ} {φ : Phase} (hcur : s.cur p' = some (t', k', φ)) (hl : N.Link p t q k)
    (hne : φ = .notify → ¬ (p' = p ∧ t' = t ∧ k' = k)) :
    (N.effect s p' t' k' φ).mem (N.sigAt q t k) = s.mem (N.sigAt q t k) := by
  have hs := hw.receiver hl
  cases φ with
  | wait | load | emit | reduce => rfl
  | store =>
    obtain ⟨q', hl'⟩ := link_of_sends hc hcur (by simp)
    apply writeTile_of_ne
    intro i j
    rw [hw.store_eq hl']
    exact hw.sig_ne_recv hs (hw.receiver hl')
  | flush =>
    obtain ⟨q', hl'⟩ := link_of_sends hc hcur (by simp)
    apply writeTile_of_ne
    intro i j
    rw [hw.store_eq hl']
    exact hw.sig_ne_recv hs (hw.receiver hl')
  | notify =>
    obtain ⟨q', hl'⟩ := link_of_sends hc hcur (by simp)
    apply Function.update_of_ne
    rw [hw.notify_eq hl']
    intro he
    obtain ⟨rfl, rfl, rfl⟩ := hw.sig_inj hs (hw.receiver hl') he
    exact hne rfl ⟨hw.feeder_unique hl' hl, rfl, rfl⟩

theorem effect_signal_self (s : State ρ τ Loc R E G) {p q : ρ} {t : τ} {k : ℕ}
    (hl : N.Link p t q k) : (N.effect s p t k .notify).mem (N.sigAt q t k) =
      .int ((s.mem (N.sigAt q t k)).toInt + 1) := by
  simp only [effect, hw.notify_eq hl, Function.update_self]

theorem effect_tile_ne {s : State ρ τ Loc R E G} (hc : N.Control s) {p p' q : ρ} {t t' : τ}
    {k k' : ℕ} {φ : Phase} (hcur : s.cur p' = some (t', k', φ)) (hl : N.Link p t q k)
    (hne : φ = .store ∨ φ = .flush → ¬ (p' = p ∧ t' = t ∧ k' = k)) :
    readTile (N.effect s p' t' k' φ).mem (N.recvAt q t k) = readTile s.mem (N.recvAt q t k) := by
  have hs := hw.receiver hl
  apply readTile_congr
  intro i j
  have away {q' : ρ} (hφ : φ = .store ∨ φ = .flush) (hl' : N.Link p' t' q' k') (i' : Fin m)
      (j' : Fin n) : N.storeAt p' t' k' i' j' ≠ N.recvAt q t k i j := by
    rw [hw.store_eq hl']
    intro he
    obtain ⟨⟨rfl, rfl, rfl⟩, -⟩ := hw.recv_inj (hw.receiver hl') hs he
    exact hne hφ ⟨hw.feeder_unique hl' hl, rfl, rfl⟩
  cases φ with
  | wait | load | emit | reduce => rfl
  | store =>
    obtain ⟨q', hl'⟩ := link_of_sends hc hcur (by simp)
    exact writeTile_of_ne _ _ _ (away (.inl rfl) hl')
  | flush =>
    obtain ⟨q', hl'⟩ := link_of_sends hc hcur (by simp)
    exact writeTile_of_ne _ _ _ (away (.inr rfl) hl')
  | notify =>
    obtain ⟨q', hl'⟩ := link_of_sends hc hcur (by simp)
    apply Function.update_of_ne
    rw [hw.notify_eq hl']
    exact hw.sig_ne_recv (hw.receiver hl') hs

theorem effect_tile_flush (s : State ρ τ Loc R E G) {p q : ρ} {t : τ} {k : ℕ}
    (hl : N.Link p t q k) : readTile (N.effect s p t k .flush).mem (N.recvAt q t k) =
      N.outgoing p t k (s.reg p) := by
  have hs := hw.receiver hl
  simp only [effect, hw.store_eq hl]
  exact readTile_writeTile _ _ fun i j i' j' he => (hw.recv_inj hs hs he).2

theorem effect_now {O : N.Outline} {s : State ρ τ Loc R E G} (hs : N.Safe O s) {p : ρ} {t : τ}
    {k : ℕ} {φ : Phase} (hcur : s.cur p = some (t, k, φ)) {c : ℕ × Phase}
    (hn : N.next p t k φ = some c) :
    O.At p t c.1 (pointOf c.2) ((N.effect s p t k φ).env p) ((N.effect s p t k φ).reg p) := by
  obtain ⟨ht, -, hk, -⟩ := hs.control.current hcur
  have hat := hs.now hcur
  cases φ with
  | load =>
    cases hn
    have htile : (if N.waits p t then readTile s.mem (N.recvAt p t k) else 0) =
        if N.waits p t then O.incoming p t k else 0 := by
      split_ifs with hwait
      · exact read_incoming hw hs hcur hwait
      · rfl
    simp only [effect, Function.update_self, htile]
    exact O.load ht hk hat
  | emit =>
    cases hn
    simp only [effect, Function.update_self]
    have hpoint : pointOf (if (N.peer p t).isSome then .store else .reduce) = .emitted := by
      split_ifs <;> rfl
    rw [hpoint]
    exact O.emit ht hk hat
  | reduce =>
    simp only [next] at hn
    split_ifs at hn with hlt
    cases hn
    simp only [effect, Function.update_self]
    have hpoint : pointOf (N.first p t) = .before := by
      rw [first]
      split_ifs <;> rfl
    rw [hpoint]
    exact O.reduce_next ht hlt hat
  | wait | store | flush | notify =>
    cases hn
    exact hat

variable [DecidableEq τ]

theorem act_signal {O : N.Outline} {s : State ρ τ Loc R E G} (hs : N.Safe O s) {p p' q : ρ}
    {t t' : τ} {k k' : ℕ} {φ : Phase} (hcur : s.cur p' = some (t', k', φ)) (hl : N.Link p t q k) :
    (N.Did (N.advance (N.effect s p' t' k' φ) p' t' k' φ) p t k .notify →
      ((N.effect s p' t' k' φ).mem (N.sigAt q t k)).toInt = 1) ∧
    (¬ N.Did (N.advance (N.effect s p' t' k' φ) p' t' k' φ) p t k .notify →
      ((N.effect s p' t' k' φ).mem (N.sigAt q t k)).toInt = 0) := by
  have hc := hs.control
  rw [did_act (effect_control hc p' t' k' φ) (by rw [effect_cur, hcur]), effect_did]
  by_cases hself : φ = .notify ∧ p' = p ∧ t' = t ∧ k' = k
  · obtain ⟨rfl, rfl, rfl, rfl⟩ := hself
    have hoff := hs.signal_off hl (not_did_current hc hcur le_rfl)
    rw [effect_signal_self hw s hl, hoff]
    exact ⟨fun _ => rfl, fun h => absurd (.inr ⟨rfl, rfl, rfl, rfl⟩) h⟩
  · rw [effect_signal_ne hw hc hcur hl fun hφ h => hself ⟨hφ, h⟩]
    refine ⟨fun h => ?_, fun h => hs.signal_off hl fun hd => h (.inl hd)⟩
    rcases h with hd | ⟨rfl, rfl, rfl, rfl⟩
    · exact hs.signal_on hl hd
    · exact absurd ⟨rfl, rfl, rfl, rfl⟩ hself

theorem act_tile {O : N.Outline} {s : State ρ τ Loc R E G} (hs : N.Safe O s) {p p' q : ρ}
    {t t' : τ} {k k' : ℕ} {φ : Phase} (hcur : s.cur p' = some (t', k', φ)) (hl : N.Link p t q k)
    (hd : N.Did (N.advance (N.effect s p' t' k' φ) p' t' k' φ) p t k .flush) :
    readTile (N.effect s p' t' k' φ).mem (N.recvAt q t k) = O.incoming q t k := by
  have hc := hs.control
  rw [did_act (effect_control hc p' t' k' φ) (by rw [effect_cur, hcur]), effect_did] at hd
  rcases hd with hd | ⟨rfl, rfl, rfl, rfl⟩
  · -- a flushed tile is behind its feeder, who cannot be storing it
    rw [effect_tile_ne hw hc hcur hl, hs.tile hl hd]
    rintro hφ ⟨rfl, rfl, rfl⟩
    refine not_did_current hc hcur ?_ hd
    rcases hφ with rfl | rfl <;> simp [position, Phase.index]
  · rw [effect_tile_flush hw s hl]
    exact O.send hl (hs.now hcur)

theorem act_order {O : N.Outline} {s : State ρ τ Loc R E G} (hs : N.Safe O s) {p p' q : ρ}
    {t t' : τ} {k k' : ℕ} {φ : Phase} (hact : N.CanAct s p' t' k' φ) (hl : N.Link p t q k)
    (hd : N.Did (N.advance (N.effect s p' t' k' φ) p' t' k' φ) q t k .wait) :
    N.Did (N.advance (N.effect s p' t' k' φ) p' t' k' φ) p t k .notify := by
  have hc := effect_control hs.control p' t' k' φ
  have hcur : (N.effect s p' t' k' φ).cur p' = some (t', k', φ) := by rw [effect_cur, hact.1]
  rw [did_act hc hcur, effect_did] at hd ⊢
  left
  rcases hd with hd | ⟨rfl, rfl, rfl, rfl⟩
  · exact hs.order hl hd
  · by_contra hnot
    have hle := hact.2 rfl
    rw [hs.signal_off hl hnot, hw.epoch_one] at hle
    omega

theorem act_safe {O : N.Outline} {s : State ρ τ Loc R E G} (hs : N.Safe O s) {p : ρ} {t : τ} {k : ℕ}
    {φ : Phase} (h : N.CanAct s p t k φ) : N.Safe O (N.advance (N.effect s p t k φ) p t k φ) where
  control := advance_control (effect_control hs.control p t k φ) (by rw [effect_cur, h.1])
  signal_on hl hd := by
    rw [advance_mem]
    exact (act_signal hw hs h.1 hl).1 hd
  signal_off hl hd := by
    rw [advance_mem]
    exact (act_signal hw hs h.1 hl).2 hd
  order hl hd := act_order hw hs h hl hd
  tile hl hd := by
    rw [advance_mem]
    exact act_tile hw hs h.1 hl hd
  fresh {p' t'} ht hf hcur := by
    by_cases hp : p' = p
    · subst hp
      rw [advance_env]
      exact act_fresh hs h.1 ht hf hcur
    · obtain ⟨henv, -, hc, hfin⟩ := act_other s t k φ hp
      rw [henv]
      exact hs.fresh ht (hfin ▸ hf) (hc ▸ hcur)
  done {p' t'} hf := by
    by_cases hp : p' = p
    · subst hp
      rw [advance_env]
      exact act_done hs h.1 hf
    · obtain ⟨henv, -, -, hfin⟩ := act_other s t k φ hp
      rw [henv]
      exact hs.done (hfin ▸ hf)
  now {p' t' k' φ'} hcur := by
    by_cases hp : p' = p
    · subst hp
      rw [advance_env, advance_reg]
      cases hn : N.next p' t k φ with
      | some c =>
        simp only [advance, hn, Function.update_self, Option.some.injEq, Prod.mk.injEq] at hcur
        obtain ⟨rfl, rfl⟩ := hcur
        exact effect_now hw hs h.1 hn
      | none => simp [advance, hn] at hcur
    · obtain ⟨henv, hreg, hc, -⟩ := act_other s t k φ hp
      rw [henv, hreg]
      exact hs.now (hc ▸ hcur)

theorem run_safe (O : N.Outline) {es : List (Event ρ τ)} {s : State ρ τ Loc R E G}
    (h : N.Run es s) : N.Safe O s := by
  refine Runs.exec_invariant (fun _ s => N.Safe O s) (initial_safe hw O) ?_ h
  intro _ s e s' hs hstep
  obtain ⟨p, t, -, hstart, rfl⟩ | ⟨p, t, k, φ, -, hact, rfl⟩ := step_cases hstep
  · exact start_safe hw hs hstart
  · exact act_safe hw hs hact

theorem load_visible (O : N.Outline) {es : List (Event ρ τ)} {s : State ρ τ Loc R E G} {q : ρ}
    {t : τ} {k : ℕ} (h : N.Run (es ++ [.act q t k .load]) s) (hwait : N.waits q t) :
    ∃ p, N.peer p t = some q ∧ N.storeAt p t k = N.recvAt q t k ∧ .act p t k .flush ∈ es := by
  obtain ⟨x, hx, hstep⟩ := Runs.exec_snoc.mp h
  have hs := run_safe hw O hx
  obtain ⟨p', t', he, -⟩ | ⟨p', t', k', φ', he, ⟨hcur, -⟩, -⟩ := step_cases hstep
  · cases he
  · cases he
    obtain ⟨ht, -, hk, -⟩ := hs.control.current hcur
    obtain ⟨p, hl⟩ := hw.feeder ⟨ht, hwait, hk⟩
    have hdid : N.Did x q t k .wait :=
      ⟨hk, hwait, .inr ⟨k, .load, hcur, by simp [position, Phase.index]⟩⟩
    have hnotify := hs.order hl hdid
    have hflush : N.Did x p t k .flush := hnotify.mono hnotify.2.1 (by simp [Phase.index])
    exact ⟨p, hl.peer, hw.store_eq hl, ((run_control hw.blocks_pos hx).2 p t k .flush).mpr hflush⟩

theorem store_once (O : N.Outline) {es : List (Event ρ τ)} {s : State ρ τ Loc R E G}
    {e e' : Event ρ τ} (h : N.Run (es ++ [e]) s) (he' : e' ∈ es) {a : Loc} (ha : a ∈ N.stores e) :
    a ∉ N.stores e' ∧ a ∉ N.loads e' := by
  obtain ⟨x, hx, hstep⟩ := Runs.exec_snoc.mp h
  have hs := run_safe hw O hx
  have htrace := (run_control hw.blocks_pos hx).2
  obtain ⟨p, t, rfl, -⟩ | ⟨p, t, k, φ, rfl, ⟨hcur, -⟩, -⟩ := step_cases hstep
  · exact absurd ha (Set.notMem_empty a)
  · cases φ <;> try exact absurd ha (Set.notMem_empty a)
    obtain ⟨-, i, j, rfl⟩ := ha
    obtain ⟨q, hl⟩ := link_of_sends hs.control hcur (.inl rfl)
    rw [hw.store_eq hl]
    cases e' with
    | start p' t' => exact ⟨Set.notMem_empty _, Set.notMem_empty _⟩
    | act p' t' k' φ' =>
      have hdid := (htrace p' t' k' φ').mp he'
      cases φ' <;> try exact ⟨Set.notMem_empty _, Set.notMem_empty _⟩
      · -- a read block's feeder has moved past its store
        refine ⟨Set.notMem_empty _, ?_⟩
        rintro ⟨hwait, i', j', he⟩
        have hslot : N.Slot p' t' k' := ⟨hdid.task hs.control, hwait, hdid.1⟩
        obtain ⟨⟨rfl, rfl, rfl⟩, -⟩ := hw.recv_inj hslot (hw.receiver hl) he
        have hnotify := hs.order hl (hdid.mono hwait (by simp [Phase.index]))
        exact not_did_current hs.control hcur (by simp [position, Phase.index]) hnotify
      · refine ⟨?_, Set.notMem_empty _⟩
        rintro ⟨-, i', j', he⟩
        obtain ⟨q', hl'⟩ := hdid.link hs.control
        rw [hw.store_eq hl'] at he
        obtain ⟨⟨rfl, rfl, rfl⟩, -⟩ := hw.recv_inj (hw.receiver hl') (hw.receiver hl) he
        obtain rfl := hw.feeder_unique hl' hl
        exact act_once hw.blocks_pos h he'

theorem run_readsVisible (O : N.Outline) {es : List (Event ρ τ)} {s : State ρ τ Loc R E G}
    (h : N.Run es s) : N.ReadsVisible es := by
  rintro es₁ es₂ q t k rfl hwait
  rw [List.append_cons] at h
  obtain ⟨x, hx⟩ := Runs.exec_prefix h
  exact load_visible hw O hx hwait

theorem run_storesOnce (O : N.Outline) {es : List (Event ρ τ)} {s : State ρ τ Loc R E G}
    (h : N.Run es s) : N.StoresOnce es := by
  rintro es₁ e es₂ rfl e' he' a ha
  rw [List.append_cons] at h
  obtain ⟨x, hx⟩ := Runs.exec_prefix h
  exact store_once hw O hx he' ha

theorem final_done (O : N.Outline) {es : List (Event ρ τ)} {s : State ρ τ Loc R E G}
    (h : N.Run es s) (hfinal : N.Final s) {p : ρ} {t : τ} (ht : t ∈ N.tasks p) :
    O.Done p t (s.env p) :=
  (run_safe hw O h).done (hfinal p ▸ ht)

end Memory

end Net

end ZeCo.Network
