import ZeCo.NetworkSafety

namespace ZeCo.Network

variable {ρ Loc Word' R E G : Type*} {m n T K : ℕ}

structure Window (ρ Loc : Type*) (K m n : ℕ) where
  recv : ρ → ℕ → Tile Loc m n
  sig : ρ → ℕ → Loc
  recv_inj : ∀ {p q k k' i j i' j'}, k < K → k' < K → recv p k i j = recv q k' i' j' →
    (p = q ∧ k = k') ∧ i = i' ∧ j = j'
  sig_inj : ∀ {p q k k'}, k < K → k' < K → sig p k = sig q k' → p = q ∧ k = k'
  recv_ne_sig : ∀ {p q k k' i j}, k < K → k' < K → recv p k i j ≠ sig q k'

namespace Net

structure Repeats (N : Net ρ (Fin T) Loc R E G m n) (K : ℕ) : Prop where
  task : ∀ p t, t ∈ N.tasks p
  needs : ∀ {p t t'}, N.needs p t t' ↔ t' < t
  peer : ∀ p t t', N.peer p t = N.peer p t'
  blocks : ∀ p t, N.blocks p t = K

def onWindow (N : Net ρ (Fin T) Loc R E G m n) (w : Window ρ Word' K m n) :
    Net ρ (Fin T) Word' R E G m n where
  tasks := N.tasks
  needs := N.needs
  blocks := N.blocks
  waits := N.waits
  peer := N.peer
  epoch := N.epoch
  recvAt p _ k := w.recv p k
  sigAt p _ k := w.sig p k
  storeAt p t k := w.recv ((N.peer p t).getD p) k
  notifyAt p t k := w.sig ((N.peer p t).getD p) k
  load := N.load
  emit := N.emit
  outgoing := N.outgoing
  reduce := N.reduce
  inflight := N.inflight
  mem₀ _ := .zero
  env₀ := N.env₀
  reg₀ := N.reg₀

def ReadBefore (N : Net ρ (Fin T) Loc R E G m n) (seen : List (Event ρ (Fin T))) :
    Event ρ (Fin T) → Prop
  | .act p t k .store => ∀ q, N.peer p t = some q → ∀ t' < t, .act q t' k .load ∈ seen
  | _ => True

/-- Every tile is stored only after its receiver has read it in all earlier runs. -/
def ReadsFirst (N : Net ρ (Fin T) Loc R E G m n) (es : List (Event ρ (Fin T))) : Prop :=
  Runs.Always N.ReadBefore es

instance [Fintype ρ] [DecidableEq ρ] (N : Net ρ (Fin T) Loc R E G m n) :
    (seen : List (Event ρ (Fin T))) → (e : Event ρ (Fin T)) → Decidable (N.ReadBefore seen e)
  | _, .start _ _ => isTrue trivial
  | seen, .act p t _ .store =>
    inferInstanceAs (Decidable (∀ q, N.peer p t = some q → ∀ t' < t, _ ∈ seen))
  | _, .act _ _ _ .wait => isTrue trivial
  | _, .act _ _ _ .load => isTrue trivial
  | _, .act _ _ _ .emit => isTrue trivial
  | _, .act _ _ _ .flush => isTrue trivial
  | _, .act _ _ _ .notify => isTrue trivial
  | _, .act _ _ _ .reduce => isTrue trivial

instance [Fintype ρ] [DecidableEq ρ] (N : Net ρ (Fin T) Loc R E G m n)
    (es : List (Event ρ (Fin T))) : Decidable (N.ReadsFirst es) :=
  inferInstanceAs (Decidable (Runs.Always _ _))

variable {N : Net ρ (Fin T) Loc R E G m n} {w : Window ρ Word' K m n}

def shared (a : State ρ (Fin T) Loc R E G) (mem : Word' → Word R) : State ρ (Fin T) Word' R E G :=
  ⟨mem, a.env, a.reg, a.finished, a.cur⟩

theorem Link.run (hr : N.Repeats K) {p q : ρ} {t : Fin T} {k : ℕ} (hl : N.Link p t q k)
    (t' : Fin T) : N.Link p t' q k where
  task := hr.task p t'
  peer := (hr.peer p t' t).trans hl.peer
  block := by
    rw [hr.blocks, ← hr.blocks p t]
    exact hl.block

theorem Did.earlier (hr : N.Repeats K) {a : State ρ (Fin T) Loc R E G} (hc : N.Control a) {p : ρ}
    {t t' : Fin T} {k : ℕ} {φ : Phase} (h : N.Did a p t k φ) (ht : t' < t) : t' ∈ a.finished p := by
  refine hc.needs ?_ (hr.task p t') (hr.needs.mpr ht)
  rcases h.2.2 with hf | ⟨k', φ', hcur, -⟩
  · exact .inl hf
  · exact .inr ⟨_, hcur⟩

theorem not_did_later (hr : N.Repeats K) {a : State ρ (Fin T) Loc R E G} (hc : N.Control a) {p : ρ}
    {t t' : Fin T} {k k' : ℕ} {φ φ' : Phase} (hcur : a.cur p = some (t, k, φ)) (ht : t < t') :
    ¬ N.Did a p t' k' φ' := by
  intro h
  exact (hc.current hcur).2.1 (h.earlier hr hc ht)

theorem Link.block_lt (hr : N.Repeats K) {p q : ρ} {t : Fin T} {k : ℕ} (hl : N.Link p t q k) :
    k < K := by
  rw [← hr.blocks p t]
  exact hl.block

theorem Link.same_feeder (hw : N.Wired) (hr : N.Repeats K) {p p' q : ρ} {t t' : Fin T} {k : ℕ}
    (hl : N.Link p t q k) (hl' : N.Link p' t' q k) : p = p' :=
  hw.feeder_unique (hl.run hr t') hl'

theorem advance_shared [DecidableEq ρ] (a : State ρ (Fin T) Loc R E G) (mem : Word' → Word R)
    (p : ρ) (t : Fin T) (k : ℕ) (φ : Phase) : (N.onWindow w).advance (shared a mem) p t k φ =
      shared (N.advance a p t k φ) mem := by
  have hnext : (N.onWindow w).next p t k φ = N.next p t k φ := rfl
  rw [advance, advance, hnext]
  cases N.next p t k φ <;> rfl

variable [Zero R]

structure Related (N : Net ρ (Fin T) Loc R E G m n) (w : Window ρ Word' K m n)
    (mem : Word' → Word R) (a : State ρ (Fin T) Loc R E G) : Prop where
  signal : ∀ {p q t k}, N.Link p t q k → (t.val < (mem (w.sig q k)).toInt ↔ N.Did a p t k .notify)
  tile : ∀ {p q t k}, N.Link p t q k → N.Did a p t k .store →
    (∀ t', t < t' → ¬ N.Did a p t' k .store) →
    readTile mem (w.recv q k) = readTile a.mem (N.recvAt q t k)
  read : ∀ {p q t t' k}, N.Link p t q k → t' < t → N.Did a p t k .store → N.Did a q t' k .load

section Outlines

variable {O : N.Outline} {a : State ρ (Fin T) Loc R E G} {mem : Word' → Word R}

theorem Related.canAct (hw : N.Wired) (hrel : N.Related w mem a) (hs : N.Safe O a) {p : ρ}
    {t : Fin T} {k : ℕ} {φ : Phase} (hcur : a.cur p = some (t, k, φ))
    (hwait : φ = .wait → t.val + 1 ≤ (mem (w.sig p k)).toInt) : N.CanAct a p t k φ := by
  refine ⟨hcur, fun hφ => ?_⟩
  subst hφ
  obtain ⟨ht, -, hk, hwaits⟩ := hs.control.current hcur
  obtain ⟨q, hl⟩ := hw.feeder ⟨ht, hwaits, hk⟩
  have hdid := (hrel.signal hl).mp (hwait rfl)
  rw [hs.signal_on hl hdid, hw.epoch_one]

theorem Related.load_tile (hw : N.Wired) (hr : N.Repeats K) (hrel : N.Related w mem a)
    (hs : N.Safe O a) {p : ρ} {t : Fin T} {k : ℕ} {φ : Phase} (hcur : a.cur p = some (t, k, φ))
    (hφ : φ = .load) (hwaits : N.waits p t) :
    readTile mem (w.recv p k) = readTile a.mem (N.recvAt p t k) := by
  subst hφ
  obtain ⟨ht, -, hk, -⟩ := hs.control.current hcur
  obtain ⟨q, hl⟩ := hw.feeder ⟨ht, hwaits, hk⟩
  have hdid : N.Did a p t k .wait :=
    ⟨hk, hwaits, .inr ⟨k, .load, hcur, by simp [position, Phase.index]⟩⟩
  have hnotify := hs.order hl hdid
  apply hrel.tile hl (hnotify.mono hnotify.2.1 (by simp [Phase.index]))
  intro t' ht' hstore
  exact not_did_current hs.control hcur le_rfl (hrel.read (hl.run hr t') ht' hstore)

theorem Related.count (hr : N.Repeats K) (hrel : N.Related w mem a) (hs : N.Safe O a) {p q : ρ}
    {t : Fin T} {k : ℕ} {φ : Phase} (hcur : a.cur p = some (t, k, φ)) (hφ : φ = .notify)
    (hl : N.Link p t q k) : (mem (w.sig q k)).toInt = t := by
  subst hφ
  apply le_antisymm
  · by_contra hlt
    have hdid := (hrel.signal hl).mp (not_le.mp hlt)
    exact not_did_current hs.control hcur le_rfl hdid
  · by_contra hlt
    have hT := (not_le.mp hlt).trans t.isLt
    have hl' := hl.run hr ⟨_, hT⟩
    have hfin : ⟨_, hT⟩ ∈ a.finished p := hs.control.needs (.inr ⟨_, hcur⟩) (hr.task p _)
      (hr.needs.mpr (not_le.mp hlt))
    have hdid : N.Did a p ⟨_, hT⟩ k .notify :=
      ⟨hl'.block, Option.isSome_iff_exists.mpr ⟨q, hl'.peer⟩, .inl hfin⟩
    exact lt_irrefl _ ((hrel.signal hl').mpr hdid)

theorem initial_related : N.Related w (fun _ => .zero) N.initial := by
  have hdid (p : ρ) (t : Fin T) (k : ℕ) (φ : Phase) : ¬ N.Did N.initial p t k φ := by
    simp [Did, initial]
  constructor
  · intro p q t k _
    exact iff_of_false (Nat.not_lt_zero _) (hdid _ _ _ _)
  · exact fun _ h => absurd h (hdid _ _ _ _)
  · exact fun _ _ h => absurd h (hdid _ _ _ _)

end Outlines

variable [DecidableEq ρ]

theorem Related.start {a : State ρ (Fin T) Loc R E G} {mem : Word' → Word R}
    (hrel : N.Related w mem a) {p : ρ} {t : Fin T} (h : N.CanStart a p t) :
    N.Related w mem { a with cur := Function.update a.cur p (some (t, 0, N.first p t)) } := by
  have hdid := did_start h
  constructor
  · intro p' q' t' k' hl
    rw [hdid]
    exact hrel.signal hl
  · intro p' q' t' k' hl hstore hlast
    exact hrel.tile hl ((hdid ..).mp hstore) fun t'' ht h' => hlast t'' ht ((hdid ..).mpr h')
  · intro p' q' t' t'' k' hl ht hstore
    exact (hdid ..).mpr (hrel.read hl ht ((hdid ..).mp hstore))

variable [DecidableEq Word']

theorem shared_signal_self {a : State ρ (Fin T) Loc R E G} {p q : ρ} {t : Fin T} {k : ℕ}
    (hl : N.Link p t q k) (mem : Word' → Word R) :
    ((N.onWindow w).effect (shared a mem) p t k .notify).mem (w.sig q k) =
      .int ((mem (w.sig q k)).toInt + 1) := by
  simp only [effect, onWindow, shared, hl.peer, Option.getD_some, Function.update_self]

section Memory

variable (hw : N.Wired) (hr : N.Repeats K)
include hw hr

variable {a : State ρ (Fin T) Loc R E G} (hc : N.Control a) {p p' q : ρ} {t t' : Fin T} {k k' : ℕ}
  {φ : Phase} (hcur : a.cur p' = some (t', k', φ)) (hl : N.Link p t q k)
include hc hcur hl

theorem shared_signal_ne (mem : Word' → Word R) (hne : φ = .notify → ¬ (p' = p ∧ k' = k)) :
    ((N.onWindow w).effect (shared a mem) p' t' k' φ).mem (w.sig q k) = mem (w.sig q k) := by
  have hk := hl.block_lt hr
  cases φ with
  | wait | load | emit | reduce => rfl
  | store | flush =>
    obtain ⟨q', hl'⟩ := link_of_sends hc hcur (by simp)
    exact writeTile_of_ne _ _ _ fun _ _ => w.recv_ne_sig (hl'.block_lt hr) hk
  | notify =>
    obtain ⟨q', hl'⟩ := link_of_sends hc hcur (by simp)
    apply Function.update_of_ne
    intro he
    have hp : (N.peer p' t').getD p' = q' := by rw [hl'.peer, Option.getD_some]
    obtain ⟨rfl, rfl⟩ := w.sig_inj hk (hl'.block_lt hr) (he.trans (congrArg (w.sig · k') hp))
    exact hne rfl ⟨hl'.same_feeder hw hr hl, rfl⟩

theorem shared_tile_ne (mem : Word' → Word R)
    (hne : φ = .store ∨ φ = .flush → ¬ (p' = p ∧ k' = k)) :
    readTile ((N.onWindow w).effect (shared a mem) p' t' k' φ).mem (w.recv q k) =
      readTile mem (w.recv q k) := by
  have hk := hl.block_lt hr
  apply readTile_congr
  intro i j
  have away (hφ : φ = .store ∨ φ = .flush) (i' : Fin m) (j' : Fin n) :
      w.recv ((N.peer p' t').getD p') k' i' j' ≠ w.recv q k i j := by
    obtain ⟨q', hl'⟩ := link_of_sends hc hcur (hφ.imp_right .inl)
    intro he
    rw [hl'.peer, Option.getD_some] at he
    obtain ⟨⟨rfl, rfl⟩, -⟩ := w.recv_inj (hl'.block_lt hr) hk he
    exact hne hφ ⟨hl'.same_feeder hw hr hl, rfl⟩
  cases φ with
  | wait | load | emit | reduce => rfl
  | store => exact writeTile_of_ne _ _ _ (away (.inl rfl))
  | flush => exact writeTile_of_ne _ _ _ (away (.inr rfl))
  | notify =>
    obtain ⟨q', hl'⟩ := link_of_sends hc hcur (by simp)
    exact Function.update_of_ne (w.recv_ne_sig hk (hl'.block_lt hr)) ..

end Memory

variable [DecidableEq Loc]

def epochStep (N : Net ρ (Fin T) Loc R E G m n) (s : State ρ (Fin T) Loc R E G) :
    Event ρ (Fin T) → Option (State ρ (Fin T) Loc R E G)
  | .start p t => N.step s (.start p t)
  | .act p t k φ =>
    if s.cur p = some (t, k, φ) ∧ (φ = .wait → t.val + 1 ≤ (s.mem (N.sigAt p t k)).toInt) then
      some (N.advance (N.effect s p t k φ) p t k φ)
    else none

def EpochRun (N : Net ρ (Fin T) Loc R E G m n) (es : List (Event ρ (Fin T)))
    (s : State ρ (Fin T) Loc R E G) : Prop :=
  Runs.exec N.epochStep N.initial es = some s

theorem effect_shared {a : State ρ (Fin T) Loc R E G} {mem : Word' → Word R} {p : ρ} {t : Fin T}
    {k : ℕ} {φ : Phase} (h : φ = .load → N.waits p t →
      readTile mem (w.recv p k) = readTile a.mem (N.recvAt p t k)) :
    (N.onWindow w).effect (shared a mem) p t k φ =
      shared (N.effect a p t k φ) ((N.onWindow w).effect (shared a mem) p t k φ).mem := by
  cases φ with
  | load =>
    have htile : (if N.waits p t then readTile mem (w.recv p k) else 0) =
        if N.waits p t then readTile a.mem (N.recvAt p t k) else 0 := by
      split_ifs with hwait
      · exact h rfl hwait
      · rfl
    exact congrArg (fun X => (⟨mem, a.env, Function.update a.reg p
      (N.load p t k (a.env p) X (a.reg p)), a.finished, a.cur⟩ : State ρ (Fin T) Word' R E G)) htile
  | wait | emit | store | flush | notify | reduce => rfl

section Sends

variable (hw : N.Wired) (hr : N.Repeats K) {a : State ρ (Fin T) Loc R E G} {p q : ρ} {t : Fin T}
  {k : ℕ} (hl : N.Link p t q k)
include hw hr hl

theorem shared_tile_self (mem : Word' → Word R) {φ : Phase} (h : φ = .store ∨ φ = .flush) :
    readTile ((N.onWindow w).effect (shared a mem) p t k φ).mem (w.recv q k) =
      readTile (N.effect a p t k φ).mem (N.recvAt q t k) := by
  have hk := hl.block_lt hr
  have hs := hw.receiver hl
  have hp : (N.peer p t).getD p = q := by rw [hl.peer, Option.getD_some]
  have window (B : Matrix (Fin m) (Fin n) R) :
      readTile (writeTile mem (w.recv ((N.peer p t).getD p) k) B) (w.recv q k) = B := by
    rw [hp]
    exact readTile_writeTile _ _ fun _ _ _ _ he => (w.recv_inj hk hk he).2
  have own (B : Matrix (Fin m) (Fin n) R) :
      readTile (writeTile a.mem (N.storeAt p t k) B) (N.recvAt q t k) = B := by
    rw [hw.store_eq hl]
    exact readTile_writeTile _ _ fun _ _ _ _ he => (hw.recv_inj hs hs he).2
  rcases h with rfl | rfl
  · exact (window _).trans (own _).symm
  · exact (window _).trans (own _).symm

end Sends

section Simulation

variable (hw : N.Wired) (hr : N.Repeats K) {O : N.Outline} {a : State ρ (Fin T) Loc R E G}
  {mem : Word' → Word R}
include hw hr

theorem Related.act (hrel : N.Related w mem a) (hs : N.Safe O a) {p : ρ} {t : Fin T} {k : ℕ}
    {φ : Phase} (hcur : a.cur p = some (t, k, φ))
    (hread : φ = .store → ∀ q, N.Link p t q k → ∀ t' < t, N.Did a q t' k .load) :
    N.Related w ((N.onWindow w).effect (shared a mem) p t k φ).mem
      (N.advance (N.effect a p t k φ) p t k φ) := by
  have hc := hs.control
  have hcur' : (N.effect a p t k φ).cur p = some (t, k, φ) := by rw [effect_cur, hcur]
  have hdid := did_act (effect_control hc p t k φ) hcur'
  simp only [effect_did] at hdid
  constructor
  · intro p' q' t' k' hl
    rw [hdid]
    by_cases hself : φ = .notify ∧ p = p' ∧ k = k'
    · obtain ⟨rfl, rfl, rfl⟩ := hself
      have hcount := hrel.count hr hs hcur rfl (hl.run hr t)
      rw [shared_signal_self (hl.run hr t), Word.toInt, ← hrel.signal hl, hcount]
      simp only [Fin.ext_iff, true_and, and_true]
      omega
    · rw [shared_signal_ne hw hr hc hcur hl mem fun hφ h => hself ⟨hφ, h⟩, hrel.signal hl]
      refine ⟨.inl, fun h => h.resolve_right ?_⟩
      rintro ⟨rfl, -, rfl, hφ⟩
      exact hself ⟨hφ.symm, rfl, rfl⟩
  · intro p' q' t' k' hl hstore hlast
    rw [advance_mem]
    by_cases hself : (φ = .store ∨ φ = .flush) ∧ p = p' ∧ k = k'
    · obtain ⟨hφ, rfl, rfl⟩ := hself
      -- the block is that of the current run, or the current run has stored over it
      obtain rfl : t' = t := by
        rcases lt_trichotomy t' t with ht | ht | ht
        · refine absurd ((hdid ..).mpr ?_) (hlast t ht)
          rcases hφ with rfl | rfl
          · exact .inr ⟨rfl, rfl, rfl, rfl⟩
          · refine .inl ⟨(hl.run hr t).block, ?_, .inr ⟨k, .flush, hcur, ?_⟩⟩
            · exact Option.isSome_iff_exists.mpr ⟨q', (hl.run hr t).peer⟩
            · simp [position, Phase.index]
        · exact ht
        · refine ((hdid ..).mp hstore).elim (fun h => ?_) fun h => h.2.1
          exact absurd h (not_did_later hr hc hcur ht)
      exact shared_tile_self hw hr hl mem hφ
    · rw [shared_tile_ne hw hr hc hcur hl mem fun hφ h => hself ⟨hφ, h⟩,
        effect_tile_ne hw hc hcur hl fun hφ h => hself ⟨hφ, h.1, h.2.2⟩]
      apply hrel.tile hl
      · refine ((hdid ..).mp hstore).resolve_right ?_
        rintro ⟨rfl, -, rfl, hφ⟩
        exact hself ⟨.inl hφ.symm, rfl, rfl⟩
      · exact fun t'' ht h => hlast t'' ht ((hdid ..).mpr (.inl h))
  · intro p' q' t' t'' k' hl ht hstore
    apply (hdid ..).mpr
    left
    rcases (hdid ..).mp hstore with h | ⟨rfl, rfl, rfl, hφ⟩
    · exact hrel.read hl ht h
    · exact hread hφ.symm q' hl t'' ht

theorem epochStep_related (hrel : N.Related w mem a) (hs : N.Safe O a) {e : Event ρ (Fin T)}
    {s : State ρ (Fin T) Word' R E G} (hstep : (N.onWindow w).epochStep (shared a mem) e = some s)
    (hread : ∀ p t k q, e = .act p t k .store → N.Link p t q k → ∀ t' < t, N.Did a q t' k .load) :
    ∃ a' mem', s = shared a' mem' ∧ N.step a e = some a' ∧ N.Related w mem' a' := by
  cases e with
  | start p t =>
    rw [epochStep, step] at hstep
    split_ifs at hstep with hstart
    obtain rfl := Option.some.inj hstep
    have hstart' : N.CanStart a p t := hstart
    exact ⟨_, mem, rfl, if_pos hstart', hrel.start hstart'⟩
  | act p t k φ =>
    rw [epochStep] at hstep
    split_ifs at hstep with hact
    obtain rfl := Option.some.inj hstep
    have hact' := hrel.canAct hw hs hact.1 hact.2
    have hload := hrel.load_tile hw hr hs hact'.1
    refine ⟨_, _, ?_, if_pos hact', hrel.act hw hr hs hact'.1 fun hφ q hl => ?_⟩
    · rw [effect_shared hload, advance_shared]
      rfl
    · exact hread p t k q (by rw [hφ]) hl

theorem epochRun_refines (O : N.Outline) {es : List (Event ρ (Fin T))}
    {s : State ρ (Fin T) Word' R E G} (hrun : (N.onWindow w).EpochRun es s)
    (hread : N.ReadsFirst es) : ∃ a mem, s = shared a mem ∧ N.Run es a ∧ N.Related w mem a := by
  refine Runs.exec_invariant_of_always
    (fun es s => ∃ a mem, s = shared a mem ∧ N.Run es a ∧ N.Related w mem a) ?_ ?_ hrun hread
  · exact ⟨N.initial, fun _ => .zero, rfl, rfl, initial_related⟩
  · rintro es _ e s' ⟨a, mem, rfl, ha, hrel⟩ hread hstep
    have hs := run_safe hw O ha
    obtain ⟨a', mem', rfl, ha', hrel'⟩ := epochStep_related hw hr hrel hs hstep (by
      rintro p t k q rfl hl t' ht
      apply ((run_control hw.blocks_pos ha).2 q t' k .load).mp
      exact hread q hl.peer t' ht)
    exact ⟨a', mem', rfl, Runs.exec_snoc.mpr ⟨a, ha, ha'⟩, hrel'⟩

theorem epochRun_done (O : N.Outline) {es : List (Event ρ (Fin T))}
    {s : State ρ (Fin T) Word' R E G} (hrun : (N.onWindow w).EpochRun es s)
    (hread : N.ReadsFirst es) {p : ρ} {t : Fin T} (ht : t ∈ s.finished p) :
    O.Done p t (s.env p) := by
  obtain ⟨a, mem, rfl, ha, -⟩ := epochRun_refines hw hr O hrun hread
  exact (run_safe hw O ha).done ht

end Simulation

end Net

end ZeCo.Network
