import ZeCo.NetworkRetained
import ZeCo.NetworkTermination

namespace ZeCo.Network.Net

variable {ρ τ Loc R E G : Type*} {m n : ℕ} {N : Net ρ τ Loc R E G m n} {mem : Loc → Word R}

section Memory

def SignalsZero (N : Net ρ τ Loc R E G m n) (mem : Loc → Word R) : Prop :=
  ∀ {q t k}, N.Slot q t k → mem (N.sigAt q t k) = .zero

theorem Wired.onMemory (hw : N.Wired) (hz : N.SignalsZero mem) : (N.onMemory mem).Wired where
  blocks_pos := hw.blocks_pos
  receiver hl :=
    let hs := hw.receiver ⟨hl.task, hl.peer, hl.block⟩
    ⟨hs.task, hs.waits, hs.block⟩
  feeder hs :=
    let ⟨p, hl⟩ := hw.feeder ⟨hs.task, hs.waits, hs.block⟩
    ⟨p, hl.task, hl.peer, hl.block⟩
  feeder_unique hl hl' :=
    hw.feeder_unique ⟨hl.task, hl.peer, hl.block⟩ ⟨hl'.task, hl'.peer, hl'.block⟩
  store_eq hl := hw.store_eq ⟨hl.task, hl.peer, hl.block⟩
  notify_eq hl := hw.notify_eq ⟨hl.task, hl.peer, hl.block⟩
  recv_inj hs hs' :=
    hw.recv_inj ⟨hs.task, hs.waits, hs.block⟩ ⟨hs'.task, hs'.waits, hs'.block⟩
  sig_inj hs hs' := hw.sig_inj ⟨hs.task, hs.waits, hs.block⟩ ⟨hs'.task, hs'.waits, hs'.block⟩
  sig_ne_recv hs hs' :=
    hw.sig_ne_recv ⟨hs.task, hs.waits, hs.block⟩ ⟨hs'.task, hs'.waits, hs'.block⟩
  epoch_one := hw.epoch_one
  zeroed hs := hz ⟨hs.task, hs.waits, hs.block⟩

theorem Progressive.onMemory {prior measure : ρ → τ → ℕ} (hp : N.Progressive prior measure)
    (mem : Loc → Word R) : (N.onMemory mem).Progressive prior measure where
  needs_prior := hp.needs_prior
  feeder_lower hl hs :=
    hp.feeder_lower ⟨hl.task, hl.peer, hl.block⟩ ⟨hs.task, hs.waits, hs.block⟩

variable (N mem) in
open Classical in
noncomputable def cleared : Loc → Word R :=
  fun a => if ∃ q t k, N.Slot q t k ∧ N.sigAt q t k = a then .zero else mem a

theorem cleared_signalsZero : N.SignalsZero (N.cleared mem) := fun hs =>
  if_pos ⟨_, _, _, hs, rfl⟩

variable [Zero R]

def Outline.onMemory (O : N.Outline) (mem : Loc → Word R) : (N.onMemory mem).Outline where
  incoming := O.incoming
  Fresh := O.Fresh
  At := O.At
  Done := O.Done
  fresh := O.fresh
  start := O.start
  load := O.load
  emit := O.emit
  send hl := O.send ⟨hl.task, hl.peer, hl.block⟩
  reduce_next := O.reduce_next
  reduce_done := O.reduce_done
  frame_fresh := O.frame_fresh
  frame_done := O.frame_done

theorem cleared_agrees (hw : N.Wired) :
    (N.onMemory (N.cleared mem)).Agrees mem (N.onMemory (N.cleared mem)).initial where
  tile {p q t k} hl := by
    have hs : N.Slot q t k := hw.receiver ⟨hl.task, hl.peer, hl.block⟩
    have kept (i : Fin m) (j : Fin n) :
        N.cleared mem (N.recvAt q t k i j) = mem (N.recvAt q t k i j) := by
      apply if_neg
      rintro ⟨q', t', k', hs', he⟩
      exact hw.sig_ne_recv hs' hs he.symm
    ext i j
    exact (congrArg Word.toFloat (kept i j)).symm
  signal {p q t k} hl := by
    have hs : N.Slot q t k := hw.receiver ⟨hl.task, hl.peer, hl.block⟩
    have hzero : N.cleared mem (N.sigAt q t k) = .zero := cleared_signalsZero hs
    change (N.cleared mem (N.sigAt q t k)).toInt ≤ _
    rw [hzero]
    exact Nat.zero_le _

end Memory

variable [DecidableEq ρ] [DecidableEq τ] [DecidableEq Loc] [Zero R] {es : List (Event ρ τ)}
  {s : State ρ τ Loc R E G}

/-- What makes a dispatch right: its waits start from zero, or they await its own
notifications. -/
def Starts (N : Net ρ τ Loc R E G m n) (mem : Loc → Word R) (es : List (Event ρ τ)) : Prop :=
  N.SignalsZero mem ∨ AwaitsOwn N.peer es

theorem dispatch_done (hw : N.Wired) (O : N.Outline) (hrun : (N.onMemory mem).Run es s)
    (hfinal : N.Final s) (hstart : N.Starts mem es) {p : ρ} {t : τ} (ht : t ∈ N.tasks p) :
    O.Done p t (s.env p) := by
  rcases hstart with hz | hown
  · exact final_done (hw.onMemory hz) (O.onMemory mem) hrun hfinal ht
  · exact retained_done (hw.onMemory cleared_signalsZero) (O.onMemory (N.cleared mem))
      (cleared_agrees hw) hrun hown hfinal ht

theorem dispatch_final_of_stuck {prior measure : ρ → τ → ℕ} (hw : N.Wired)
    (hp : N.Progressive prior measure) (O : N.Outline) (hrun : (N.onMemory mem).Run es s)
    (hstuck : Runs.Stuck (N.onMemory mem).step s) (hstart : N.Starts mem es) : N.Final s := by
  rcases hstart with hz | hown
  · exact final_of_stuck (hw.onMemory hz) (hp.onMemory mem) (O.onMemory mem) hrun hstuck
  · exact retained_final_of_stuck (hw.onMemory cleared_signalsZero) (hp.onMemory _)
      (O.onMemory (N.cleared mem)) (cleared_agrees hw) hrun hown hstuck

section Session

variable {χ : Type*} (prog : χ → Net ρ τ Loc R E G m n) (start : (Loc → Word R) → Loc → Word R)

inductive Session : (Loc → Word R) → List (χ × List (Event ρ τ)) → List (ρ → E) →
    (Loc → Word R) → Prop
  | nil (mem : Loc → Word R) : Session mem [] [] mem
  | cons {mem mem' : Loc → Word R} {x : χ} {es : List (Event ρ τ)}
      {ds : List (χ × List (Event ρ τ))} {envs : List (ρ → E)} {s : State ρ τ Loc R E G}
      (run : ((prog x).onMemory (start mem)).Run es s) (final : (prog x).Final s)
      (rest : Session s.mem ds envs mem') : Session mem ((x, es) :: ds) (s.env :: envs) mem'

variable {prog start}

theorem session_done (hw : ∀ x, (prog x).Wired) (O : ∀ x, (prog x).Outline) {mem' : Loc → Word R}
    {ds : List (χ × List (Event ρ τ))} {envs : List (ρ → E)}
    (h : Session prog start mem ds envs mem')
    (head : ∀ d ∈ ds.head?, (prog d.1).Starts (start mem) d.2)
    (tail : ∀ d ∈ ds.tail, ∀ mem, (prog d.1).Starts (start mem) d.2) :
    List.Forall₂ (fun d env => ∀ p, ∀ t ∈ (prog d.1).tasks p, (O d.1).Done p t (env p))
      ds envs := by
  induction h with
  | nil => exact .nil
  | @cons mem mem' x es ds envs s run final _ ih =>
    have first : (prog x).Starts (start mem) es := head (x, es) rfl
    refine .cons (fun p t ht => dispatch_done (hw x) (O x) run final first ht) (ih ?_ ?_)
    · intro d hd
      exact tail d (List.mem_of_mem_head? hd) s.mem
    · intro d hd
      exact tail d (List.mem_of_mem_tail hd)

end Session

end ZeCo.Network.Net
