import Mathlib.Data.Fintype.Defs
import Mathlib.Data.Matrix.Basic
import ZeCo.Loop
import ZeCo.Runs

/-!
Networks of processes that run blocked tasks and pass tiles through one another's memory. A task
works through its blocks; in each it may wait for a signal word and read the tile the signal
guards, and it may store a tile remotely, flush it and add one to the signal that guards it. The
processes interleave freely.
-/

namespace ZeCo.Network

open Matrix

inductive Phase where
  | wait | load | emit | store | flush | notify | reduce
  deriving DecidableEq

def Phase.index : Phase → ℕ
  | .wait => 0
  | .load => 1
  | .emit => 2
  | .store => 3
  | .flush => 4
  | .notify => 5
  | .reduce => 6

/-- A word of window memory; zeroed memory reads as either zero. -/
inductive Word (R : Type*) where
  | zero
  | float (x : R)
  | int (n : ℕ)

def Word.toFloat {R : Type*} [Zero R] : Word R → R
  | .float x => x
  | _ => 0

def Word.toInt {R : Type*} : Word R → ℕ
  | .int n => n
  | _ => 0

section Tiles

variable {Loc R : Type*} {m n : ℕ}

abbrev Tile (Loc : Type*) (m n : ℕ) := Fin m → Fin n → Loc

def readTile [Zero R] (mem : Loc → Word R) (tile : Tile Loc m n) : Matrix (Fin m) (Fin n) R :=
  of fun i j => (mem (tile i j)).toFloat

theorem readTile_congr [Zero R] {mem mem' : Loc → Word R} {tile : Tile Loc m n}
    (h : ∀ i j, mem' (tile i j) = mem (tile i j)) : readTile mem' tile = readTile mem tile := by
  ext i j
  rw [readTile, readTile, of_apply, of_apply, h]

variable [DecidableEq Loc]

def writeTile (mem : Loc → Word R) (tile : Tile Loc m n) (B : Matrix (Fin m) (Fin n) R) :
    Loc → Word R :=
  Loop.up m (fun i mem =>
    Loop.up n (fun j mem => Function.update mem (tile i j) (.float (B i j))) mem) mem

theorem writeTile_of_ne (mem : Loc → Word R) (tile : Tile Loc m n) (B : Matrix (Fin m) (Fin n) R)
    {a : Loc} (h : ∀ i j, tile i j ≠ a) : writeTile mem tile B a = mem a := by
  unfold writeTile
  apply Loop.up_invariant (fun _ (x : Loc → Word R) => x a = mem a) rfl
  intro i x hx
  apply Loop.up_invariant (fun _ (x : Loc → Word R) => x a = mem a) hx
  intro j y hy
  rw [Function.update_of_ne (h i j).symm, hy]

theorem writeTile_apply (mem : Loc → Word R) {tile : Tile Loc m n} (B : Matrix (Fin m) (Fin n) R)
    (inj : ∀ i j i' j', tile i j = tile i' j' → i = i' ∧ j = j') (i : Fin m) (j : Fin n) :
    writeTile mem tile B (tile i j) = .float (B i j) := by
  have key : ∀ i' : Fin m, i'.val < m → ∀ j,
      writeTile mem tile B (tile i' j) = .float (B i' j) := by
    unfold writeTile
    apply Loop.up_invariant fun r (x : Loc → Word R) =>
      ∀ i' : Fin m, i'.val < r → ∀ j, x (tile i' j) = .float (B i' j)
    · exact fun i' hi => absurd hi (Nat.not_lt_zero _)
    · intro r x hx
      have row := Loop.up_invariant
        (f := fun j (x : Loc → Word R) => Function.update x (tile r j) (.float (B r j))) (s := x)
        (fun c x => (∀ i' : Fin m, i'.val < r → ∀ j, x (tile i' j) = .float (B i' j)) ∧
          ∀ j : Fin n, j.val < c → x (tile r j) = .float (B r j))
        ⟨hx, fun j hj => absurd hj (Nat.not_lt_zero _)⟩ ?_
      · intro i' hi j
        by_cases h : i' = r
        · subst h
          exact row.2 j j.isLt
        · have : i'.val ≠ r := fun he => h (Fin.ext he)
          exact row.1 i' (by omega) j
      · rintro c x ⟨ho, hr⟩
        refine ⟨fun i' hi j => ?_, fun j hj => ?_⟩
        · have hne : tile i' j ≠ tile r c := fun he => by
            have := congrArg Fin.val (inj _ _ _ _ he).1
            omega
          rw [Function.update_of_ne hne, ho i' hi]
        · by_cases h : j = c
          · subst h
            exact Function.update_self _ _ _
          · have hne : tile r j ≠ tile r c := fun he => h (inj _ _ _ _ he).2
            have hv : j.val ≠ c := fun he => h (Fin.ext he)
            rw [Function.update_of_ne hne, hr j (by omega)]
  exact key i i.isLt j

theorem readTile_writeTile [Zero R] (mem : Loc → Word R) {tile : Tile Loc m n}
    (B : Matrix (Fin m) (Fin n) R)
    (inj : ∀ i j i' j', tile i j = tile i' j' → i = i' ∧ j = j') :
    readTile (writeTile mem tile B) tile = B := by
  ext i j
  rw [readTile, of_apply, writeTile_apply mem B inj]
  rfl

end Tiles

/-- A network: `ρ` are the processes, `τ` the tasks, `Loc` the words of window memory, `E` a
process's own tensors and `G` its registers. -/
structure Net (ρ τ Loc R E G : Type*) (m n : ℕ) where
  tasks : ρ → Finset τ
  needs : ρ → τ → τ → Bool
  blocks : ρ → τ → ℕ
  waits : ρ → τ → Bool
  peer : ρ → τ → Option ρ
  epoch : ℕ
  recvAt : ρ → τ → ℕ → Tile Loc m n
  sigAt : ρ → τ → ℕ → Loc
  storeAt : ρ → τ → ℕ → Tile Loc m n
  notifyAt : ρ → τ → ℕ → Loc
  load : ρ → τ → ℕ → E → Matrix (Fin m) (Fin n) R → G → G
  emit : ρ → τ → ℕ → E → G → E × G
  outgoing : ρ → τ → ℕ → G → Matrix (Fin m) (Fin n) R
  reduce : ρ → τ → ℕ → E → G → E × G
  /-- What the words of a remote store hold until it is flushed. -/
  inflight : ρ → τ → ℕ → Matrix (Fin m) (Fin n) R
  mem₀ : Loc → Word R
  env₀ : ρ → E
  reg₀ : ρ → G

structure State (ρ τ Loc R E G : Type*) where
  mem : Loc → Word R
  env : ρ → E
  reg : ρ → G
  finished : ρ → Finset τ
  cur : ρ → Option (τ × ℕ × Phase)

inductive Event (ρ τ : Type*) where
  | start (p : ρ) (t : τ)
  | act (p : ρ) (t : τ) (k : ℕ) (φ : Phase)
  deriving DecidableEq

variable {ρ τ Loc R E G : Type*} {m n : ℕ} [DecidableEq ρ] [DecidableEq τ] [DecidableEq Loc]
  [Zero R]

namespace Net

variable (N : Net ρ τ Loc R E G m n)

def initial : State ρ τ Loc R E G :=
  { mem := N.mem₀, env := N.env₀, reg := N.reg₀, finished := fun _ => ∅, cur := fun _ => none }

def first (p : ρ) (t : τ) : Phase := if N.waits p t then .wait else .load

def next (p : ρ) (t : τ) (k : ℕ) : Phase → Option (ℕ × Phase)
  | .wait => some (k, .load)
  | .load => some (k, .emit)
  | .emit => some (k, if (N.peer p t).isSome then .store else .reduce)
  | .store => some (k, .flush)
  | .flush => some (k, .notify)
  | .notify => some (k, .reduce)
  | .reduce => if k + 1 < N.blocks p t then some (k + 1, N.first p t) else none

def CanStart (s : State ρ τ Loc R E G) (p : ρ) (t : τ) : Prop :=
  s.cur p = none ∧ t ∈ N.tasks p ∧ t ∉ s.finished p ∧
    ∀ t' ∈ N.tasks p, N.needs p t t' → t' ∈ s.finished p

def CanAct (s : State ρ τ Loc R E G) (p : ρ) (t : τ) (k : ℕ) (φ : Phase) : Prop :=
  s.cur p = some (t, k, φ) ∧ (φ = .wait → N.epoch ≤ (s.mem (N.sigAt p t k)).toInt)

instance (s : State ρ τ Loc R E G) (p : ρ) (t : τ) : Decidable (N.CanStart s p t) :=
  inferInstanceAs (Decidable (_ ∧ _ ∧ _ ∧ _))

instance (s : State ρ τ Loc R E G) (p : ρ) (t : τ) (k : ℕ) (φ : Phase) :
    Decidable (N.CanAct s p t k φ) := inferInstanceAs (Decidable (_ ∧ _))

def effect (s : State ρ τ Loc R E G) (p : ρ) (t : τ) (k : ℕ) : Phase → State ρ τ Loc R E G
  | .wait => s
  | .load =>
    let tile := if N.waits p t then readTile s.mem (N.recvAt p t k) else 0
    { s with reg := Function.update s.reg p (N.load p t k (s.env p) tile (s.reg p)) }
  | .emit =>
    let x := N.emit p t k (s.env p) (s.reg p)
    { s with env := Function.update s.env p x.1, reg := Function.update s.reg p x.2 }
  | .store => { s with mem := writeTile s.mem (N.storeAt p t k) (N.inflight p t k) }
  | .flush => { s with mem := writeTile s.mem (N.storeAt p t k) (N.outgoing p t k (s.reg p)) }
  | .notify =>
    let a := N.notifyAt p t k
    { s with mem := Function.update s.mem a (.int ((s.mem a).toInt + 1)) }
  | .reduce =>
    let x := N.reduce p t k (s.env p) (s.reg p)
    { s with env := Function.update s.env p x.1, reg := Function.update s.reg p x.2 }

def advance (s : State ρ τ Loc R E G) (p : ρ) (t : τ) (k : ℕ) (φ : Phase) : State ρ τ Loc R E G :=
  match N.next p t k φ with
  | some c => { s with cur := Function.update s.cur p (some (t, c)) }
  | none => { s with cur := Function.update s.cur p none
                     finished := Function.update s.finished p (insert t (s.finished p)) }

def step (s : State ρ τ Loc R E G) : Event ρ τ → Option (State ρ τ Loc R E G)
  | .start p t =>
    if N.CanStart s p t then
      some { s with cur := Function.update s.cur p (some (t, 0, N.first p t)) }
    else none
  | .act p t k φ =>
    if N.CanAct s p t k φ then some (N.advance (N.effect s p t k φ) p t k φ) else none

def Run (es : List (Event ρ τ)) (s : State ρ τ Loc R E G) : Prop :=
  Runs.exec N.step N.initial es = some s

def Final (s : State ρ τ Loc R E G) : Prop := ∀ p, s.finished p = N.tasks p

instance [Fintype ρ] (s : State ρ τ Loc R E G) : Decidable (N.Final s) :=
  inferInstanceAs (Decidable (∀ _, _))

theorem exists_final [Fintype ρ] (es : List (Event ρ τ))
    (h : (Runs.exec N.step N.initial es).any (fun s => decide (N.Final s)) = true) :
    ∃ s, N.Run es s ∧ N.Final s := by
  rw [Option.any_eq_true] at h
  obtain ⟨s, hs, hfinal⟩ := h
  exact ⟨s, hs, of_decide_eq_true hfinal⟩

end Net

end ZeCo.Network
