import Mathlib.Logic.Function.Basic
import ZeCo.Runs

/-!
Sequential processes that exchange messages over FIFO channels, one channel for each ordered pair of
processes. A send either completes at once, and its message waits in the channel, or completes only
together with the matching receive.
-/

namespace ZeCo.Processes

/-- A process. The tag of a communication is there for the proofs: no message carries it. -/
inductive Proc (ρ τ μ α : Type*) where
  | ret (a : α)
  | send (tag : τ) (dst : ρ) (m : μ) (next : Proc ρ τ μ α)
  | recv (tag : τ) (src : ρ) (next : μ → Proc ρ τ μ α)

variable {ρ τ μ α β : Type*}

namespace Proc

def bind : Proc ρ τ μ α → (α → Proc ρ τ μ β) → Proc ρ τ μ β
  | .ret a, f => f a
  | .send tag dst m next, f => .send tag dst m (next.bind f)
  | .recv tag src next, f => .recv tag src fun m => (next m).bind f

def forRange (body : ℕ → α → Proc ρ τ μ α) : ℕ → α → Proc ρ τ μ α
  | 0, a => .ret a
  | n + 1, a => (forRange body n a).bind (body n)

def recvFrom (tag : τ) (absent : μ) : Option ρ → Proc ρ τ μ μ
  | some src => .recv tag src .ret
  | none => .ret absent

def sendTo (tag : τ) (m : μ) : Option ρ → Proc ρ τ μ Unit
  | some dst => .send tag dst m (.ret ())
  | none => .ret ()

end Proc

inductive Mode where
  | buffered | rendezvous

structure State (ρ τ μ α : Type*) where
  proc : ρ → Proc ρ τ μ α
  chan : ρ × ρ → List (τ × μ)

inductive Event (ρ : Type*) where
  | send (p : ρ)
  | recv (q : ρ)
  | handshake (p q : ρ)

namespace State

variable [DecidableEq ρ]

def init (prog : ρ → Proc ρ τ μ α) : State ρ τ μ α := { proc := prog, chan := fun _ => [] }

def step (mode : Mode) (s : State ρ τ μ α) : Event ρ → Option (State ρ τ μ α)
  | .send p =>
    match mode, s.proc p with
    | .buffered, .send tag dst m next =>
      some { proc := Function.update s.proc p next
             chan := Function.update s.chan (p, dst) (s.chan (p, dst) ++ [(tag, m)]) }
    | _, _ => none
  | .recv q =>
    match s.proc q with
    | .recv _ src next =>
      match s.chan (src, q) with
      | (_, m) :: rest =>
        some { proc := Function.update s.proc q (next m)
               chan := Function.update s.chan (src, q) rest }
      | [] => none
    | _ => none
  | .handshake p q =>
    match mode, s.proc p, s.proc q with
    | .rendezvous, .send _ dst m next, .recv _ src next' =>
      if dst = q ∧ src = p then
        some { s with proc := Function.update (Function.update s.proc p next) q (next' m) }
      else none
    | _, _, _ => none

def Run (mode : Mode) (prog : ρ → Proc ρ τ μ α) (es : List (Event ρ)) (s : State ρ τ μ α) : Prop :=
  Runs.exec (step mode) (init prog) es = some s

def Final (s : State ρ τ μ α) : Prop := ∀ p, ∃ a, s.proc p = .ret a

def Matched (s : State ρ τ μ α) : Prop :=
  ∀ q tag src next, s.proc q = .recv tag src next →
    (∀ x rest, s.chan (src, q) = x :: rest → x.1 = tag) ∧
    (s.chan (src, q) = [] → ∀ tag' m next', s.proc src = .send tag' q m next' → tag' = tag)

theorem step_cases {mode : Mode} {s s' : State ρ τ μ α} {e : Event ρ}
    (h : step mode s e = some s') :
    (∃ p tag dst m next, mode = .buffered ∧ s.proc p = .send tag dst m next ∧
      s' = { proc := Function.update s.proc p next
             chan := Function.update s.chan (p, dst) (s.chan (p, dst) ++ [(tag, m)]) }) ∨
    (∃ q tag src next x rest, s.proc q = .recv tag src next ∧ s.chan (src, q) = x :: rest ∧
      s' = { proc := Function.update s.proc q (next x.2)
             chan := Function.update s.chan (src, q) rest }) ∨
    (∃ p q tag tag' m next next', mode = .rendezvous ∧ s.proc p = .send tag q m next ∧
      s.proc q = .recv tag' p next' ∧
      s' = { s with proc := Function.update (Function.update s.proc p next) q (next' m) }) := by
  cases e with
  | send p =>
    simp only [step] at h
    split at h
    · rename_i hp
      cases h
      exact .inl ⟨p, _, _, _, _, rfl, hp, rfl⟩
    · cases h
  | recv q =>
    simp only [step] at h
    split at h
    · rename_i hq
      split at h
      · rename_i hc
        cases h
        exact .inr (.inl ⟨q, _, _, _, _, _, hq, hc, rfl⟩)
      · cases h
    · cases h
  | handshake p q =>
    simp only [step] at h
    split at h
    · rename_i hp hq
      split_ifs at h with hpq
      cases h
      obtain ⟨rfl, rfl⟩ := hpq
      exact .inr (.inr ⟨_, _, _, _, _, _, _, rfl, hp, hq, rfl⟩)
    · cases h

theorem step_send {s : State ρ τ μ α} {p dst : ρ} {tag : τ} {m : μ} {next : Proc ρ τ μ α}
    (h : s.proc p = .send tag dst m next) : step .buffered s (.send p) ≠ none := by
  simp [step, h]

theorem step_recv {mode : Mode} {s : State ρ τ μ α} {q src : ρ} {tag : τ} {next : μ → Proc ρ τ μ α}
    (h : s.proc q = .recv tag src next) (hc : s.chan (src, q) ≠ []) :
    step mode s (.recv q) ≠ none := by
  obtain ⟨x, rest, hx⟩ := List.exists_cons_of_ne_nil hc
  simp [step, h, hx]

theorem step_handshake {s : State ρ τ μ α} {p q : ρ} {tag tag' : τ} {m : μ} {next : Proc ρ τ μ α}
    {next' : μ → Proc ρ τ μ α} (hp : s.proc p = .send tag q m next)
    (hq : s.proc q = .recv tag' p next') : step .rendezvous s (.handshake p q) ≠ none := by
  simp [step, hp, hq]

theorem proc_ended {mode : Mode} {s w : State ρ τ μ α} {e : Event ρ} {p : ρ} {a : α}
    (h : step mode s e = some w) (hp : s.proc p = .ret a) : w.proc p = .ret a := by
  have hne (q : ρ) (hq : s.proc q ≠ .ret a) : p ≠ q := by
    rintro rfl
    exact hq hp
  obtain ⟨q, tag, dst, m, next, -, hq, rfl⟩ | ⟨q, tag, src, next, x, rest, hq, -, rfl⟩ |
    ⟨q, r, tag, tag', m, next, next', -, hq, hr, rfl⟩ := step_cases h
  · exact (Function.update_of_ne (hne q (by simp [hq])) _ _).trans hp
  · exact (Function.update_of_ne (hne q (by simp [hq])) _ _).trans hp
  · have hqp := Function.update_of_ne (hne q (by simp [hq])) next s.proc
    exact (Function.update_of_ne (hne r (by simp [hr])) _ _).trans (hqp.trans hp)

end State

end ZeCo.Processes
