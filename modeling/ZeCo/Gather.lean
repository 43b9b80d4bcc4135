import Mathlib.Data.Fintype.Card
import ZeCo.Choreography

/-!
A parent that spawns one process for each rank and gathers one result from each. A process that
ends puts its result into a queue, and one that raises puts nothing; the parent takes as many
results as there are ranks, in whatever order they come, and then joins the processes.
-/

namespace ZeCo.Processes

variable {ρ τ μ α : Type*}

structure Gather (ρ τ μ α : Type*) where
  workers : State ρ τ μ (Option α)
  put : ρ → Bool
  queue : List (ρ × α)
  outputs : ρ → α
  taken : ℕ

inductive GatherEvent (ρ : Type*) where
  | worker (e : Event ρ)
  | put (p : ρ)
  | get

namespace Gather

def init (prog : ρ → Proc ρ τ μ (Option α)) (outputs : ρ → α) : Gather ρ τ μ α :=
  { workers := State.init prog
    put := fun _ => false
    queue := []
    outputs := outputs
    taken := 0 }

variable [DecidableEq ρ] [Fintype ρ]

def step (mode : Mode) (s : Gather ρ τ μ α) : GatherEvent ρ → Option (Gather ρ τ μ α)
  | .worker e => (State.step mode s.workers e).map fun w => { s with workers := w }
  | .put p =>
    match s.put p, s.workers.proc p with
    | false, .ret (some a) =>
      some { s with put := Function.update s.put p true, queue := s.queue ++ [(p, a)] }
    | _, _ => none
  | .get =>
    if s.taken < Fintype.card ρ then
      match s.queue with
      | (p, a) :: rest =>
        some { s with queue := rest, outputs := Function.update s.outputs p a
                      taken := s.taken + 1 }
      | [] => none
    else none

def Run (mode : Mode) (prog : ρ → Proc ρ τ μ (Option α)) (outputs : ρ → α)
    (es : List (GatherEvent ρ)) (s : Gather ρ τ μ α) : Prop :=
  Runs.exec (step mode) (init prog outputs) es = some s

def Returned (s : Gather ρ τ μ α) : Prop :=
  s.taken = Fintype.card ρ ∧ ∀ p, s.put p = true ∨ s.workers.proc p = .ret none

theorem step_cases {mode : Mode} {s s' : Gather ρ τ μ α} {e : GatherEvent ρ}
    (h : step mode s e = some s') :
    (∃ e w, State.step mode s.workers e = some w ∧ s' = { s with workers := w }) ∨
    (∃ p a, s.put p = false ∧ s.workers.proc p = .ret (some a) ∧
      s' = { s with put := Function.update s.put p true, queue := s.queue ++ [(p, a)] }) ∨
    (∃ p a rest, s.taken < Fintype.card ρ ∧ s.queue = (p, a) :: rest ∧
      s' = { s with queue := rest, outputs := Function.update s.outputs p a
                    taken := s.taken + 1 }) := by
  cases e with
  | worker e =>
    obtain ⟨w, hw, rfl⟩ := Option.map_eq_some_iff.mp h
    exact .inl ⟨e, w, hw, rfl⟩
  | put p =>
    simp only [step] at h
    split at h
    · rename_i hput hp
      cases h
      exact .inr (.inl ⟨p, _, hput, hp, rfl⟩)
    · cases h
  | get =>
    simp only [step] at h
    split_ifs at h with hlt
    split at h
    · rename_i hq
      cases h
      exact .inr (.inr ⟨_, _, _, hlt, hq, rfl⟩)
    · cases h

def marked (put : ρ → Bool) : Finset ρ := Finset.univ.filter fun p => put p = true

omit [DecidableEq ρ] in
theorem mem_marked {put : ρ → Bool} {p : ρ} : p ∈ marked put ↔ put p = true := by simp [marked]

theorem card_marked_update {put : ρ → Bool} {p : ρ} (h : put p = false) :
    (marked (Function.update put p true)).card = (marked put).card + 1 := by
  have hmem : p ∉ marked put := by simp [mem_marked, h]
  rw [← Finset.card_insert_of_notMem hmem]
  congr 1
  ext q
  rw [Finset.mem_insert, mem_marked, mem_marked]
  by_cases hq : q = p
  · simp [hq]
  · simp [hq]

structure Keeps (mode : Mode) (prog : ρ → Proc ρ τ μ (Option α)) (es : List (GatherEvent ρ))
    (s : Gather ρ τ μ α) : Prop where
  run : ∃ fs, State.Run mode prog fs s.workers ∧
    es.length = fs.length + (marked s.put).card + s.taken
  ended : ∀ p, s.put p = true → ∃ a, s.workers.proc p = .ret (some a) ∧
    ((p, a) ∈ s.queue ∨ s.outputs p = a)
  queue : ∀ x ∈ s.queue, s.workers.proc x.1 = .ret (some x.2)
  count : s.taken + s.queue.length = (marked s.put).card

variable {mode : Mode} {prog : ρ → Proc ρ τ μ (Option α)} {outputs : ρ → α}
  {es : List (GatherEvent ρ)} {s : Gather ρ τ μ α}

theorem keeps_init : Keeps mode prog [] (init prog outputs) where
  run := ⟨[], rfl, by simp [init, marked]⟩
  ended p hp := by cases hp
  queue x hx := by cases hx
  count := by simp [init, marked]

theorem keeps_put {p : ρ} {a : α} (h : Keeps mode prog es s) (hput : s.put p = false)
    (hp : s.workers.proc p = .ret (some a)) (e : GatherEvent ρ) : Keeps mode prog (es ++ [e])
      { s with put := Function.update s.put p true, queue := s.queue ++ [(p, a)] } := by
  obtain ⟨fs, hrun, hlen⟩ := h.run
  have hcard := card_marked_update hput
  refine ⟨⟨fs, hrun, ?_⟩, ?_, ?_, ?_⟩
  · simp only [hcard, List.length_append, List.length_singleton, hlen]
    omega
  · intro q hq
    by_cases hqp : q = p
    · subst hqp
      exact ⟨a, hp, .inl (by simp)⟩
    · simp only [Function.update_of_ne hqp] at hq
      obtain ⟨b, hb, hmem⟩ := h.ended q hq
      exact ⟨b, hb, hmem.imp_left fun hb => List.mem_append_left _ hb⟩
  · intro x hx
    rcases List.mem_append.mp hx with hx | hx
    · exact h.queue x hx
    · obtain rfl := List.mem_singleton.mp hx
      exact hp
  · have := h.count
    simp only [hcard, List.length_append, List.length_singleton]
    omega

theorem keeps_get {p : ρ} {a : α} {rest : List (ρ × α)} (h : Keeps mode prog es s)
    (hq : s.queue = (p, a) :: rest) (e : GatherEvent ρ) : Keeps mode prog (es ++ [e])
      { s with queue := rest, outputs := Function.update s.outputs p a
               taken := s.taken + 1 } := by
  obtain ⟨fs, hrun, hlen⟩ := h.run
  have hp := h.queue (p, a) (by simp [hq])
  have hcount := h.count
  rw [hq, List.length_cons] at hcount
  refine ⟨⟨fs, hrun, ?_⟩, ?_, ?_, ?_⟩
  · simp only [List.length_append, List.length_singleton, hlen]
    omega
  · intro q hput
    obtain ⟨b, hb, hmem⟩ := h.ended q hput
    refine ⟨b, hb, ?_⟩
    by_cases hqp : q = p
    · subst hqp
      obtain rfl : b = a := by simpa [hp] using hb.symm
      exact .inr (by simp)
    · refine hmem.imp (fun hmem => ?_) fun ho =>
        (Function.update_of_ne hqp a s.outputs).trans ho
      rw [hq] at hmem
      exact (List.mem_cons.mp hmem).resolve_left fun he => hqp (congrArg Prod.fst he)
  · intro x hx
    exact h.queue x (by simp [hq, hx])
  · simp only
    omega

theorem run_keeps (hrun : Run mode prog outputs es s) : Keeps mode prog es s := by
  refine Runs.exec_invariant (Keeps mode prog) keeps_init ?_ hrun
  intro es x e y hx hstep
  obtain ⟨f, w, hw, rfl⟩ | ⟨p, a, hput, hp, rfl⟩ | ⟨p, a, rest, -, hq, rfl⟩ := step_cases hstep
  · obtain ⟨fs, hfs, hlen⟩ := hx.run
    refine ⟨⟨fs ++ [f], Runs.exec_snoc.mpr ⟨_, hfs, hw⟩, ?_⟩, ?_, ?_, hx.count⟩
    · simp only [List.length_append, List.length_singleton, hlen]
      omega
    · intro p hput
      obtain ⟨a, ha, hmem⟩ := hx.ended p hput
      exact ⟨a, State.proc_ended hw ha, hmem⟩
    · exact fun x hmem => State.proc_ended hw (hx.queue x hmem)
  · exact keeps_put hx hput hp e
  · exact keeps_get hx hq e

theorem not_returned (hrun : Run mode prog outputs es s) {p : ρ} (hp : prog p = .ret none) :
    ¬ s.Returned := by
  have hkeeps := run_keeps hrun
  obtain ⟨fs, hfs, -⟩ := hkeeps.run
  have hproc : s.workers.proc p = .ret none := by
    refine Runs.exec_invariant (fun _ w => w.proc p = .ret none) hp ?_ hfs
    exact fun _ x f y hx hstep => State.proc_ended hstep hx
  have hmem : p ∉ marked s.put := by
    rw [mem_marked]
    intro hput
    obtain ⟨a, ha, -⟩ := hkeeps.ended p hput
    simp [hproc] at ha
  rintro ⟨htaken, -⟩
  have hlt := Finset.card_lt_univ_of_notMem hmem
  have := hkeeps.count
  omega

section Realized

variable {cs : List (Comm ρ τ μ)} {result : ρ → α}

theorem run_bounded (h : Realizes cs prog fun p => some (result p))
    (hrun : Run mode prog outputs es s) : es.length ≤ 2 * cs.length + 2 * Fintype.card ρ := by
  obtain ⟨⟨fs, hfs, hlen⟩, -, -, hcount⟩ := run_keeps hrun
  have hfs := run_length h hfs
  have hputs : (marked s.put).card ≤ Fintype.card ρ := Finset.card_le_univ _
  omega

theorem returned_of_stuck (h : Realizes cs prog fun p => some (result p))
    (hrun : Run mode prog outputs es s) (hstuck : Runs.Stuck (step mode) s) : s.Returned := by
  have hkeeps := run_keeps hrun
  obtain ⟨fs, hfs, -⟩ := hkeeps.run
  have hfinal : s.workers.Final := final_of_stuck h hfs fun e => by
    have := hstuck (.worker e)
    rwa [step, Option.map_eq_none_iff] at this
  have hput (p : ρ) : s.put p = true := by
    obtain ⟨a, ha⟩ := hfinal p
    obtain rfl := run_returns h hfs ha
    cases hput : s.put p with
    | false => simpa [step, hput, ha] using hstuck (.put p)
    | true => rfl
  have hall : marked s.put = Finset.univ :=
    Finset.eq_univ_iff_forall.mpr fun p => mem_marked.mpr (hput p)
  have hcount := hkeeps.count
  rw [hall, Finset.card_univ] at hcount
  refine ⟨?_, fun p => .inl (hput p)⟩
  by_contra hne
  have hget := hstuck .get
  cases hq : s.queue with
  | nil =>
    rw [hq, List.length_nil] at hcount
    omega
  | cons x rest => simp [step, hq, show s.taken < Fintype.card ρ by omega] at hget

theorem outputs_of_returned (h : Realizes cs prog fun p => some (result p))
    (hrun : Run mode prog outputs es s) (hret : s.Returned) : s.outputs = result := by
  have hkeeps := run_keeps hrun
  obtain ⟨fs, hfs, -⟩ := hkeeps.run
  have hcount := hkeeps.count
  have hputs : (marked s.put).card ≤ Fintype.card ρ := Finset.card_le_univ _
  have hempty : s.queue = [] := List.length_eq_zero_iff.mp (by rw [hret.1] at hcount; omega)
  funext p
  have hput : s.put p = true := (hret.2 p).resolve_right fun hp => by
    simpa using run_returns h hfs hp
  obtain ⟨a, ha, hmem⟩ := hkeeps.ended p hput
  obtain rfl : a = result p := by simpa using run_returns h hfs ha
  exact hmem.resolve_left (by simp [hempty])

theorem exists_returned (h : Realizes cs prog fun p => some (result p))
    (hrun : Run mode prog outputs es s) :
    ∃ fs t, Run mode prog outputs (es ++ fs) t ∧ t.Returned := by
  obtain ⟨fs, t, ht, hstuck⟩ := Runs.exists_stuck (fun es y => run_bounded h) hrun
  exact ⟨fs, t, ht, returned_of_stuck h ht hstuck⟩

structure Returns (mode : Mode) (prog : ρ → Proc ρ τ μ (Option α)) (outputs : ρ → α) (n : ℕ)
    (post : (ρ → α) → Prop) : Prop where
  bounded : ∀ es s, Run mode prog outputs es s → es.length ≤ n
  live : ∀ es s, Run mode prog outputs es s → Runs.Stuck (step mode) s → s.Returned
  completes : ∀ es s, Run mode prog outputs es s →
    ∃ fs t, Run mode prog outputs (es ++ fs) t ∧ t.Returned
  post : ∀ es s, Run mode prog outputs es s → s.Returned → post s.outputs

theorem returns_of_realizes (h : Realizes cs prog fun p => some (result p)) (mode : Mode)
    (outputs : ρ → α) :
    Returns mode prog outputs (2 * cs.length + 2 * Fintype.card ρ) (· = result) where
  bounded _ _ := run_bounded h
  live _ _ := returned_of_stuck h
  completes _ _ := exists_returned h
  post _ _ := outputs_of_returned h

theorem Returns.imp {n : ℕ} {post post' : (ρ → α) → Prop}
    (h : Returns mode prog outputs n post) (himp : ∀ x, post x → post' x) :
    Returns mode prog outputs n post' :=
  { h with post := fun es s hrun hret => himp _ (h.post es s hrun hret) }

end Realized

end Gather

theorem Realizes.bind [DecidableEq ρ] {β : Type*} {cs : List (Comm ρ τ μ)}
    {prog : ρ → Proc ρ τ μ α} {result : ρ → α} (h : Realizes cs prog result)
    (f : ρ → α → β) : Realizes cs (fun p => (prog p).bind fun a => .ret (f p a))
      (fun p => f p (result p)) where
  ne := h.ne
  unsent := h.unsent
  advances p := (h.advances p).bind fun a => .ret (f p a)

end ZeCo.Processes
