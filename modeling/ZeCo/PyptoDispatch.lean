import ZeCo.Calls
import ZeCo.GlaCommon
import ZeCo.AllscanCommon

/-!
`PyPtoZeCo` on the distributed path: one prepared worker at a time, a backward program compiled on
its first use, and shared buffers that both directions stage their inputs in. The two programs are
given: pure functions of the tensors they are passed, the output tensors among them. A worker
dispatched with the other program's arguments leaves the outputs alone.
-/

namespace ZeCo.PyptoZeCo

open Matrix Calls

inductive Direction where
  | forward
  | backward
  deriving DecidableEq

structure Worker where
  id : ℕ
  program : Direction
  deriving DecidableEq

section Object

variable {R : Type*} {P N C dk dv : ℕ}

abbrev ForwardProgram (P N C dk dv : ℕ) (R : Type*) :=
  (Q K : Fin P → Matrix (Fin (N * C)) (Fin dk) R) → (V : Fin P → Matrix (Fin (N * C)) (Fin dv) R) →
  (A : Fin P → Matrix (Fin (N * C)) (Fin dk) R) → (g : Decays P dk R) →
  (tril : Matrix (Fin C) (Fin C) R) → (zero : Matrix (Fin dk) (Fin dv) R) →
  (zc : Matrix (Fin C) (Fin dv) R) → (O : Fin P → Matrix (Fin (N * C)) (Fin dv) R) →
  Fin P → Matrix (Fin (N * C)) (Fin dv) R

abbrev BackwardProgram (P N C dk dv : ℕ) (R : Type*) :=
  (Q K : Fin P → Matrix (Fin (N * C)) (Fin dk) R) → (V : Fin P → Matrix (Fin (N * C)) (Fin dv) R) →
  (A : Fin P → Matrix (Fin (N * C)) (Fin dk) R) → (dO : Fin P → Matrix (Fin (N * C)) (Fin dv) R) →
  (g : Decays P dk R) → (tril triu : Matrix (Fin C) (Fin C) R) →
  (zero : Matrix (Fin dk) (Fin dv) R) → (zerov onev : Fin dk → R) →
  (zcb : Matrix (Fin C) (Fin (max C dk)) R) → (grads : Fin P → Grads (N * C) dk dv R) →
  Fin P → Grads (N * C) dk dv R

structure Buffers (P N C dk dv : ℕ) (R : Type*) where
  hQ : Fin P → Matrix (Fin (N * C)) (Fin dk) R
  hK : Fin P → Matrix (Fin (N * C)) (Fin dk) R
  hV : Fin P → Matrix (Fin (N * C)) (Fin dv) R
  hA : Fin P → Matrix (Fin (N * C)) (Fin dk) R
  hg : Decays P dk R
  hO : Fin P → Matrix (Fin (N * C)) (Fin dv) R
  bdO : Fin P → Matrix (Fin (N * C)) (Fin dv) R
  bGrads : Fin P → Grads (N * C) dk dv R

structure Workers where
  live : List Worker
  nextId : ℕ
  rt : Option Worker
  rtBackward : Bool

structure Zeco (P N C dk dv : ℕ) (R : Type*) where
  workers : Workers
  compiled : ForwardProgram P N C dk dv R
  bcompiled : Option (BackwardProgram P N C dk dv R)
  buffers : Buffers P N C dk dv R

inductive Output (P N C dk dv : ℕ) (R : Type*) where
  | o (O : Fin P → Matrix (Fin (N * C)) (Fin dv) R)
  | grads (g : Fin P → Grads (N * C) dk dv R)

inductive Op (P N C dk dv : ℕ) (R : Type*) where
  | forward (Q K : Fin P → Matrix (Fin (N * C)) (Fin dk) R)
      (V : Fin P → Matrix (Fin (N * C)) (Fin dv) R) (A : Fin P → Matrix (Fin (N * C)) (Fin dk) R)
  | backward (Q K : Fin P → Matrix (Fin (N * C)) (Fin dk) R)
      (V : Fin P → Matrix (Fin (N * C)) (Fin dv) R) (A : Fin P → Matrix (Fin (N * C)) (Fin dk) R)
      (dO : Fin P → Matrix (Fin (N * C)) (Fin dv) R)

inductive Request (P N C dk dv : ℕ) (R : Type*) where
  | call (op : Op P N C dk dv R)
  | measure (op : Op P N C dk dv R) (nIters : ℕ)

def Request.ops : Request P N C dk dv R → List (Op P N C dk dv R)
  | .call op => [op]
  | .measure op n => op :: List.replicate n op

def Op.direction : Op P N C dk dv R → Direction
  | .forward _ _ _ _ => .forward
  | .backward _ _ _ _ _ => .backward

inductive Event (P N C dk dv : ℕ) (R : Type*) where
  | live (workers : List Worker)
  | compiledBackward
  | dispatch (program : Direction) (worker : Worker)
  | returned (value : Output P N C dk dv R)

def Event.isCompilation : Event P N C dk dv R → Bool
  | .compiledBackward => true
  | _ => false

def Event.value : Event P N C dk dv R → Option (Output P N C dk dv R)
  | .returned v => some v
  | _ => none

def returns (events : List (Event P N C dk dv R)) : List (Output P N C dk dv R) :=
  events.filterMap Event.value

def Event.Ok : Event P N C dk dv R → Prop
  | .live ws => ws.length ≤ 1
  | .dispatch d w => w.program = d
  | _ => True

/-- What makes `w'` the worker for a call: nothing if `w` runs its program, and otherwise `w` is
closed before `w'` is prepared. -/
inductive Switch (d : Direction) : Worker → List (Event P N C dk dv R) → Worker → Prop
  | kept {w : Worker} (h : w.program = d) : Switch d w [] w
  | switched {w w' : Worker} (n : ℕ) (h : w.program ≠ d) (hn : d = .forward → n = 0)
      (h' : w'.program = d) :
      Switch d w (.live [] :: (List.replicate n .compiledBackward ++ [.live [w']])) w'

/-- Each call is dispatched once, on the worker of its direction, and returns its result. -/
inductive Handled (result : Op P N C dk dv R → Option (Output P N C dk dv R)) :
    Worker → List (Op P N C dk dv R) → List (Event P N C dk dv R) → Worker → Prop
  | nil (w : Worker) : Handled result w [] [] w
  | cons {w w' w'' : Worker} {op : Op P N C dk dv R} {ops : List (Op P N C dk dv R)}
      {events rest : List (Event P N C dk dv R)} {v : Output P N C dk dv R}
      (hswitch : Switch op.direction w events w') (hresult : result op = some v)
      (hrest : Handled result w' ops rest w'') :
      Handled result w (op :: ops) (events ++ .dispatch op.direction w' :: .returned v :: rest) w''

def Workers.new : Workers := ⟨[], 0, none, false⟩

def Workers.close (ws : Workers) : Workers :=
  match ws.rt with
  | none => ws
  | some w => { ws with live := ws.live.erase w, rt := none }

def Workers.prepare (ws : Workers) (program : Direction) : Workers :=
  let w : Worker := ⟨ws.nextId, program⟩
  { ws with live := w :: ws.live, nextId := ws.nextId + 1, rt := some w }

theorem close_live {ws : Workers} (h : ws.live = ws.rt.toList) :
    ws.close.live = [] ∧ ws.close.rt = none := by
  rw [Workers.close]
  cases hrt : ws.rt with
  | none =>
    rw [hrt] at h
    exact ⟨h, hrt⟩
  | some w =>
    rw [hrt] at h
    refine ⟨?_, rfl⟩
    change ws.live.erase w = []
    rw [h]
    exact List.erase_cons_head w []

section Traces

variable {result : Op P N C dk dv R → Option (Output P N C dk dv R)} {w w' w'' : Worker}
  {ops ops' : List (Op P N C dk dv R)} {events events' : List (Event P N C dk dv R)}
  {d : Direction}

theorem Switch.program (h : Switch d w events w') : w'.program = d := by
  cases h with
  | kept h => exact h
  | switched n h hn h' => exact h'

theorem Switch.safe (h : Switch d w events w') : ∀ e ∈ events, e.Ok := by
  cases h with
  | kept h => exact fun _ he => absurd he List.not_mem_nil
  | switched n h hn h' =>
    simp only [List.forall_mem_cons, List.forall_mem_append]
    refine ⟨Nat.zero_le 1, fun e he => ?_, le_rfl, fun _ he => absurd he List.not_mem_nil⟩
    rw [List.eq_of_mem_replicate he]
    trivial

theorem Switch.returns_eq (h : Switch d w events w') : returns events = [] := by
  cases h with
  | kept h => rfl
  | switched n h hn h' => simp [returns, Event.value, List.filterMap_cons]

theorem Handled.safe (h : Handled result w ops events w') : ∀ e ∈ events, e.Ok := by
  induction h with
  | nil w => exact fun _ he => absurd he List.not_mem_nil
  | cons hswitch hresult hrest ih =>
    simp only [List.forall_mem_append, List.forall_mem_cons]
    exact ⟨hswitch.safe, hswitch.program, trivial, ih⟩

theorem Handled.returned (h : Handled result w ops events w') :
    (returns events).map some = ops.map result := by
  induction h with
  | nil w => rfl
  | cons hswitch hresult hrest ih =>
    have hnone := hswitch.returns_eq
    rw [returns] at hnone ih ⊢
    simp [hnone, List.filterMap_cons, Event.value, hresult, ih]

theorem Handled.append (h : Handled result w ops events w')
    (h' : Handled result w' ops' events' w'') :
    Handled result w (ops ++ ops') (events ++ events') w'' := by
  induction h with
  | nil w => exact h'
  | cons hswitch hresult hrest ih =>
    rw [List.append_assoc, List.cons_append, List.cons_append]
    exact .cons hswitch hresult (ih h')

end Traces

section Select

variable (compileFusedBackward : Option (BackwardProgram P N C dk dv R))

def Zeco.ensureBackwardCompiled (s : Zeco P N C dk dv R) :
    Option (List (Event P N C dk dv R) × Zeco P N C dk dv R) :=
  match s.bcompiled with
  | some _ => some ([], s)
  | none => compileFusedBackward.map fun b => ([.compiledBackward], { s with bcompiled := some b })

def Zeco.select (s : Zeco P N C dk dv R) (backward : Bool) :
    Option (List (Event P N C dk dv R) × Zeco P N C dk dv R) :=
  if s.workers.rt.isSome ∧ s.workers.rtBackward = backward then some ([], s)
  else
    let s := { s with workers := s.workers.close }
    let compiled := if backward then s.ensureBackwardCompiled compileFusedBackward else some ([], s)
    compiled.map fun x =>
      let ws := x.2.workers.prepare (if backward then .backward else .forward)
      (.live s.workers.live :: (x.1 ++ [.live ws.live]),
        { x.2 with workers := { ws with rtBackward := backward } })

structure Inv (compiled : ForwardProgram P N C dk dv R) (s : Zeco P N C dk dv R) : Prop where
  compiled : s.compiled = compiled
  bcompiled : ∀ b ∈ s.bcompiled, compileFusedBackward = some b
  ready : s.workers.rtBackward = true → s.bcompiled.isSome
  worker : ∃ w, s.workers.rt = some w ∧ s.workers.live = [w] ∧
    w.program = if s.workers.rtBackward then .backward else .forward

def compilations (s : Zeco P N C dk dv R) : ℕ := s.bcompiled.isSome.toNat

structure Selected (compiled : ForwardProgram P N C dk dv R) (s : Zeco P N C dk dv R)
    (backward : Bool) (x : List (Event P N C dk dv R) × Zeco P N C dk dv R) : Prop where
  inv : Inv compileFusedBackward compiled x.2
  counted : x.1.countP Event.isCompilation + compilations s = compilations x.2
  switch : ∃ w w', s.workers.rt = some w ∧ x.2.workers.rt = some w' ∧
    Switch (if backward then .backward else .forward) w x.1 w'
  buffers : x.2.buffers = s.buffers
  program : backward = true → x.2.bcompiled.isSome

variable {compileFusedBackward} {compiled : ForwardProgram P N C dk dv R}

theorem Inv.live {s : Zeco P N C dk dv R} (h : Inv compileFusedBackward compiled s) :
    s.workers.live = s.workers.rt.toList := by
  obtain ⟨w, hrt, hlive, -⟩ := h.worker
  rw [hrt, hlive]
  rfl

theorem compiled_spec {s : Zeco P N C dk dv R} {backward : Bool}
    {x : List (Event P N C dk dv R) × Zeco P N C dk dv R}
    (hb : ∀ b ∈ s.bcompiled, compileFusedBackward = some b)
    (hx : (if backward then s.ensureBackwardCompiled compileFusedBackward else some ([], s)) =
      some x) :
    ∃ n b, x = (List.replicate n .compiledBackward, { s with bcompiled := b }) ∧
      (∀ p ∈ b, compileFusedBackward = some p) ∧ (backward = true → b.isSome) ∧
      (backward = false → n = 0) ∧ n + s.bcompiled.isSome.toNat = b.isSome.toNat := by
  cases backward with
  | false =>
    obtain rfl := Option.some.inj hx
    exact ⟨0, s.bcompiled, rfl, hb, Bool.noConfusion, fun _ => rfl, Nat.zero_add _⟩
  | true =>
    rw [if_pos rfl, Zeco.ensureBackwardCompiled] at hx
    cases hc : s.bcompiled with
    | some b =>
      rw [hc] at hx hb
      obtain rfl := Option.some.inj hx
      refine ⟨0, some b, ?_, hb, fun _ => rfl, fun _ => rfl, Nat.zero_add _⟩
      rw [← hc]
      rfl
    | none =>
      rw [hc] at hx
      obtain ⟨b, hp, rfl⟩ := Option.map_eq_some_iff.mp hx
      refine ⟨1, some b, rfl, fun p hm => ?_, fun _ => rfl, Bool.noConfusion, rfl⟩
      rw [hp, Option.mem_def.mp hm]

theorem prepared_inv {s : Zeco P N C dk dv R} (hc : s.compiled = compiled)
    (hb : ∀ b ∈ s.bcompiled, compileFusedBackward = some b) (hl : s.workers.live = [])
    {backward : Bool} (hs : backward = true → s.bcompiled.isSome) :
    let ws := s.workers.prepare (if backward then .backward else .forward)
    Inv compileFusedBackward compiled { s with workers := { ws with rtBackward := backward } } ∧
      ws.live.length ≤ 1 := by
  intro ws
  have hlive : ws.live = [⟨s.workers.nextId, if backward then .backward else .forward⟩] := by
    change _ :: s.workers.live = _
    rw [hl]
  constructor
  · exact ⟨hc, hb, hs, _, rfl, hlive, rfl⟩
  · rw [hlive]
    exact le_rfl

theorem select_spec {s : Zeco P N C dk dv R} (h : Inv compileFusedBackward compiled s)
    {backward : Bool} {x : List (Event P N C dk dv R) × Zeco P N C dk dv R}
    (hx : s.select compileFusedBackward backward = some x) :
    Selected compileFusedBackward compiled s backward x := by
  obtain ⟨w, hrt, -, hprog⟩ := h.worker
  rw [Zeco.select] at hx
  by_cases hsame : s.workers.rt.isSome ∧ s.workers.rtBackward = backward
  · rw [if_pos hsame] at hx
    obtain rfl := Option.some.inj hx
    have hready (hb : backward = true) : s.bcompiled.isSome := h.ready (hsame.2.trans hb)
    rw [hsame.2] at hprog
    exact ⟨h, Nat.zero_add _, ⟨w, w, hrt, hrt, .kept hprog⟩, rfl, hready⟩
  · rw [if_neg hsame] at hx
    obtain ⟨y, hy, rfl⟩ := Option.map_eq_some_iff.mp hx
    obtain ⟨hnone, -⟩ := close_live h.live
    obtain ⟨n, b, rfl, hb, hsome, hzero, hcount⟩ := compiled_spec
      (s := { s with workers := s.workers.close }) h.bcompiled hy
    obtain ⟨hinv, -⟩ := prepared_inv
      (s := { s with workers := s.workers.close, bcompiled := b }) h.compiled hb hnone hsome
    refine ⟨hinv, ?_, ⟨w, _, hrt, rfl, ?_⟩, rfl, hsome⟩
    · simpa [List.countP_replicate, Event.isCompilation, compilations] using hcount
    · have hlive : (s.workers.close.prepare (if backward then .backward else .forward)).live =
          [⟨s.workers.close.nextId, if backward then .backward else .forward⟩] := by
        change _ :: s.workers.close.live = _
        rw [hnone]
      have hother : s.workers.rtBackward ≠ backward := fun hb => hsame ⟨by rw [hrt]; rfl, hb⟩
      simp only [hnone, hlive]
      refine .switched n ?_ (fun hd => hzero ?_) rfl
      · rw [hprog]
        intro heq
        apply hother
        generalize s.workers.rtBackward = b at heq
        revert heq
        cases b <;> cases backward <;> decide
      · cases backward with
        | false => rfl
        | true => cases hd

theorem stageInputs_inv {s : Zeco P N C dk dv R} (h : Inv compileFusedBackward compiled s)
    (b : Buffers P N C dk dv R) : Inv compileFusedBackward compiled { s with buffers := b } :=
  ⟨h.compiled, h.bcompiled, h.ready, h.worker⟩

theorem Selected.worker {s : Zeco P N C dk dv R} {backward : Bool}
    {x : List (Event P N C dk dv R) × Zeco P N C dk dv R}
    (h : Selected compileFusedBackward compiled s backward x) :
    ∃ w, x.2.workers.rt = some w ∧ w.program = if backward then .backward else .forward := by
  obtain ⟨_, w, -, hrt, hswitch⟩ := h.switch
  exact ⟨w, hrt, hswitch.program⟩

end Select

section Calls

variable [CommRing R]

def Buffers.zero : Buffers P N C dk dv R :=
  ⟨fun _ => 0, fun _ => 0, fun _ => 0, fun _ => 0, fun _ => 0, fun _ => 0, fun _ => 0,
    fun _ => ⟨0, 0, 0, 0⟩⟩

def build (compiled : ForwardProgram P N C dk dv R) (ws : Workers) :
    List (Event P N C dk dv R) × Zeco P N C dk dv R :=
  let closed := ws.close
  let prepared := { closed with rtBackward := false }.prepare .forward
  ([.live closed.live, .live prepared.live],
    { workers := prepared, compiled, bcompiled := none, buffers := Buffers.zero })

def Zeco.stageInputs (s : Zeco P N C dk dv R) (Q K : Fin P → Matrix (Fin (N * C)) (Fin dk) R)
    (V : Fin P → Matrix (Fin (N * C)) (Fin dv) R) (A : Fin P → Matrix (Fin (N * C)) (Fin dk) R) :
    Zeco P N C dk dv R :=
  let gammas : Decays P dk R := fun p d => ∏ t, A p t d
  { s with buffers := { s.buffers with hQ := Q, hK := K, hV := V, hA := A, hg := gammas } }

variable (compileFusedBackward : Option (BackwardProgram P N C dk dv R))

/-- A pass on a built object; without a prepared worker the distributed path does not apply. -/
def pass (s : Zeco P N C dk dv R) :
    Op P N C dk dv R → Option (List (Event P N C dk dv R) × Zeco P N C dk dv R)
  | .forward Q K V A =>
    if s.workers.rt.isNone then none
    else
      ((s.stageInputs Q K V A).select compileFusedBackward false).bind fun x =>
        let b := { x.2.buffers with hO := fun _ => 0 }
        x.2.workers.rt.map fun w =>
          let O := if w.program = .forward then
            x.2.compiled b.hQ b.hK b.hV b.hA b.hg (tril C) 0 0 b.hO else b.hO
          (x.1 ++ [.dispatch .forward w, .returned (.o O)],
            { x.2 with buffers := { b with hO := O } })
  | .backward Q K V A dO =>
    if s.workers.rt.isNone then none
    else
      let s := s.stageInputs Q K V A
      let s := { s with buffers := { s.buffers with bdO := dO, bGrads := fun _ => ⟨0, 0, 0, 0⟩ } }
      (s.select compileFusedBackward true).bind fun x =>
        let b := x.2.buffers
        x.2.workers.rt.bind fun w => x.2.bcompiled.map fun program =>
          let grads := if w.program = .backward then
            program b.hQ b.hK b.hV b.hA b.bdO b.hg (tril C) (triu C) 0 0 1 0 b.bGrads else b.bGrads
          (x.1 ++ [.dispatch .backward w, .returned (.grads grads)],
            { x.2 with buffers := { b with bGrads := grads } })

def fresh (compiled : ForwardProgram P N C dk dv R) (op : Op P N C dk dv R) :
    Option (Output P N C dk dv R) :=
  (pass compileFusedBackward (build compiled .new).2 op).bind fun x => (returns x.1).head?

def Op.result (compiled : ForwardProgram P N C dk dv R) :
    Op P N C dk dv R → Option (Output P N C dk dv R)
  | .forward Q K V A =>
    some (.o (compiled Q K V A (fun p d => ∏ t, A p t d) (tril C) 0 0 fun _ => 0))
  | .backward Q K V A dO => compileFusedBackward.map fun program =>
    .grads (program Q K V A dO (fun p d => ∏ t, A p t d) (tril C) (triu C) 0 0 1 0
      fun _ => ⟨0, 0, 0, 0⟩)

inductive Earlier (R : Type*) [CommRing R] : Workers → Prop
  | new : Earlier R .new
  | close {ws : Workers} : Earlier R ws → Earlier R ws.close
  | calls {P N C dk dv : ℕ} {ws : Workers} (compiled : ForwardProgram P N C dk dv R)
      (compileFusedBackward : Option (BackwardProgram P N C dk dv R))
      (ops : List (Op P N C dk dv R)) (z : List (Event P N C dk dv R) × Zeco P N C dk dv R) :
      Earlier R ws → run (pass compileFusedBackward) (build compiled ws).2 ops = some z →
      Earlier R z.2.workers

structure Served (compiled : ForwardProgram P N C dk dv R) (s : Zeco P N C dk dv R)
    (ops : List (Op P N C dk dv R)) (x : List (Event P N C dk dv R) × Zeco P N C dk dv R) :
    Prop where
  inv : Inv compileFusedBackward compiled x.2
  counted : x.1.countP Event.isCompilation + compilations s = compilations x.2
  handled : ∃ w w', s.workers.rt = some w ∧ x.2.workers.rt = some w' ∧
    Handled (Op.result compileFusedBackward compiled) w ops x.1 w'

variable {compileFusedBackward} {compiled : ForwardProgram P N C dk dv R}

theorem fresh_eq (op : Op P N C dk dv R) :
    fresh compileFusedBackward compiled op = op.result compileFusedBackward compiled := by
  cases op with
  | forward Q K V A => rfl
  | backward Q K V A dO => cases compileFusedBackward <;> rfl

theorem Served.refl {s : Zeco P N C dk dv R} (h : Inv compileFusedBackward compiled s) :
    Served compileFusedBackward compiled s [] ([], s) := by
  obtain ⟨w, hrt, -⟩ := h.worker
  exact ⟨h, Nat.zero_add _, w, w, hrt, hrt, .nil w⟩

theorem Served.safe {s : Zeco P N C dk dv R} {ops : List (Op P N C dk dv R)}
    {x : List (Event P N C dk dv R) × Zeco P N C dk dv R}
    (h : Served compileFusedBackward compiled s ops x) : ∀ e ∈ x.1, e.Ok := by
  obtain ⟨w, w', -, -, hhandled⟩ := h.handled
  exact hhandled.safe

theorem Served.returned {s : Zeco P N C dk dv R} {ops : List (Op P N C dk dv R)}
    {x : List (Event P N C dk dv R) × Zeco P N C dk dv R}
    (h : Served compileFusedBackward compiled s ops x) :
    (returns x.1).map some = ops.map (Op.result compileFusedBackward compiled) := by
  obtain ⟨w, w', -, -, hhandled⟩ := h.handled
  exact hhandled.returned

theorem Served.of_staged {s : Zeco P N C dk dv R} {b : Buffers P N C dk dv R}
    {ops : List (Op P N C dk dv R)} {x : List (Event P N C dk dv R) × Zeco P N C dk dv R}
    (h : Served compileFusedBackward compiled { s with buffers := b } ops x) :
    Served compileFusedBackward compiled s ops x :=
  ⟨h.inv, h.counted, h.handled⟩

theorem Selected.dispatched {s : Zeco P N C dk dv R} {backward : Bool}
    {x : List (Event P N C dk dv R) × Zeco P N C dk dv R} {w : Worker} {op : Op P N C dk dv R}
    {v : Output P N C dk dv R} {b : Buffers P N C dk dv R}
    (h : Selected compileFusedBackward compiled s backward x)
    (hd : op.direction = if backward then .backward else .forward)
    (hw : x.2.workers.rt = some w) (hv : op.result compileFusedBackward compiled = some v) :
    Served compileFusedBackward compiled s [op]
      (x.1 ++ [.dispatch op.direction w, .returned v], { x.2 with buffers := b }) := by
  obtain ⟨w₀, w', hrt, hrt', hswitch⟩ := h.switch
  obtain rfl : w' = w := Option.some.inj (hrt'.symm.trans hw)
  rw [← hd] at hswitch
  refine ⟨stageInputs_inv h.inv b, ?_, w₀, w', hrt, hw, .cons hswitch hv (.nil w')⟩
  apply Eq.trans _ h.counted
  simp [List.countP_append, Event.isCompilation]

theorem pass_served {s : Zeco P N C dk dv R} {op : Op P N C dk dv R}
    {x : List (Event P N C dk dv R) × Zeco P N C dk dv R}
    (h : Inv compileFusedBackward compiled s) (hx : pass compileFusedBackward s op = some x) :
    Served compileFusedBackward compiled s [op] x := by
  obtain ⟨w, hrt, -⟩ := h.worker
  cases op with
  | forward Q K V A =>
    rw [pass, hrt, if_neg (by simp)] at hx
    obtain ⟨y, hy, hz⟩ := Option.bind_eq_some_iff.mp hx
    have hsel := select_spec (stageInputs_inv h _) hy
    obtain ⟨w, hw, rfl⟩ := Option.map_eq_some_iff.mp hz
    obtain ⟨w', hw', (hprog : w'.program = .forward)⟩ := hsel.worker
    obtain rfl : w' = w := Option.some.inj (hw'.symm.trans hw)
    refine .of_staged (hsel.dispatched rfl hw ?_)
    rw [if_pos hprog, hsel.inv.compiled, hsel.buffers]
    rfl
  | backward Q K V A dO =>
    rw [pass, hrt, if_neg (by simp)] at hx
    obtain ⟨y, hy, hz⟩ := Option.bind_eq_some_iff.mp hx
    have hsel := select_spec (stageInputs_inv h _) hy
    obtain ⟨w, hw, hz⟩ := Option.bind_eq_some_iff.mp hz
    obtain ⟨program, hp, rfl⟩ := Option.map_eq_some_iff.mp hz
    obtain ⟨w', hw', (hprog : w'.program = .backward)⟩ := hsel.worker
    obtain rfl : w' = w := Option.some.inj (hw'.symm.trans hw)
    refine .of_staged (hsel.dispatched rfl hw ?_)
    rw [if_pos hprog, hsel.buffers, Op.result, hsel.inv.bcompiled program hp]
    rfl

theorem Served.trans {s : Zeco P N C dk dv R} {as bs : List (Op P N C dk dv R)}
    {x y : List (Event P N C dk dv R) × Zeco P N C dk dv R}
    (h : Served compileFusedBackward compiled s as x)
    (h' : Served compileFusedBackward compiled x.2 bs y) :
    Served compileFusedBackward compiled s (as ++ bs) (x.1 ++ y.1, y.2) := by
  obtain ⟨w, w', hrt, hrt', hhandled⟩ := h.handled
  obtain ⟨w₁, w'', hrt₁, hrt'', hhandled'⟩ := h'.handled
  obtain rfl : w₁ = w' := Option.some.inj (hrt₁.symm.trans hrt')
  refine ⟨h'.inv, ?_, w, w'', hrt, hrt'', hhandled.append hhandled'⟩
  rw [← h'.counted, ← h.counted, List.countP_append]
  omega

theorem run_served {s : Zeco P N C dk dv R} {ops : List (Op P N C dk dv R)}
    {z : List (Event P N C dk dv R) × Zeco P N C dk dv R}
    (h : Inv compileFusedBackward compiled s)
    (hz : run (pass compileFusedBackward) s ops = some z) :
    Served compileFusedBackward compiled s ops z := by
  induction ops generalizing s z with
  | nil =>
    obtain rfl := Option.some.inj hz
    exact .refl h
  | cons op ops ih =>
    obtain ⟨x, y, hx, hy, rfl⟩ := run_cons.mp hz
    have hop := pass_served h hx
    exact hop.trans (ih hop.inv hy)

theorem build_inv {ws : Workers} (h : ws.live = ws.rt.toList) :
    Inv compileFusedBackward compiled (build compiled ws).2 ∧
      ∃ w, (build compiled ws).2.workers.rt = some w ∧ w.program = .forward ∧
        (build compiled ws).1 = [.live [], .live [w]] := by
  obtain ⟨hnone, -⟩ := close_live h
  have hlive : (build compiled ws).2.workers.live = [⟨ws.close.nextId, .forward⟩] := by
    change _ :: ws.close.live = _
    rw [hnone]
  refine ⟨⟨rfl, (fun _ hb => nomatch hb), Bool.noConfusion, _, rfl, hlive, rfl⟩, _, rfl, rfl, ?_⟩
  change [Event.live ws.close.live, Event.live (build compiled ws).2.workers.live] = _
  rw [hnone, hlive]

theorem build_safe {ws : Workers} (h : ws.live = ws.rt.toList) :
    ∀ e ∈ (build compiled ws).1, e.Ok := by
  obtain ⟨-, w, -, -, hbuild⟩ : Inv none compiled (build compiled ws).2 ∧ _ := build_inv h
  rw [hbuild, List.forall_mem_cons, List.forall_mem_singleton]
  exact ⟨Nat.zero_le 1, le_rfl⟩

theorem Earlier.held {ws : Workers} (h : Earlier R ws) : ws.live = ws.rt.toList := by
  induction h with
  | new => rfl
  | close _ ih =>
    obtain ⟨hlive, hrt⟩ := close_live ih
    rw [hlive, hrt]
    rfl
  | calls compiled compileFusedBackward ops z _ hz ih =>
    exact (run_served (build_inv ih).1 hz).inv.live

/-- A built object makes each call's worker the prepared one, the old one closed first, dispatches
the call once on it, and returns what the program of the call's direction makes of its arguments. -/
theorem dispatch_correct {ws : Workers} (h : Earlier R ws)
    (reqs : List (Request P N C dk dv R)) (z : List (Event P N C dk dv R) × Zeco P N C dk dv R)
    (hz : run (pass compileFusedBackward) (build compiled ws).2 (reqs.flatMap Request.ops) =
      some z) :
    (∃ w w', (build compiled ws).1 = [.live [], .live [w]] ∧ w.program = .forward ∧
      Handled (Op.result compileFusedBackward compiled) w (reqs.flatMap Request.ops) z.1 w' ∧
        z.2.workers.live = [w']) ∧
      (∀ e ∈ (build compiled ws).1 ++ z.1, e.Ok) ∧ z.1.countP Event.isCompilation ≤ 1 ∧
      (returns z.1).map some =
        (reqs.flatMap Request.ops).map (fresh compileFusedBackward compiled) := by
  obtain ⟨hinv, w₀, hw₀, hforward, hbuild⟩ :
    Inv compileFusedBackward compiled (build compiled ws).2 ∧ _ := build_inv h.held
  have hrun := run_served hinv hz
  refine ⟨?_, List.forall_mem_append.mpr ⟨build_safe h.held, hrun.safe⟩, ?_, ?_⟩
  · obtain ⟨w, w', hw, hw', hhandled⟩ := hrun.handled
    obtain rfl : w₀ = w := Option.some.inj (hw₀.symm.trans hw)
    refine ⟨w₀, w', hbuild, hforward, hhandled, ?_⟩
    rw [hrun.inv.live, hw']
    rfl
  · apply (Nat.le_add_right _ _).trans (hrun.counted.trans_le _)
    exact Bool.toNat_le _
  · rw [hrun.returned]
    exact List.map_congr_left fun op _ => (fresh_eq op).symm

theorem dispatch_correct_switch :
    let fwd : ForwardProgram 2 1 1 1 1 ℤ := fun _ _ V _ _ _ _ _ _ => V
    let bwd : BackwardProgram 2 1 1 1 1 ℤ := fun _ _ _ _ dO _ _ _ _ _ _ _ _ p =>
      ⟨dO p, 0, dO p, 0⟩
    let V : Fin 2 → Matrix (Fin (1 * 1)) (Fin 1) ℤ := fun p _ _ => p
    let grads : Output 2 1 1 1 1 ℤ := .grads fun p => ⟨V p, 0, V p, 0⟩
    let reqs : List (Request 2 1 1 1 1 ℤ) := [.call (.forward 0 0 V 1),
      .measure (.backward 0 0 V 1 V) 1, .call (.forward 0 0 V 1)]
    ∃ z, run (pass (some bwd)) (build fwd .new).2 (reqs.flatMap Request.ops) = some z ∧
      z.1 = [.dispatch .forward ⟨0, .forward⟩, .returned (.o V),
        .live [], .compiledBackward, .live [⟨1, .backward⟩],
        .dispatch .backward ⟨1, .backward⟩, .returned grads,
        .dispatch .backward ⟨1, .backward⟩, .returned grads,
        .live [], .live [⟨2, .forward⟩], .dispatch .forward ⟨2, .forward⟩, .returned (.o V)] ∧
      ∃ w w', Handled (Op.result (some bwd) fwd) w (reqs.flatMap Request.ops) z.1 w' := by
  intro fwd bwd V grads reqs
  have hrun : run (pass (some bwd)) (build fwd .new).2 (reqs.flatMap Request.ops) = some _ := rfl
  obtain ⟨⟨w, w', -, -, hhandled, -⟩, -⟩ := dispatch_correct .new reqs _ hrun
  exact ⟨_, hrun, rfl, w, w', hhandled⟩

end Calls

end Object

end ZeCo.PyptoZeCo
