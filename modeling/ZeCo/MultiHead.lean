import ZeCo.Raising
import ZeCo.SimplerMultihead

namespace ZeCo.MultiHead

open SimplerZeCo (head)
open Raising (bind_ok)

universe u

variable {R ε : Type u} {P H L dk dv : ℕ}

structure Inputs (ι : Type) (L dk dv : ℕ) (R : Type u) where
  Q : ι → Matrix (Fin L) (Fin dk) R
  K : ι → Matrix (Fin L) (Fin dk) R
  V : ι → Matrix (Fin L) (Fin dv) R
  A : ι → Matrix (Fin L) (Fin dk) R

abbrev Outputs (ι : Type) (L dv : ℕ) (R : Type u) := ι → Matrix (Fin L) (Fin dv) R

/-- A backend; the multi-head methods are those that `hasattr` asks for. -/
structure ZeCoImpl (P L dk dv : ℕ) (R ε : Type u) where
  forward : Inputs (Fin P) L dk dv R → Except ε (Outputs (Fin P) L dv R)
  backward : Inputs (Fin P) L dk dv R → Outputs (Fin P) L dv R → Except ε (Fin P → Grads L dk dv R)
  forwardMultihead : Option (∀ H, Inputs (Fin P × Fin H) L dk dv R →
    Except ε (Outputs (Fin P × Fin H) L dv R))
  backwardMultihead : Option (∀ H, Inputs (Fin P × Fin H) L dk dv R →
    Outputs (Fin P × Fin H) L dv R → Except ε (Fin P × Fin H → Grads L dk dv R))

structure MultiHeadZeCo (P L dk dv : ℕ) (R ε : Type u) where
  impl : ZeCoImpl P L dk dv R ε
  H : ℤ

inductive Exn (ε : Type u)
  | indexError
  | raised (e : ε)

def call {α : Type u} (x : Except ε α) : Except (Exn ε) α := x.mapError .raised

theorem call_ok {α : Type u} {x : Except ε α} {y : α} : call x = .ok y ↔ x = .ok y := by
  cases x with
  | error e => exact ⟨nofun, nofun⟩
  | ok a => simp [call, Except.mapError]

section Heads

variable {α : Type u}

def select (X : Fin P × Fin H → α) (h : ℕ) : Except (Exn ε) (Fin P → α) :=
  if hh : h < H then .ok (head X ⟨h, hh⟩) else .error .indexError

def assign (X : Fin P × Fin H → α) (h : ℕ) (y : Fin P → α) :
    Except (Exn ε) (Fin P × Fin H → α) :=
  if h < H then .ok fun i => if i.2.val = h then y i.1 else X i else .error .indexError

def eachHead (n : ℕ) (one : ℕ → Except (Exn ε) (Fin P → α)) (X : Fin P × Fin H → α) :
    Except (Exn ε) (Fin P × Fin H → α) :=
  (List.range n).foldlM (fun X h => do
    let y ← one h
    assign X h y) X

end Heads

def Inputs.select (x : Inputs (Fin P × Fin H) L dk dv R) (h : ℕ) :
    Except (Exn ε) (Inputs (Fin P) L dk dv R) := do
  let q ← MultiHead.select x.Q h
  let k ← MultiHead.select x.K h
  let v ← MultiHead.select x.V h
  let a ← MultiHead.select x.A h
  return ⟨q, k, v, a⟩

def Inputs.head (x : Inputs (Fin P × Fin H) L dk dv R) (h : Fin H) : Inputs (Fin P) L dk dv R :=
  ⟨SimplerZeCo.head x.Q h, SimplerZeCo.head x.K h, SimplerZeCo.head x.V h, SimplerZeCo.head x.A h⟩

section Passes

variable [Zero R] (m : MultiHeadZeCo P L dk dv R ε)

def zerosLike {ι : Type} : ι → Grads L dk dv R := fun _ => ⟨0, 0, 0, 0⟩

def MultiHeadZeCo.forward (x : Inputs (Fin P × Fin H) L dk dv R) :
    Except (Exn ε) (Outputs (Fin P × Fin H) L dv R) :=
  match m.impl.forwardMultihead with
  | some forwardMultihead => call (forwardMultihead H x)
  | none => eachHead H (fun h => do
      let y ← x.select h
      call (m.impl.forward y)) fun _ => 0

def MultiHeadZeCo.backward (x : Inputs (Fin P × Fin H) L dk dv R)
    (dO : Outputs (Fin P × Fin H) L dv R) : Except (Exn ε) (Fin P × Fin H → Grads L dk dv R) :=
  match m.impl.backwardMultihead with
  | some backwardMultihead => call (backwardMultihead H x dO)
  | none => eachHead m.H.toNat (fun h => do
      let y ← x.select h
      let g ← select dO h
      call (m.impl.backward y g)) zerosLike

end Passes

section Autograd

variable {X Y G E : Type u}

structure Operator (X Y G E : Type u) where
  forward : X → Except E Y
  backward : X → Y → Except E G

structure Context (X Y G E : Type u) where
  impl : Operator X Y G E
  saved : X

def zeCoFunctionForward (x : X) (impl : Operator X Y G E) : Except E (Y × Context X Y G E) := do
  let o ← impl.forward x
  return (o, ⟨impl, x⟩)

def zeCoFunctionBackward (ctx : Context X Y G E) (gradO : Y) : Except E G :=
  ctx.impl.backward ctx.saved gradO

def zeCoModule (impl : Operator X Y G E) (x : X) (gradO : Y) : Except E (Y × G) := do
  let (o, ctx) ← zeCoFunctionForward x impl
  let g ← zeCoFunctionBackward ctx gradO
  return (o, g)

theorem zeCoModule_ok {impl : Operator X Y G E} {x : X} {gradO o : Y} {g : G} :
    zeCoModule impl x gradO = .ok (o, g) ↔
      impl.forward x = .ok o ∧ impl.backward x gradO = .ok g := by
  simp only [zeCoModule, zeCoFunctionForward, zeCoFunctionBackward, bind_ok, pure, Except.pure]
  constructor
  · rintro ⟨_, ⟨o, ho, ⟨⟩⟩, g, hg, ⟨⟩⟩
    exact ⟨ho, hg⟩
  · rintro ⟨ho, hg⟩
    exact ⟨_, ⟨o, ho, rfl⟩, g, hg, rfl⟩

end Autograd

def MultiHeadZeCo.operator [Zero R] (m : MultiHeadZeCo P L dk dv R ε) :
    Operator (Inputs (Fin P × Fin H) L dk dv R) (Outputs (Fin P × Fin H) L dv R)
      (Fin P × Fin H → Grads L dk dv R) (Exn ε) :=
  ⟨m.forward, m.backward⟩

section Loop

variable {α : Type u} {one : ℕ → Except (Exn ε) (Fin P → α)} {X Y : Fin P × Fin H → α}

theorem eachHead_succ (n : ℕ) : eachHead (n + 1) one X = (do
    let Y ← eachHead n one X
    let y ← one n
    assign Y n y) := by
  rw [eachHead, List.range_succ, List.foldlM_append]
  simp only [List.foldlM_cons, List.foldlM_nil, bind_pure]
  rfl

theorem head_ext (h : ∀ i, head X i = head Y i) : X = Y := by
  funext i
  exact congrFun (h i.2) i.1

theorem head_assigned (n : ℕ) (y : Fin P → α) (h : Fin H) :
    head (fun i => if i.2.val = n then y i.1 else X i) h = if h.val = n then y else head X h := by
  funext p
  rw [ite_apply]
  rfl

theorem assign_ok {n : ℕ} {y : Fin P → α} : (assign X n y : Except (Exn ε) _) = .ok Y ↔
    n < H ∧ ∀ h : Fin H, head Y h = if h.val = n then y else head X h := by
  unfold assign
  split
  · next hn =>
    constructor
    · rintro ⟨⟩
      exact ⟨hn, head_assigned n y⟩
    · rintro ⟨-, hY⟩
      congr
      apply head_ext
      intro h
      rw [head_assigned, hY]
  · next hn =>
    constructor
    · intro h
      cases h
    · rintro ⟨h, -⟩
      omega

theorem eachHead_ok {n : ℕ} : eachHead n one X = .ok Y ↔ n ≤ H ∧
    (∀ h : Fin H, h.val < n → one h = .ok (head Y h)) ∧
    ∀ h : Fin H, n ≤ h.val → head Y h = head X h := by
  induction n generalizing Y with
  | zero =>
    constructor
    · rintro ⟨⟩
      simp
    · rintro ⟨-, -, hY⟩
      rw [head_ext fun h => hY h (Nat.zero_le _)]
      rfl
  | succ n ih =>
    rw [eachHead_succ, bind_ok]
    simp only [bind_ok, assign_ok, ih]
    constructor
    · rintro ⟨Z, ⟨-, hZ, hX⟩, y, hy, hn, hY⟩
      refine ⟨hn, fun h hh => ?_, fun h hh => ?_⟩
      · rw [hY]
        split
        · next he => rw [he, hy]
        · exact hZ h (by omega)
      · rw [hY, if_neg (by omega)]
        exact hX h (by omega)
    · rintro ⟨hn, hY, hX⟩
      -- what the first `n` passes left in place `n` is what it was filled with
      let Z : Fin P × Fin H → α := fun i => if i.2.val = n then head X ⟨n, hn⟩ i.1 else Y i
      have hZ (h : Fin H) : head Z h = if h.val = n then head X ⟨n, hn⟩ else head Y h :=
        head_assigned n _ h
      refine ⟨Z, ⟨by omega, fun h hh => ?_, fun h hh => ?_⟩, head Y ⟨n, hn⟩, hY ⟨n, hn⟩ (by simp),
        hn, fun h => ?_⟩
      · rw [hZ, if_neg (by omega)]
        exact hY h (by omega)
      · rw [hZ]
        split
        · next he =>
          obtain rfl : h = ⟨n, hn⟩ := Fin.ext he
          rfl
        · exact hX h (by omega)
      · rw [hZ]
        split
        · next he =>
          obtain rfl : h = ⟨n, hn⟩ := Fin.ext he
          rfl
        · rfl

theorem select_val (X : Fin P × Fin H → α) (h : Fin H) :
    (select X h : Except (Exn ε) _) = .ok (head X h) :=
  dif_pos h.isLt

theorem Inputs.select_val (x : Inputs (Fin P × Fin H) L dk dv R) (h : Fin H) :
    (x.select h : Except (Exn ε) _) = .ok (x.head h) := by
  rw [Inputs.select, MultiHead.select_val, MultiHead.select_val, MultiHead.select_val,
    MultiHead.select_val]
  rfl

end Loop

section Covers

variable [Zero R] {m : MultiHeadZeCo P L dk dv R ε} {x : Inputs (Fin P × Fin H) L dk dv R}
  {dO : Outputs (Fin P × Fin H) L dv R}

theorem forward_ok (hm : m.impl.forwardMultihead = none) {O : Outputs (Fin P × Fin H) L dv R} :
    m.forward x = .ok O ↔ ∀ h, m.impl.forward (x.head h) = .ok (head O h) := by
  simp only [MultiHeadZeCo.forward, hm, eachHead_ok, Inputs.select_val, bind_ok, Except.ok.injEq,
    exists_eq_left', call_ok]
  constructor
  · rintro ⟨-, h, -⟩ i
    exact h i i.isLt
  · intro h
    exact ⟨le_rfl, fun i _ => h i, fun i hi => absurd i.isLt (by omega)⟩

theorem backward_ok (hm : m.impl.backwardMultihead = none)
    {g : Fin P × Fin H → Grads L dk dv R} :
    m.backward x dO = .ok g ↔ m.H ≤ H ∧
      (∀ h, (h.val : ℤ) < m.H → m.impl.backward (x.head h) (head dO h) = .ok (head g h)) ∧
      ∀ h, m.H ≤ h.val → head g h = zerosLike := by
  simp only [MultiHeadZeCo.backward, hm, eachHead_ok, Inputs.select_val, select_val, bind_ok,
    Except.ok.injEq, exists_eq_left', call_ok, Int.toNat_le, Int.lt_toNat]
  rfl

structure Covers (m : MultiHeadZeCo P L dk dv R ε) (x : Inputs (Fin P × Fin H) L dk dv R)
    (dO : Outputs (Fin P × Fin H) L dv R) : Prop where
  forward : ∀ O, m.forward x = .ok O → ∀ h, m.impl.forward (x.head h) = .ok (head O h)
  backward : ∀ g, m.backward x dO = .ok g →
    ∀ h, m.impl.backward (x.head h) (head dO h) = .ok (head g h)
  module : ∀ O g, zeCoModule m.operator x dO = .ok (O, g) → ∀ h,
    m.impl.forward (x.head h) = .ok (head O h) ∧
      m.impl.backward (x.head h) (head dO h) = .ok (head g h)

theorem covers_of_passes
    (hf : ∀ O, m.forward x = .ok O → ∀ h, m.impl.forward (x.head h) = .ok (head O h))
    (hb : ∀ g, m.backward x dO = .ok g →
      ∀ h, m.impl.backward (x.head h) (head dO h) = .ok (head g h)) : Covers m x dO := by
  refine ⟨hf, hb, fun O g h i => ?_⟩
  obtain ⟨hO, hg⟩ := zeCoModule_ok.mp h
  exact ⟨hf O hO i, hb g hg i⟩

theorem covers_iff_backward (hf : m.impl.forwardMultihead = none) : Covers m x dO ↔
    ∀ g, m.backward x dO = .ok g →
      ∀ h, m.impl.backward (x.head h) (head dO h) = .ok (head g h) := by
  constructor
  · exact fun h => h.backward
  · exact covers_of_passes fun O hO => (forward_ok hf).mp hO

/--
The two passes cover the same heads when the constructor was told of every head, and else only
when a backward of those it was told of fails, or when the others have no gradient.
-/
theorem covers_iff (hf : m.impl.forwardMultihead = none) (hb : m.impl.backwardMultihead = none) :
    Covers m x dO ↔ (H : ℤ) ≤ m.H ∨
      (∃ h : Fin H, (h.val : ℤ) < m.H ∧ ∃ e, m.impl.backward (x.head h) (head dO h) = .error e) ∨
      ∀ h : Fin H, m.H ≤ h.val →
        m.impl.backward (x.head h) (head dO h) = .ok zerosLike := by
  rw [covers_iff_backward hf]
  simp only [backward_ok hb]
  constructor
  · intro h
    by_contra! hne
    obtain ⟨hH, hne, i, hi, hz⟩ := hne
    have hok (h : Fin H) (hlt : (h.val : ℤ) < m.H) :
        ∃ y, m.impl.backward (x.head h) (head dO h) = .ok y := by
      cases hy : m.impl.backward (x.head h) (head dO h) with
      | error e => exact absurd hy (hne h hlt e)
      | ok y => exact ⟨y, rfl⟩
    have : Nonempty (Fin P → Grads L dk dv R) := ⟨zerosLike⟩
    choose! y hy using hok
    -- what the loop returns: gradients for the heads it was told of, zeros for the others
    let g (j : Fin P × Fin H) : Grads L dk dv R :=
      if (j.2.val : ℤ) < m.H then y j.2 j.1 else zerosLike j.1
    have hg (h : Fin H) : head g h = if (h.val : ℤ) < m.H then y h else zerosLike := by
      funext p
      rw [ite_apply]
      rfl
    have hi' := h g ⟨hH.le, fun h hlt => by rw [hg, if_pos hlt, hy h hlt],
      fun h hge => by rw [hg, if_neg hge.not_gt]⟩ i
    rw [hg, if_neg hi.not_gt] at hi'
    exact hz hi'
  · rintro (hH | ⟨i, hi, e, he⟩ | hz) g ⟨hle, hg, hg0⟩ h
    · exact hg h (by omega)
    · rw [hg i hi] at he
      cases he
    · rcases lt_or_ge (h.val : ℤ) m.H with hlt | hge
      · exact hg h hlt
      · rw [hz h hge, hg0 h hge]

end Covers

section Passthrough

def passthrough : ZeCoImpl 1 1 1 1 ℤ Empty where
  forward x := .ok x.V
  backward _ dO := .ok fun p => ⟨0, 0, dO p, 0⟩
  forwardMultihead := none
  backwardMultihead := none

def onesLike : Outputs (Fin 1 × Fin 2) 1 1 ℤ := fun _ => Matrix.of 1

theorem covers_two : Covers ⟨passthrough, 2⟩ ⟨onesLike, onesLike, onesLike, onesLike⟩ onesLike :=
  (covers_iff rfl rfl).mpr (.inl le_rfl)

theorem second_head_left_out :
    let m : MultiHeadZeCo 1 1 1 1 ℤ Empty := ⟨passthrough, 1⟩
    let x : Inputs (Fin 1 × Fin 2) 1 1 1 ℤ := ⟨onesLike, onesLike, onesLike, onesLike⟩
    zeCoModule m.operator x onesLike =
        .ok (onesLike, fun i => ⟨0, 0, if i.2 = 0 then onesLike i else 0, 0⟩) ∧
      ¬ Covers m x onesLike := by
  intro m x
  have hf : m.forward x = .ok onesLike := (forward_ok rfl).mpr fun h => rfl
  have hb : m.backward x onesLike =
      .ok fun i => ⟨0, 0, if i.2 = 0 then onesLike i else 0, 0⟩ := by
    refine (backward_ok rfl).mpr ⟨by decide, fun h hh => ?_, fun h hh => ?_⟩
    · change (h.val : ℤ) < 1 at hh
      obtain rfl : h = 0 := by omega
      rfl
    · change (1 : ℤ) ≤ h.val at hh
      obtain rfl : h = 1 := by omega
      rfl
  refine ⟨zeCoModule_ok.mpr ⟨hf, hb⟩, fun h => ?_⟩
  have hV := congrArg Grads.dV (congrFun (Except.ok.inj (h.backward _ hb 1)) 0)
  exact absurd (congrFun (congrFun hV 0) 0) (by decide)

end Passthrough

section Simpler

open SimplerZeCo

variable {N C : ℕ} [Field R] (exp log : R → R) (r : Fin P → Runner N C dk dv R)
  (run : States P dk dv R → Decays P dk R → States P dk dv R)
  (runBackward : States P dk dv R → Decays P dk R → States P dk dv R →
    States P dk dv R × Decays P dk R)
  (runMulti : ∀ {H : ℕ}, (Fin H → States P dk dv R) → (Fin H → Decays P dk R) →
    Fin H → States P dk dv R)
  (runMultiBackward : ∀ {H : ℕ}, (Fin H → States P dk dv R) → (Fin H → Decays P dk R) →
    (Fin H → States P dk dv R) → Fin H → States P dk dv R × Decays P dk R)

def simplerZeCo : ZeCoImpl P (N * C) dk dv R ε where
  forward x := .ok (forwardOn exp log r run x.Q x.K x.V x.A)
  backward x dO := .ok (backwardOn exp log r run runBackward x.Q x.K x.V x.A dO)
  forwardMultihead := some fun _ x => .ok
    (SimplerZeCo.forwardMultihead exp log r runMulti x.Q x.K x.V x.A)
  backwardMultihead := some fun _ x dO => .ok
    (SimplerZeCo.backwardMultihead exp log r runMulti runMultiBackward x.Q x.K x.V x.A dO)

theorem simplerZeCo_covers
    (hrun : ∀ (S : Fin H → States P dk dv R) g h, runMulti S g h = run (S h) (g h))
    (hback : ∀ (G : Fin H → States P dk dv R) g S h,
      runMultiBackward G g S h = runBackward (G h) (g h) (S h)) (n : ℤ)
    (x : Inputs (Fin P × Fin H) (N * C) dk dv R) (dO : Outputs (Fin P × Fin H) (N * C) dv R) :
    Covers (⟨simplerZeCo exp log r run runBackward runMulti runMultiBackward, n⟩ :
      MultiHeadZeCo P (N * C) dk dv R ε) x dO := by
  apply covers_of_passes
  · intro O hO h
    obtain rfl := Except.ok.inj (call_ok.mp hO)
    exact congrArg Except.ok (forwardMultihead_head exp log r runMulti x.Q x.K x.V x.A hrun h).symm
  · intro g hg h
    obtain rfl := Except.ok.inj (call_ok.mp hg)
    exact congrArg Except.ok (backwardMultihead_head exp log r runMulti runMultiBackward x.Q x.K
      x.V x.A dO hrun hback h).symm

end Simpler

end ZeCo.MultiHead
