import Mathlib.Data.List.Basic
import Mathlib.Data.List.Forall2

/-!
Programs over a state that end by returning or by raising. The state at a raise is kept: it is what
the caller finds who catches it. A triple has one postcondition for each of the two ends. Where no
state is kept, what a result says of the steps that led to it.
-/

namespace ZeCo.Raising

variable {ε σ ι : Type*}

abbrev Program (ε σ : Type*) := σ → Except ε Unit × σ

def skip : Program ε σ := fun s => (.ok (), s)

def seq (p q : Program ε σ) : Program ε σ := fun s =>
  match p s with
  | (.ok _, t) => q t
  | (.error e, t) => (.error e, t)

def protect (p : Program ε σ) (cleanup : σ → σ) : Program ε σ := fun s =>
  ((p s).1, cleanup (p s).2)

/-- `try: p finally: cleanup`; what the clean-up raises replaces what `p` raised. -/
def ensure (p cleanup : Program ε σ) : Program ε σ := fun s =>
  match p s with
  | (x, t) => match cleanup t with
    | (.ok _, u) => (x, u)
    | (.error e, u) => (.error e, u)

def handle (p : Program ε σ) (handler : ε → Program ε σ) : Program ε σ := fun s =>
  match p s with
  | (.ok _, t) => (.ok (), t)
  | (.error e, t) => handler e t

def raise (e : ε) : Program ε σ := fun s => (.error e, s)

def apply (f : σ → σ) : Program ε σ := fun s => (.ok (), f s)

def forEach (f : ι → Program ε σ) : List ι → Program ε σ
  | [] => skip
  | i :: is => seq (f i) (forEach f is)

theorem seq_assoc (p q r : Program ε σ) : seq (seq p q) r = seq p (seq q r) := by
  funext s
  simp only [seq]
  cases p s with
  | mk x t => cases x <;> rfl

theorem forEach_append (f : ι → Program ε σ) (is js : List ι) :
    forEach f (is ++ js) = seq (forEach f is) (forEach f js) := by
  induction is with
  | nil => rfl
  | cons i is ih => rw [List.cons_append, forEach, forEach, ih, seq_assoc]

theorem forEach_map {κ : Type*} (f : κ → Program ε σ) (g : ι → κ) (is : List ι) :
    forEach f (is.map g) = forEach (fun i => f (g i)) is := by
  induction is with
  | nil => rfl
  | cons i is ih => rw [List.map_cons, forEach, forEach, ih]

theorem forEach_flatMap {κ : Type*} (f : κ → Program ε σ) (g : ι → List κ) (is : List ι) :
    forEach f (is.flatMap g) = forEach (fun i => forEach f (g i)) is := by
  induction is with
  | nil => rfl
  | cons i is ih => rw [List.flatMap_cons, forEach_append, ih, forEach]

def Triple (P : σ → Prop) (p : Program ε σ) (Q : σ → Prop) (E : σ → Prop) : Prop :=
  ∀ s, P s → match p s with
    | (.ok _, t) => Q t
    | (.error _, t) => E t

abbrev Keeps (I : σ → Prop) (p : Program ε σ) : Prop := Triple I p I I

variable {P P' Q Q' R E E' I : σ → Prop} {p q : Program ε σ}

theorem Triple.weaken (h : Triple P p Q E) (hP : ∀ s, P' s → P s) (hQ : ∀ s, Q s → Q' s)
    (hE : ∀ s, E s → E' s) : Triple P' p Q' E' := by
  intro s hs
  have hp := h s (hP s hs)
  cases hx : p s with
  | mk x t =>
    rw [hx] at hp
    cases x with
    | ok u => exact hQ t hp
    | error e => exact hE t hp

theorem Triple.of_final (h : ∀ s, P s → Q (p s).2) : Triple P p Q Q := by
  intro s hs
  have ht := h s hs
  cases hx : p s with
  | mk x t =>
    rw [hx] at ht
    cases x with
    | ok u => exact ht
    | error e => exact ht

theorem Keeps.of_final (h : ∀ s, I s → I (p s).2) : Keeps I p := Triple.of_final h

theorem Triple.skip : Triple P (skip : Program ε σ) P E := fun _ hs => hs

theorem Triple.apply {f : σ → σ} (h : ∀ s, P s → Q (f s)) :
    Triple P (apply f : Program ε σ) Q E := h

theorem Triple.seq (hp : Triple P p Q E) (hq : Triple Q q R E) : Triple P (seq p q) R E := by
  intro s hs
  have hmid := hp s hs
  unfold Raising.seq
  cases hx : p s with
  | mk x t =>
    rw [hx] at hmid
    cases x with
    | ok u => exact hq t hmid
    | error e => exact hmid

theorem Triple.protect {cleanup : σ → σ} (h : Triple P p Q E) (hQ : ∀ s, Q s → Q' (cleanup s))
    (hE : ∀ s, E s → E' (cleanup s)) : Triple P (protect p cleanup) Q' E' := by
  intro s hs
  have hp := h s hs
  unfold Raising.protect
  cases hx : p s with
  | mk x t =>
    rw [hx] at hp
    cases x with
    | ok u => exact hQ t hp
    | error e => exact hE t hp

theorem Triple.raise {e : ε} (h : ∀ s, P s → E s) : Triple P (raise e) Q E := h

theorem Triple.ensure {cleanup : Program ε σ} (h : Triple P p Q E) (hQ : Triple Q cleanup Q' E')
    (hE : Triple E cleanup E' E') : Triple P (ensure p cleanup) Q' E' := by
  intro s hs
  have hp := h s hs
  unfold Raising.ensure
  cases hx : p s with
  | mk x t =>
    rw [hx] at hp
    cases x with
    | ok u =>
      have hc := hQ t hp
      dsimp only
      split at hc
      · simpa only [‹cleanup t = _›] using hc
      · simpa only [‹cleanup t = _›] using hc
    | error e =>
      have hc := hE t hp
      dsimp only
      split at hc
      · simpa only [‹cleanup t = _›] using hc
      · simpa only [‹cleanup t = _›] using hc

theorem Triple.handle {handler : ε → Program ε σ} (h : Triple P p Q E)
    (hE : ∀ e, Triple E (handler e) Q E') : Triple P (handle p handler) Q E' := by
  intro s hs
  have hp := h s hs
  unfold Raising.handle
  cases hx : p s with
  | mk x t =>
    rw [hx] at hp
    cases x with
    | ok u => exact hp
    | error e => exact hE e t hp

theorem Triple.forEach_done {f : ι → Program ε σ} {I : List ι → σ → Prop} {is : List ι}
    (h : ∀ done i, done ++ [i] <+: is → Triple (I done) (f i) (I (done ++ [i])) E) :
    Triple (I []) (Raising.forEach f is) (I is) E := by
  have key (rest : List ι) : ∀ done, done ++ rest = is →
      Triple (I done) (Raising.forEach f rest) (I is) E := by
    induction rest with
    | nil =>
      rintro done rfl
      rw [List.append_nil]
      exact Triple.skip
    | cons i rest ih =>
      intro done hdone
      have hnext : done ++ [i] ++ rest = is := by rw [List.append_assoc]; exact hdone
      exact Triple.seq (h done i ⟨rest, hnext⟩) (ih (done ++ [i]) hnext)
  exact key is [] rfl

theorem Triple.forEach {f : ι → Program ε σ} (is : List ι) (h : ∀ i ∈ is, Triple I (f i) I E) :
    Triple I (forEach f is) I E := by
  induction is with
  | nil => exact Triple.skip
  | cons i is ih =>
    apply Triple.seq
    · exact h i List.mem_cons_self
    · exact ih fun j hj => h j (List.mem_cons_of_mem i hj)

theorem Triple.final (h : Triple P p Q Q) {s : σ} (hs : P s) : Q (p s).2 := by
  have hp := h s hs
  cases hx : p s with
  | mk x t =>
    rw [hx] at hp
    cases x with
    | ok u => exact hp
    | error e => exact hp

theorem Triple.ended {S : Bool → σ → Prop} (h : Triple P p (S true) (S false)) {s : σ}
    (hs : P s) : S (p s).1.isOk (p s).2 := by
  have hp := h s hs
  cases hx : p s with
  | mk x t =>
    rw [hx] at hp
    cases x with
    | ok u => exact hp
    | error e => exact hp

section Results

universe u

variable {α β γ : Type u} {x : Except ε α} {f : α → Except ε β} {b : β}

theorem bind_ok : x >>= f = .ok b ↔ ∃ a, x = .ok a ∧ f a = .ok b := by
  cases x with
  | error e =>
    constructor
    · intro h
      cases h
    · rintro ⟨a, h, -⟩
      cases h
  | ok a =>
    constructor
    · intro h
      exact ⟨a, rfl, h⟩
    · rintro ⟨a', ⟨⟩, h⟩
      exact h

theorem mapM_ok {xs : List α} {ys : List β} :
    xs.mapM f = .ok ys ↔ List.Forall₂ (fun x y => f x = .ok y) xs ys := by
  induction xs generalizing ys with
  | nil =>
    rw [List.mapM_nil, List.forall₂_nil_left_iff]
    constructor
    · rintro ⟨⟩
      rfl
    · rintro rfl
      rfl
  | cons x xs ih =>
    rw [List.mapM_cons, List.forall₂_cons_left_iff]
    simp only [bind_ok, ih]
    constructor
    · rintro ⟨y, hy, ys, hys, ⟨⟩⟩
      exact ⟨y, ys, hy, hys, rfl⟩
    · rintro ⟨y, ys, hy, hys, rfl⟩
      exact ⟨y, hy, ys, hys, rfl⟩

theorem foldlM_append_ok {f : α → Except ε (List β)} {xs : List α} {acc ys : List β} :
    xs.foldlM (fun acc x => do
      let more ← f x
      return acc ++ more) acc = .ok ys ↔
    ∃ blocks, List.Forall₂ (fun x block => f x = .ok block) xs blocks ∧
      acc ++ blocks.flatten = ys := by
  induction xs generalizing acc with
  | nil =>
    rw [List.foldlM_nil]
    constructor
    · rintro ⟨⟩
      exact ⟨[], List.Forall₂.nil, List.append_nil _⟩
    · rintro ⟨blocks, h, rfl⟩
      rw [List.forall₂_nil_left_iff.mp h]
      exact congrArg Except.ok (List.append_nil _).symm
  | cons x xs ih =>
    rw [List.foldlM_cons]
    simp only [bind_ok, ih]
    constructor
    · rintro ⟨_, ⟨more, hmore, ⟨⟩⟩, blocks, h, rfl⟩
      exact ⟨more :: blocks, h.cons hmore, by simp⟩
    · rintro ⟨blocks, h, rfl⟩
      obtain ⟨more, rest, hmore, hrest, rfl⟩ := List.forall₂_cons_left_iff.mp h
      exact ⟨_, ⟨more, hmore, rfl⟩, rest, hrest, by simp⟩

end Results

end ZeCo.Raising
