import Mathlib.Data.Fin.Basic
import Mathlib.Data.Fin.Rev

namespace ZeCo.Loop

variable {σ : Type*}

def up : (n : ℕ) → (Fin n → σ → σ) → σ → σ
  | 0, _, s => s
  | n + 1, body, s => body (Fin.last n) (up n (fun i => body i.castSucc) s)

def down : (n : ℕ) → (Fin n → σ → σ) → σ → σ
  | 0, _, s => s
  | n + 1, body, s => down n (fun i => body i.castSucc) (body (Fin.last n) s)

theorem up_invariant {n : ℕ} {f : Fin n → σ → σ} {s : σ} (I : ℕ → σ → Prop) (start : I 0 s)
    (step : ∀ (i : Fin n) (x : σ), I i x → I (i + 1) (f i x)) : I n (up n f s) := by
  induction n with
  | zero => exact start
  | succ n ih => exact step (Fin.last n) _ (ih fun i x h => step i.castSucc x h)

theorem down_invariant {n : ℕ} {f : Fin n → σ → σ} {s : σ} (I : ℕ → σ → Prop) (start : I n s)
    (step : ∀ (i : Fin n) (x : σ), I (i + 1) x → I i (f i x)) : I 0 (down n f s) := by
  induction n generalizing s with
  | zero => exact start
  | succ n ih =>
    exact ih (step (Fin.last n) s start) fun i x h => step i.castSucc x h

theorem written_slot {n : ℕ} {β : Type*} (value : Fin n → β) {k : Fin n} {a : Fin n → β}
    (before : ∀ i : Fin n, i.val < k → a i = value i) :
    ∀ i : Fin n, i.val < k.val + 1 → Function.update a k (value k) i = value i := by
  intro i hi
  by_cases h : i = k
  · subst h
    exact Function.update_self _ _ _
  · rw [Function.update_of_ne h]
    have hne : i.val ≠ k.val := fun he => h (Fin.ext he)
    exact before i (by omega)

theorem up_eq_foldl {n : ℕ} (f : Fin n → σ → σ) (s : σ) :
    up n f s = (List.finRange n).foldl (fun x i => f i x) s := by
  induction n with
  | zero => rfl
  | succ n ih =>
    rw [List.finRange_succ_last, List.foldl_append, List.foldl_map, ← ih fun i => f i.castSucc]
    rfl

theorem up_reorder {n : ℕ} {f : Fin n → σ → σ} (commute : ∀ i j x, f i (f j x) = f j (f i x))
    {order : List (Fin n)} (h : order.Perm (List.finRange n)) (s : σ) :
    order.foldl (fun x i => f i x) s = up n f s := by
  rw [up_eq_foldl]
  exact h.foldl_eq' (fun i _ j _ x => commute j i x) s

theorem up_simulation {τ : Type*} {n : ℕ} {f : Fin n → σ → σ} {g : Fin n → τ → τ} (view : σ → τ)
    (step : ∀ i x, view (f i x) = g i (view x)) (s : σ) : view (up n f s) = up n g (view s) := by
  induction n with
  | zero => rfl
  | succ n ih =>
    have hbody := ih (f := fun i => f i.castSucc) (g := fun i => g i.castSucc)
      fun i x => step i.castSucc x
    exact (step (Fin.last n) _).trans (congrArg (g (Fin.last n)) hbody)

theorem up_keeps {τ : Type*} {n : ℕ} {f : Fin n → σ → σ} (view : σ → τ)
    (step : ∀ i x, view (f i x) = view x) (s : σ) : view (up n f s) = view s :=
  up_invariant (fun _ x => view x = view s) rfl fun i x h => (step i x).trans h

theorem up_carry {τ : Type*} {n : ℕ} {f : Fin n → σ × τ → σ × τ} (T : ℕ → τ) (g : Fin n → σ → σ)
    (step : ∀ i x, f i (x, T i) = (g i x, T (i + 1))) (s : σ) :
    up n f (s, T 0) = (up n g s, T n) := by
  induction n with
  | zero => rfl
  | succ n ih =>
    have hbody := ih (f := fun i => f i.castSucc) (fun i => g i.castSucc)
      fun i x => step i.castSucc x
    exact (congrArg (f (Fin.last n)) hbody).trans (step (Fin.last n) _)

theorem up_slots {n : ℕ} {β : Type*} (value : Fin n → β → β) (s : Fin n → β) :
    up n (fun i x => Function.update x i (value i (x i))) s = fun i => value i (s i) := by
  have key := up_invariant (f := fun i x => Function.update x i (value i (x i))) (s := s)
    (fun m x => ∀ i : Fin n, x i = if i.val < m then value i (s i) else s i)
    (fun i => (if_neg (Nat.not_lt_zero _)).symm) ?_
  · funext i
    rw [key i, if_pos i.isLt]
  · intro k x ih i
    by_cases h : i = k
    · subst h
      rw [Function.update_self, ih, if_neg (Nat.lt_irrefl _), if_pos (Nat.lt_succ_self _)]
    · have hne : i.val ≠ k := fun he => h (Fin.ext he)
      rw [Function.update_of_ne h, ih]
      exact if_congr (by omega) rfl rfl

theorem up_fill {n : ℕ} {β : Type*} (value : Fin n → β) (s : Fin n → β) :
    up n (fun i x => Function.update x i (value i)) s = value :=
  up_slots (fun i _ => value i) s

theorem up_grid {m n : ℕ} {β : Type*} (value : Fin m → Fin n → β → β) (s : Fin m × Fin n → β) :
    up n (fun j x => up m (fun i x => Function.update x (i, j) (value i j (x (i, j)))) x) s =
      fun k => value k.1 k.2 (s k) := by
  have row (j : Fin n) (x : Fin m × Fin n → β) (k : Fin m × Fin n) :
      up m (fun i x => Function.update x (i, j) (value i j (x (i, j)))) x k =
        if k.2 = j then value k.1 j (x k) else x k := by
    have key := up_invariant (f := fun i x => Function.update x (i, j) (value i j (x (i, j))))
      (s := x) (fun r y => ∀ k : Fin m × Fin n, y k =
        if k.2 = j ∧ k.1.val < r then value k.1 j (x k) else x k)
      (fun k => (if_neg fun h => Nat.not_lt_zero _ h.2).symm) ?_
    · rw [key k]
      exact if_congr ⟨fun h => h.1, fun h => ⟨h, k.1.isLt⟩⟩ rfl rfl
    · intro i y ih k
      by_cases h : k = (i, j)
      · subst h
        rw [Function.update_self, ih, if_neg fun h => Nat.lt_irrefl _ h.2,
          if_pos ⟨rfl, Nat.lt_succ_self _⟩]
      · rw [Function.update_of_ne h, ih]
        apply if_congr _ rfl rfl
        constructor
        · exact fun hk => ⟨hk.1, Nat.lt_succ_of_lt hk.2⟩
        · rintro ⟨h2, h1⟩
          have hne : k.1.val ≠ i := fun he => h (Prod.ext (Fin.ext he) h2)
          exact ⟨h2, by omega⟩
  have key := up_invariant (s := s)
    (f := fun j x => up m (fun i x => Function.update x (i, j) (value i j (x (i, j)))) x)
    (fun r y => ∀ k : Fin m × Fin n, y k = if k.2.val < r then value k.1 k.2 (s k) else s k)
    (fun k => (if_neg (Nat.not_lt_zero _)).symm) ?_
  · funext k
    rw [key k, if_pos k.2.isLt]
  · intro j y ih k
    rw [row j y k]
    by_cases h : k.2 = j
    · subst h
      rw [if_pos rfl, ih, if_neg (Nat.lt_irrefl _), if_pos (Nat.lt_succ_self _)]
    · have hne : k.2.val ≠ j := fun he => h (Fin.ext he)
      rw [if_neg h, ih]
      exact if_congr (by omega) rfl rfl

theorem up_grid_fill {m n : ℕ} {β : Type*} (value : Fin m → Fin n → β) (s : Fin m × Fin n → β) :
    up n (fun j x => up m (fun i x => Function.update x (i, j) (value i j)) x) s =
      fun k => value k.1 k.2 := up_grid (fun i j _ => value i j) s

end ZeCo.Loop
