import ZeCo.Loop
import ZeCo.Tensor

/-!
Flat buffers. A device tensor is a run of floats; a kernel imposes a row-major shape on it from an
offset on. `load` reads a tile at the start of a view, `store` writes one, and `flat` is
`M.reshape(-1)`.
-/

namespace ZeCo

open Matrix

variable {R : Type*} {N C m n m' n' d : ℕ}

abbrev Buffer (R : Type*) := ℕ → R

namespace Buffer

def view (X : Buffer R) (off : ℕ) : Buffer R := fun x => X (off + x)

def load (m n : ℕ) (X : Buffer R) : Matrix (Fin m) (Fin n) R := of fun i j => X (i * n + j)

def flat [Zero R] (M : Matrix (Fin m) (Fin n) R) : Buffer R := fun x =>
  if h : 0 < n then stream M (x / n) ⟨x % n, Nat.mod_lt x h⟩ else 0

def store [Zero R] (X : Buffer R) (off : ℕ) (M : Matrix (Fin m) (Fin n) R) : Buffer R := fun x =>
  if off ≤ x ∧ x < off + m * n then flat M (x - off) else X x

@[simp] theorem view_zero (X : Buffer R) : X.view 0 = X := by
  funext x
  rw [view, Nat.zero_add]

theorem load_apply (X : Buffer R) (i : Fin m) (j : Fin n) : load m n X i j = X (i * n + j) := rfl

theorem flat_apply [Zero R] (M : Matrix (Fin m) (Fin n) R) (i : ℕ) (j : Fin n) :
    flat M (i * n + j) = stream M i j := by
  have hn : 0 < n := j.pos
  have hq : (i * n + j) / n = i := by
    rw [Nat.mul_comm, Nat.mul_add_div hn, Nat.div_eq_of_lt j.isLt, Nat.add_zero]
  have hr : (i * n + j) % n = j := by
    rw [Nat.mul_comm, Nat.mul_add_mod, Nat.mod_eq_of_lt j.isLt]
  simp only [flat, dif_pos hn, hq, hr]

theorem load_flat [Zero R] (M : Matrix (Fin m) (Fin n) R) : load m n (flat M) = M := by
  ext i j
  rw [load_apply, flat_apply, stream_fin]

theorem load_row [Zero R] (M : Matrix (Fin m) (Fin n) R) (i : Fin m) :
    load 1 n ((flat M).view (i * n)) 0 = M i := by
  funext j
  have hx : i.val * n + (0 * n + j.val) = i.val * n + j.val := by rw [Nat.zero_mul, Nat.zero_add]
  rw [load_apply, view]
  exact (congrArg (flat M) hx).trans ((flat_apply M i j).trans (stream_fin M i j))

theorem load_chunk (X : Buffer R) (k : Fin N) :
    load C d (X.view (k * (C * d))) = chunk (load (N * C) d X) k := by
  ext t j
  have hx : k.val * (C * d) + (t.val * d + j.val) = (k.val * C + t.val) * d + j.val := by ring
  exact congrArg X hx

theorem load_chunk_flat [Zero R] (M : Matrix (Fin (N * C)) (Fin d) R) (k : Fin N) :
    load C d ((flat M).view (k * (C * d))) = chunk M k := by
  rw [load_chunk, load_flat]

theorem tile_lt (i : Fin m) (j : Fin n) : i.val * n + j.val < m * n := by
  have h := part_end_le i n
  have := j.isLt
  omega

theorem load_store_self [Zero R] (X : Buffer R) (off : ℕ) (M : Matrix (Fin m) (Fin n) R) :
    load m n ((X.store off M).view off) = M := by
  ext i j
  have hlt := tile_lt i j
  have hx : off + (i.val * n + j.val) - off = i.val * n + j.val := by omega
  rw [load_apply, view, store, if_pos (by omega), hx, flat_apply, stream_fin]

theorem load_store_zero [Zero R] (X : Buffer R) (M : Matrix (Fin m) (Fin n) R) :
    load m n (X.store 0 M) = M := by
  have hself := load_store_self X 0 M
  rwa [view_zero] at hself

theorem load_store_ne [Zero R] (X : Buffer R) {off off' : ℕ} (M : Matrix (Fin m) (Fin n) R)
    (h : off' + m' * n' ≤ off ∨ off + m * n ≤ off') :
    load m' n' ((X.store off M).view off') = load m' n' (X.view off') := by
  ext i j
  have hlt := tile_lt i j
  rw [load_apply, load_apply, view, view, store, if_neg (by omega)]

theorem tile_disjoint (size : ℕ) {i j : ℕ} (h : i ≠ j) :
    i * size + size ≤ j * size ∨ j * size + size ≤ i * size := by
  rcases Nat.lt_or_gt_of_ne h with h | h
  · left
    rw [← Nat.succ_mul]
    exact Nat.mul_le_mul_right size h
  · right
    rw [← Nat.succ_mul]
    exact Nat.mul_le_mul_right size h

theorem load_store_tile [Zero R] (X : Buffer R) (M : Matrix (Fin m) (Fin n) R) {i j : ℕ}
    (h : i ≠ j) : load m n ((X.store (j * (m * n)) M).view (i * (m * n))) =
      load m n (X.view (i * (m * n))) :=
  load_store_ne X M (tile_disjoint (m * n) h)

theorem load_tiles [Zero R] (X : Buffer R) (M : Fin N → Matrix (Fin m) (Fin n) R) (k : Fin N) :
    load m n ((Loop.up N (fun k Y => store Y (k * (m * n)) (M k)) X).view (k * (m * n))) = M k := by
  have key := Loop.up_invariant (f := fun (k : Fin N) Y => store Y (k * (m * n)) (M k)) (s := X)
    (fun r Y => ∀ k : Fin N, k.val < r → load m n (view Y (k * (m * n))) = M k)
    (fun k hk => absurd hk (Nat.not_lt_zero _)) ?_
  · exact key k k.isLt
  · intro i Y ih k hk
    by_cases h : k = i
    · subst h
      exact load_store_self Y _ (M k)
    · have hv : k.val ≠ i := fun hv => h (Fin.ext hv)
      rw [load_store_tile Y (M i) hv, ih k (by omega)]

theorem load_written [Zero R] {σ : Type*} (buf : σ → Buffer R)
    {M : Fin N → Matrix (Fin m) (Fin n) R}
    {f : Fin N → σ → σ} (h : ∀ k x, buf (f k x) = (buf x).store (k * (m * n)) (M k)) (s : σ)
    (k : Fin N) : load m n ((buf (Loop.up N f s)).view (k * (m * n))) = M k := by
  rw [Loop.up_simulation (g := fun k Y => store Y (k * (m * n)) (M k)) buf h, load_tiles]

end Buffer

end ZeCo
