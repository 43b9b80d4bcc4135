import ZeCo.Loop
import ZeCo.Tensor

namespace ZeCo

open Matrix Finset

variable {R : Type*} {T T' d d' m m' n n' p q N L C nb B : ℕ}

def entry [Zero R] (X : Matrix (Fin T) (Fin d) R) (i j : ℕ) : R :=
  if h : i < T ∧ j < d then X ⟨i, h.1⟩ ⟨j, h.2⟩ else 0

def loadTile [Zero R] (m n : ℕ) (X : Matrix (Fin T) (Fin d) R) (r c : ℕ) :
    Matrix (Fin m) (Fin n) R := of fun i j => entry X (r + i) (c + j)

def InTile (m n r c i j : ℕ) : Prop := (r ≤ i ∧ i < r + m) ∧ c ≤ j ∧ j < c + n

instance (m n r c i j : ℕ) : Decidable (InTile m n r c i j) := inferInstanceAs (Decidable (_ ∧ _))

def storeTile [Zero R] (M : Matrix (Fin m) (Fin n) R) (r c : ℕ) (X : Matrix (Fin T) (Fin d) R) :
    Matrix (Fin T) (Fin d) R :=
  of fun i j => if InTile m n r c i j then entry M (i - r) (j - c) else X i j

def toCol (x : Fin m → R) : Matrix (Fin m) (Fin 1) R := of fun i _ => x i

def toRow (X : Matrix (Fin m) (Fin 1) R) : Fin m → R := fun i => X i ⟨0, Nat.one_pos⟩

def rowExpandMul [Mul R] (X : Matrix (Fin m) (Fin n) R) (x : Matrix (Fin m) (Fin 1) R) :
    Matrix (Fin m) (Fin n) R := of fun i j => X i j * x i ⟨0, Nat.one_pos⟩

section Entries

variable [Zero R] (X : Matrix (Fin T) (Fin d) R)

theorem entry_of_lt {i j : ℕ} (hi : i < T) (hj : j < d) : entry X i j = X ⟨i, hi⟩ ⟨j, hj⟩ :=
  dif_pos ⟨hi, hj⟩

theorem entry_fin (i : Fin T) (j : Fin d) : entry X i j = X i j := entry_of_lt X i.isLt j.isLt

theorem loadTile_apply (r c : ℕ) (i : Fin m) (j : Fin n) :
    loadTile m n X r c i j = entry X (r + i) (c + j) := rfl

theorem loadTile_full : loadTile T d X 0 0 = X := by
  ext i j
  rw [loadTile_apply, Nat.zero_add, Nat.zero_add, entry_fin]

theorem entry_loadTile {r c i j : ℕ} (hi : i < m) (hj : j < n) :
    entry (loadTile m n X r c) i j = entry X (r + i) (c + j) := entry_of_lt _ hi hj

theorem loadTile_loadTile {r c r' c' : ℕ} (hr : r' + m' ≤ m) (hc : c' + n' ≤ n) :
    loadTile m' n' (loadTile m n X r c) r' c' = loadTile m' n' X (r + r') (c + c') := by
  ext i j
  rw [loadTile_apply, entry_loadTile X (by omega) (by omega), loadTile_apply, Nat.add_assoc,
    Nat.add_assoc]

theorem loadTile_transpose (r c : ℕ) : loadTile m n Xᵀ r c = (loadTile n m X c r)ᵀ := by
  ext i j
  simp only [loadTile_apply, transpose_apply, entry, and_comm]

theorem loadTile_map {R' : Type*} [Zero R'] (f : R → R') {r c : ℕ} (hr : r + m ≤ T)
    (hc : c + n ≤ d) : loadTile m n (X.map f) r c = (loadTile m n X r c).map f := by
  ext i j
  rw [loadTile_apply, map_apply, loadTile_apply, entry_of_lt _ (by omega) (by omega),
    entry_of_lt _ (by omega) (by omega), map_apply]

theorem loadTile_zero (r c : ℕ) : loadTile m n (0 : Matrix (Fin T) (Fin d) R) r c = 0 := by
  ext i j
  simp [loadTile_apply, entry]

theorem loadTile_const (a : R) {r c : ℕ} (hr : r + m ≤ T) (hc : c + n ≤ d) :
    loadTile m n (of fun _ _ => a : Matrix (Fin T) (Fin d) R) r c = of fun _ _ => a := by
  ext i j
  rw [loadTile_apply, entry_of_lt _ (by omega) (by omega)]
  rfl

theorem entry_chunk (X : Matrix (Fin (N * C)) (Fin d) R) (k : Fin N) {i j : ℕ} (hi : i < C) :
    entry (chunk X k) i j = entry X (k * C + i) j := by
  have h := part_end_le k C
  by_cases hj : j < d
  · rw [entry_of_lt _ hi hj, entry_of_lt X (by omega) hj]
    rfl
  · simp [entry, hj]

theorem loadTile_chunk (X : Matrix (Fin (N * C)) (Fin d) R) (k : Fin N) {r c : ℕ}
    (hr : r + m ≤ C) : loadTile m n X (k * C + r) c = loadTile m n (chunk X k) r c := by
  ext i j
  rw [loadTile_apply, loadTile_apply, entry_chunk X k (by omega), Nat.add_assoc]

theorem loadTile_chunk_start (X : Matrix (Fin (N * C)) (Fin d) R) (k : Fin N) (c : ℕ) :
    loadTile C n X (k * C) c = loadTile C n (chunk X k) 0 c :=
  loadTile_chunk X k (Nat.zero_add C).le

theorem loadTile_flattenSeq (X : Fin N → Matrix (Fin L) (Fin d) R) (k : Fin N) {r c : ℕ}
    (hr : r + m ≤ L) : loadTile m n (flattenSeq X) (k * L + r) c = loadTile m n (X k) r c := by
  rw [loadTile_chunk _ k hr, chunk_flattenSeq]

theorem loadTile_flattenSeq_start (X : Fin N → Matrix (Fin L) (Fin d) R) (k : Fin N) (c : ℕ) :
    loadTile L n (flattenSeq X) (k * L) c = loadTile L n (X k) 0 c := by
  rw [loadTile_chunk_start, chunk_flattenSeq]

end Entries

section Algebra

@[simp] theorem toCol_apply (x : Fin m → R) (i : Fin m) (j : Fin 1) : toCol x i j = x i := rfl

theorem loadTile_add [AddMonoid R] (X Y : Matrix (Fin T) (Fin d) R) (r c : ℕ) :
    loadTile m n (X + Y) r c = loadTile m n X r c + loadTile m n Y r c := by
  ext i j
  simp only [loadTile_apply, Matrix.add_apply, entry]
  split_ifs <;> simp

theorem loadTile_sub [AddGroup R] (X Y : Matrix (Fin T) (Fin d) R) (r c : ℕ) :
    loadTile m n (X - Y) r c = loadTile m n X r c - loadTile m n Y r c := by
  ext i j
  simp only [loadTile_apply, Matrix.sub_apply, entry]
  split_ifs <;> simp

theorem loadTile_hadamard [MulZeroClass R] (X Y : Matrix (Fin T) (Fin d) R) (r c : ℕ) :
    loadTile m n (X ⊙ Y) r c = loadTile m n X r c ⊙ loadTile m n Y r c := by
  ext i j
  simp only [loadTile_apply, hadamard_apply, entry]
  split_ifs <;> simp

theorem loadTile_quotient [DivisionRing R] (X Y : Matrix (Fin T) (Fin d) R) (r c : ℕ) :
    loadTile m n (quotient X Y) r c = quotient (loadTile m n X r c) (loadTile m n Y r c) := by
  ext i j
  simp only [loadTile_apply, quotient_apply, entry]
  split_ifs <;> simp

theorem loadTile_rowScale [CommMonoidWithZero R] (x : Fin T → R) (X : Matrix (Fin T) (Fin d) R)
    (r c : ℕ) : loadTile m n (rowScale x X) r c =
      rowExpandMul (loadTile m n X r c) (loadTile m 1 (toCol x) r 0) := by
  ext i j
  rw [rowExpandMul, of_apply, loadTile_apply, loadTile_apply, loadTile_apply]
  by_cases h : r + i.val < T ∧ c + j.val < d
  · have h0 : 0 + (⟨0, Nat.one_pos⟩ : Fin 1).val < 1 := Nat.one_pos
    rw [entry_of_lt _ h.1 h.2, entry_of_lt X h.1 h.2, entry_of_lt _ h.1 h0]
    exact mul_comm _ _
  · rw [entry, dif_neg h, entry, dif_neg h, zero_mul]

theorem loadTile_toCol_mul [MulZeroClass R] (x y : Fin T → R) (r : ℕ) :
    loadTile m 1 (toCol (x * y)) r 0 =
      loadTile m 1 (toCol x) r 0 ⊙ loadTile m 1 (toCol y) r 0 :=
  loadTile_hadamard (toCol x) (toCol y) r 0

theorem toCol_colSum_tile [AddCommMonoid R] (X : Matrix (Fin T) (Fin d) R) (c : ℕ) :
    toCol (colSum (loadTile T n X 0 c)) = loadTile n 1 (toCol (colSum X)) c 0 := by
  ext i j
  by_cases h : c + i.val < d
  · have h0 : 0 + j.val < 1 := by omega
    rw [loadTile_apply, entry_of_lt _ h h0, toCol_apply, toCol_apply, colSum_apply, colSum_apply]
    apply sum_congr rfl
    intro t _
    rw [loadTile_apply, Nat.zero_add, entry_of_lt X t.isLt h]
  · simp [loadTile_apply, entry, h]

theorem toRow_add [Add R] (X Y : Matrix (Fin m) (Fin 1) R) :
    toRow X + toRow Y = toRow (X + Y) := rfl

theorem toCol_add [Add R] (x y : Fin m → R) : toCol x + toCol y = toCol (x + y) := rfl

theorem colSum_tile [AddCommMonoid R] (X : Matrix (Fin T) (Fin d) R) (c : ℕ) :
    colSum (loadTile T n X 0 c) = toRow (loadTile n 1 (toCol (colSum X)) c 0) := by
  rw [← toCol_colSum_tile]
  rfl

theorem everyRow_tile [Zero R] (x : Fin d → R) (c : ℕ) :
    everyRow T (toRow (loadTile n 1 (toCol x) c 0)) = loadTile T n (everyRow T x) 0 c := by
  ext i j
  have hi : 0 + i.val < T := by omega
  rw [everyRow_apply, toRow, loadTile_apply, loadTile_apply]
  by_cases h : c + j.val < d
  · have h0 : 0 + (0 : Fin 1).val < 1 := Nat.one_pos
    exact (entry_of_lt (toCol x) h h0).trans (entry_of_lt (everyRow T x) hi h).symm
  · simp [entry, h]

theorem loadTile_sum {ι : Type*} [AddCommMonoid R] (s : Finset ι)
    (X : ι → Matrix (Fin T) (Fin d) R) (r c : ℕ) :
    loadTile m n (∑ k ∈ s, X k) r c = ∑ k ∈ s, loadTile m n (X k) r c := by
  ext i j
  simp only [loadTile_apply, Matrix.sum_apply, entry]
  split_ifs <;> simp

theorem sum_hadamard {ι : Type*} [NonUnitalNonAssocSemiring R] (s : Finset ι)
    (X : ι → Matrix (Fin m) (Fin n) R) (Y : Matrix (Fin m) (Fin n) R) :
    ∑ k ∈ s, X k ⊙ Y = (∑ k ∈ s, X k) ⊙ Y := by
  ext i j
  simp only [Matrix.sum_apply, hadamard_apply, sum_mul]

theorem sum_blocks [AddCommMonoid R] (h : nb * B = T) (f : ℕ → R) :
    ∑ k : Fin nb, ∑ i : Fin B, f (k * B + i) = ∑ t : Fin T, f t := by
  subst h
  rw [← Fintype.sum_prod_type' (f := fun (k : Fin nb) (i : Fin B) => f (k * B + i)),
    ← finProdFinEquiv.sum_comp]
  apply sum_congr rfl
  intro x _
  rw [← token_eq]
  rfl

theorem entry_mul [NonUnitalNonAssocSemiring R] (X : Matrix (Fin p) (Fin T) R)
    (Y : Matrix (Fin T) (Fin q) R) (i j : ℕ) :
    entry (X * Y) i j = ∑ t : Fin T, entry X i t * entry Y t j := by
  by_cases hi : i < p
  · by_cases hj : j < q
    · rw [entry_of_lt _ hi hj, mul_apply]
      apply sum_congr rfl
      intro t _
      rw [entry_of_lt X hi t.isLt, entry_of_lt Y t.isLt hj]
    · simp [entry, hj]
  · simp [entry, hi]

theorem loadTile_mul [NonUnitalNonAssocSemiring R] (X : Matrix (Fin p) (Fin T) R)
    (Y : Matrix (Fin T) (Fin q) R) (r c : ℕ) :
    loadTile m n (X * Y) r c = loadTile m T X r 0 * loadTile T n Y 0 c := by
  ext i j
  simp only [loadTile_apply, entry_mul, mul_apply, Nat.zero_add]

theorem sum_tiles_mul [NonUnitalNonAssocSemiring R] (h : nb * B = T) (X : Matrix (Fin p) (Fin T) R)
    (Y : Matrix (Fin T) (Fin q) R) (r c : ℕ) :
    ∑ k : Fin nb, loadTile m B X r (k * B) * loadTile B n Y (k * B) c =
      loadTile m n (X * Y) r c := by
  ext i j
  rw [Matrix.sum_apply, loadTile_apply, entry_mul,
    ← sum_blocks h fun t => entry X (r + i) t * entry Y t (c + j)]
  rfl

theorem sum_tiles_rowSum [AddCommMonoid R] (h : nb * B = d) (X : Matrix (Fin T) (Fin d) R) (r : ℕ) :
    ∑ k : Fin nb, toCol (rowSum (loadTile m B X r (k * B))) =
      loadTile m 1 (toCol (rowSum X)) r 0 := by
  ext i j
  rw [Matrix.sum_apply, loadTile_apply]
  by_cases hi : r + i.val < T
  · have h0 : 0 + j.val < 1 := by omega
    rw [entry_of_lt _ hi h0, toCol_apply, rowSum_apply]
    apply (sum_blocks h fun t => entry X (r + i) t).trans
    apply sum_congr rfl
    intro t _
    exact entry_of_lt X hi t.isLt
  · simp [loadTile_apply, entry, hi]

theorem up_add {n : ℕ} {M : Type*} [AddCommMonoid M] (f : Fin n → M) (s : M) :
    Loop.up n (fun i acc => acc + f i) s = s + ∑ i, f i := by
  induction n with
  | zero => rw [Fin.sum_univ_zero, add_zero, Loop.up]
  | succ n ih => rw [Loop.up, ih, Fin.sum_univ_castSucc, add_assoc]

theorem up_accumulates {σ M : Type*} [AddCommMonoid M] {n : ℕ} {f : Fin n → σ → σ} (v : σ → M)
    (a : Fin n → M) (h : ∀ i x, v (f i x) = v x + a i) (s : σ) :
    v (Loop.up n f s) = v s + ∑ i, a i :=
  (Loop.up_simulation v h s).trans (up_add a (v s))

theorem up_tiles_mul [NonUnitalNonAssocSemiring R] (h : nb * B = T) (X : Matrix (Fin p) (Fin T) R)
    (Y : Matrix (Fin T) (Fin q) R) (r c : ℕ) (s : Matrix (Fin m) (Fin n) R) :
    Loop.up nb (fun k acc => acc + loadTile m B X r (k * B) * loadTile B n Y (k * B) c) s =
      s + loadTile m n (X * Y) r c := by
  rw [up_add, sum_tiles_mul h]

theorem block_end_le (h : nb * B = T) (k : Fin nb) : k.val * B + B ≤ T := h ▸ part_end_le k B

theorem exists_block (h : nb * B = T) (t : Fin T) :
    ∃ k : Fin nb, k.val * B ≤ t ∧ t.val < k * B + B := by
  subst h
  have ht : t.divNat.val * B + t.modNat = t := congrArg Fin.val (token_divNat_modNat t)
  have := t.modNat.isLt
  exact ⟨t.divNat, by omega, by omega⟩

theorem exists_block_from (h : nb * B = T) {o i : ℕ} (ho : o ≤ i) (hi : i < o + T) :
    ∃ k : Fin nb, o + k * B ≤ i ∧ i < o + k * B + B := by
  obtain ⟨k, hk, hk'⟩ := exists_block h (⟨i - o, by omega⟩ : Fin T)
  simp only at hk hk'
  exact ⟨k, by omega, by omega⟩

theorem exists_chunk_block (h : nb * B = C) (i : Fin (N * C)) :
    ∃ (n : Fin N) (k : Fin nb), n * C + k * B ≤ i ∧ i.val < n * C + k * B + B := by
  obtain ⟨k, hk, hk'⟩ := exists_block h i.modNat
  have hi : i.divNat.val * C + i.modNat = i := congrArg Fin.val (token_divNat_modNat i)
  exact ⟨i.divNat, k, by omega, by omega⟩

theorem exists_chunk (i : Fin (N * C)) : ∃ n : Fin N, n * C ≤ i ∧ i.val < n * C + C := by
  have hi : i.divNat.val * C + i.modNat = i := congrArg Fin.val (token_divNat_modNat i)
  have := i.modNat.isLt
  exact ⟨i.divNat, by omega, by omega⟩

section Cover

variable {dk dv nv : ℕ}

theorem exists_tile (hb : nb ∣ dk) (hv : nv ∣ dv) (d : Fin dk) (e : Fin dv) :
    ∃ (j : Fin nb) (w : Fin nv),
      InTile (dk / nb) (dv / nv) (j * (dk / nb)) (w * (dv / nv)) d e := by
  obtain ⟨j, hj⟩ := exists_block (Nat.mul_div_cancel' hb) d
  obtain ⟨w, hw⟩ := exists_block (Nat.mul_div_cancel' hv) e
  exact ⟨j, w, hj, hw⟩

theorem exists_chunk_tile (hv : nv ∣ dv) (i : Fin (N * C)) (e : Fin dv) :
    ∃ (n : Fin N) (w : Fin nv), InTile C (dv / nv) (n * C) (w * (dv / nv)) i e := by
  obtain ⟨n, hn⟩ := exists_chunk i
  obtain ⟨w, hw⟩ := exists_block (Nat.mul_div_cancel' hv) e
  exact ⟨n, w, hn, hw⟩

theorem exists_chunk_block_tile (hb : nb ∣ dk) (hv : nv ∣ dv) (i : Fin (N * dk)) (e : Fin dv) :
    ∃ (n : Fin N) (j : Fin nb) (w : Fin nv),
      InTile (dk / nb) (dv / nv) (n * dk + j * (dk / nb)) (w * (dv / nv)) i e := by
  obtain ⟨n, j, hi⟩ := exists_chunk_block (Nat.mul_div_cancel' hb) i
  obtain ⟨w, hw⟩ := exists_block (Nat.mul_div_cancel' hv) e
  exact ⟨n, j, w, hi, hw⟩

theorem exists_chunk_block_column (hb : nb ∣ dk) (i : Fin (N * dk)) (e : Fin 1) :
    ∃ (n : Fin N) (j : Fin nb), InTile (dk / nb) 1 (n * dk + j * (dk / nb)) 0 i e := by
  obtain ⟨n, j, hi⟩ := exists_chunk_block (Nat.mul_div_cancel' hb) i
  exact ⟨n, j, hi, Nat.zero_le _, by omega⟩

end Cover

end Algebra

section Writes

variable {σ : Type*} {v : σ → Matrix (Fin T) (Fin d) R} {F : Matrix (Fin T) (Fin d) R}
  {S S' : Fin T → Fin d → Prop}

/-- The step gives the cells in `S` of the tensor `v` their values in `F`, and every other cell that
has its value keeps it. -/
def Writes (v : σ → Matrix (Fin T) (Fin d) R) (F : Matrix (Fin T) (Fin d) R)
    (S : Fin T → Fin d → Prop) (f : σ → σ) : Prop :=
  ∀ x i j, S i j ∨ v x i j = F i j → v (f x) i j = F i j

theorem Writes.eq {f : σ → σ} (h : Writes v F S f) (hS : ∀ i j, S i j) (x : σ) : v (f x) = F := by
  ext i j
  exact h x i j (.inl (hS i j))

theorem Writes.congr {f g : σ → σ} (h : Writes v F S f) (hg : ∀ x, v (g x) = v (f x)) :
    Writes v F S g := by
  intro x i j hx
  rw [hg]
  exact h x i j hx

theorem writes_tile [Zero R] {f : σ → σ} {r c : ℕ}
    (h : ∀ x, v (f x) = storeTile (loadTile m n F r c) r c (v x)) :
    Writes v F (fun i j => InTile m n r c i j) f := by
  intro x i j hx
  rw [h, storeTile, of_apply]
  split_ifs with hin
  · obtain ⟨hr, hc⟩ := hin
    have hi : r + (i.val - r) = i := by omega
    have hj : c + (j.val - c) = j := by omega
    rw [entry_loadTile F (by omega) (by omega), hi, hj, entry_fin]
  · exact hx.resolve_left hin

theorem writes_storeTile [Zero R] (F : Matrix (Fin T) (Fin d) R) (m n r c : ℕ) :
    Writes id F (fun i j => InTile m n r c i j) (storeTile (loadTile m n F r c) r c) :=
  writes_tile fun _ => rfl

theorem Writes.up {n : ℕ} {f : Fin n → σ → σ} {S : Fin n → Fin T → Fin d → Prop}
    (h : ∀ k, Writes v F (S k) (f k)) : Writes v F (fun i j => ∃ k, S k i j) (Loop.up n f) := by
  intro x i j hx
  apply Loop.up_invariant (f := f)
    (fun m y => ((∃ k : Fin n, k.val < m ∧ S k i j) ∨ v x i j = F i j) → v y i j = F i j)
  · exact fun hy => hy.resolve_left fun ⟨k, hk, _⟩ => absurd hk (Nat.not_lt_zero _)
  · intro k y ih hy
    apply h k y i j
    rcases hy with ⟨k', hk', hS⟩ | hy
    · by_cases he : k' = k
      · exact .inl (he ▸ hS)
      · have hne : k'.val ≠ k := fun hv => he (Fin.ext hv)
        exact .inr (ih (.inl ⟨k', by omega, hS⟩))
    · exact .inr (ih (.inr hy))
  · exact hx.imp_left fun ⟨k, hk⟩ => ⟨k, k.isLt, hk⟩

theorem Writes.loadTile_eq [Zero R] {f : σ → σ} (h : Writes v F S f) {r c : ℕ}
    (hS : ∀ i j, InTile m n r c i.val j.val → S i j) (x : σ) :
    loadTile m n (v (f x)) r c = loadTile m n F r c := by
  ext i j
  rw [loadTile_apply, loadTile_apply]
  by_cases hin : r + i.val < T ∧ c + j.val < d
  · rw [entry_of_lt _ hin.1 hin.2, entry_of_lt _ hin.1 hin.2]
    exact h x _ _ (.inl (hS _ _ ⟨⟨Nat.le_add_right _ _, by simp⟩, Nat.le_add_right _ _, by simp⟩))
  · rw [entry, entry, dif_neg hin, dif_neg hin]

end Writes

end ZeCo
