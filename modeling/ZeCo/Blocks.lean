import ZeCo.Tensor

namespace ZeCo

open Matrix

variable {R : Type*} {T B d : ℕ}

def block [Zero R] (B : ℕ) (X : Matrix (Fin T) (Fin d) R) (k : ℕ) : Matrix (Fin B) (Fin d) R :=
  of fun i j => stream X (k * B + i) j

def blockCol [Zero R] (B : ℕ) (x : Fin T → R) (k : ℕ) : Fin B → R := fun i =>
  if h : k * B + i < T then x ⟨k * B + i, h⟩ else 0

def setBlock (X : Matrix (Fin T) (Fin d) R) (k : ℕ) (M : Matrix (Fin B) (Fin d) R) :
    Matrix (Fin T) (Fin d) R :=
  of fun t j => if h : k * B ≤ t.val ∧ t.val < k * B + B then M ⟨t - k * B, by omega⟩ j else X t j

def setBlockCol (x : Fin T → R) (k : ℕ) (y : Fin B → R) : Fin T → R := fun t =>
  if h : k * B ≤ t.val ∧ t.val < k * B + B then y ⟨t - k * B, by omega⟩ else x t

def InBlock (B k t : ℕ) : Prop := k * B ≤ t ∧ t < k * B + B

instance (B k t : ℕ) : Decidable (InBlock B k t) := inferInstanceAs (Decidable (_ ∧ _))

theorem radix_inj {n a b r s : ℕ} (hr : r < n) (hs : s < n) (h : a * n + r = b * n + s) :
    a = b ∧ r = s := by
  have hn : 0 < n := by omega
  have hq := congrArg (· / n) h
  have hm := congrArg (· % n) h
  simp only [Nat.mul_comm a n, Nat.mul_comm b n, Nat.mul_add_div hn, Nat.mul_add_mod,
    Nat.div_eq_of_lt hr, Nat.div_eq_of_lt hs, Nat.mod_eq_of_lt hr, Nat.mod_eq_of_lt hs] at hq hm
  exact ⟨by omega, hm⟩

theorem block_apply [Zero R] (X : Matrix (Fin T) (Fin d) R) (k : ℕ) (i : Fin B) (j : Fin d) :
    block B X k i j = stream X (k * B + i) j := rfl

theorem block_add [AddMonoid R] (X Y : Matrix (Fin T) (Fin d) R) (k : ℕ) :
    block B (X + Y) k = block B X k + block B Y k := by
  ext i j
  simp only [block_apply, Matrix.add_apply, stream]
  split_ifs <;> simp

theorem block_zero [Zero R] (k : ℕ) : block B (0 : Matrix (Fin T) (Fin d) R) k = 0 := by
  ext i j
  simp [block_apply, stream]

theorem block_rowScale [MulZeroClass R] (x : Fin T → R) (X : Matrix (Fin T) (Fin d) R) (k : ℕ) :
    block B (rowScale x X) k = rowScale (blockCol B x k) (block B X k) := by
  ext i j
  simp only [block_apply, rowScale_apply, stream, blockCol]
  split_ifs <;> simp

theorem block_hadamard [MulZeroClass R] (X Y : Matrix (Fin T) (Fin d) R) (k : ℕ) :
    block B (X ⊙ Y) k = block B X k ⊙ block B Y k := by
  ext i j
  simp only [block_apply, hadamard_apply, stream]
  split_ifs <;> simp

theorem blockCol_rowSum [AddCommMonoid R] (X : Matrix (Fin T) (Fin d) R) (k : ℕ) :
    blockCol B (rowSum X) k = rowSum (block B X k) := by
  funext i
  simp only [blockCol, rowSum_apply, block_apply, stream]
  split_ifs <;> simp

theorem eq_of_blocks {α : Type*} {K k : ℕ} (hdvd : K ∣ T) (hk : k = K) {x y : Fin T → α}
    (h : ∀ t : Fin T, t.val < k * (T / K) → x t = y t) : x = y := by
  funext t
  apply h
  rw [hk, Nat.mul_div_cancel' hdvd]
  exact t.isLt

theorem setBlock_rows [Zero R] {X Y : Matrix (Fin T) (Fin d) R} {k : ℕ}
    (h : ∀ t : Fin T, t.val < k * B → X t = Y t) (t : Fin T) (ht : t.val < (k + 1) * B) :
    setBlock X k (block B Y k) t = Y t := by
  have hs : (k + 1) * B = k * B + B := by rw [Nat.add_mul, Nat.one_mul]
  rw [hs] at ht
  funext j
  by_cases hk : k * B ≤ t.val
  · have hv : k * B + (t.val - k * B) = t.val := by omega
    simp only [setBlock, of_apply, dif_pos (And.intro hk ht), block_apply, hv, stream_fin]
  · simp only [setBlock, of_apply, hk, false_and, dite_false]
    exact congrFun (h t (by omega)) j

theorem setBlockCol_rows [Zero R] {x y : Fin T → R} {k : ℕ}
    (h : ∀ t : Fin T, t.val < k * B → x t = y t) (t : Fin T) (ht : t.val < (k + 1) * B) :
    setBlockCol x k (blockCol B y k) t = y t := by
  have hs : (k + 1) * B = k * B + B := by rw [Nat.add_mul, Nat.one_mul]
  rw [hs] at ht
  by_cases hk : k * B ≤ t.val
  · have hv : k * B + (t.val - k * B) = t.val := by omega
    have hlt := t.isLt
    simp only [setBlockCol, dif_pos (And.intro hk ht), blockCol, hv, dif_pos hlt]
  · simp only [setBlockCol, hk, false_and, dite_false]
    exact h t (by omega)

theorem setBlock_block [Zero R] (X Y : Matrix (Fin T) (Fin d) R) (k : ℕ) (t : Fin T) :
    setBlock X k (block B Y k) t = if InBlock B k t then Y t else X t := by
  funext j
  by_cases ht : k * B ≤ t.val ∧ t.val < k * B + B
  · have hv : k * B + (t.val - k * B) = t.val := by omega
    rw [if_pos (show InBlock B k t from ht)]
    simp only [setBlock, of_apply, dif_pos ht, block_apply, hv, stream_fin]
  · rw [if_neg (show ¬ InBlock B k t from ht)]
    simp only [setBlock, of_apply, dif_neg ht]

theorem setBlockCol_block [Zero R] (x y : Fin T → R) (k : ℕ) (t : Fin T) :
    setBlockCol x k (blockCol B y k) t = if InBlock B k t then y t else x t := by
  by_cases ht : k * B ≤ t.val ∧ t.val < k * B + B
  · have hv : k * B + (t.val - k * B) = t.val := by omega
    have hlt := t.isLt
    rw [if_pos (show InBlock B k t from ht)]
    simp only [setBlockCol, dif_pos ht, blockCol, hv, dif_pos hlt]
  · rw [if_neg (show ¬ InBlock B k t from ht)]
    simp only [setBlockCol, dif_neg ht]

theorem exists_inBlock {K : ℕ} (hdvd : K ∣ T) (t : Fin T) : ∃ k < K, InBlock (T / K) k t := by
  have hT := t.isLt
  have hmul : K * (T / K) = T := Nat.mul_div_cancel' hdvd
  have hB : 0 < T / K := by
    rcases Nat.eq_zero_or_pos (T / K) with h | h
    · rw [h, Nat.mul_zero] at hmul
      omega
    · exact h
  have hlo : t.val / (T / K) * (T / K) ≤ t.val := Nat.div_mul_le_self _ _
  have hhi : t.val < t.val / (T / K) * (T / K) + T / K := Nat.lt_div_mul_add hB
  exact ⟨t.val / (T / K), Nat.div_lt_of_lt_mul (by rwa [Nat.mul_comm, hmul]), hlo, hhi⟩

end ZeCo
