import Mathlib.Data.Matrix.Mul
import Mathlib.Data.Matrix.Basic
import Mathlib.LinearAlgebra.Matrix.Hadamard
import Mathlib.LinearAlgebra.Matrix.RowCol
import Mathlib.Logic.Equiv.Fin.Basic
import Mathlib.Algebra.BigOperators.Fin
import ZeCo.Loop
import ZeCo.Recurrence

/-!
The tensor operations the sources use, over matrices with their shapes in the type. A `[P, dk, 1]`
tensor is a family of vectors: its last axis only serves to broadcast. `rowScale x S` is
`x.unsqueeze(1) * S`, `rowSum` and `colSum` are `sum(dim=1)` and `sum(dim=0)`, `everyRow` repeats a
vector in every row, `lastRow` and `addLastRow` are `X[-1]` and `X[-1] += x`, `chunk`, `setChunk`
and `addChunk` read, write and add to `X[n * C:(n + 1) * C]`, and `flattenSeq` is
`X.reshape(P * L, d)`.
-/

namespace ZeCo

open Matrix Finset

variable {R : Type*} {m n P N L C T d : ℕ}

def rowScale [Mul R] (x : Fin m → R) (S : Matrix (Fin m) (Fin n) R) : Matrix (Fin m) (Fin n) R :=
  of fun i j => x i * S i j

def rowSum [AddCommMonoid R] (S : Matrix (Fin m) (Fin n) R) : Fin m → R := fun i => ∑ j, S i j

def colSum [AddCommMonoid R] (S : Matrix (Fin m) (Fin n) R) : Fin n → R := fun j => ∑ i, S i j

def quotient [Div R] (X Y : Matrix (Fin m) (Fin n) R) : Matrix (Fin m) (Fin n) R :=
  of fun i j => X i j / Y i j

def everyRow (m : ℕ) (x : Fin n → R) : Matrix (Fin m) (Fin n) R := of fun _ j => x j

def cumprod [CommMonoid R] (a : Matrix (Fin C) (Fin d) R) : Matrix (Fin C) (Fin d) R :=
  of fun t j => ∏ s : Fin (t + 1), a (s.castLE t.isLt) j

def cumsum [AddCommMonoid R] (a : Matrix (Fin C) (Fin d) R) : Matrix (Fin C) (Fin d) R :=
  of fun t j => ∑ s : Fin (t + 1), a (s.castLE t.isLt) j

def flipRows (X : Matrix (Fin C) (Fin d) R) : Matrix (Fin C) (Fin d) R := of fun t => X t.rev

def tril [Zero R] [One R] (C : ℕ) : Matrix (Fin C) (Fin C) R := of fun t s => if s ≤ t then 1 else 0

def triu [Zero R] [One R] (C : ℕ) : Matrix (Fin C) (Fin C) R := of fun t s => if t ≤ s then 1 else 0

def lastIndex (h : 0 < T) : Fin T := ⟨T - 1, by omega⟩

def lastRow [Zero R] (X : Matrix (Fin C) (Fin d) R) : Fin d → R := fun j =>
  if h : 0 < C then X (lastIndex h) j else 0

def addLastRow [Add R] (X : Matrix (Fin C) (Fin d) R) (x : Fin d → R) : Matrix (Fin C) (Fin d) R :=
  of fun t j => if t.val + 1 = C then X t j + x j else X t j

theorem part_end_le (p : Fin P) (L : ℕ) : p * L + L ≤ P * L := by
  rw [← Nat.succ_mul]
  exact Nat.mul_le_mul_right L p.isLt

theorem pred_lt (t : Fin T) : t.val - 1 < T := (Nat.sub_le t 1).trans_lt t.isLt

def token (p : Fin P) (l : Fin L) : Fin (P * L) :=
  ⟨p * L + l, by
    have h := part_end_le p L
    have := l.isLt
    omega⟩

def chunk (X : Matrix (Fin (N * C)) (Fin d) R) (n : Fin N) : Matrix (Fin C) (Fin d) R :=
  of fun t => X (token n t)

def setChunk (X : Matrix (Fin (N * C)) (Fin d) R) (n : Fin N) (M : Matrix (Fin C) (Fin d) R) :
    Matrix (Fin (N * C)) (Fin d) R :=
  of fun l => if l.divNat = n then M l.modNat else X l

def addChunk [Add R] (X : Matrix (Fin (N * C)) (Fin d) R) (n : Fin N)
    (M : Matrix (Fin C) (Fin d) R) : Matrix (Fin (N * C)) (Fin d) R :=
  setChunk X n (chunk X n + M)

def flattenSeq (X : Fin P → Matrix (Fin L) (Fin d) R) : Matrix (Fin (P * L)) (Fin d) R :=
  of fun t => X t.divNat t.modNat

def stream [Zero R] (X : Matrix (Fin T) (Fin d) R) (t : ℕ) (j : Fin d) : R :=
  if h : t < T then X ⟨t, h⟩ j else 0

@[simp] theorem rowScale_apply [Mul R] (x : Fin m → R) (S : Matrix (Fin m) (Fin n) R) (i : Fin m)
    (j : Fin n) : rowScale x S i j = x i * S i j := rfl

theorem rowScale_zero [MulZeroClass R] (x : Fin m → R) :
    rowScale x (0 : Matrix (Fin m) (Fin n) R) = 0 := by
  ext i j
  exact mul_zero (x i)

@[simp] theorem rowSum_apply [AddCommMonoid R] (S : Matrix (Fin m) (Fin n) R) (i : Fin m) :
    rowSum S i = ∑ j, S i j := rfl

@[simp] theorem colSum_apply [AddCommMonoid R] (S : Matrix (Fin m) (Fin n) R) (j : Fin n) :
    colSum S j = ∑ i, S i j := rfl

@[simp] theorem quotient_apply [Div R] (X Y : Matrix (Fin m) (Fin n) R) (i : Fin m) (j : Fin n) :
    quotient X Y i j = X i j / Y i j := rfl

@[simp] theorem everyRow_apply (x : Fin n → R) (i : Fin m) (j : Fin n) :
    everyRow m x i j = x j := rfl

@[simp] theorem flipRows_apply (X : Matrix (Fin C) (Fin d) R) (t : Fin C) (j : Fin d) :
    flipRows X t j = X t.rev j := rfl

@[simp] theorem tril_apply [Zero R] [One R] (t s : Fin C) :
    (tril C : Matrix (Fin C) (Fin C) R) t s = if s ≤ t then 1 else 0 := rfl

@[simp] theorem triu_apply [Zero R] [One R] (t s : Fin C) :
    (triu C : Matrix (Fin C) (Fin C) R) t s = if t ≤ s then 1 else 0 := rfl

theorem stream_fin [Zero R] (X : Matrix (Fin T) (Fin d) R) (t : Fin T) (j : Fin d) :
    stream X t j = X t j := by simp [stream]

theorem stream_of_lt [Zero R] (X : Matrix (Fin T) (Fin d) R) {t : ℕ} (h : t < T) (j : Fin d) :
    stream X t j = X ⟨t, h⟩ j := by simp [stream, h]

theorem token_eq (p : Fin P) (l : Fin L) : token p l = finProdFinEquiv (p, l) :=
  Fin.ext (by simp [token, add_comm, mul_comm])

@[simp] theorem token_divNat (p : Fin P) (l : Fin L) : (token p l).divNat = p := by
  rw [token_eq]
  exact congrArg Prod.fst (finProdFinEquiv.symm_apply_apply (p, l))

@[simp] theorem token_modNat (p : Fin P) (l : Fin L) : (token p l).modNat = l := by
  rw [token_eq]
  exact congrArg Prod.snd (finProdFinEquiv.symm_apply_apply (p, l))

@[simp] theorem token_divNat_modNat (t : Fin (P * L)) : token t.divNat t.modNat = t := by
  rw [token_eq]
  exact finProdFinEquiv.apply_symm_apply t

theorem chunk_apply [Zero R] (X : Matrix (Fin (N * C)) (Fin d) R) (n : Fin N) (t : Fin C)
    (j : Fin d) : chunk X n t j = stream X (n * C + t) j :=
  (stream_fin X (token n t) j).symm

theorem stream_chunk [Zero R] (X : Matrix (Fin (N * C)) (Fin d) R) (n : Fin N) {t : ℕ} (h : t < C)
    (j : Fin d) : stream (chunk X n) t j = stream X (n * C + t) j := by
  rw [stream_of_lt _ h, chunk_apply]

theorem flattenSeq_apply (X : Fin P → Matrix (Fin L) (Fin d) R) (p : Fin P) (l : Fin L) :
    flattenSeq X (token p l) = X p l := by
  funext j
  simp only [flattenSeq, of_apply, token_divNat, token_modNat]

theorem chunk_flattenSeq (X : Fin P → Matrix (Fin L) (Fin d) R) (p : Fin P) :
    chunk (flattenSeq X) p = X p := funext (flattenSeq_apply X p)

theorem stream_flattenSeq [Zero R] (X : Fin P → Matrix (Fin L) (Fin d) R) (p : Fin P) {l : ℕ}
    (h : l < L) (j : Fin d) : stream (flattenSeq X) (p * L + l) j = stream (X p) l j := by
  rw [stream_of_lt _ h, ← flattenSeq_apply X p ⟨l, h⟩]
  exact stream_fin (flattenSeq X) (token p ⟨l, h⟩) j

@[simp] theorem setChunk_self (X : Matrix (Fin (N * C)) (Fin d) R) (n : Fin N)
    (M : Matrix (Fin C) (Fin d) R) : chunk (setChunk X n M) n = M := by
  ext t j
  simp only [chunk, setChunk, of_apply, token_divNat, token_modNat, if_true]

theorem setChunk_ne (X : Matrix (Fin (N * C)) (Fin d) R) {n k : Fin N} (h : k ≠ n)
    (M : Matrix (Fin C) (Fin d) R) : chunk (setChunk X n M) k = chunk X k := by
  ext t j
  simp only [chunk, setChunk, of_apply, token_divNat, h, if_false]

theorem written_chunk {n : Fin N} {X : Matrix (Fin (N * C)) (Fin d) R}
    (value : Fin N → Matrix (Fin C) (Fin d) R)
    (before : ∀ i : Fin N, i.val < n → chunk X i = value i) :
    ∀ i : Fin N, i.val < n.val + 1 → chunk (setChunk X n (value n)) i = value i := by
  intro i hi
  by_cases h : i = n
  · subst h
    exact setChunk_self _ _ _
  · have hne : i.val ≠ n := fun he => h (Fin.ext he)
    rw [setChunk_ne _ h]
    exact before i (by omega)

theorem up_setChunk (value : Fin N → Matrix (Fin C) (Fin d) R) (X : Matrix (Fin (N * C)) (Fin d) R)
    (n : Fin N) : chunk (Loop.up N (fun n X => setChunk X n (value n)) X) n = value n := by
  have key := Loop.up_invariant (f := fun n X => setChunk X n (value n)) (s := X)
    (fun m X => ∀ i : Fin N, i.val < m → chunk X i = value i)
    (fun i hi => absurd hi (Nat.not_lt_zero _)) fun _ _ => written_chunk value
  exact key n n.isLt

theorem row_eq_chunk (X : Matrix (Fin (N * C)) (Fin d) R) (l : Fin (N * C)) :
    X l = chunk X l.divNat l.modNat := congrArg X (token_divNat_modNat l).symm

@[simp] theorem addChunk_self [Add R] (X : Matrix (Fin (N * C)) (Fin d) R) (n : Fin N)
    (M : Matrix (Fin C) (Fin d) R) : chunk (addChunk X n M) n = chunk X n + M := setChunk_self _ _ _

theorem addChunk_ne [Add R] (X : Matrix (Fin (N * C)) (Fin d) R) {n k : Fin N} (h : k ≠ n)
    (M : Matrix (Fin C) (Fin d) R) : chunk (addChunk X n M) k = chunk X k := setChunk_ne _ h _

theorem addChunk_accumulates [Add R] {X : Matrix (Fin (N * C)) (Fin d) R}
    {base part : Fin N → Matrix (Fin C) (Fin d) R} {done done' : Fin N → Prop} [DecidablePred done]
    [DecidablePred done'] {n : Fin N}
    (h : ∀ i, chunk X i = if done i then base i + part i else base i) (hn : ¬ done n)
    (hn' : done' n) (hd : ∀ i ≠ n, done' i ↔ done i) (i : Fin N) :
    chunk (addChunk X n (part n)) i = if done' i then base i + part i else base i := by
  by_cases hi : i = n
  · subst hi
    rw [addChunk_self, h, if_neg hn, if_pos hn']
  · rw [addChunk_ne _ hi, h]
    exact if_congr (hd i hi).symm rfl rfl

theorem sum_fin_le [AddCommMonoid R] (f : ℕ → R) (t : Fin C) :
    ∑ s : Fin C, (if s ≤ t then f s else 0) = ∑ s ∈ range (t + 1), f s := by
  simp only [Fin.le_def]
  rw [Fin.sum_univ_eq_sum_range (fun s => if s ≤ t.val then f s else 0) C, ← sum_filter]
  apply sum_congr _ fun _ _ => rfl
  ext s
  have := t.isLt
  simp only [mem_filter, mem_range]
  omega

theorem sum_fin_ge [AddCommMonoid R] (f : ℕ → R) (t : Fin C) :
    ∑ s : Fin C, (if t ≤ s then f s else 0) = ∑ s ∈ Ico t.val C, f s := by
  simp only [Fin.le_def]
  rw [Fin.sum_univ_eq_sum_range (fun s => if t.val ≤ s then f s else 0) C, ← sum_filter]
  apply sum_congr _ fun _ _ => rfl
  ext s
  simp only [mem_filter, mem_range, mem_Ico]
  omega

theorem cumprod_apply [CommRing R] (a : Matrix (Fin C) (Fin d) R) (t : Fin C) (j : Fin d) :
    cumprod a t j = Recurrence.decay (fun s => stream a s j) 0 (t + 1) := by
  simp only [cumprod, of_apply, Recurrence.decay, Nat.zero_add]
  rw [← Fin.prod_univ_eq_prod_range (fun s => stream a s j)]
  apply prod_congr rfl
  intro s _
  exact (stream_of_lt a (by have := t.isLt; omega) j).symm

theorem flipRows_cumsum_flipRows [AddCommMonoid R] (X : Matrix (Fin C) (Fin d) R) (t : Fin C)
    (j : Fin d) : flipRows (cumsum (flipRows X)) t j = ∑ s ∈ Ico t.val C, stream X s j := by
  simp only [flipRows_apply, cumsum, of_apply]
  have hs (s : Fin (t.rev.val + 1)) :
      X (s.castLE t.rev.isLt).rev j = stream X (C - 1 - s.val) j := by
    rw [← stream_fin X]
    simp [Fin.val_rev, Nat.sub_sub, add_comm]
  simp only [hs]
  rw [Fin.sum_univ_eq_sum_range (fun s => stream X (C - 1 - s) j), sum_Ico_eq_sum_range,
    ← sum_range_reflect, Fin.val_rev]
  have ht := t.isLt
  have hc : C - (t.val + 1) + 1 = C - t.val := by omega
  rw [hc]
  apply sum_congr rfl
  intro s hs
  refine congrArg (fun i => stream X i j) ?_
  have := mem_range.mp hs
  omega

theorem flipRows_cumsum_addLastRow [AddCommMonoid R] (X : Matrix (Fin C) (Fin d) R)
    (x : Fin d → R) : flipRows (cumsum (flipRows (addLastRow X x))) =
      flipRows (cumsum (flipRows X)) + everyRow C x := by
  ext t j
  have ht := t.isLt
  have hlast : C - 1 ∈ Ico t.val C := mem_Ico.mpr ⟨by omega, by omega⟩
  have hs : ∀ s ∈ Ico t.val C, stream (addLastRow X x) s j =
      stream X s j + if s = C - 1 then x j else 0 := fun s hs => by
    have hsC := (mem_Ico.mp hs).2
    rw [stream_of_lt _ hsC, stream_of_lt X hsC, addLastRow, of_apply]
    by_cases h : s = C - 1
    · rw [if_pos (by simp only; omega), if_pos h]
    · rw [if_neg (by simp only; omega), if_neg h, add_zero]
  rw [Matrix.add_apply, everyRow_apply, flipRows_cumsum_flipRows, flipRows_cumsum_flipRows,
    sum_congr rfl hs, sum_add_distrib, sum_ite_eq', if_pos hlast]

theorem triu_mul [Semiring R] (X : Matrix (Fin C) (Fin d) R) :
    (triu C : Matrix (Fin C) (Fin C) R) * X = flipRows (cumsum (flipRows X)) := by
  ext t j
  rw [flipRows_cumsum_flipRows, ← sum_fin_ge, mul_apply]
  apply sum_congr rfl
  intro s _
  rw [triu_apply, stream_fin]
  split_ifs <;> simp

end ZeCo
