import Mathlib.Data.Matrix.Basic
import ZeCo.Schedules

namespace ZeCo.Regions

open Matrix Schedules

variable {S R : Type*} {m n m' n' : ℕ}

abbrev Memory (S R : Type*) := S × ℕ → R

structure Region (S : Type*) (m n : ℕ) where
  space : S
  base : ℕ
  row : ℕ
  col : ℕ
  col_pos : 0 < col
  fits : n * col ≤ row

namespace Region

def cell (t : Region S m n) (i : Fin m) (j : Fin n) : S × ℕ :=
  (t.space, t.base + (i * t.row + j * t.col))

def cells (t : Region S m n) : Set (S × ℕ) := {l | ∃ i j, l = t.cell i j}

def stop (t : Region S m n) : ℕ := t.base + m * t.row

def get (t : Region S m n) (s : Memory S R) : Matrix (Fin m) (Fin n) R :=
  of fun i j => s (t.cell i j)

def find [DecidableEq S] (t : Region S m n) (l : S × ℕ) : Option (Fin m × Fin n) :=
  let x := l.2 - t.base
  if h : x / t.row < m ∧ x % t.row / t.col < n then
    if l.1 = t.space ∧ t.base ≤ l.2 ∧ x % t.row % t.col = 0 then some (⟨_, h.1⟩, ⟨_, h.2⟩) else none
  else none

def put [DecidableEq S] (t : Region S m n) (M : Matrix (Fin m) (Fin n) R) (s : Memory S R) :
    Memory S R := fun l =>
  match t.find l with
  | some (i, j) => M i j
  | none => s l

def Apart (t : Region S m n) (u : Region S m' n') : Prop := ∀ l ∈ t.cells, l ∉ u.cells

theorem cell_mem (t : Region S m n) (i : Fin m) (j : Fin n) : t.cell i j ∈ t.cells := ⟨i, j, rfl⟩

theorem offset_lt (t : Region S m n) (j : Fin n) : j * t.col < t.row := by
  have hj : (j.val + 1) * t.col ≤ n * t.col := Nat.mul_le_mul_right _ j.isLt
  have hpos := t.col_pos
  have hfits := t.fits
  rw [Nat.add_mul, Nat.one_mul] at hj
  omega

theorem cell_lt (t : Region S m n) (i : Fin m) (j : Fin n) :
    t.base ≤ (t.cell i j).2 ∧ (t.cell i j).2 < t.stop := by
  have hi : (i.val + 1) * t.row ≤ m * t.row := Nat.mul_le_mul_right _ i.isLt
  have hj := t.offset_lt j
  rw [Nat.add_mul, Nat.one_mul] at hi
  simp only [cell, stop]
  omega

theorem Apart.symm {t : Region S m n} {u : Region S m' n'} (h : t.Apart u) : u.Apart t :=
  fun l hu ht => h l ht hu

theorem apart_of_space {t : Region S m n} {u : Region S m' n'} (h : t.space ≠ u.space) :
    t.Apart u := by
  rintro _ ⟨i, j, rfl⟩ ⟨i', j', hl⟩
  exact h (congrArg Prod.fst hl)

theorem apart_of_stop {t : Region S m n} {u : Region S m' n'} (h : t.stop ≤ u.base) :
    t.Apart u := by
  rintro _ ⟨i, j, rfl⟩ ⟨i', j', hl⟩
  have ht := (t.cell_lt i j).2
  have hu := (u.cell_lt i' j').1
  rw [hl] at ht
  omega

theorem get_congr (t : Region S m n) {s s' : Memory S R} (h : ∀ l ∈ t.cells, s l = s' l) :
    t.get s = t.get s' := by
  ext i j
  exact h _ (t.cell_mem i j)

variable [DecidableEq S]

theorem find_cell (t : Region S m n) (i : Fin m) (j : Fin n) :
    t.find (t.cell i j) = some (i, j) := by
  have hj := t.offset_lt j
  have hx : (t.cell i j).2 - t.base = i * t.row + j * t.col := Nat.add_sub_cancel_left _ _
  have hdiv : (i * t.row + j * t.col) / t.row = i := by
    rw [Nat.mul_comm, Nat.mul_add_div (by omega), Nat.div_eq_of_lt hj, Nat.add_zero]
  have hmod : (i * t.row + j * t.col) % t.row = j * t.col := by
    rw [Nat.mul_comm, Nat.mul_add_mod, Nat.mod_eq_of_lt hj]
  have hcol : j * t.col / t.col = j := Nat.mul_div_cancel _ t.col_pos
  simp only [find, hx, hdiv, hmod, hcol, Nat.mul_mod_left, i.isLt, j.isLt, and_self, dif_pos]
  exact if_pos ⟨rfl, (t.cell_lt i j).1, trivial⟩

theorem cell_of_find (t : Region S m n) {l : S × ℕ} {x : Fin m × Fin n} (h : t.find l = some x) :
    l = t.cell x.1 x.2 := by
  simp only [find] at h
  split_ifs at h with hin hl
  obtain rfl := Option.some.inj h
  obtain ⟨hspace, hbase, hmod⟩ := hl
  have hrow := Nat.div_add_mod' (l.2 - t.base) t.row
  have hcol := Nat.div_add_mod' ((l.2 - t.base) % t.row) t.col
  refine Prod.ext hspace ?_
  simp only [cell]
  omega

theorem put_of_notMem (t : Region S m n) (M : Matrix (Fin m) (Fin n) R) (s : Memory S R)
    {l : S × ℕ} (h : l ∉ t.cells) : t.put M s l = s l := by
  rw [put]
  cases hf : t.find l with
  | none => rfl
  | some x => exact absurd ⟨_, _, t.cell_of_find hf⟩ h

theorem put_cell (t : Region S m n) (M : Matrix (Fin m) (Fin n) R) (s : Memory S R) (i : Fin m)
    (j : Fin n) : t.put M s (t.cell i j) = M i j := by
  rw [put, find_cell]

@[simp] theorem get_put (t : Region S m n) (M : Matrix (Fin m) (Fin n) R) (s : Memory S R) :
    t.get (t.put M s) = M := by
  ext i j
  exact t.put_cell M s i j

theorem get_put_apart {t : Region S m n} {u : Region S m' n'} (h : u.Apart t)
    (M : Matrix (Fin m) (Fin n) R) (s : Memory S R) : u.get (t.put M s) = u.get s :=
  u.get_congr fun l hl => t.put_of_notMem M s (h l hl)

end Region

open Region

/-- What an instruction does to the memory, with the words that it reads and writes. -/
structure Access (S R : Type*) where
  run : Memory S R → Memory S R
  reads : Set (S × ℕ)
  writes : Set (S × ℕ)
  footprint : Footprint run reads writes

namespace Access

theorem commute {x y : Access S R} (hxy : ∀ l ∈ x.writes, l ∉ y.reads ∧ l ∉ y.writes)
    (hyx : ∀ l ∈ y.writes, l ∉ x.reads) : Function.Commute x.run y.run :=
  x.footprint.commute y.footprint hxy hyx

def Avoids (x : Access S R) (t : Region S m n) : Prop := ∀ l ∈ t.cells, l ∉ x.reads ∧ l ∉ x.writes

def Spares (x : Access S R) (t : Region S m n) : Prop := ∀ l ∈ t.cells, l ∉ x.writes

theorem Spares.get_run {x : Access S R} {t : Region S m n} (h : x.Spares t) (s : Memory S R) :
    t.get (x.run s) = t.get s :=
  t.get_congr fun l hl => x.footprint.frame s l (h l hl)

def skip : Access S R :=
  ⟨id, ∅, ∅, fun _ _ _ => rfl, fun _ _ _ _ h => absurd h (Set.notMem_empty _)⟩

theorem skip_avoids (t : Region S m n) : (skip : Access S R).Avoids t :=
  fun l _ => ⟨Set.notMem_empty l, Set.notMem_empty l⟩

def seq (x y : Access S R) : Access S R :=
  ⟨y.run ∘ x.run, x.reads ∪ y.reads, x.writes ∪ y.writes, x.footprint.comp y.footprint⟩

theorem seq_run (x y : Access S R) (s : Memory S R) : (x.seq y).run s = y.run (x.run s) := by
  rw [seq]
  rfl

theorem seq_avoids {x y : Access S R} {t : Region S m n} (hx : x.Avoids t) (hy : y.Avoids t) :
    (x.seq y).Avoids t :=
  fun l hl => ⟨fun h => h.elim (hx l hl).1 (hy l hl).1, fun h => h.elim (hx l hl).2 (hy l hl).2⟩

variable [DecidableEq S]

def write (dst : Region S m n) (reads : Set (S × ℕ))
    (f : Memory S R → Matrix (Fin m) (Fin n) R)
    (hf : ∀ s s', (∀ l ∈ reads, s l = s' l) → f s = f s') : Access S R where
  run s := dst.put (f s) s
  reads := reads
  writes := dst.cells
  footprint := by
    constructor
    · intro s l hl
      exact dst.put_of_notMem _ s hl
    · rintro s s' hs _ ⟨i, j, rfl⟩
      rw [put_cell, put_cell, hf s s' hs]

def fill (dst : Region S m n) (M : Matrix (Fin m) (Fin n) R) : Access S R :=
  write dst ∅ (fun _ => M) fun _ _ _ => rfl

def map (dst : Region S m n) (a : Region S m' n')
    (f : Matrix (Fin m') (Fin n') R → Matrix (Fin m) (Fin n) R) : Access S R :=
  write dst a.cells (fun s => f (a.get s)) fun _ _ h => congrArg f (a.get_congr h)

def zip {k l : ℕ} (dst : Region S m n) (a : Region S m' n') (b : Region S k l)
    (f : Matrix (Fin m') (Fin n') R → Matrix (Fin k) (Fin l) R → Matrix (Fin m) (Fin n) R) :
    Access S R :=
  write dst (a.cells ∪ b.cells) (fun s => f (a.get s) (b.get s)) fun _ _ h => by
    rw [a.get_congr fun l hl => h l (.inl hl), b.get_congr fun l hl => h l (.inr hl)]

section Avoids

variable {k l : ℕ} {t : Region S k l} {dst : Region S m n}

theorem fill_avoids (h : t.Apart dst) (M : Matrix (Fin m) (Fin n) R) : (fill dst M).Avoids t :=
  fun x hx => ⟨Set.notMem_empty x, h x hx⟩

theorem map_avoids {a : Region S m' n'} (h : t.Apart dst) (ha : t.Apart a)
    (f : Matrix (Fin m') (Fin n') R → Matrix (Fin m) (Fin n) R) : (map dst a f).Avoids t :=
  fun x hx => ⟨ha x hx, h x hx⟩

theorem zip_avoids {k' l' : ℕ} {a : Region S m' n'} {b : Region S k' l'} (h : t.Apart dst)
    (ha : t.Apart a) (hb : t.Apart b)
    (f : Matrix (Fin m') (Fin n') R → Matrix (Fin k') (Fin l') R → Matrix (Fin m) (Fin n) R) :
    (zip dst a b f).Avoids t :=
  fun x hx => ⟨fun hr => hr.elim (ha x hx) (hb x hx), h x hx⟩

theorem Avoids.commute_fill {x : Access S R} (h : x.Avoids t) (M : Matrix (Fin k) (Fin l) R) :
    Function.Commute x.run (fill t M).run :=
  (commute (x := fill t M) h fun y _ => Set.notMem_empty y).symm

end Avoids

theorem map_commute_map {k l k' l' : ℕ} {dst : Region S m n} {a : Region S m' n'}
    {dst' : Region S k l} {a' : Region S k' l'}
    {f : Matrix (Fin m') (Fin n') R → Matrix (Fin m) (Fin n) R}
    {g : Matrix (Fin k') (Fin l') R → Matrix (Fin k) (Fin l) R} (h : dst.Apart dst')
    (ha' : dst.Apart a') (ha : dst'.Apart a) :
    Function.Commute (map dst a f).run (map dst' a' g).run :=
  commute (fun x hx => ⟨ha' x hx, h x hx⟩) ha

theorem map_commute_fill {k l : ℕ} {dst : Region S m n} {a : Region S m' n'} {dst' : Region S k l}
    {f : Matrix (Fin m') (Fin n') R → Matrix (Fin m) (Fin n) R} {M : Matrix (Fin k) (Fin l) R}
    (h : dst.Apart dst') (ha : dst'.Apart a) :
    Function.Commute (map dst a f).run (fill dst' M).run :=
  commute (fun x hx => ⟨Set.notMem_empty x, h x hx⟩) ha

theorem zip_commute_map {k l k' l' p q : ℕ} {dst : Region S m n} {a : Region S m' n'}
    {b : Region S p q} {dst' : Region S k l} {a' : Region S k' l'}
    {f : Matrix (Fin m') (Fin n') R → Matrix (Fin p) (Fin q) R → Matrix (Fin m) (Fin n) R}
    {g : Matrix (Fin k') (Fin l') R → Matrix (Fin k) (Fin l) R} (h : dst.Apart dst')
    (ha' : dst.Apart a') (ha : dst'.Apart a) (hb : dst'.Apart b) :
    Function.Commute (zip dst a b f).run (map dst' a' g).run :=
  commute (fun x hx => ⟨ha' x hx, h x hx⟩) fun x hx hr => hr.elim (ha x hx) (hb x hx)
end Access

end ZeCo.Regions
