import ZeCo.PipeOrder
import ZeCo.Regions
import ZeCo.SimplerKernels

/-!
The compute kernels of the simpler runtime, instruction by instruction, on the pipes and the tile
buffers of one core. `TASSIGN` gives a tile a byte address, so two tiles can share their words. A
tile keeps its matrix by rows, whatever its block layout, and `TRESHAPE` reads it transposed. The
closing `pipe_sync` is the end of a run: every instruction is done.
-/

namespace ZeCo.SimplerTiles

open Matrix Pipes Regions Regions.Region

inductive Pipe
  | s
  | mte2
  | mte1
  | m
  | fix
  | v
  | mte3
  | copy
  deriving DecidableEq

inductive Bank
  | ub
  | l1
  | l0a
  | l0b
  | l0c
  deriving DecidableEq

/-- `gm i` holds the tensor that argument `i` points to. -/
inductive Space
  | core (bank : Bank)
  | gm (arg : ℕ)
  deriving DecidableEq

abbrev Code (R : Type*) := List (Instr Pipe ℕ (Access Space R))

def aiCore (serial : Pipe → Bool) (depth : ℕ) : Core Pipe := ⟨.s, serial, depth + 1, Nat.succ_pos _⟩

def tile (bank : Bank) (addr r c : ℕ) : Region Space r c :=
  ⟨.core bank, addr, c * 4, 4, Nat.succ_pos _, le_rfl⟩

def globalAt (arg off r c : ℕ) : Region Space r c :=
  ⟨.gm arg, off, c, 1, Nat.one_pos, (Nat.mul_one c).le⟩

def partTile (addr cap r c : ℕ) (h : c ≤ cap) : Region Space r c :=
  ⟨.core .ub, addr, cap * 4, 4, Nat.succ_pos _, Nat.mul_le_mul_right 4 h⟩

abbrev global (arg r c : ℕ) : Region Space r c := globalAt arg 0 r c

abbrev only : Fin 1 := ⟨0, Nat.one_pos⟩

section Instructions

variable {R : Type*} {m n m' n' k l : ℕ}

def tload (dst : Region Space m n) (src : Region Space m n) :
    Instr Pipe ℕ (Access Space R) := .op .mte2 .mte2 (.map dst src id)

def tstore (dst : Region Space m n) (src : Region Space m n) :
    Instr Pipe ℕ (Access Space R) := .op .mte3 .mte3 (.map dst src id)

def tstoreAcc (dst : Region Space m n) (src : Region Space m n) :
    Instr Pipe ℕ (Access Space R) := .op .fix .fix (.map dst src id)

def textract (dst : Region Space m n) (src : Region Space m' n')
    (f : Matrix (Fin m') (Fin n') R → Matrix (Fin m) (Fin n) R) :
    Instr Pipe ℕ (Access Space R) := .op .mte1 .mte1 (.map dst src f)

def tmatmul [Semiring R] (dst : Region Space m n) (a : Region Space m k) (b : Region Space k n) :
    Instr Pipe ℕ (Access Space R) := .op .m .m (.zip dst a b fun x y => x * y)

def vmap (dst : Region Space m n) (src : Region Space m' n')
    (f : Matrix (Fin m') (Fin n') R → Matrix (Fin m) (Fin n) R) :
    Instr Pipe ℕ (Access Space R) := .op .v .v (.map dst src f)

def vzip (dst : Region Space m n) (a : Region Space m' n') (b : Region Space k l)
    (f : Matrix (Fin m') (Fin n') R → Matrix (Fin k) (Fin l) R → Matrix (Fin m) (Fin n) R) :
    Instr Pipe ℕ (Access Space R) := .op .v .v (.zip dst a b f)

def texpands (dst : Region Space m n) (x : R) : Instr Pipe ℕ (Access Space R) :=
  .op .v .v (.fill dst (of fun _ _ => x))

/-- It is queued on the vector pipe and lowers to a copy, which no barrier for one pipe awaits. -/
def tcolexpand (dst : Region Space m n) (src : Region Space 1 n) :
    Instr Pipe ℕ (Access Space R) := .op .v .copy (.map dst src fun x => everyRow m (x only))

end Instructions

section Kernels

variable {R : Type*} [Ring R] (exp : R → R)

def elt (mode r c : ℕ) : Code R :=
  let aT := tile .ub 0x0 r c
  let bT := tile .ub (r * c * 4) r c
  [tload aT (global 0 r c),
    tload bT (global 1 r c),
    .setFlag .mte2 .v 0,
    .waitFlag .mte2 .v 0,
    vzip aT aT bT fun x y => if mode = 1 then x + y else x ⊙ y,
    .barrier .v,
    .setFlag .v .mte3 0,
    .waitFlag .v .mte3 0,
    tstore (global 2 r c) aT]

def chunkOPrep (C K : ℕ) : Code R :=
  let gT := tile .ub 0x0 C K
  let eT := tile .ub (C * K * 4) C K
  let xT := tile .ub (2 * C * K * 4) C K
  [tload gT (global 2 C K),
    .setFlag .mte2 .v 0,
    .waitFlag .mte2 .v 0,
    vmap eT gT fun x => x.map exp,
    .barrier .v,
    tload xT (global 0 C K),
    .setFlag .mte2 .v 0,
    .waitFlag .mte2 .v 0,
    vzip xT xT eT fun x y => x ⊙ y,
    .barrier .v,
    .setFlag .v .mte3 0,
    .waitFlag .v .mte3 0,
    tstore (global 3 C K) xT,
    vmap gT gT fun x => (-1 : R) • x,
    .barrier .v,
    vmap gT gT fun x => x.map exp,
    .barrier .v,
    .setFlag .mte3 .mte2 0,
    .waitFlag .mte3 .mte2 0,
    tload xT (global 1 C K),
    .setFlag .mte2 .v 0,
    .waitFlag .mte2 .v 0,
    vzip xT xT gT fun x y => x ⊙ y,
    .barrier .v,
    .setFlag .v .mte3 1,
    .waitFlag .v .mte3 1,
    tstore (global 4 C K) xT]

def chunkHPrep (C K : ℕ) : Code R :=
  let gcsT := tile .ub 0x0 C K
  let coeffT := tile .ub (C * K * 4) C K
  let gtotT := tile .ub (2 * C * K * 4) 1 K
  let decayRow := tile .ub (2 * C * K * 4 + K * 4) 1 K
  [tload gcsT (global 0 C K),
    tload gtotT (global 1 1 K),
    .setFlag .mte2 .v 0,
    .waitFlag .mte2 .v 0,
    tcolexpand coeffT gtotT,
    .barrierAll,
    vzip coeffT coeffT gcsT fun x y => x - y,
    .barrier .v,
    vmap coeffT coeffT fun x => x.map exp,
    .barrier .v,
    tload gcsT (global 2 C K),
    .setFlag .mte2 .v 0,
    .waitFlag .mte2 .v 0,
    vzip coeffT coeffT gcsT fun x y => x ⊙ y,
    .barrier .v,
    .setFlag .v .mte3 0,
    .waitFlag .v .mte3 0,
    tstore (global 3 C K) coeffT,
    vmap decayRow gtotT fun x => x.map exp,
    .barrier .v,
    .setFlag .v .mte3 1,
    .waitFlag .v .mte3 1,
    tstore (global 4 1 K) decayRow]

def chunkHUpdate (isFirst K V : ℕ) : Code R :=
  let sT := tile .ub 0x0 K V
  let kvT := tile .ub (K * V * 4) K V
  let decayT := tile .ub (2 * K * V * 4) K 1
  if isFirst ≠ 0 then
    [tload kvT (global 0 K V),
      texpands sT 0,
      .barrierAll,
      tstore (global 3 K V) sT,
      tstore (global 2 K V) kvT]
  else
    [tload kvT (global 0 K V),
      tload sT (global 2 K V),
      tload decayT (global 1 K 1),
      .barrierAll,
      tstore (global 3 K V) sT,
      .barrierAll,
      vzip sT sT decayT fun x d => rowScale (fun i => d i only) x,
      .barrier .v,
      vzip sT sT kvT fun x y => x + y,
      .barrierAll,
      tstore (global 2 K V) sT]

def mmImpl {ar ac br bc : ℕ} (M N Kc : ℕ)
    (fa : Matrix (Fin ar) (Fin ac) R → Matrix (Fin M) (Fin Kc) R)
    (fb : Matrix (Fin br) (Fin bc) R → Matrix (Fin Kc) (Fin N) R) : Code R :=
  let aMat := tile .l1 0x0 ar ac
  let bMat := tile .l1 0x20000 br bc
  let l0a := tile .l0a 0x0 M Kc
  let l0b := tile .l0b 0x0 Kc N
  let cTile := tile .l0c 0x0 M N
  [tload aMat (global 0 ar ac),
    tload bMat (global 1 br bc),
    .setFlag .mte2 .mte1 1,
    .waitFlag .mte2 .mte1 1,
    .setFlag .m .mte1 1,
    .waitFlag .m .mte1 1,
    textract l0a aMat fa,
    textract l0b bMat fb,
    .setFlag .mte1 .m 1,
    .waitFlag .mte1 .m 1,
    tmatmul cTile l0a l0b,
    .setFlag .m .fix 1,
    .waitFlag .m .fix 1,
    tstoreAcc (global 2 M N) cTile]

def mmByMode (mode M N Kc : ℕ) : Code R :=
  if mode = 1 then mmImpl M N Kc (fun a : Matrix (Fin Kc) (Fin M) R => aᵀ) id
  else if mode = 2 then mmImpl M N Kc id fun b : Matrix (Fin N) (Fin Kc) R => bᵀ
  else mmImpl M N Kc id id

def trilmatmul (rM rN rK : ℕ) : Code R :=
  let aMat := tile .l1 0x0 rM rK
  let bMat := tile .l1 0x20000 rK rN
  let aTile := tile .l0a 0x0 rM rK
  let bTile := tile .l0b 0x0 rK rN
  let cTile := tile .l0c 0x0 rM rN
  [tload aMat (global 0 rM rK),
    tload bMat (global 1 rK rN),
    .setFlag .mte2 .mte1 0,
    .waitFlag .mte2 .mte1 0,
    textract aTile aMat id,
    textract bTile bMat id,
    .setFlag .mte1 .m 0,
    .waitFlag .mte1 .m 0,
    tmatmul cTile aTile bTile,
    .setFlag .m .fix 0,
    .waitFlag .m .fix 0,
    tstoreAcc (global 2 rM rN) cTile]

def template (n : ℕ) : ℕ := if n = 16 then 16 else if n = 32 then 32 else if n = 64 then 64 else 128

def sizes : List ℕ := [16, 32, 64, 128]

def eltEntry (mode r c : ℕ) : Code R := elt mode (template r) (template c)

def oPrepEntry (C D : ℕ) : Code R := chunkOPrep exp (template C) (template D)

def hPrepEntry (C D : ℕ) : Code R := chunkHPrep exp (template C) (template D)

def hUpdateEntry (isFirst dk dv : ℕ) : Code R := chunkHUpdate isFirst (template dk) (template dv)

def matmulEntry (mode M N Kc : ℕ) : Code R := mmByMode mode (template M) (template N) (template Kc)

def cumsumEntry (C D : ℕ) : Code R := trilmatmul (template C) (template D) (template C)

theorem template_eq {n : ℕ} (h : n ∈ sizes) : template n = n := by
  rw [sizes] at h
  fin_cases h <;> rfl

theorem template_le (n : ℕ) : template n ≤ 128 := by
  unfold template
  split_ifs <;> decide

end Kernels

section Memory

variable {R : Type*} {m n m' n' k l : ℕ}

def args (s : Memory Space R) (i : ℕ) : Buffer R := fun x => s (.gm i, x)

theorem tile_apart {bank : Bank} {addr addr' : ℕ} (h : addr + m * n * 4 ≤ addr') :
    (tile bank addr m n).Apart (tile bank addr' m' n') := by
  apply apart_of_stop
  rw [stop]
  change addr + m * (n * 4) ≤ addr'
  rwa [← Nat.mul_assoc]

theorem bank_apart {bank bank' : Bank} (h : bank ≠ bank') (addr addr' : ℕ) :
    (tile bank addr m n).Apart (tile bank' addr' m' n') :=
  apart_of_space fun hs => h (Space.core.inj hs)

theorem core_apart_global {t : Region Space m n} {bank : Bank} (h : t.space = .core bank)
    (i off : ℕ) : t.Apart (globalAt i off m' n') :=
  apart_of_space (by simp [globalAt, h])

theorem tile_apart_global (bank : Bank) (addr i : ℕ) :
    (tile bank addr m n).Apart (global i m' n') :=
  core_apart_global rfl i 0

theorem global_apart {i i' : ℕ} (h : i ≠ i') (off off' : ℕ) :
    (globalAt i off m n).Apart (globalAt i' off' m' n') :=
  apart_of_space fun hs => h (Space.gm.inj hs)

theorem tile_get_put_global (bank : Bank) (addr i : ℕ) (M : Matrix (Fin m') (Fin n') R)
    (s : Memory Space R) :
    (tile bank addr m n).get ((global i m' n').put M s) = (tile bank addr m n).get s :=
  get_put_apart (tile_apart_global bank addr i) M s

theorem globalAt_get (i off : ℕ) (s : Memory Space R) :
    (globalAt i off m n).get s = Buffer.load m n ((args s i).view off) := by
  ext a b
  change s (.gm i, off + (a * n + b * 1)) = s (.gm i, off + (a * n + b))
  rw [Nat.mul_one]

theorem global_get (i : ℕ) (s : Memory Space R) :
    (global i m n).get s = Buffer.load m n (args s i) := by
  rw [globalAt_get, Buffer.view_zero]

theorem args_put_core {t : Region Space m n} {bank : Bank} (h : t.space = .core bank)
    (M : Matrix (Fin m) (Fin n) R) (s : Memory Space R) : args (t.put M s) = args s := by
  funext i x
  apply put_of_notMem
  rintro ⟨a, b, hab⟩
  cases (congrArg Prod.fst hab).trans h

theorem args_put_tile (bank : Bank) (addr : ℕ) (M : Matrix (Fin m) (Fin n) R)
    (s : Memory Space R) : args ((tile bank addr m n).put M s) = args s :=
  args_put_core rfl M s

theorem args_put_global [Zero R] (i off : ℕ) (M : Matrix (Fin m) (Fin n) R)
    (s : Memory Space R) : args ((globalAt i off m n).put M s) =
      Function.update (args s) i ((args s i).store off M) := by
  funext a x
  by_cases ha : a = i
  · subst ha
    rw [Function.update_self]
    by_cases hx : off ≤ x ∧ x < off + m * n
    · have hn : 0 < n := Nat.pos_of_ne_zero fun h => by simp [h] at hx; omega
      have hrow : (x - off) / n < m := Nat.div_lt_of_lt_mul (by rw [Nat.mul_comm]; omega)
      have hcell : ((Space.gm a, x) : Space × ℕ) =
          (globalAt a off m n).cell ⟨(x - off) / n, hrow⟩ ⟨(x - off) % n, Nat.mod_lt _ hn⟩ := by
        have hdiv := Nat.div_add_mod' (x - off) n
        have hoff : off + (x - off) = x := by omega
        simp only [cell, globalAt, Nat.mul_one, hdiv, hoff]
      rw [args, hcell, put_cell, Buffer.store, if_pos hx, Buffer.flat, dif_pos hn]
      exact (stream_of_lt M hrow _).symm
    · rw [Buffer.store, if_neg hx]
      apply put_of_notMem
      rintro ⟨b, d, hbd⟩
      have hlt := cell_lt (globalAt a off m n) b d
      rw [← hbd] at hlt
      exact hx hlt
  · rw [Function.update_of_ne ha]
    apply put_of_notMem
    rintro ⟨b, d, hbd⟩
    exact ha (Space.gm.inj (congrArg Prod.fst hbd))

end Memory

end ZeCo.SimplerTiles
