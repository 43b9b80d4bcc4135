import ZeCo.AllscanKernel
import ZeCo.TileKernels

/-!
The AllScan kernels of the simpler runtime on the pipes of one rank's core. The predecessor's block
lands in the window at some time before its `TWAIT` is over. Arguments 3 and 4 of the forward kernel
are the windows of the rank and of its successor.
-/

namespace ZeCo.SimplerTiles

open Matrix Pipes Regions Regions.Region

section Tiles

variable {R : Type*} {m n : ℕ}

def kMaxCols : ℕ := 128

abbrev colTile (addr B : ℕ) : Region Space B 1 :=
  partTile addr 8 B 1 (Nat.succ_le_succ (Nat.zero_le 7))

abbrev rows (arg n B k : ℕ) : Region Space B n := globalAt arg (k * B * n) B n

def twait (landed : Region Space m n) (M : Matrix (Fin m) (Fin n) R) :
    Instr Pipe ℕ (Access Space R) := .op .s .s (.fill landed M)

def tnotify : Instr Pipe ℕ (Access Space R) := .op .s .s .skip

def trowexpandmul [Mul R] (dst src : Region Space m n) (d : Region Space m 1) :
    Instr Pipe ℕ (Access Space R) := vzip dst src d fun x d => rowScale (fun i => d i only) x

end Tiles

section Forward

variable {R : Type*} [Semiring R] (myRank nranks dv B : ℕ) (hv : dv ≤ kMaxCols) (hw : Bool)
  (incoming : ℕ → Matrix (Fin B) (Fin dv) R) (k : ℕ)

abbrev recvTile : Region Space B dv := partTile 0x0 kMaxCols B dv hv

abbrev sTile : Region Space B dv := partTile 0x10000 kMaxCols B dv hv

abbrev gammaTile : Region Space B 1 := colTile 0x20000 B

def forwardLoad : Code R :=
  if myRank = 0 then
    [tload (sTile dv B hv) (rows 0 dv B k),
      .setFlag .mte2 .mte3 0,
      .waitFlag .mte2 .mte3 0]
  else
    [twait (rows 3 dv B k) (incoming k),
      .barrierAll,
      tload (recvTile dv B hv) (rows 3 dv B k),
      tload (gammaTile B) (rows 1 1 B k),
      tload (sTile dv B hv) (rows 0 dv B k),
      .setFlag .mte2 .v 0,
      .waitFlag .mte2 .v 0,
      trowexpandmul (recvTile dv B hv) (recvTile dv B hv) (gammaTile B),
      vzip (sTile dv B hv) (sTile dv B hv) (recvTile dv B hv) fun x y => x + y,
      .setFlag .v .mte3 0,
      .waitFlag .v .mte3 0]

/-- The barrier after the cache flush is on the hardware paths only. -/
def forwardPush : Code R :=
  if myRank ≠ nranks - 1 then
    [tstore (rows 4 dv B k) (sTile dv B hv),
      .setFlag .mte3 .s 7,
      .waitFlag .mte3 .s 7] ++ (if hw then [.barrierAll] else []) ++ [tnotify]
  else []

def forwardBlock : Code R :=
  forwardLoad myRank dv B hv incoming k ++
    tstore (rows 2 dv B k) (sTile dv B hv) :: forwardPush myRank nranks dv B hv hw k

def forwardKernel (K : ℕ) : Code R :=
  (List.range K).flatMap (forwardBlock myRank nranks dv B hv hw incoming) ++ [.barrierAll]

end Forward

section Layout

variable {R : Type*} {m n k : ℕ}

theorem partTile_apart {addr addr' cap cap' r c r' c' : ℕ} {h : c ≤ cap} {h' : c' ≤ cap'}
    (hle : addr + r * (cap * 4) ≤ addr') :
    (partTile addr cap r c h).Apart (partTile addr' cap' r' c' h') :=
  apart_of_stop hle

theorem partTile_apart_global {addr cap r c : ℕ} {h : c ≤ cap} (i off : ℕ) :
    (partTile addr cap r c h).Apart (globalAt i off m n) :=
  core_apart_global rfl i off

theorem args_put_partTile {addr cap r c : ℕ} {h : c ≤ cap} (M : Matrix (Fin r) (Fin c) R)
    (s : Memory Space R) : args ((partTile addr cap r c h).put M s) = args s :=
  args_put_core rfl M s

theorem partTile_get_put_global {addr cap r c : ℕ} {h : c ≤ cap} (i off : ℕ)
    (M : Matrix (Fin m) (Fin n) R) (s : Memory Space R) :
    (partTile addr cap r c h).get ((globalAt i off m n).put M s) =
      (partTile addr cap r c h).get s :=
  get_put_apart (partTile_apart_global i off) M s

theorem rows_apart {i B j k : ℕ} (h : j ≠ k) : (rows i n B j).Apart (rows i n B k) := by
  have hstop (j : ℕ) : (rows i n B j).stop = j * (B * n) + B * n := by
    rw [← Nat.mul_assoc]
    rfl
  have hbase (j : ℕ) : (rows i n B j).base = j * (B * n) := Nat.mul_assoc j B n
  rcases Buffer.tile_disjoint (B * n) h with hle | hle
  · apply apart_of_stop
    rwa [hstop, hbase]
  · apply Apart.symm
    apply apart_of_stop
    rwa [hstop, hbase]

section Avoids

variable {k l m' n' k' l' : ℕ} {t : Region Space k l} {dst : Region Space m n}
  {a : Region Space m' n'} {b : Region Space k' l'}

def InstrAvoids (t : Region Space k l) : Instr Pipe ℕ (Access Space R) → Prop
  | .op _ _ x => x.Avoids t
  | _ => True

theorem InstrAvoids.commute {x : Instr Pipe ℕ (Access Space R)} (h : InstrAvoids t x)
    (M : Matrix (Fin k) (Fin l) R) :
    Function.Commute (x.effect Access.run) (Access.fill t M).run := by
  cases x with
  | op queue drain x => exact Access.Avoids.commute_fill h M
  | _ => exact Function.Commute.id_left

theorem InstrAvoids.get_effect {x : Instr Pipe ℕ (Access Space R)} (h : InstrAvoids t x)
    (s : Memory Space R) : t.get (x.effect Access.run s) = t.get s := by
  cases x with
  | op queue drain x => exact Access.Spares.get_run (fun l hl => (h l hl).2) s
  | _ => rfl

theorem tload_avoids {src : Region Space m n} (h : t.Apart dst) (hs : t.Apart src) :
    InstrAvoids (R := R) t (tload dst src) :=
  Access.map_avoids h hs id

theorem tstore_avoids {src : Region Space m n} (h : t.Apart dst) (hs : t.Apart src) :
    InstrAvoids (R := R) t (tstore dst src) :=
  Access.map_avoids h hs id

theorem vzip_avoids (h : t.Apart dst) (ha : t.Apart a) (hb : t.Apart b)
    (f : Matrix (Fin m') (Fin n') R → Matrix (Fin k') (Fin l') R → Matrix (Fin m) (Fin n) R) :
    InstrAvoids t (vzip dst a b f) :=
  Access.zip_avoids h ha hb f

theorem twait_avoids (h : t.Apart dst) (M : Matrix (Fin m) (Fin n) R) :
    InstrAvoids t (twait dst M) :=
  Access.fill_avoids h M

theorem tnotify_avoids : InstrAvoids (R := R) t tnotify := Access.skip_avoids t

end Avoids

end Layout

section Order

variable {R : Type*} {prog : Code R} {serial : Pipe → Bool} {depth : ℕ}

def vectorInOrder : Core Pipe := aiCore (fun p => p = .v) 0

theorem vectorInOrder_le (h : serial .v = true) : ∀ p, vectorInOrder.serial p → serial p := by
  intro p hp
  rwa [of_decide_eq_true hp]

theorem Ordered.of_vector (hv : serial .v = true) {i j : ℕ} (h : Ordered vectorInOrder prog i j) :
    Ordered (aiCore serial depth) prog i j :=
  Pipes.Ordered.mono (c := vectorInOrder) rfl (vectorInOrder_le hv) h

theorem Tame.of_vector (hv : serial .v = true) (pairs : List (ℕ × ℕ))
    (hpairs : unordered vectorInOrder prog = pairs)
    (h : ∀ x ∈ pairs, Function.Commute (effectAt Access.run prog x.1)
      (effectAt Access.run prog x.2)) : Tame (aiCore serial depth) Access.run prog :=
  Tame.of_unordered (c := vectorInOrder) rfl (vectorInOrder_le hv) (hpairs ▸ h)

theorem Sealed.of_vector (hv : serial .v = true) (h : isSealed vectorInOrder prog = true) :
    Sealed (aiCore serial depth) prog :=
  Sealed.of_isSealed (c := vectorInOrder) rfl (vectorInOrder_le hv) h

theorem Ordered.last_of_vector {R' : Type*} {prog' : Code R'} (hv : serial .v = true)
    (hshape : prog.map Instr.shape = prog'.map Instr.shape)
    (h : isLast vectorInOrder prog' (prog'.length - 1) = true) {i : ℕ} (hi : i < prog.length)
    (hne : i ≠ prog.length - 1) : Ordered (aiCore serial depth) prog i (prog.length - 1) := by
  have hlen := congrArg List.length hshape
  rw [List.length_map, List.length_map] at hlen
  refine Ordered.of_vector hv (ordered_of_isLast ?_ hi hne)
  rw [isLast_congr hshape, hlen, h]

theorem keeps_of_ordered {c : Core Pipe} {prog : Code R} {P : Memory Space R → Prop} {n : ℕ}
    (h : ∀ i < prog.length, i ≠ n → Ordered c prog i n) : Keeps c Access.run prog P n := by
  intro i
  by_cases hi : i < prog.length
  · by_cases hne : i = n
    · exact .inl hne
    · exact .inr (.inl (h i hi hne))
  · right; right
    rw [effectAt, List.getElem?_eq_none (Nat.not_lt.mp hi)]
    exact fun m hm => hm

theorem get_of_settled {c : Core Pipe} {prog : Code R} {m : Memory Space R} {is : List ℕ}
    {s : State Pipe ℕ (Memory Space R)} {n r l : ℕ} {t : Region Space r l} (hp : Paired prog)
    (htame : Tame c Access.run prog) (hrun : Run c Access.run prog m is s) (hn : n ∈ is)
    (hkeeps : ∀ M, Keeps c Access.run prog (fun m => t.get m = M) n) :
    t.get s.mem = t.get (runAll Access.run prog m) := by
  obtain ⟨js, s', hrun', hfin⟩ := run_finishes hp hrun
  have hsettled : t.get s'.mem = t.get s.mem :=
    run_done_settled (P := fun x => t.get x = t.get s.mem) hp hrun hn hrun' rfl (hkeeps _)
  rw [← hsettled, run_final hp htame hrun' hfin]

end Order

section ForwardOrder

variable {R : Type*} [Semiring R] {myRank nranks dv B : ℕ} {hv : dv ≤ kMaxCols} {hw : Bool}
  {incoming : ℕ → Matrix (Fin B) (Fin dv) R} {k : ℕ} {serial : Pipe → Bool} {depth : ℕ}

theorem forwardBlock_paired : Paired (forwardBlock myRank nranks dv B hv hw incoming k) := by
  rw [forwardBlock, forwardLoad, forwardPush]
  apply Paired.append
  · split_ifs <;> repeat' constructor
  · refine .cons rfl ?_
    cases hw <;> split_ifs <;> repeat' constructor

def forwardExample (r n : ℕ) (hw : Bool) : Code ℤ :=
  forwardBlock r n 0 0 (Nat.zero_le _) hw (fun _ => 0) 0

theorem forwardBlock_shape (hv : dv ≤ kMaxCols) (hw : Bool)
    (incoming : ℕ → Matrix (Fin B) (Fin dv) R) (k : ℕ) {r n : ℕ} (h0 : myRank = 0 ↔ r = 0)
    (hlast : myRank = nranks - 1 ↔ r = n - 1) :
    (forwardBlock myRank nranks dv B hv hw incoming k).map Instr.shape =
      (forwardExample r n hw).map Instr.shape := by
  simp only [forwardExample, forwardBlock, forwardLoad, forwardPush, ne_eq, h0, hlast]
  cases hw <;> split_ifs <;> rfl

theorem tiles_apart (hv : dv ≤ kMaxCols) (hB : B ≤ 128) : (recvTile dv B hv).Apart (sTile dv B hv) ∧
    (recvTile dv B hv).Apart (gammaTile B) ∧ (sTile dv B hv).Apart (gammaTile B) := by
  have hsize : B * (kMaxCols * 4) ≤ 0x10000 := Nat.mul_le_mul_right (128 * 4) hB
  refine ⟨?_, ?_, ?_⟩ <;> exact partTile_apart (by omega)

variable (hser : serial .v = true)
include hser

theorem forwardBlock_tame (hB : B ≤ 128) : Tame (aiCore serial depth) Access.run
    (forwardBlock myRank nranks dv B hv hw incoming k) := by
  obtain ⟨hrs, hrg, hsg⟩ := tiles_apart hv hB
  have hload {addr cap r c m n : ℕ} {h : c ≤ cap} (i off : ℕ) :
      (partTile addr cap r c h).Apart (globalAt i off m n) := partTile_apart_global i off
  by_cases h0 : myRank = 0
  · by_cases hlast : myRank = nranks - 1
    · have hshape := forwardBlock_shape hv hw incoming k (r := 0) (n := 1)
        (iff_of_true h0 rfl) (iff_of_true hlast rfl)
      exact Tame.of_vector hser [] ((unordered_congr hshape).trans (by cases hw <;> decide))
        (fun x hx => absurd hx List.not_mem_nil)
    · have hshape := forwardBlock_shape hv hw incoming k (r := 0) (n := 2)
        (iff_of_true h0 rfl) (iff_of_false hlast (by decide))
      refine Tame.of_vector hser [(3, 4)]
        ((unordered_congr hshape).trans (by cases hw <;> decide)) fun x hx => ?_
      simp only [forwardBlock, forwardLoad, forwardPush, if_pos h0, if_pos hlast]
      fin_cases hx
      exact Access.map_commute_map (global_apart (by decide) _ _) (hload _ _).symm (hload _ _).symm
  · by_cases hlast : myRank = nranks - 1
    · have hshape := forwardBlock_shape hv hw incoming k (r := 1) (n := 2)
        (iff_of_false h0 one_ne_zero) (iff_of_true hlast rfl)
      refine Tame.of_vector hser [(2, 3), (2, 4), (3, 4)]
        ((unordered_congr hshape).trans (by cases hw <;> decide)) fun x hx => ?_
      simp only [forwardBlock, forwardLoad, if_neg h0]
      fin_cases hx
      · exact Access.map_commute_map hrg (hload _ _) (hload _ _)
      · exact Access.map_commute_map hrs (hload _ _) (hload _ _)
      · exact Access.map_commute_map hsg.symm (hload _ _) (hload _ _)
    · have hshape := forwardBlock_shape hv hw incoming k (r := 1) (n := 3)
        (iff_of_false h0 one_ne_zero) (iff_of_false hlast (by decide))
      refine Tame.of_vector hser [(2, 3), (2, 4), (3, 4), (11, 12)]
        ((unordered_congr hshape).trans (by cases hw <;> decide)) fun x hx => ?_
      simp only [forwardBlock, forwardLoad, forwardPush, if_neg h0, if_pos hlast]
      fin_cases hx
      · exact Access.map_commute_map hrg (hload _ _) (hload _ _)
      · exact Access.map_commute_map hrs (hload _ _) (hload _ _)
      · exact Access.map_commute_map hsg.symm (hload _ _) (hload _ _)
      · exact Access.map_commute_map (global_apart (by decide) _ _) (hload _ _).symm
          (hload _ _).symm

theorem forwardBlock_sealed (h0 : myRank = 0) (hlast : myRank ≠ nranks - 1) :
    Sealed (aiCore serial depth) (forwardBlock myRank nranks dv B hv hw incoming k) := by
  have hshape := forwardBlock_shape hv hw incoming k (r := 0) (n := 2)
    (iff_of_true h0 rfl) (iff_of_false hlast (by decide))
  exact Sealed.of_vector hser ((isSealed_congr hshape).trans (by cases hw <;> decide))

omit hser in
theorem forwardBlock_avoids {i j : ℕ} (hi : i = 3 ∨ i = 4) (hne : k ≠ j) :
    ∀ a ∈ forwardBlock myRank nranks dv B hv hw incoming j, InstrAvoids (rows i dv B k) a := by
  have hrows (i' : ℕ) : (rows i dv B k).Apart (rows i' dv B j) := by
    by_cases h : i = i'
    · subst h
      exact rows_apart hne
    · exact global_apart h _ _
  have hgamma : (rows i dv B k).Apart (rows 1 1 B j) := global_apart (by omega) _ _
  have htile {addr cap r c : ℕ} {h : c ≤ cap} : (rows i dv B k).Apart (partTile addr cap r c h) :=
    (partTile_apart_global _ _).symm
  refine List.forall_mem_append.mpr ⟨?_, List.forall_mem_cons.mpr ⟨?_, ?_⟩⟩
  · rw [forwardLoad]
    split_ifs <;> simp only [List.forall_mem_cons]
    · exact ⟨tload_avoids htile (hrows 0), trivial, trivial, List.forall_mem_nil _⟩
    · exact ⟨twait_avoids (hrows 3) _, trivial, tload_avoids htile (hrows 3),
        tload_avoids htile hgamma, tload_avoids htile (hrows 0), trivial, trivial,
        vzip_avoids htile htile htile _, vzip_avoids htile htile htile _, trivial, trivial,
        List.forall_mem_nil _⟩
  · exact tstore_avoids (hrows 2) htile
  · rw [forwardPush]
    split_ifs
    · simp only [List.cons_append, List.nil_append, List.forall_mem_cons]
      exact ⟨tstore_avoids (hrows 4) htile, trivial, trivial, trivial, tnotify_avoids,
        List.forall_mem_nil _⟩
    · simp only [List.append_nil, List.cons_append, List.nil_append, List.forall_mem_cons]
      exact ⟨tstore_avoids (hrows 4) htile, trivial, trivial, tnotify_avoids, List.forall_mem_nil _⟩
    · exact List.forall_mem_nil _

theorem forwardBlock_notify (hlast : myRank ≠ nranks - 1) {i : ℕ}
    (hi : i < (forwardBlock myRank nranks dv B hv hw incoming k).length)
    (hne : i ≠ (forwardBlock myRank nranks dv B hv hw incoming k).length - 1) :
    Ordered (aiCore serial depth) (forwardBlock myRank nranks dv B hv hw incoming k) i
      ((forwardBlock myRank nranks dv B hv hw incoming k).length - 1) := by
  by_cases h0 : myRank = 0
  · have hshape := forwardBlock_shape hv hw incoming k (r := 0) (n := 2)
      (iff_of_true h0 rfl) (iff_of_false hlast (by decide))
    exact Ordered.last_of_vector hser hshape (by cases hw <;> decide) hi hne
  · have hshape := forwardBlock_shape hv hw incoming k (r := 1) (n := 3)
      (iff_of_false h0 one_ne_zero) (iff_of_false hlast (by decide))
    exact Ordered.last_of_vector hser hshape (by cases hw <;> decide) hi hne

theorem forwardKernel_tame (hB : B ≤ 128) (hends : myRank ≠ 0 ∨ myRank ≠ nranks - 1) (K : ℕ) :
    Tame (aiCore serial depth) Access.run
      (forwardKernel myRank nranks dv B hv hw incoming K) := by
  apply Tame.append_barrierAll
  by_cases h0 : myRank = 0
  · have hlast : myRank ≠ nranks - 1 := hends.resolve_left (not_not.mpr h0)
    exact (tame_rounds_sealed (fun k => forwardBlock_tame hser hB)
      (fun k => forwardBlock_sealed hser h0 hlast) K).1
  · refine tame_rounds_barrier (fun k => forwardBlock_tame hser hB) (fun k => ?_) K
    obtain ⟨rest, hcode⟩ : ∃ rest, forwardBlock myRank nranks dv B hv hw incoming k =
        twait (rows 3 dv B k) (incoming k) :: .barrierAll :: rest := by
      rw [forwardBlock, forwardLoad, if_neg h0]
      exact ⟨_, rfl⟩
    exact ⟨_, _, _, rest, hcode, fun j hj a ha =>
      (forwardBlock_avoids (.inl rfl) (Nat.ne_of_gt hj) a ha).commute _⟩

end ForwardOrder

section ForwardValue

variable {R : Type*} [Semiring R] (myRank nranks : ℕ) {dv B : ℕ} (hv : dv ≤ kMaxCols) (hw : Bool)
  (incoming : ℕ → Matrix (Fin B) (Fin dv) R)

def forwardValue (x : ℕ → Buffer R) (k : ℕ) : Matrix (Fin B) (Fin dv) R :=
  let sTile := Buffer.load B dv ((x 0).view (k * B * dv))
  if myRank = 0 then sTile
  else sTile + rowScale (fun i => Buffer.load B 1 ((x 1).view (k * B * 1)) i only) (incoming k)

def forwardStores (x : ℕ → Buffer R) (k : ℕ) : ℕ → Buffer R :=
  let off := k * B * dv
  let M := forwardValue myRank incoming x k
  let x := if myRank = 0 then x else Function.update x 3 ((x 3).store off (incoming k))
  let x := Function.update x 2 ((x 2).store off M)
  if myRank ≠ nranks - 1 then Function.update x 4 ((x 4).store off M) else x

theorem runAll_forwardLoad (hB : B ≤ 128) (k : ℕ) (m : Memory Space R) :
    let m' := runAll Access.run (forwardLoad myRank dv B hv incoming k) m
    (sTile dv B hv).get m' = forwardValue myRank incoming (args m) k ∧
      args m' = if myRank = 0 then args m
        else Function.update (args m) 3 ((args m 3).store (k * B * dv) (incoming k)) := by
  obtain ⟨hrs, hrg, hsg⟩ := tiles_apart hv hB
  intro m'
  by_cases h0 : myRank = 0
  · simp only [m', forwardLoad, forwardValue, if_pos h0, runAll_cons, runAll_nil,
      tload, Instr.effect, Access.map, Access.write, id, get_put, globalAt_get, args_put_partTile,
      and_self]
  · have h03 : (0 : ℕ) ≠ 3 := by decide
    have h13 : (1 : ℕ) ≠ 3 := by decide
    simp only [m', forwardLoad, forwardValue, if_neg h0, runAll_cons, runAll_nil,
      tload, twait, trowexpandmul, vzip, Instr.effect, Access.map, Access.zip, Access.fill,
      Access.write, id, get_put, get_put_apart hrs, get_put_apart hrg, get_put_apart hrs.symm,
      get_put_apart hsg.symm, globalAt_get, args_put_partTile, args_put_global,
      Function.update_of_ne h03, Function.update_of_ne h13, Function.update_self,
      Buffer.load_store_self, and_self]

theorem forwardBlock_stores (hB : B ≤ 128) (k : ℕ) (m : Memory Space R) :
    args (runAll Access.run (forwardBlock myRank nranks dv B hv hw incoming k) m) =
      forwardStores myRank nranks incoming (args m) k := by
  obtain ⟨htile, hargs⟩ := runAll_forwardLoad myRank hv incoming hB k m
  rw [forwardBlock, runAll_append]
  generalize runAll Access.run (forwardLoad myRank dv B hv incoming k) m = m' at htile hargs
  by_cases hlast : myRank ≠ nranks - 1
  · cases hw <;> simp only [forwardPush, if_pos hlast, Bool.false_eq_true, if_true, if_false,
      List.append_nil, List.cons_append, List.nil_append, runAll_cons, runAll_nil,
      tstore, tnotify, Instr.effect, Access.map, Access.write, Access.skip, id, args_put_global,
      partTile_get_put_global, htile, hargs, forwardStores]
  · simp only [forwardPush, if_neg hlast, runAll_cons, runAll_nil, tstore,
      Instr.effect, Access.map, Access.write, id, args_put_global, htile, hargs, forwardStores]

theorem forwardKernel_stores (hB : B ≤ 128) (K : ℕ) (m : Memory Space R) :
    args (runAll Access.run (forwardKernel myRank nranks dv B hv hw incoming K) m) =
      (List.range K).foldl (forwardStores myRank nranks incoming) (args m) := by
  rw [forwardKernel, runAll_append, runAll_rounds]
  exact (List.foldl_hom args fun m k =>
    (forwardBlock_stores myRank nranks hv hw incoming hB k m).symm).symm

theorem load_store_block {m n : ℕ} (X : Buffer R) (M : Matrix (Fin m) (Fin n) R) {j k : ℕ}
    (h : j ≠ k) : Buffer.load m n ((X.store (k * m * n) M).view (j * m * n)) =
      Buffer.load m n (X.view (j * m * n)) := by
  rw [Nat.mul_assoc, Nat.mul_assoc]
  exact Buffer.load_store_tile X M h

theorem foldl_kept {α β : Type*} {step : β → ℕ → β} (f : β → α)
    (hf : ∀ x k, f (step x k) = f x) (x : β) (K : ℕ) : f ((List.range K).foldl step x) = f x := by
  induction K with
  | zero => rfl
  | succ K ih => rw [List.range_succ, List.foldl_append, List.foldl_cons, List.foldl_nil, hf, ih]

theorem foldl_store_blocks {m n : ℕ} {step : (ℕ → Buffer R) → ℕ → ℕ → Buffer R} {a : ℕ}
    (M : (ℕ → Buffer R) → ℕ → Matrix (Fin m) (Fin n) R) (hM : ∀ x k, M (step x k) = M x)
    (hstep : ∀ x k, step x k a = (x a).store (k * m * n) (M x k)) (x : ℕ → Buffer R) (K : ℕ) :
    ∀ k < K, Buffer.load m n (((List.range K).foldl step x a).view (k * m * n)) = M x k := by
  induction K with
  | zero => exact fun k hk => absurd hk (Nat.not_lt_zero k)
  | succ K ih =>
    intro k hk
    rw [List.range_succ, List.foldl_append, List.foldl_cons, List.foldl_nil, hstep,
      foldl_kept M hM]
    by_cases hkK : k = K
    · rw [hkK, Buffer.load_store_self]
    · rw [load_store_block _ _ hkK]
      exact ih k (by omega)

theorem forwardStores_args (x : ℕ → Buffer R) (k : ℕ) :
    let y := forwardStores myRank nranks incoming x k
    let M := forwardValue myRank incoming x k
    y 0 = x 0 ∧ y 1 = x 1 ∧ y 2 = (x 2).store (k * B * dv) M ∧
      (myRank ≠ nranks - 1 → y 4 = (x 4).store (k * B * dv) M) := by
  intro y M
  have hM : forwardValue myRank incoming x k = M := rfl
  simp only [y, forwardStores, hM]
  clear_value M
  by_cases h0 : myRank = 0
  · by_cases hlast : myRank ≠ nranks - 1 <;> simp [if_pos h0, hlast]
  · by_cases hlast : myRank ≠ nranks - 1 <;> simp [if_neg h0, hlast]

theorem forwardStores_blocks (x : ℕ → Buffer R) (K : ℕ) :
    let y := (List.range K).foldl (forwardStores myRank nranks incoming) x
    ∀ k < K, Buffer.load B dv ((y 2).view (k * B * dv)) = forwardValue myRank incoming x k ∧
      (myRank ≠ nranks - 1 →
        Buffer.load B dv ((y 4).view (k * B * dv)) = forwardValue myRank incoming x k) := by
  intro y k hk
  have hargs (x : ℕ → Buffer R) (k : ℕ) := forwardStores_args myRank nranks incoming x k
  have hvalue (x : ℕ → Buffer R) (k : ℕ) :
      forwardValue myRank incoming (forwardStores myRank nranks incoming x k) =
        forwardValue myRank incoming x := by
    funext j
    rw [forwardValue, (hargs x k).1, (hargs x k).2.1, ← forwardValue]
  constructor
  · exact foldl_store_blocks _ hvalue (fun x k => (hargs x k).2.2.1) x K k hk
  · intro hlast
    exact foldl_store_blocks _ hvalue (fun x k => (hargs x k).2.2.2 hlast) x K k hk

end ForwardValue

section Blocks

variable {R : Type*} {dk dv K k : ℕ}

theorem block_end (hdvd : K ∣ dk) (hk : k < K) : k * (dk / K) + dk / K ≤ dk := by
  have hle : (k + 1) * (dk / K) ≤ K * (dk / K) := Nat.mul_le_mul_right _ hk
  rwa [Nat.add_mul, Nat.one_mul, Nat.mul_div_cancel' hdvd] at hle

theorem block_load [Zero R] (hdvd : K ∣ dk) (hk : k < K) (X : Buffer R) :
    block (dk / K) (Buffer.load dk dv X) k =
      Buffer.load (dk / K) dv (X.view (k * (dk / K) * dv)) := by
  ext i j
  have hend := block_end hdvd hk
  have hrow : k * (dk / K) + i.val < dk := by omega
  have hx : (k * (dk / K) + i.val) * dv + j.val =
      k * (dk / K) * dv + (i.val * dv + j.val) := by ring
  rw [block_apply, stream_of_lt _ hrow, Buffer.load_apply, Buffer.load_apply, Buffer.view, ← hx]

theorem blockCol_load [Zero R] (hdvd : K ∣ dk) (hk : k < K) (X : Buffer R) (i : Fin (dk / K)) :
    blockCol (dk / K) (fun t : Fin dk => X t) k i =
      Buffer.load (dk / K) 1 (X.view (k * (dk / K) * 1)) i only := by
  have hend := block_end hdvd hk
  have hrow : k * (dk / K) + i.val < dk := by omega
  rw [blockCol, dif_pos hrow, Buffer.load_apply, Buffer.view]
  simp

end Blocks

section ForwardCorrect

variable {R : Type*} [Semiring R] {P dk dv K : ℕ} {hv : dv ≤ kMaxCols} {hw : Bool}
  {incoming : ℕ → Matrix (Fin (dk / K)) (Fin dv) R} {serial : Pipe → Bool} {depth : ℕ}

def forwardOut (p : Fin P) (dk : ℕ) (incoming : ℕ → Matrix (Fin (dk / K)) (Fin dv) R)
    (x : ℕ → Buffer R) (k : ℕ) : Matrix (Fin (dk / K)) (Fin dv) R :=
  (SimplerAllscan.kernelLoad p (Buffer.load dk dv (x 0)) (fun t => x 1 t) k (incoming k)
    ⟨0, 0, 0⟩).sTile

theorem forwardValue_eq (hdvd : K ∣ dk) (p : Fin P) (x : ℕ → Buffer R) {k : ℕ} (hk : k < K) :
    forwardValue p incoming x k = forwardOut p dk incoming x k := by
  rw [forwardValue, forwardOut, SimplerAllscan.kernelLoad]
  split_ifs
  · rw [block_load hdvd hk]
  · simp only [block_load hdvd hk]
    congr 2
    funext i
    rw [blockCol_load hdvd hk]

def notifyAt (code : ℕ → Code R) (k : ℕ) : ℕ := roundAt code k ((code k).length - 1)

theorem forwardKernel_landed {myRank nranks B : ℕ} {incoming : ℕ → Matrix (Fin B) (Fin dv) R}
    {k : ℕ} (hser : serial .v = true) (hlast : myRank ≠ nranks - 1) (hk : k < K)
    (M : Matrix (Fin B) (Fin dv) R) : Keeps (aiCore serial depth) Access.run
      (forwardKernel myRank nranks dv B hv hw incoming K)
      (fun m => (rows 4 dv B k).get m = M)
      (notifyAt (forwardBlock myRank nranks dv B hv hw incoming) k) := by
  refine Keeps.append_left (Keeps.rounds hk ?_ fun j hj a ha m hm => ?_) fun b hb m hm => ?_
  · exact keeps_of_ordered fun i hi hne => forwardBlock_notify hser hlast hi hne
  · rwa [(forwardBlock_avoids (.inr rfl) (Ne.symm hj) a ha).get_effect]
  · rwa [List.mem_singleton.mp hb]

variable (hw) (incoming) (depth)

/-- A rank of the forward ring, for any overlap of its pipes: it ends, it notifies its successor of
a block only once that block has landed there, and its output is what the ring model computes. -/
theorem forwardKernel_correct (hv : dv ≤ kMaxCols) (hdk : dk ≤ 128) (hdvd : K ∣ dk) (hP : 2 ≤ P)
    (hser : serial .v = true) (p : Fin P) :
    let code := forwardBlock p P dv (dk / K) hv hw incoming
    let prog := forwardKernel p P dv (dk / K) hv hw incoming K
    ∀ m is s, Run (aiCore serial depth) Access.run prog m is s →
      is.length ≤ prog.length ∧
      (∃ js s', Run (aiCore serial depth) Access.run prog m (is ++ js) s' ∧ Finished prog s') ∧
      (Runs.Stuck (step (aiCore serial depth) Access.run prog) s → Finished prog s) ∧
      (∀ k < K, p.val + 1 < P → notifyAt code k ∈ is →
        Buffer.load (dk / K) dv ((args s.mem 4).view (k * (dk / K) * dv)) =
          forwardOut p dk incoming (args m) k) ∧
      (Finished prog s → ∀ k < K, block (dk / K) (Buffer.load dk dv (args s.mem 2)) k =
        forwardOut p dk incoming (args m) k) := by
  intro code prog m is s hrun
  have hB : dk / K ≤ 128 := (Nat.div_le_self dk K).trans hdk
  have hp : Paired prog :=
    (Paired.flatMap fun k => forwardBlock_paired).append (.cons rfl .nil)
  have htame : Tame (aiCore serial depth) Access.run prog :=
    forwardKernel_tame hser hB (by omega) K
  have hblocks := forwardStores_blocks p P incoming (args m) K
  rw [← forwardKernel_stores p P hv hw incoming hB K m] at hblocks
  refine ⟨(run_inv hp hrun).length_le, run_finishes hp hrun, finished_of_stuck hp hrun, ?_, ?_⟩
  · intro k hk hnext hnotify
    have hlast : p.val ≠ P - 1 := by omega
    have hlanded := get_of_settled hp htame hrun hnotify (forwardKernel_landed hser hlast hk)
    rw [globalAt_get, globalAt_get] at hlanded
    rw [hlanded, (hblocks k hk).2 hlast, forwardValue_eq hdvd p _ hk]
  · intro hfin k hk
    rw [run_final hp htame hrun hfin, block_load hdvd hk, (hblocks k hk).1,
      forwardValue_eq hdvd p _ hk]

theorem forwardKernel_correct_middle :
    let incoming : ℕ → Matrix (Fin (2 / 2)) (Fin 1) ℤ := fun _ _ _ => 5
    let prog := forwardKernel 1 3 1 (2 / 2) (Nat.succ_pos 127) true incoming 2
    ∃ is s, Run (aiCore (fun _ => true) 0) Access.run prog (fun _ => 3) is s ∧ Finished prog s ∧
      block 1 (Buffer.load 2 1 (args s.mem 2)) 1 ⟨0, Nat.one_pos⟩ ⟨0, Nat.one_pos⟩ = 18 := by
  intro incoming prog
  have hcorrect := @forwardKernel_correct ℤ _ 3 2 1 2 true incoming (fun _ => true) 0
    (Nat.succ_pos 127) (by decide) (by decide) (by decide) rfl 1 fun _ => 3
  obtain ⟨-, ⟨js, s, hrun, hfin⟩, -⟩ := hcorrect [] (start fun _ => 3) rfl
  refine ⟨_, s, hrun, hfin, ?_⟩
  obtain ⟨-, -, -, -, hout⟩ := hcorrect _ s hrun
  have hblock := congrFun (congrFun (hout hfin 1 (by decide)) ⟨0, Nat.one_pos⟩) ⟨0, Nat.one_pos⟩
  refine hblock.trans ?_
  rfl

end ForwardCorrect

end ZeCo.SimplerTiles
