import ZeCo.AllscanBackwardKernel
import ZeCo.AllscanTiles

/-!
The backward AllScan kernel of the simpler runtime on the pipes of one rank's core. Arguments 5 and
6 are the windows of the rank and of its predecessor. Three tiles fill the buffer, so `out_prev` is
loaded over the message that was sent, and `TROWSUM` takes the adjoint's tile for its scratch.
-/

namespace ZeCo.SimplerTiles

open Matrix Pipes Regions Regions.Region

section Backward

variable {R : Type*} [Semiring R] (myRank nranks dv B : ℕ) (hv : dv ≤ kMaxCols) (hw : Bool)
  (incoming : ℕ → Matrix (Fin B) (Fin dv) R)
  (scratch : Matrix (Fin B) (Fin dv) R → Matrix (Fin B) (Fin dv) R) (k : ℕ)

abbrev dgammaTile : Region Space B 1 := colTile 0x21000 B

def trowsum {m n : ℕ} (dst : Region Space m 1) (src tmp : Region Space m n)
    (f : Matrix (Fin m) (Fin n) R → Matrix (Fin m) (Fin n) R) : Instr Pipe ℕ (Access Space R) :=
  .op .v .v ((Access.map tmp src f).seq (.map dst src fun x => of fun i _ => rowSum x i))

def backwardLoad : Code R :=
  if myRank = nranks - 1 then
    [tload (sTile dv B hv) (rows 0 dv B k),
      .setFlag .mte2 .mte3 0,
      .waitFlag .mte2 .mte3 0]
  else
    [twait (rows 5 dv B k) (incoming k),
      .barrierAll,
      tload (recvTile dv B hv) (rows 5 dv B k),
      tload (sTile dv B hv) (rows 0 dv B k),
      .setFlag .mte2 .v 0,
      .waitFlag .mte2 .v 0,
      vzip (sTile dv B hv) (sTile dv B hv) (recvTile dv B hv) fun x y => x + y,
      .setFlag .v .mte3 0,
      .waitFlag .v .mte3 0]

def backwardPush : Code R :=
  [tload (gammaTile B) (rows 1 1 B k),
    .setFlag .mte2 .v 2,
    .waitFlag .mte2 .v 2,
    trowexpandmul (recvTile dv B hv) (sTile dv B hv) (gammaTile B),
    .setFlag .v .mte3 2,
    .waitFlag .v .mte3 2,
    tstore (rows 6 dv B k) (recvTile dv B hv),
    .setFlag .mte3 .s 7,
    .waitFlag .mte3 .s 7] ++ (if hw then [.barrierAll] else []) ++ [tnotify]

def backwardReduce : Code R :=
  [.setFlag .mte3 .mte2 3,
    .waitFlag .mte3 .mte2 3,
    tload (recvTile dv B hv) (rows 2 dv B k),
    .setFlag .mte2 .v 1,
    .waitFlag .mte2 .v 1,
    vzip (recvTile dv B hv) (sTile dv B hv) (recvTile dv B hv) fun x y => x ⊙ y,
    .barrier .v,
    trowsum (dgammaTile B) (recvTile dv B hv) (sTile dv B hv) scratch,
    .setFlag .v .mte3 1,
    .waitFlag .v .mte3 1,
    tstore (rows 4 1 B k) (dgammaTile B),
    .barrierAll]

def backwardSend : Code R :=
  backwardLoad myRank nranks dv B hv incoming k ++ tstore (rows 3 dv B k) (sTile dv B hv) ::
    if myRank = 0 then [] else backwardPush dv B hv hw k

def backwardBlock : Code R :=
  backwardSend myRank nranks dv B hv hw incoming k ++
    if myRank = 0 then [] else backwardReduce dv B hv scratch k

def backwardKernel (K : ℕ) : Code R :=
  (List.range K).flatMap (backwardBlock myRank nranks dv B hv hw incoming scratch) ++ [.barrierAll]

end Backward

section BackwardOrder

variable {R : Type*} [Semiring R] {myRank nranks dv B : ℕ} {hv : dv ≤ kMaxCols} {hw : Bool}
  {incoming : ℕ → Matrix (Fin B) (Fin dv) R}
  {scratch : Matrix (Fin B) (Fin dv) R → Matrix (Fin B) (Fin dv) R} {k : ℕ}
  {serial : Pipe → Bool} {depth : ℕ}

theorem backwardBlock_paired :
    Paired (backwardBlock myRank nranks dv B hv hw incoming scratch k) := by
  rw [backwardBlock, backwardSend, backwardLoad, backwardPush, backwardReduce]
  apply Paired.append
  · apply Paired.append
    · split_ifs <;> repeat' constructor
    · refine .cons rfl ?_
      cases hw <;> split_ifs <;> repeat' constructor
  · split_ifs <;> repeat' constructor

def backwardExample (r n : ℕ) (hw : Bool) : Code ℤ :=
  backwardBlock r n 0 0 (Nat.zero_le _) hw (fun _ => 0) id 0

def sendExample (r n : ℕ) (hw : Bool) : Code ℤ :=
  backwardSend r n 0 0 (Nat.zero_le _) hw (fun _ => 0) 0

theorem backwardSend_shape (hv : dv ≤ kMaxCols) (hw : Bool)
    (incoming : ℕ → Matrix (Fin B) (Fin dv) R) (k : ℕ) {r n : ℕ} (h0 : myRank = 0 ↔ r = 0)
    (hlast : myRank = nranks - 1 ↔ r = n - 1) :
    (backwardSend myRank nranks dv B hv hw incoming k).map Instr.shape =
      (sendExample r n hw).map Instr.shape := by
  simp only [sendExample, backwardSend, backwardLoad, backwardPush, h0, hlast]
  cases hw <;> split_ifs <;> rfl

theorem backwardBlock_shape (hv : dv ≤ kMaxCols) (hw : Bool)
    (incoming : ℕ → Matrix (Fin B) (Fin dv) R)
    (scratch : Matrix (Fin B) (Fin dv) R → Matrix (Fin B) (Fin dv) R) (k : ℕ) {r n : ℕ}
    (h0 : myRank = 0 ↔ r = 0) (hlast : myRank = nranks - 1 ↔ r = n - 1) :
    (backwardBlock myRank nranks dv B hv hw incoming scratch k).map Instr.shape =
      (backwardExample r n hw).map Instr.shape := by
  have hsend := backwardSend_shape hv hw incoming k h0 hlast
  rw [sendExample] at hsend
  rw [backwardExample, backwardBlock, backwardBlock, List.map_append, List.map_append, hsend]
  simp only [h0]
  split_ifs <;> rfl

theorem trowsum_avoids {m n p q : ℕ} {t : Region Space p q} {dst : Region Space m 1}
    {src tmp : Region Space m n} (h : t.Apart dst) (hs : t.Apart src) (ht : t.Apart tmp)
    (f : Matrix (Fin m) (Fin n) R → Matrix (Fin m) (Fin n) R) :
    InstrAvoids t (trowsum dst src tmp f) :=
  Access.seq_avoids (Access.map_avoids ht hs f) (Access.map_avoids h hs _)

theorem backwardReduce_avoids {i j : ℕ} (h2 : i ≠ 2) (h4 : i ≠ 4)
    (htile : ∀ {addr cap r c : ℕ} {h : c ≤ cap},
      (rows i dv B j).Apart (partTile addr cap r c h)) :
    ∀ a ∈ backwardReduce dv B hv scratch k, InstrAvoids (rows i dv B j) a := by
  rw [backwardReduce]
  simp only [List.forall_mem_cons]
  exact ⟨trivial, trivial, tload_avoids htile (global_apart h2 _ _), trivial, trivial,
    vzip_avoids htile htile htile _, trivial, trowsum_avoids htile htile htile scratch, trivial,
    trivial, tstore_avoids (global_apart h4 _ _) htile, trivial, List.forall_mem_nil _⟩

variable (hser : serial .v = true)
include hser

theorem backwardBlock_tame (hB : B ≤ 128) : Tame (aiCore serial depth) Access.run
    (backwardBlock myRank nranks dv B hv hw incoming scratch k) := by
  obtain ⟨hrs, hrg, hsg⟩ := tiles_apart hv hB
  have hload {addr cap r c m n : ℕ} {h : c ≤ cap} (i off : ℕ) :
      (partTile addr cap r c h).Apart (globalAt i off m n) := partTile_apart_global i off
  by_cases hlast : myRank = nranks - 1
  · by_cases h0 : myRank = 0
    · have hshape := backwardBlock_shape hv hw incoming scratch k (r := 0) (n := 1)
        (iff_of_true h0 rfl) (iff_of_true hlast rfl)
      exact Tame.of_vector hser [] ((unordered_congr hshape).trans (by cases hw <;> decide))
        (fun x hx => absurd hx List.not_mem_nil)
    · have hshape := backwardBlock_shape hv hw incoming scratch k (r := 1) (n := 2)
        (iff_of_false h0 one_ne_zero) (iff_of_true hlast rfl)
      refine Tame.of_vector hser [(0, 4), (3, 4), (3, 7), (3, 10)]
        ((unordered_congr hshape).trans (by cases hw <;> decide)) fun x hx => ?_
      simp only [backwardBlock, backwardSend, backwardLoad, backwardPush, if_pos hlast, if_neg h0]
      fin_cases hx
      · exact Access.map_commute_map hsg (hload _ _) (hload _ _)
      · exact Access.map_commute_map (hload _ _).symm (global_apart (by decide) _ _) hsg.symm
      · exact (Access.zip_commute_map (hload _ _) hrs (hload _ _).symm (hload _ _).symm).symm
      · exact Access.map_commute_map (global_apart (by decide) _ _) (hload _ _).symm
          (hload _ _).symm
  · by_cases h0 : myRank = 0
    · have hshape := backwardBlock_shape hv hw incoming scratch k (r := 0) (n := 2)
        (iff_of_true h0 rfl) (iff_of_false hlast (by decide))
      refine Tame.of_vector hser [(2, 3)]
        ((unordered_congr hshape).trans (by cases hw <;> decide)) fun x hx => ?_
      simp only [backwardBlock, backwardSend, backwardLoad, if_neg hlast]
      fin_cases hx
      exact Access.map_commute_map hrs (hload _ _) (hload _ _)
    · have hshape := backwardBlock_shape hv hw incoming scratch k (r := 1) (n := 3)
        (iff_of_false h0 one_ne_zero) (iff_of_false hlast (by decide))
      refine Tame.of_vector hser
        [(2, 3), (2, 10), (3, 10), (6, 10), (9, 10), (9, 13), (9, 16)]
        ((unordered_congr hshape).trans (by cases hw <;> decide)) fun x hx => ?_
      simp only [backwardBlock, backwardSend, backwardLoad, backwardPush, if_neg hlast, if_neg h0]
      fin_cases hx
      · exact Access.map_commute_map hrs (hload _ _) (hload _ _)
      · exact Access.map_commute_map hrg (hload _ _) (hload _ _)
      · exact Access.map_commute_map hsg (hload _ _) (hload _ _)
      · exact Access.zip_commute_map hsg (hload _ _) hsg.symm hrg.symm
      · exact Access.map_commute_map (hload _ _).symm (global_apart (by decide) _ _) hsg.symm
      · exact (Access.zip_commute_map (hload _ _) hrs (hload _ _).symm (hload _ _).symm).symm
      · exact Access.map_commute_map (global_apart (by decide) _ _) (hload _ _).symm
          (hload _ _).symm

theorem backwardBlock_sealed (h0 : myRank ≠ 0) (hlast : myRank = nranks - 1) :
    Sealed (aiCore serial depth)
      (backwardBlock myRank nranks dv B hv hw incoming scratch k) := by
  have hshape := backwardBlock_shape hv hw incoming scratch k (r := 1) (n := 2)
    (iff_of_false h0 one_ne_zero) (iff_of_true hlast rfl)
  exact Sealed.of_vector hser ((isSealed_congr hshape).trans (by cases hw <;> decide))

theorem backwardSend_notify (h0 : myRank ≠ 0) {i : ℕ}
    (hi : i < (backwardSend myRank nranks dv B hv hw incoming k).length)
    (hne : i ≠ (backwardSend myRank nranks dv B hv hw incoming k).length - 1) :
    Ordered (aiCore serial depth) (backwardSend myRank nranks dv B hv hw incoming k) i
      ((backwardSend myRank nranks dv B hv hw incoming k).length - 1) := by
  by_cases hlast : myRank = nranks - 1
  · have hshape := backwardSend_shape hv hw incoming k (r := 1) (n := 2)
      (iff_of_false h0 one_ne_zero) (iff_of_true hlast rfl)
    exact Ordered.last_of_vector hser hshape (by cases hw <;> decide) hi hne
  · have hshape := backwardSend_shape hv hw incoming k (r := 1) (n := 3)
      (iff_of_false h0 one_ne_zero) (iff_of_false hlast (by decide))
    exact Ordered.last_of_vector hser hshape (by cases hw <;> decide) hi hne

omit hser

theorem backwardBlock_avoids {i j : ℕ} (hi : i = 5 ∨ i = 6) (hne : k ≠ j) :
    ∀ a ∈ backwardBlock myRank nranks dv B hv hw incoming scratch j,
      InstrAvoids (rows i dv B k) a := by
  have hrows (i' : ℕ) : (rows i dv B k).Apart (rows i' dv B j) := by
    by_cases h : i = i'
    · subst h
      exact rows_apart hne
    · exact global_apart h _ _
  have hcol (i' : ℕ) (h : i' ≤ 4) : (rows i dv B k).Apart (rows i' 1 B j) :=
    global_apart (by omega) _ _
  have htile {addr cap r c : ℕ} {h : c ≤ cap} : (rows i dv B k).Apart (partTile addr cap r c h) :=
    (partTile_apart_global _ _).symm
  refine List.forall_mem_append.mpr ⟨List.forall_mem_append.mpr
    ⟨?_, List.forall_mem_cons.mpr ⟨?_, ?_⟩⟩, ?_⟩
  · rw [backwardLoad]
    split_ifs <;> simp only [List.forall_mem_cons]
    · exact ⟨tload_avoids htile (hrows 0), trivial, trivial, List.forall_mem_nil _⟩
    · exact ⟨twait_avoids (hrows 5) _, trivial, tload_avoids htile (hrows 5),
        tload_avoids htile (hrows 0), trivial, trivial, vzip_avoids htile htile htile _, trivial,
        trivial, List.forall_mem_nil _⟩
  · exact tstore_avoids (hrows 3) htile
  · split_ifs with h0
    · exact List.forall_mem_nil _
    · rw [backwardPush]
      cases hw <;> simp only [Bool.false_eq_true, if_true, if_false, List.append_nil,
        List.cons_append, List.nil_append, List.forall_mem_cons]
      · exact ⟨tload_avoids htile (hcol 1 (by decide)), trivial, trivial,
          vzip_avoids htile htile htile _, trivial, trivial, tstore_avoids (hrows 6) htile, trivial,
          trivial, tnotify_avoids, List.forall_mem_nil _⟩
      · exact ⟨tload_avoids htile (hcol 1 (by decide)), trivial, trivial,
          vzip_avoids htile htile htile _, trivial, trivial, tstore_avoids (hrows 6) htile, trivial,
          trivial, trivial, tnotify_avoids, List.forall_mem_nil _⟩
  · split_ifs with h0
    · exact List.forall_mem_nil _
    · exact backwardReduce_avoids (by omega) (by omega) htile

theorem backwardKernel_tame (hser : serial .v = true) (hB : B ≤ 128)
    (hends : myRank ≠ 0 ∨ myRank ≠ nranks - 1) (K : ℕ) : Tame (aiCore serial depth) Access.run
      (backwardKernel myRank nranks dv B hv hw incoming scratch K) := by
  apply Tame.append_barrierAll
  by_cases hlast : myRank = nranks - 1
  · have h0 : myRank ≠ 0 := hends.resolve_right (not_not.mpr hlast)
    exact (tame_rounds_sealed (fun k => backwardBlock_tame hser hB)
      (fun k => backwardBlock_sealed hser h0 hlast) K).1
  · refine tame_rounds_barrier (fun k => backwardBlock_tame hser hB) (fun k => ?_) K
    obtain ⟨rest, hcode⟩ : ∃ rest, backwardBlock myRank nranks dv B hv hw incoming scratch k =
        twait (rows 5 dv B k) (incoming k) :: .barrierAll :: rest := by
      rw [backwardBlock, backwardSend, backwardLoad, if_neg hlast]
      exact ⟨_, rfl⟩
    exact ⟨_, _, _, rest, hcode, fun j hj a ha =>
      (backwardBlock_avoids (.inl rfl) (Nat.ne_of_gt hj) a ha).commute _⟩

end BackwardOrder

section BackwardValue

variable {R : Type*} [Semiring R] (myRank nranks : ℕ) {dv B : ℕ} (hv : dv ≤ kMaxCols) (hw : Bool)
  (incoming : ℕ → Matrix (Fin B) (Fin dv) R)
  (scratch : Matrix (Fin B) (Fin dv) R → Matrix (Fin B) (Fin dv) R)

def backwardValue (x : ℕ → Buffer R) (k : ℕ) : Matrix (Fin B) (Fin dv) R :=
  let sTile := Buffer.load B dv ((x 0).view (k * B * dv))
  if myRank = nranks - 1 then sTile else sTile + incoming k

def gammaRows (x : ℕ → Buffer R) (k : ℕ) (M : Matrix (Fin B) (Fin dv) R) :
    Matrix (Fin B) (Fin dv) R :=
  rowScale (fun i => Buffer.load B 1 ((x 1).view (k * B * 1)) i only) M

def dgammaRows (x : ℕ → Buffer R) (k : ℕ) (M : Matrix (Fin B) (Fin dv) R) :
    Matrix (Fin B) (Fin 1) R :=
  of fun i _ => rowSum (M ⊙ Buffer.load B dv ((x 2).view (k * B * dv))) i

def backwardStores (x : ℕ → Buffer R) (k : ℕ) : ℕ → Buffer R :=
  let off := k * B * dv
  let M := backwardValue myRank nranks incoming x k
  let y := if myRank = nranks - 1 then x else Function.update x 5 ((x 5).store off (incoming k))
  let y := Function.update y 3 ((y 3).store off M)
  if myRank = 0 then y
  else
    let y := Function.update y 6 ((y 6).store off (gammaRows x k M))
    Function.update y 4 ((y 4).store (k * B * 1) (dgammaRows x k M))

theorem runAll_backwardLoad (hB : B ≤ 128) (k : ℕ) (m : Memory Space R) :
    let m' := runAll Access.run (backwardLoad myRank nranks dv B hv incoming k) m
    (sTile dv B hv).get m' = backwardValue myRank nranks incoming (args m) k ∧
      args m' = if myRank = nranks - 1 then args m
        else Function.update (args m) 5 ((args m 5).store (k * B * dv) (incoming k)) := by
  obtain ⟨hrs, -, -⟩ := tiles_apart hv hB
  intro m'
  by_cases hlast : myRank = nranks - 1
  · simp only [m', backwardLoad, backwardValue, if_pos hlast, runAll_cons, runAll_nil,
      tload, Instr.effect, Access.map, Access.write, id, get_put, globalAt_get, args_put_partTile,
      and_self]
  · have h05 : (0 : ℕ) ≠ 5 := by decide
    simp only [m', backwardLoad, backwardValue, if_neg hlast, runAll_cons, runAll_nil,
      tload, twait, vzip, Instr.effect, Access.map, Access.zip, Access.fill,
      Access.write, id, get_put, get_put_apart hrs, globalAt_get, args_put_partTile,
      args_put_global, Function.update_of_ne h05, Function.update_self, Buffer.load_store_self,
      and_self]

theorem runAll_backwardPush (hB : B ≤ 128) (k : ℕ) (m : Memory Space R) :
    let m' := runAll Access.run (backwardPush dv B hv hw k) m
    let M := (sTile dv B hv).get m
    (sTile dv B hv).get m' = M ∧ args m' =
      Function.update (args m) 6 ((args m 6).store (k * B * dv) (gammaRows (args m) k M)) := by
  obtain ⟨hrs, hrg, hsg⟩ := tiles_apart hv hB
  intro m' M
  cases hw <;> simp only [m', M, backwardPush, gammaRows, Bool.false_eq_true, if_true, if_false,
    List.append_nil, List.cons_append, List.nil_append, runAll_cons, runAll_nil, tload, tstore,
    tnotify, trowexpandmul, vzip, Instr.effect, Access.map, Access.zip, Access.write, Access.skip,
    id, get_put, get_put_apart hrs.symm, get_put_apart hsg, partTile_get_put_global, globalAt_get,
    args_put_partTile, args_put_global, and_self]

theorem runAll_backwardReduce (hB : B ≤ 128) (k : ℕ) (m : Memory Space R) :
    let M := (sTile dv B hv).get m
    args (runAll Access.run (backwardReduce dv B hv scratch k) m) =
      Function.update (args m) 4 ((args m 4).store (k * B * 1) (dgammaRows (args m) k M)) := by
  obtain ⟨hrs, -, -⟩ := tiles_apart hv hB
  intro M
  simp only [M, backwardReduce, dgammaRows, runAll_cons, runAll_nil, tload, tstore, trowsum, vzip,
    Instr.effect, Access.seq_run, Access.map, Access.zip, Access.write, id, get_put,
    get_put_apart hrs, get_put_apart hrs.symm, globalAt_get, args_put_partTile, args_put_global]

theorem backwardBlock_stores (hB : B ≤ 128) (k : ℕ) (m : Memory Space R) :
    args (runAll Access.run (backwardBlock myRank nranks dv B hv hw incoming scratch k) m) =
      backwardStores myRank nranks incoming (args m) k := by
  obtain ⟨htile, hargs⟩ := runAll_backwardLoad myRank nranks hv incoming hB k m
  rw [backwardBlock, backwardSend, runAll_append, runAll_append, runAll_cons]
  generalize runAll Access.run (backwardLoad myRank nranks dv B hv incoming k) m = m' at htile hargs
  have hinputs : args m' 1 = args m 1 ∧ args m' 2 = args m 2 := by
    rw [hargs]
    split_ifs <;> exact ⟨rfl, rfl⟩
  have hstored : (sTile dv B hv).get ((tstore (rows 3 dv B k) (sTile dv B hv)).effect
      Access.run m') = backwardValue myRank nranks incoming (args m) k ∧
      args ((tstore (rows 3 dv B k) (sTile dv B hv)).effect Access.run m') =
        Function.update (args m') 3 ((args m' 3).store (k * B * dv)
          (backwardValue myRank nranks incoming (args m) k)) := by
    simp only [tstore, Instr.effect, Access.map, Access.write, id, args_put_global,
      partTile_get_put_global, htile, and_self]
  generalize (tstore (rows 3 dv B k) (sTile dv B hv)).effect Access.run m' = m'' at hstored
  rw [backwardStores, ← hargs]
  by_cases h0 : myRank = 0
  · rw [if_pos h0, if_pos h0, if_pos h0, runAll_nil, runAll_nil, hstored.2]
  · obtain ⟨hpush, hsent⟩ := runAll_backwardPush hv hw hB k m''
    -- neither store touches the decays or the outputs of the forward pass
    have hgamma (M : Matrix (Fin B) (Fin dv) R) : gammaRows (args m'') k M =
        gammaRows (args m) k M := by
      rw [gammaRows, gammaRows, hstored.2, Function.update_of_ne (by decide), hinputs.1]
    have hdgamma (M : Matrix (Fin B) (Fin dv) R) :
        dgammaRows (args (runAll Access.run (backwardPush dv B hv hw k) m'')) k M =
          dgammaRows (args m) k M := by
      rw [dgammaRows, dgammaRows, hsent, Function.update_of_ne (by decide), hstored.2,
        Function.update_of_ne (by decide), hinputs.2]
    rw [if_neg h0, if_neg h0, if_neg h0, runAll_backwardReduce hv scratch hB k, hdgamma, hpush,
      hsent, hgamma, hstored.1, hstored.2]

theorem backwardKernel_stores (hB : B ≤ 128) (K : ℕ) (m : Memory Space R) :
    args (runAll Access.run (backwardKernel myRank nranks dv B hv hw incoming scratch K) m) =
      (List.range K).foldl (backwardStores myRank nranks incoming) (args m) := by
  rw [backwardKernel, runAll_append, runAll_rounds]
  exact (List.foldl_hom args fun m k =>
    (backwardBlock_stores myRank nranks hv hw incoming scratch hB k m).symm).symm

theorem backwardStores_args (x : ℕ → Buffer R) (k : ℕ) :
    let y := backwardStores myRank nranks incoming x k
    let M := backwardValue myRank nranks incoming x k
    (y 0 = x 0 ∧ y 1 = x 1 ∧ y 2 = x 2) ∧ y 3 = (x 3).store (k * B * dv) M ∧
      (myRank = 0 → y 4 = x 4) ∧
      (myRank ≠ 0 → y 6 = (x 6).store (k * B * dv) (gammaRows x k M) ∧
        y 4 = (x 4).store (k * B * 1) (dgammaRows x k M)) := by
  intro y M
  have hM : backwardValue myRank nranks incoming x k = M := rfl
  simp only [y, backwardStores, hM]
  clear_value M
  by_cases h0 : myRank = 0
  · simp only [if_pos h0]
    refine ⟨?_, ?_, fun _ => ?_, fun h => absurd h0 h⟩ <;> split_ifs <;> simp
  · simp only [if_neg h0]
    refine ⟨?_, ?_, fun h => absurd h h0, fun _ => ?_⟩ <;> split_ifs <;> simp

theorem backwardStores_blocks (x : ℕ → Buffer R) (K : ℕ) :
    let y := (List.range K).foldl (backwardStores myRank nranks incoming) x
    let M := backwardValue myRank nranks incoming x
    (∀ k < K, Buffer.load B dv ((y 3).view (k * B * dv)) = M k) ∧ (myRank = 0 → y 4 = x 4) ∧
      (myRank ≠ 0 → ∀ k < K,
        Buffer.load B dv ((y 6).view (k * B * dv)) = gammaRows x k (M k) ∧
          Buffer.load B 1 ((y 4).view (k * B * 1)) = dgammaRows x k (M k)) := by
  intro y M
  have hargs (x : ℕ → Buffer R) (k : ℕ) := backwardStores_args myRank nranks incoming x k
  have hvalue (x : ℕ → Buffer R) (k : ℕ) :
      backwardValue myRank nranks incoming (backwardStores myRank nranks incoming x k) =
        backwardValue myRank nranks incoming x := by
    funext j
    rw [backwardValue, (hargs x k).1.1, ← backwardValue]
  refine ⟨?_, fun h0 => ?_, fun h0 k hk => ⟨?_, ?_⟩⟩
  · exact foldl_store_blocks _ hvalue (fun x k => (hargs x k).2.1) x K
  · exact foldl_kept (fun x => x 4) (fun x k => (hargs x k).2.2.1 h0) x K
  · refine foldl_store_blocks
      (fun x k => gammaRows x k (backwardValue myRank nranks incoming x k))
      (fun x j => ?_) (fun x k => ((hargs x k).2.2.2 h0).1) x K k hk
    funext k
    rw [hvalue, gammaRows, (hargs x j).1.2.1, ← gammaRows]
  · refine foldl_store_blocks
      (fun x k => dgammaRows x k (backwardValue myRank nranks incoming x k))
      (fun x j => ?_) (fun x k => ((hargs x k).2.2.2 h0).2) x K k hk
    funext k
    rw [hvalue, dgammaRows, (hargs x j).1.2.2, ← dgammaRows]

end BackwardValue

section BackwardCorrect

variable {R : Type*} [Semiring R] {P dk dv K : ℕ} {hv : dv ≤ kMaxCols} {hw : Bool}
  {incoming : ℕ → Matrix (Fin (dk / K)) (Fin dv) R}
  {scratch : Matrix (Fin (dk / K)) (Fin dv) R → Matrix (Fin (dk / K)) (Fin dv) R}
  {serial : Pipe → Bool} {depth : ℕ}

def adjointTiles (p : Fin P) (dk : ℕ) (incoming : ℕ → Matrix (Fin (dk / K)) (Fin dv) R)
    (x : ℕ → Buffer R) (k : ℕ) : SimplerAllscan.BackwardTiles (dk / K) dv R :=
  SimplerAllscan.backwardLoad p (Buffer.load dk dv (x 0)) k (incoming k) ⟨0, 0, 0, 0⟩

def sentTiles (p : Fin P) (dk : ℕ) (incoming : ℕ → Matrix (Fin (dk / K)) (Fin dv) R)
    (x : ℕ → Buffer R) (k : ℕ) : SimplerAllscan.BackwardTiles (dk / K) dv R :=
  (SimplerAllscan.backwardEmit p (fun t : Fin dk => x 1 t) k ⟨0, 0⟩
    (adjointTiles p dk incoming x k)).2

def reducedTiles (p : Fin P) (dk : ℕ) (incoming : ℕ → Matrix (Fin (dk / K)) (Fin dv) R)
    (x : ℕ → Buffer R) (k : ℕ) : SimplerAllscan.BackwardTiles (dk / K) dv R :=
  (SimplerAllscan.backwardReduce p (Buffer.load dk dv (x 2)) 0 k ⟨0, 0⟩
    (sentTiles p dk incoming x k)).2

theorem sentTiles_sTile (p : Fin P) (x : ℕ → Buffer R) (k : ℕ) :
    (sentTiles p dk incoming x k).sTile = (adjointTiles p dk incoming x k).sTile := by
  rw [sentTiles, SimplerAllscan.backwardEmit]
  split_ifs <;> rfl

section Tiles

variable (hdvd : K ∣ dk) (p : Fin P) (x : ℕ → Buffer R) {k : ℕ} (hk : k < K)
include hdvd hk

theorem backwardValue_eq :
    backwardValue p P incoming x k = (adjointTiles p dk incoming x k).sTile := by
  rw [backwardValue, adjointTiles, SimplerAllscan.backwardLoad]
  by_cases hlast : p.val = P - 1
  · have hsource : ¬ SimplerAllscan.isNotSource p := fun h => of_decide_eq_true h hlast
    rw [if_pos hlast, if_neg hsource, block_load hdvd hk]
  · have hsource : SimplerAllscan.isNotSource p := decide_eq_true hlast
    rw [if_neg hlast, if_pos hsource, block_load hdvd hk]

theorem gammaRows_eq (hp : p.val ≠ 0) :
    gammaRows x k (adjointTiles p dk incoming x k).sTile =
      (sentTiles p dk incoming x k).recvTile := by
  rw [gammaRows, sentTiles, SimplerAllscan.backwardEmit, if_neg hp]
  dsimp only
  congr 1
  funext i
  rw [blockCol_load hdvd hk]

theorem dgammaRows_eq (hp : p.val ≠ 0) (i : Fin (dk / K)) :
    dgammaRows x k (adjointTiles p dk incoming x k).sTile i only =
      (reducedTiles p dk incoming x k).dgammaTile i := by
  rw [reducedTiles, SimplerAllscan.backwardReduce, if_neg hp, dgammaRows]
  dsimp only
  rw [sentTiles_sTile, block_load hdvd hk]
  rfl

end Tiles

theorem backwardKernel_landed {myRank nranks B : ℕ} {incoming : ℕ → Matrix (Fin B) (Fin dv) R}
    {scratch : Matrix (Fin B) (Fin dv) R → Matrix (Fin B) (Fin dv) R} {k : ℕ}
    (hser : serial .v = true) (h0 : myRank ≠ 0) (hk : k < K) (M : Matrix (Fin B) (Fin dv) R) :
    Keeps (aiCore serial depth) Access.run
      (backwardKernel myRank nranks dv B hv hw incoming scratch K)
      (fun m => (rows 6 dv B k).get m = M)
      (roundAt (backwardBlock myRank nranks dv B hv hw incoming scratch) k
        ((backwardSend myRank nranks dv B hv hw incoming k).length - 1)) := by
  have htile {addr cap r c : ℕ} {h : c ≤ cap} : (rows 6 dv B k).Apart (partTile addr cap r c h) :=
    (partTile_apart_global _ _).symm
  refine Keeps.append_left (Keeps.rounds hk ?_ fun j hj a ha m hm => ?_) fun b hb m hm => ?_
  · refine Keeps.append_left
      (keeps_of_ordered fun i hi hne => backwardSend_notify hser h0 hi hne) ?_
    rw [if_neg h0]
    intro b hb m hm
    rwa [(backwardReduce_avoids (by decide) (by decide) htile b hb).get_effect]
  · rwa [(backwardBlock_avoids (.inr rfl) (Ne.symm hj) a ha).get_effect]
  · rwa [List.mem_singleton.mp hb]

variable (hw) (incoming) (scratch) (depth)

theorem backwardKernel_correct (hv : dv ≤ kMaxCols) (hdk : dk ≤ 128) (hdvd : K ∣ dk) (hP : 2 ≤ P)
    (hser : serial .v = true) (p : Fin P) :
    let send := backwardSend p P dv (dk / K) hv hw incoming
    let code := backwardBlock p P dv (dk / K) hv hw incoming scratch
    let prog := backwardKernel p P dv (dk / K) hv hw incoming scratch K
    ∀ m is s, Run (aiCore serial depth) Access.run prog m is s →
      is.length ≤ prog.length ∧
      (∃ js s', Run (aiCore serial depth) Access.run prog m (is ++ js) s' ∧ Finished prog s') ∧
      (Runs.Stuck (step (aiCore serial depth) Access.run prog) s → Finished prog s) ∧
      (∀ k < K, p.val ≠ 0 → roundAt code k ((send k).length - 1) ∈ is →
        Buffer.load (dk / K) dv ((args s.mem 6).view (k * (dk / K) * dv)) =
          (sentTiles p dk incoming (args m) k).recvTile) ∧
      (Finished prog s → (p.val = 0 → args s.mem 4 = args m 4) ∧ ∀ k < K,
        block (dk / K) (Buffer.load dk dv (args s.mem 3)) k =
          (adjointTiles p dk incoming (args m) k).sTile ∧
        (p.val ≠ 0 → blockCol (dk / K) (fun t : Fin dk => args s.mem 4 t) k =
          (reducedTiles p dk incoming (args m) k).dgammaTile)) := by
  intro send code prog m is s hrun
  have hB : dk / K ≤ 128 := (Nat.div_le_self dk K).trans hdk
  have hp : Paired prog :=
    (Paired.flatMap fun k => backwardBlock_paired).append (.cons rfl .nil)
  have htame : Tame (aiCore serial depth) Access.run prog :=
    backwardKernel_tame hser hB (by omega) K
  obtain ⟨hadjoint, hfirst, hsent⟩ := backwardStores_blocks p P incoming (args m) K
  rw [← backwardKernel_stores p P hv hw incoming scratch hB K m] at hadjoint hfirst hsent
  refine ⟨(run_inv hp hrun).length_le, run_finishes hp hrun, finished_of_stuck hp hrun, ?_, ?_⟩
  · intro k hk hp0 hnotify
    have hlanded := get_of_settled hp htame hrun hnotify (backwardKernel_landed hser hp0 hk)
    rw [globalAt_get, globalAt_get] at hlanded
    rw [hlanded, (hsent hp0 k hk).1, backwardValue_eq hdvd p _ hk, gammaRows_eq hdvd p _ hk hp0]
  · intro hfin
    rw [run_final hp htame hrun hfin]
    refine ⟨hfirst, fun k hk => ⟨?_, fun hp0 => ?_⟩⟩
    · rw [block_load hdvd hk, hadjoint k hk, backwardValue_eq hdvd p _ hk]
    · funext i
      rw [blockCol_load hdvd hk, (hsent hp0 k hk).2, backwardValue_eq hdvd p _ hk,
        dgammaRows_eq hdvd p _ hk hp0]

theorem backwardKernel_correct_middle :
    let incoming : ℕ → Matrix (Fin (2 / 2)) (Fin 1) ℤ := fun _ _ _ => 5
    let prog := backwardKernel 1 3 1 (2 / 2) (Nat.succ_pos 127) false incoming id 2
    ∃ is s, Run (aiCore (fun _ => true) 0) Access.run prog (fun _ => 3) is s ∧ Finished prog s ∧
      block 1 (Buffer.load 2 1 (args s.mem 3)) 1 only only = 8 ∧
        blockCol 1 (fun t : Fin 2 => args s.mem 4 t) 1 only = 24 := by
  intro incoming prog
  have hcorrect := @backwardKernel_correct ℤ _ 3 2 1 2 false incoming id (fun _ => true) 0
    (Nat.succ_pos 127) (by decide) (by decide) (by decide) rfl 1 fun _ => 3
  obtain ⟨-, ⟨js, s, hrun, hfin⟩, -⟩ := hcorrect [] (start fun _ => 3) rfl
  refine ⟨_, s, hrun, hfin, ?_⟩
  obtain ⟨-, -, -, -, hout⟩ := hcorrect _ s hrun
  obtain ⟨hadjoint, hreduced⟩ := (hout hfin).2 1 (by decide)
  constructor
  · refine (congrFun (congrFun hadjoint only) only).trans ?_
    rfl
  · refine (congrFun (hreduced (by decide)) only).trans ?_
    rfl

end BackwardCorrect

end ZeCo.SimplerTiles
