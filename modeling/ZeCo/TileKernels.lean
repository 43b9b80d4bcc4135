import ZeCo.SimplerTiles

namespace ZeCo.SimplerTiles

open Matrix Pipes Regions Regions.Region

section Stores

variable {R : Type*} [Ring R] (exp : R → R)

def eltStores (mode r c : ℕ) (x : ℕ → Buffer R) : ℕ → Buffer R :=
  Function.update x 2 ((x 2).store 0 (SimplerKernels.chunkOElt mode r c (x 0) (x 1)))

def oPrepStores (C K : ℕ) (x : ℕ → Buffer R) : ℕ → Buffer R :=
  let prep := SimplerKernels.chunkOPrep exp C K (x 0) (x 1) (x 2)
  Function.update (Function.update x 3 ((x 3).store 0 prep.1)) 4 ((x 4).store 0 prep.2)

def hPrepStores (C K : ℕ) (g : Buffer R) (x : ℕ → Buffer R) : ℕ → Buffer R :=
  let prep := SimplerKernels.chunkHPrep exp C K g (x 1) (x 2)
  Function.update (Function.update x 3 ((x 3).store 0 prep.1)) 4 ((x 4).store 0 prep.2)

def hUpdateStores (isFirst K V : ℕ) (x : ℕ → Buffer R) : ℕ → Buffer R :=
  let update := SimplerKernels.chunkHUpdate isFirst K V (x 0) (x 1) (x 2)
  Function.update (Function.update x 3 ((x 3).store 0 update.1)) 2 ((x 2).store 0 update.2)

def matmulStores (mode M N Kc : ℕ) (x : ℕ → Buffer R) : ℕ → Buffer R :=
  Function.update x 2 ((x 2).store 0 (SimplerKernels.matmul mode M N Kc (x 0) (x 1)))

def cumsumStores (C D : ℕ) (x : ℕ → Buffer R) : ℕ → Buffer R :=
  Function.update x 2 ((x 2).store 0 (SimplerKernels.gateCumsum C D (x 0) (x 1)))

end Stores

section Correct

variable {R : Type*} {c : Core Pipe} {prog : Code R}

structure Correct (c : Core Pipe) (prog : Code R) (stores : (ℕ → Buffer R) → ℕ → Buffer R) :
    Prop where
  bounded : ∀ m is s, Run c Access.run prog m is s → is.length ≤ prog.length
  finishes : ∀ m is s, Run c Access.run prog m is s →
    ∃ js s', Run c Access.run prog m (is ++ js) s' ∧ Finished prog s'
  unstuck : ∀ m is s, Run c Access.run prog m is s → Runs.Stuck (step c Access.run prog) s →
    Finished prog s
  final : ∀ m is s, Run c Access.run prog m is s → Finished prog s → args s.mem = stores (args m)

theorem Correct.of_tame {stores : (ℕ → Buffer R) → ℕ → Buffer R} (hp : Paired prog)
    (ht : Tame c Access.run prog) (h : ∀ m, args (runAll Access.run prog m) = stores (args m)) :
    Correct c prog stores :=
  ⟨fun _ _ _ hrun => (run_inv hp hrun).length_le, fun _ _ _ hrun => run_finishes hp hrun,
    fun _ _ _ hrun => finished_of_stuck hp hrun,
    fun m _ _ hrun hfin => run_final hp ht hrun hfin ▸ h m⟩

/-- The order that every core keeps, whichever pipes are serial. -/
def weakest : Core Pipe := aiCore (fun _ => false) 0

theorem Ordered.of_weakest {serial : Pipe → Bool} {depth i j : ℕ} (h : Ordered weakest prog i j) :
    Ordered (aiCore serial depth) prog i j :=
  Pipes.Ordered.mono (c := weakest) rfl (fun _ => nofun) h

theorem Tame.of_weakest {serial : Pipe → Bool} {depth : ℕ} (pairs : List (ℕ × ℕ))
    (hpairs : unordered weakest prog = pairs)
    (h : ∀ x ∈ pairs, Function.Commute (effectAt Access.run prog x.1)
      (effectAt Access.run prog x.2)) : Tame (aiCore serial depth) Access.run prog :=
  Tame.of_unordered (c := weakest) rfl (fun _ => nofun) (hpairs ▸ h)

end Correct

section Vector

variable {R : Type*} [Ring R] {exp : R → R} (serial : Pipe → Bool) (depth : ℕ)

theorem elt_correct (mode r c : ℕ) :
    Correct (aiCore serial depth) (elt mode r c) (eltStores (R := R) mode r c) := by
  have hab : (tile .ub 0x0 r c).Apart (tile .ub (r * c * 4) r c) := tile_apart (by omega)
  apply Correct.of_tame
  · repeat' constructor
  · refine Tame.of_weakest [(0, 1)] ?_ ?_
    · have hshape : (elt mode r c : Code R).map Instr.shape =
          (elt 0 0 0 : Code ℤ).map Instr.shape := rfl
      exact (unordered_congr hshape).trans (by decide)
    · intro x hx
      obtain rfl := List.mem_singleton.mp hx
      exact Access.map_commute_map hab (tile_apart_global _ _ _) (tile_apart_global _ _ _)
  · intro m
    simp only [elt, runAll_cons, runAll_nil, tload, tstore, vzip, Instr.effect,
      Access.map, Access.zip, Access.write, id, args_put_global, args_put_tile, get_put,
      get_put_apart hab, global_get]
    rfl

theorem chunkOPrep_correct (C K : ℕ) :
    Correct (aiCore serial depth) (chunkOPrep exp C K) (oPrepStores exp C K) := by
  have hsize : 2 * C * K = 2 * (C * K) := Nat.mul_assoc 2 C K
  have hge : (tile .ub 0x0 C K).Apart (tile .ub (C * K * 4) C K) := tile_apart (by omega)
  have hgx : (tile .ub 0x0 C K).Apart (tile .ub (2 * C * K * 4) C K) := tile_apart (by omega)
  have hex : (tile .ub (C * K * 4) C K).Apart (tile .ub (2 * C * K * 4) C K) :=
    tile_apart (by omega)
  apply Correct.of_tame
  · repeat' constructor
  · refine Tame.of_weakest [(0, 5), (3, 5), (12, 13), (12, 15), (13, 19), (15, 19)] ?_ ?_
    · have hshape : (chunkOPrep exp C K).map Instr.shape =
          (chunkOPrep (id : ℤ → ℤ) 0 0).map Instr.shape := rfl
      exact (unordered_congr hshape).trans (by decide)
    · intro x hx
      have hstore (a : Bank) (addr i : ℕ) : (tile a addr C K).Apart (global i C K) :=
        tile_apart_global a addr i
      fin_cases hx
      · exact Access.map_commute_map hgx (hstore _ _ _) (hstore _ _ _)
      · exact Access.map_commute_map hex (hstore _ _ _) hgx.symm
      · exact Access.map_commute_map (hstore _ _ _).symm (hstore _ _ _).symm hgx
      · exact Access.map_commute_map (hstore _ _ _).symm (hstore _ _ _).symm hgx
      · exact Access.map_commute_map hgx (hstore _ _ _) hgx.symm
      · exact Access.map_commute_map hgx (hstore _ _ _) hgx.symm
  · intro m
    have h43 : (4 : ℕ) ≠ 3 := by decide
    have h13 : (1 : ℕ) ≠ 3 := by decide
    simp only [chunkOPrep, runAll_cons, runAll_nil, tload, tstore, vzip, vmap,
      Instr.effect, Access.map, Access.zip, Access.write, id, args_put_global, args_put_tile,
      get_put, get_put_apart hge, get_put_apart hgx, get_put_apart hex, tile_get_put_global,
      global_get, Function.update_of_ne h43, Function.update_of_ne h13, neg_one_smul]
    rfl

theorem chunkHUpdate_correct (isFirst K V : ℕ) : Correct (aiCore serial depth)
    (chunkHUpdate isFirst K V) (hUpdateStores (R := R) isFirst K V) := by
  have hsize : 2 * K * V = 2 * (K * V) := Nat.mul_assoc 2 K V
  have hsk : (tile .ub 0x0 K V).Apart (tile .ub (K * V * 4) K V) := tile_apart (by omega)
  have hsd : (tile .ub 0x0 K V).Apart (tile .ub (2 * K * V * 4) K 1) := tile_apart (by omega)
  have hkd : (tile .ub (K * V * 4) K V).Apart (tile .ub (2 * K * V * 4) K 1) :=
    tile_apart (by omega)
  have h23 : (2 : ℕ) ≠ 3 := by decide
  have hload (addr i r c : ℕ) : (tile .ub addr K V).Apart (global i r c) :=
    tile_apart_global _ _ _
  by_cases hfirst : isFirst ≠ 0
  · simp only [chunkHUpdate, if_pos hfirst]
    apply Correct.of_tame
    · repeat' constructor
    · refine Tame.of_weakest [(0, 1), (3, 4)] ?_ ?_
      · have hshape : (chunkHUpdate 1 K V : Code R).map Instr.shape =
            (chunkHUpdate 1 0 0 : Code ℤ).map Instr.shape := rfl
        exact (unordered_congr hshape).trans (by decide)
      · intro x hx
        fin_cases hx
        · exact Access.map_commute_fill hsk.symm (hload _ _ _ _)
        · exact Access.map_commute_map (global_apart h23.symm 0 0) (hload _ _ _ _).symm
            (hload _ _ _ _).symm
    · intro m
      simp only [runAll_cons, runAll_nil, tload, tstore, texpands, Instr.effect,
        Access.map, Access.fill, Access.write, id, args_put_global, args_put_tile, get_put,
        get_put_apart hsk.symm, tile_get_put_global, global_get, Function.update_of_ne h23]
      rw [hUpdateStores, SimplerKernels.chunkHUpdate, if_pos hfirst]
      rfl
  · simp only [chunkHUpdate, if_neg hfirst]
    apply Correct.of_tame
    · repeat' constructor
    · refine Tame.of_weakest [(0, 1), (0, 2), (1, 2)] ?_ ?_
      · have hshape : (chunkHUpdate 0 K V : Code R).map Instr.shape =
            (chunkHUpdate 0 0 0 : Code ℤ).map Instr.shape := rfl
        exact (unordered_congr hshape).trans (by decide)
      · intro x hx
        fin_cases hx
        · exact Access.map_commute_map hsk.symm (hload _ _ _ _) (hload _ _ _ _)
        · exact Access.map_commute_map hkd (hload _ _ _ _) (tile_apart_global _ _ _)
        · exact Access.map_commute_map hsd (hload _ _ _ _) (tile_apart_global _ _ _)
    · intro m
      simp only [runAll_cons, runAll_nil, tload, tstore, vzip, Instr.effect,
        Access.map, Access.zip, Access.write, id, args_put_global, args_put_tile, get_put,
        get_put_apart hsk.symm, get_put_apart hsd, get_put_apart hkd, tile_get_put_global,
        global_get, Function.update_of_ne h23]
      rw [hUpdateStores, SimplerKernels.chunkHUpdate, if_neg hfirst]
      rfl

end Vector

section Cube

variable {R : Type*} [Ring R] (serial : Pipe → Bool) (depth : ℕ)

theorem mmImpl_correct {ar ac br bc : ℕ} (M N Kc : ℕ)
    (fa : Matrix (Fin ar) (Fin ac) R → Matrix (Fin M) (Fin Kc) R)
    (fb : Matrix (Fin br) (Fin bc) R → Matrix (Fin Kc) (Fin N) R) (hfit : ar * ac * 4 ≤ 0x20000) :
    Correct (aiCore serial depth) (mmImpl M N Kc fa fb) fun x => Function.update x 2
      ((x 2).store 0 (fa (Buffer.load ar ac (x 0)) * fb (Buffer.load br bc (x 1)))) := by
  have hab : (tile .l1 0x0 ar ac).Apart (tile .l1 0x20000 br bc) := tile_apart (by omega)
  have hbank {bank bank' : Bank} (h : bank ≠ bank') {m n m' n' : ℕ} (addr addr' : ℕ) :
      (tile bank addr m n).Apart (tile bank' addr' m' n') := bank_apart h addr addr'
  apply Correct.of_tame
  · repeat' constructor
  · refine Tame.of_weakest [(0, 1), (6, 7)] ?_ ?_
    · have hshape : (mmImpl M N Kc fa fb).map Instr.shape =
          (mmImpl 0 0 0 id id : Code ℤ).map Instr.shape := rfl
      exact (unordered_congr hshape).trans (by decide)
    · intro x hx
      fin_cases hx
      · exact Access.map_commute_map hab (tile_apart_global _ _ _) (tile_apart_global _ _ _)
      · exact Access.map_commute_map (hbank (by decide) _ _) (hbank (by decide) _ _)
          (hbank (by decide) _ _)
  · intro m
    have hl0 : (tile .l0a 0x0 M Kc).Apart (tile .l0b 0x0 Kc N) := bank_apart (by decide) _ _
    have hl1 : (tile .l1 0x20000 br bc).Apart (tile .l0a 0x0 M Kc) := bank_apart (by decide) _ _
    simp only [mmImpl, runAll_cons, runAll_nil, tload, tstoreAcc, textract, tmatmul,
      Instr.effect, Access.map, Access.zip, Access.write, id, args_put_global, args_put_tile,
      get_put, get_put_apart hab, get_put_apart hl0, get_put_apart hl1, global_get]

theorem mmByMode_correct (mode M N Kc : ℕ) (hMK : M * Kc * 4 ≤ 0x20000) :
    Correct (aiCore serial depth) (mmByMode mode M N Kc) (matmulStores (R := R) mode M N Kc) := by
  have hKM : Kc * M * 4 ≤ 0x20000 := by rwa [Nat.mul_comm Kc M]
  have hstores : matmulStores (R := R) mode M N Kc = fun x => Function.update x 2
    ((x 2).store 0 (SimplerKernels.matmul mode M N Kc (x 0) (x 1))) := rfl
  rw [hstores]
  by_cases h1 : mode = 1
  · simp only [mmByMode, SimplerKernels.matmul, if_pos h1]
    exact mmImpl_correct serial depth M N Kc _ _ hKM
  · by_cases h2 : mode = 2
    · simp only [mmByMode, SimplerKernels.matmul, if_neg h1, if_pos h2]
      exact mmImpl_correct serial depth M N Kc _ _ hMK
    · simp only [mmByMode, SimplerKernels.matmul, if_neg h1, if_neg h2]
      exact mmImpl_correct serial depth M N Kc _ _ hMK

theorem trilmatmul_correct (rM rN rK : ℕ) (hfit : rM * rK * 4 ≤ 0x20000) :
    Correct (aiCore serial depth) (trilmatmul rM rN rK : Code R) fun x => Function.update x 2
      ((x 2).store 0 (Buffer.load rM rK (x 0) * Buffer.load rK rN (x 1))) := by
  have hab : (tile .l1 0x0 rM rK).Apart (tile .l1 0x20000 rK rN) := tile_apart (by omega)
  have hbank {bank bank' : Bank} (h : bank ≠ bank') {m n m' n' : ℕ} (addr addr' : ℕ) :
      (tile bank addr m n).Apart (tile bank' addr' m' n') := bank_apart h addr addr'
  apply Correct.of_tame
  · repeat' constructor
  · refine Tame.of_weakest [(0, 1), (4, 5)] ?_ ?_
    · have hshape : (trilmatmul rM rN rK : Code R).map Instr.shape =
          (trilmatmul 0 0 0 : Code ℤ).map Instr.shape := rfl
      exact (unordered_congr hshape).trans (by decide)
    · intro x hx
      fin_cases hx
      · exact Access.map_commute_map hab (tile_apart_global _ _ _) (tile_apart_global _ _ _)
      · exact Access.map_commute_map (hbank (by decide) _ _) (hbank (by decide) _ _)
          (hbank (by decide) _ _)
  · intro m
    have hl0 : (tile .l0a 0x0 rM rK).Apart (tile .l0b 0x0 rK rN) := bank_apart (by decide) _ _
    have hl1 : (tile .l1 0x20000 rK rN).Apart (tile .l0a 0x0 rM rK) := bank_apart (by decide) _ _
    simp only [trilmatmul, runAll_cons, runAll_nil, tload, tstoreAcc, textract,
      tmatmul, Instr.effect, Access.map, Access.zip, Access.write, id, args_put_global,
      args_put_tile, get_put, get_put_apart hab, get_put_apart hl0, get_put_apart hl1, global_get]

end Cube

section Race

variable {R : Type*} [CommRing R] {exp : R → R} (serial : Pipe → Bool) (depth : ℕ)

theorem idxOf_lt_of_sublist {i j : ℕ} {is : List ℕ} (hnodup : is.Nodup) (h : [i, j].Sublist is) :
    is.idxOf i < is.idxOf j := by
  obtain ⟨l, r, rfl, hi, hj⟩ := List.cons_sublist_iff.mp h
  have hjl : j ∉ l := fun hjl =>
    (List.nodup_append.mp hnodup).2.2 j hjl j (List.singleton_sublist.mp hj) rfl
  rw [List.idxOf_append_of_mem hi, List.idxOf_append_of_notMem hjl]
  exact Nat.lt_add_right _ (List.idxOf_lt_length_of_mem hi)

section Facts

variable (exp) (C K : ℕ)

theorem gcs_apart_coeff : (tile .ub 0x0 C K).Apart (tile .ub (C * K * 4) C K) :=
  tile_apart (by omega)

theorem gcs_apart_gtot : (tile .ub 0x0 C K).Apart (tile .ub (2 * C * K * 4) 1 K) := by
  have hsize : 2 * C * K = 2 * (C * K) := Nat.mul_assoc 2 C K
  exact tile_apart (by omega)

theorem coeff_apart_gtot : (tile .ub (C * K * 4) C K).Apart (tile .ub (2 * C * K * 4) 1 K) := by
  have hsize : 2 * C * K = 2 * (C * K) := Nat.mul_assoc 2 C K
  exact tile_apart (by omega)

theorem coeff_apart_decay :
    (tile .ub (C * K * 4) C K).Apart (tile .ub (2 * C * K * 4 + K * 4) 1 K) := by
  have hsize : 2 * C * K = 2 * (C * K) := Nat.mul_assoc 2 C K
  exact tile_apart (by omega)

theorem chunkHPrep_paired : Paired (chunkHPrep exp C K) := by
  repeat' constructor

theorem chunkHPrep_unordered : unordered weakest (chunkHPrep exp C K) =
    [(0, 1), (6, 10), (8, 10), (17, 18), (17, 22)] := by
  have hshape : (chunkHPrep exp C K).map Instr.shape =
      (chunkHPrep (id : ℤ → ℤ) 0 0).map Instr.shape := rfl
  exact (unordered_congr hshape).trans (by decide)

theorem chunkHPrep_pairs {i j : ℕ} (hij : i < j) (hj : j < 23) (hne : ¬ (i = 6 ∧ j = 10)) :
    Ordered (aiCore serial depth) (chunkHPrep exp C K) i j ∨ Function.Commute
      (effectAt Access.run (chunkHPrep exp C K) i)
      (effectAt Access.run (chunkHPrep exp C K) j) := by
  have hstore (addr i r c r' c' : ℕ) : (tile .ub addr r c).Apart (global i r' c') :=
    tile_apart_global _ _ _
  rcases ordered_or_commute weakest Access.run (chunkHPrep exp C K) hij hj with hord | hmem | hcomm
  · exact .inl (Ordered.of_weakest hord)
  · right
    rw [chunkHPrep_unordered] at hmem
    simp only [List.mem_cons, Prod.mk.injEq, List.not_mem_nil, or_false] at hmem
    obtain ⟨rfl, rfl⟩ | hrace | ⟨rfl, rfl⟩ | ⟨rfl, rfl⟩ | ⟨rfl, rfl⟩ := hmem
    · exact Access.map_commute_map (gcs_apart_gtot C K) (hstore _ _ _ _ _ _)
        (hstore _ _ _ _ _ _)
    · exact absurd hrace hne
    · exact Access.map_commute_map (gcs_apart_coeff C K).symm (hstore _ _ _ _ _ _)
        (gcs_apart_coeff C K)
    · exact Access.map_commute_map (hstore _ _ _ _ _ _).symm (hstore _ _ _ _ _ _).symm
        (coeff_apart_decay C K).symm
    · exact Access.map_commute_map (global_apart (by decide) 0 0) (hstore _ _ _ _ _ _).symm
        (hstore _ _ _ _ _ _).symm
  · exact .inr hcomm

theorem chunkHPrep_inOrder (m : Memory Space R) :
    args (runAll Access.run (chunkHPrep exp C K) m) = hPrepStores exp C K (args m 0) (args m) := by
  have h43 : (4 : ℕ) ≠ 3 := by decide
  simp only [chunkHPrep, runAll_cons, runAll_nil, tload, tstore, vzip, vmap,
    tcolexpand, Instr.effect, Access.map, Access.zip, Access.write, id, args_put_global,
    args_put_tile, get_put, get_put_apart (gcs_apart_coeff C K),
    get_put_apart (gcs_apart_coeff C K).symm, get_put_apart (gcs_apart_gtot C K),
    get_put_apart (gcs_apart_gtot C K).symm, get_put_apart (coeff_apart_gtot C K).symm,
    tile_get_put_global, global_get, Function.update_of_ne h43]
  rw [hPrepStores, SimplerKernels.chunkHPrep]
  dsimp only
  rw [hadamard_comm]
  rfl

def reloadFirst : List ℕ :=
  [0, 1, 2, 3, 4, 5, 10, 6, 7, 8, 9, 11, 12, 13, 14, 15, 16, 17, 18, 19, 20, 21, 22]

theorem chunkHPrep_reloadFirst (m : Memory Space R) :
    args (reloadFirst.foldl (fun m i => effectAt Access.run (chunkHPrep exp C K) i m) m) =
      hPrepStores exp C K (args m 2) (args m) := by
  have h43 : (4 : ℕ) ≠ 3 := by decide
  simp only [reloadFirst, List.foldl_cons, List.foldl_nil, effectAt, chunkHPrep,
    List.getElem?_cons_succ, List.getElem?_cons_zero, Option.elim_some, tload, tstore, vzip, vmap,
    tcolexpand, Instr.effect, Access.map, Access.zip, Access.write, id, args_put_global,
    args_put_tile, get_put, get_put_apart (gcs_apart_coeff C K),
    get_put_apart (gcs_apart_coeff C K).symm, get_put_apart (gcs_apart_gtot C K).symm,
    get_put_apart (coeff_apart_gtot C K).symm, tile_get_put_global, global_get,
    Function.update_of_ne h43]
  rw [hPrepStores, SimplerKernels.chunkHPrep]
  dsimp only
  rw [hadamard_comm]
  rfl

theorem reloadFirst_pairs : reloadFirst.Pairwise fun i j =>
    (Ordered (aiCore serial depth) (chunkHPrep exp C K) i j ∨ (i = 10 ∧ j = 6)) ∨ Function.Commute
      (effectAt Access.run (chunkHPrep exp C K) i)
      (effectAt Access.run (chunkHPrep exp C K) j) := by
  have horder : reloadFirst.Pairwise fun i j => (i < j ∧ j < 23 ∧ ¬ (i = 6 ∧ j = 10)) ∨
      (i = 10 ∧ (j = 6 ∨ j = 7 ∨ j = 8 ∨ j = 9)) := by
    decide
  refine horder.imp fun {i j} h => ?_
  obtain ⟨hij, hj, hne⟩ | ⟨rfl, rfl | rfl | rfl | rfl⟩ := h
  · exact (chunkHPrep_pairs exp serial depth C K hij hj hne).imp .inl id
  · exact .inl (.inr ⟨rfl, rfl⟩)
  · exact .inr Function.Commute.id_right
  · exact .inr (Access.map_commute_map (gcs_apart_coeff C K) (gcs_apart_coeff C K)
      (tile_apart_global _ _ _))
  · exact .inr Function.Commute.id_right

theorem chunkHPrep_final {m : Memory Space R} {s : State Pipe ℕ (Memory Space R)} {is : List ℕ}
    (h : Run (aiCore serial depth) Access.run (chunkHPrep exp C K) m is s)
    (hfin : Finished (chunkHPrep exp C K) s) : args s.mem =
      hPrepStores exp C K (if is.idxOf 6 < is.idxOf 10 then args m 0 else args m 2) (args m) := by
  have hp := chunkHPrep_paired exp C K
  have hkept {i j : ℕ} (hle : is.idxOf i ≤ is.idxOf j) :
      is.Pairwise fun a b => ¬ (b = i ∧ a = j) := by
    apply List.pairwise_iff_forall_sublist.mpr
    rintro a b hsub ⟨rfl, rfl⟩
    have hlt := idxOf_lt_of_sublist (run_inv hp h).nodup hsub
    omega
  split_ifs with horder
  · rw [← chunkHPrep_inOrder, runAll_eq]
    refine congrArg args (run_order hp h hfin (List.Perm.refl _) (hkept horder.le) ?_)
    apply List.pairwise_iff_getElem.mpr
    intro i j hi hj hij
    rw [List.getElem_range, List.getElem_range]
    rw [List.length_range] at hj
    by_cases hrace : i = 6 ∧ j = 10
    · exact .inl (.inr hrace)
    · exact (chunkHPrep_pairs exp serial depth C K hij hj hrace).imp .inl id
  · have hperm : reloadFirst.Perm (List.range 23) := by decide
    rw [← chunkHPrep_reloadFirst]
    exact congrArg args (run_order hp h hfin hperm (hkept (Nat.not_lt.mp horder))
      (reloadFirst_pairs exp serial depth C K))

theorem chunkHPrep_inTime (m : Memory Space R) : ∃ is s,
    Run (aiCore serial depth) Access.run (chunkHPrep exp C K) m is s ∧
      Finished (chunkHPrep exp C K) s ∧ is.idxOf 6 < is.idxOf 10 := by
  have hp := chunkHPrep_paired exp C K
  obtain ⟨s, hs⟩ : ∃ s, Run (aiCore serial depth) Access.run (chunkHPrep exp C K) m
      (List.range 23) s := exists_run_range hp _ m le_rfl
  refine ⟨_, s, hs, ?_, by decide⟩
  ext i
  rw [(run_inv hp hs).mem_done, List.mem_range, Finset.mem_range]
  rfl

theorem chunkHPrep_race (m : Memory Space R) : ∃ is s,
    Run (aiCore serial depth) Access.run (chunkHPrep exp C K) m is s ∧
      Finished (chunkHPrep exp C K) s ∧ is.idxOf 10 < is.idxOf 6 := by
  have hp := chunkHPrep_paired exp C K
  obtain ⟨s, hs⟩ : ∃ s, Run (aiCore serial depth) Access.run (chunkHPrep exp C K) m
      (List.range 6) s := exists_run_range hp _ m (by decide : 6 ≤ 23)
  have hdone (i : ℕ) : i ∈ s.done ↔ i < 6 := by rw [(run_inv hp hs).mem_done, List.mem_range]
  obtain ⟨s', hs'⟩ : ∃ s', step (aiCore serial depth) Access.run (chunkHPrep exp C K) s 10 =
      some s' := by
    refine ⟨_, step_cases.mpr ⟨_, rfl, fun h => absurd ((hdone 10).mp h) (by decide), ?_, rfl, rfl⟩⟩
    intro j hj hheld
    apply (hdone j).mpr
    by_contra hge
    obtain rfl | rfl | rfl | rfl : j = 6 ∨ j = 7 ∨ j = 8 ∨ j = 9 := by omega
    all_goals cases hheld
  obtain ⟨js, s'', hrun, hfin⟩ := run_finishes hp (Runs.exec_snoc.mpr ⟨s, hs, hs'⟩)
  refine ⟨_, s'', hrun, hfin, ?_⟩
  have h10 : (List.range 6 ++ [10] ++ js).idxOf 10 = 6 := by
    rw [List.idxOf_append_of_mem (by decide)]
    decide
  have h6 : (List.range 6 ++ [10] ++ js).idxOf 6 = 7 + js.idxOf 6 := by
    rw [List.idxOf_append_of_notMem (by decide)]
    rfl
  omega

end Facts

end Race

section Entries

variable {R : Type*} (serial : Pipe → Bool) (depth : ℕ)

theorem matmul_fits (M Kc : ℕ) : template M * template Kc * 4 ≤ 0x20000 := by
  have hle := Nat.mul_le_mul (template_le M) (template_le Kc)
  omega

section Ring

variable [Ring R] (exp : R → R) {r c k : ℕ} (hr : r ∈ sizes) (hc : c ∈ sizes) (hk : k ∈ sizes)
include hr hc

theorem eltEntry_correct (mode : ℕ) : Correct (aiCore serial depth)
    (eltEntry mode r c) (eltStores (R := R) mode r c) := by
  rw [eltEntry, template_eq hr, template_eq hc]
  exact elt_correct serial depth mode r c

theorem oPrepEntry_correct :
    Correct (aiCore serial depth) (oPrepEntry exp r c) (oPrepStores exp r c) := by
  rw [oPrepEntry, template_eq hr, template_eq hc]
  exact chunkOPrep_correct serial depth r c

theorem hUpdateEntry_correct (isFirst : ℕ) : Correct (aiCore serial depth)
    (hUpdateEntry isFirst r c) (hUpdateStores (R := R) isFirst r c) := by
  rw [hUpdateEntry, template_eq hr, template_eq hc]
  exact chunkHUpdate_correct serial depth isFirst r c

theorem cumsumEntry_correct : Correct (aiCore serial depth)
    (cumsumEntry r c) (cumsumStores (R := R) r c) := by
  have hfit := matmul_fits r r
  rw [template_eq hr] at hfit
  rw [cumsumEntry, template_eq hr, template_eq hc]
  exact trilmatmul_correct serial depth r c r hfit

include hk

theorem matmulEntry_correct (mode : ℕ) : Correct (aiCore serial depth)
    (matmulEntry mode r c k) (matmulStores (R := R) mode r c k) := by
  have hfit := matmul_fits r k
  rw [template_eq hr, template_eq hk] at hfit
  rw [matmulEntry, template_eq hr, template_eq hc, template_eq hk]
  exact mmByMode_correct serial depth mode r c k hfit

end Ring

theorem kernelEntries_correct [Ring R] (exp : R → R) {r c k : ℕ} (hr : r ∈ sizes) (hc : c ∈ sizes)
    (hk : k ∈ sizes) (mode isFirst : ℕ) :
    Correct (aiCore serial depth) (cumsumEntry r c) (cumsumStores (R := R) r c) ∧
      Correct (aiCore serial depth) (matmulEntry mode r c k)
        (matmulStores (R := R) mode r c k) ∧
      Correct (aiCore serial depth) (eltEntry mode r c) (eltStores (R := R) mode r c) ∧
      Correct (aiCore serial depth) (oPrepEntry exp r c) (oPrepStores exp r c) ∧
      Correct (aiCore serial depth) (hUpdateEntry isFirst r c)
        (hUpdateStores (R := R) isFirst r c) := by
  refine ⟨?_, ?_, ?_, ?_, ?_⟩
  · exact cumsumEntry_correct serial depth hr hc
  · exact matmulEntry_correct serial depth hr hc hk mode
  · exact eltEntry_correct serial depth hr hc mode
  · exact oPrepEntry_correct serial depth exp hr hc
  · exact hUpdateEntry_correct serial depth hr hc isFirst

theorem kernelEntries_correct_add : ∃ m is s,
    args m 0 5 = (3 : ℤ) ∧ args m 1 5 = 4 ∧
      Run (aiCore (fun _ => false) 0) Access.run (eltEntry 1 16 32) m is s ∧
        Finished (eltEntry 1 16 32 : Code ℤ) s ∧ args s.mem 2 5 = 7 := by
  obtain ⟨-, -, helt, -⟩ := kernelEntries_correct (fun _ => false) 0 (id : ℤ → ℤ) (r := 16)
    (c := 32) (k := 16) (by decide) (by decide) (by decide) 1 0
  let memory : Memory Space ℤ := fun l => if l.1 = .gm 0 then 3 else 4
  obtain ⟨js, s, hrun, hfin⟩ := helt.finishes memory [] (start memory) rfl
  refine ⟨memory, _, s, rfl, rfl, hrun, hfin, ?_⟩
  rw [helt.final memory _ s hrun hfin]
  rfl

/-- `chunk_h_prep` ends on every core, but nothing orders the subtraction of the gates (6) before
the load of `k` over them (10): a run in which the load is done first stores the result for gates
`k`, and there are runs of both kinds. -/
theorem hPrepEntry_order [CommRing R] (exp : R → R) {r c : ℕ} (hr : r ∈ sizes) (hc : c ∈ sizes) :
    (∀ m is s, Run (aiCore serial depth) Access.run (hPrepEntry exp r c) m is s →
      is.length ≤ (hPrepEntry exp r c).length ∧
      (∃ js s', Run (aiCore serial depth) Access.run (hPrepEntry exp r c) m (is ++ js) s' ∧
        Finished (hPrepEntry exp r c) s') ∧
      (Finished (hPrepEntry exp r c) s → args s.mem = hPrepStores exp r c
        (if is.idxOf 6 < is.idxOf 10 then args m 0 else args m 2) (args m))) ∧
    ∀ m : Memory Space R, (∃ is s,
      Run (aiCore serial depth) Access.run (hPrepEntry exp r c) m is s ∧
        Finished (hPrepEntry exp r c) s ∧ is.idxOf 6 < is.idxOf 10) ∧ ∃ is s,
      Run (aiCore serial depth) Access.run (hPrepEntry exp r c) m is s ∧
        Finished (hPrepEntry exp r c) s ∧ is.idxOf 10 < is.idxOf 6 := by
  rw [hPrepEntry, template_eq hr, template_eq hc]
  have hp := chunkHPrep_paired exp r c
  constructor
  · intro m is s hrun
    refine ⟨(run_inv hp hrun).length_le, run_finishes hp hrun, fun hfin => ?_⟩
    exact chunkHPrep_final exp serial depth r c hrun hfin
  · intro m
    exact ⟨chunkHPrep_inTime exp serial depth r c m, chunkHPrep_race exp serial depth r c m⟩

theorem hPrepEntry_order_both :
    let memory : Memory Space ℤ := fun l =>
      if l.1 = .gm 0 then 1 else if l.1 = .gm 1 then 2 else 3
    ∃ is s is' s',
      Run (aiCore (fun _ => true) 1) Access.run (hPrepEntry id 16 16) memory is s ∧
        Run (aiCore (fun _ => true) 1) Access.run (hPrepEntry id 16 16) memory is' s' ∧
          args s.mem 3 0 = 3 ∧ args s'.mem 3 0 = -3 := by
  intro memory
  obtain ⟨hfinal, hboth⟩ := hPrepEntry_order (fun _ => true) 1 (id : ℤ → ℤ) (r := 16) (c := 16)
    (by decide) (by decide)
  obtain ⟨⟨is, s, hrun, hfin, hlt⟩, is', s', hrun', hfin', hlt'⟩ := hboth memory
  refine ⟨is, s, is', s', hrun, hrun', ?_, ?_⟩
  · rw [(hfinal memory is s hrun).2.2 hfin, if_pos hlt]
    rfl
  · rw [(hfinal memory is' s' hrun').2.2 hfin', if_neg (Nat.lt_asymm hlt')]
    rfl

end Entries

end ZeCo.SimplerTiles
