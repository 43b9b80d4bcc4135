import ZeCo.AllscanCommon
import ZeCo.GlaCommon

namespace ZeCo

open Matrix

variable {R : Type*} {P N C dk dv : ℕ}

def setRows (lo hi : ℕ) (X Y : Matrix (Fin dk) (Fin dv) R) : Matrix (Fin dk) (Fin dv) R :=
  of fun d e => if lo ≤ d.val ∧ d.val < hi then Y d e else X d e

def setEntries (lo hi : ℕ) (x y : Fin dk → R) : Fin dk → R :=
  fun d => if lo ≤ d.val ∧ d.val < hi then y d else x d

theorem uncovered_row {K : ℕ} (h : ¬ K ∣ dk) : ∃ d : Fin dk, ¬ d.val < K * (dk / K) := by
  have hmul := Nat.mul_div_le dk K
  have hne : K * (dk / K) ≠ dk := fun he => h ⟨_, he.symm⟩
  exact ⟨⟨K * (dk / K), by omega⟩, Nat.lt_irrefl _⟩

namespace TorchAllscan

variable [Semiring R] (sLocals : States P dk dv R) (gammas : Decays P dk R)

def runBlock (lo hi : ℕ) (outputs : States P dk dv R) : States P dk dv R :=
  let outputs := if h : 0 < P then
    Function.update outputs ⟨0, h⟩ (setRows lo hi (outputs ⟨0, h⟩) (sLocals ⟨0, h⟩)) else outputs
  Loop.up (P - 1) (fun i outputs => Function.update outputs (upper i)
    (setRows lo hi (outputs (upper i))
      (sLocals (upper i) + rowScale (gammas (upper i)) (outputs (lower i))))) outputs

def run (K : ℕ) (outputs : States P dk dv R) : States P dk dv R :=
  let block := dk / K
  Loop.up K (fun k => runBlock sLocals gammas (k * block) ((k + 1) * block)) outputs

theorem runBlock_apply (lo hi : ℕ) (outputs : States P dk dv R) (p : Fin P) (d : Fin dk)
    (e : Fin dv) : runBlock sLocals gammas lo hi outputs p d e =
      if lo ≤ d.val ∧ d.val < hi then expectedAllscan sLocals gammas p d e else outputs p d e := by
  have key : ∀ (p : Fin P) (d : Fin dk) (e : Fin dv), runBlock sLocals gammas lo hi outputs p d e =
      if (lo ≤ d.val ∧ d.val < hi) ∧ p.val ≤ P - 1 then expectedAllscan sLocals gammas p d e
      else outputs p d e := by
    unfold runBlock
    apply Loop.up_invariant fun n (out : States P dk dv R) => ∀ p d e, out p d e =
      if (lo ≤ d.val ∧ d.val < hi) ∧ p.val ≤ n then expectedAllscan sLocals gammas p d e
      else outputs p d e
    · intro p d e
      rw [dif_pos p.pos]
      by_cases hp : p = ⟨0, p.pos⟩
      · have h0 : p.val ≤ 0 := (congrArg Fin.val hp).le
        rw [← hp, Function.update_self, expectedAllscan_scans sLocals gammas p,
          sRecv_first _ (by omega), rowScale_zero, add_zero]
        simp [setRows, h0]
      · have h0 : ¬ p.val ≤ 0 := fun h => hp (Fin.ext (by simpa using h))
        rw [Function.update_of_ne hp]
        simp [h0]
    · intro i out ih p d e
      by_cases hp : p = upper i
      · subst hp
        rw [Function.update_self, expectedAllscan_scans sLocals gammas (upper i), sRecv_upper]
        by_cases hd : lo ≤ d.val ∧ d.val < hi
        · have hl : out (lower i) d e = expectedAllscan sLocals gammas (lower i) d e := by
            rw [ih, if_pos ⟨hd, le_rfl⟩]
          simp [setRows, hd, hl, upper]
        · simp [setRows, hd, ih (upper i)]
      · have hv : p.val ≠ i + 1 := fun h => hp (Fin.ext h)
        have hle : p.val ≤ i + 1 ↔ p.val ≤ i := by omega
        simp only [Function.update_of_ne hp, ih p d e, hle]
  rw [key p d e]
  have hp : p.val ≤ P - 1 := by omega
  simp only [hp, and_true]

theorem run_apply (K : ℕ) (outputs : States P dk dv R) (p : Fin P) (d : Fin dk) (e : Fin dv) :
    run sLocals gammas K outputs p d e =
      if d.val < K * (dk / K) then expectedAllscan sLocals gammas p d e else outputs p d e := by
  have key := Loop.up_invariant
    (f := fun k : Fin K => runBlock sLocals gammas (k * (dk / K)) ((k + 1) * (dk / K)))
    (s := outputs)
    (fun n out => ∀ p d e, out p d e =
      if d.val < n * (dk / K) then expectedAllscan sLocals gammas p d e else outputs p d e)
    (fun p d e => by simp) ?_
  · exact key p d e
  · intro k out ih p d e
    have hs : (k.val + 1) * (dk / K) = k * (dk / K) + dk / K := by ring
    change runBlock sLocals gammas (k * (dk / K)) ((k + 1) * (dk / K)) out p d e = _
    rw [hs, runBlock_apply, ih p d e]
    generalize dk / K = block
    split_ifs
    all_goals first | rfl | omega

theorem run_of_dvd {K : ℕ} (h : K ∣ dk) (outputs : States P dk dv R) :
    run sLocals gammas K outputs = expectedAllscan sLocals gammas := by
  funext p
  ext d e
  rw [run_apply, Nat.mul_div_cancel' h, if_pos d.isLt]

theorem run_full_iff [Nontrivial R] (hP : 0 < P) (K : ℕ) :
    (∀ outputs, run sLocals gammas K outputs = expectedAllscan sLocals gammas) ↔
      K ∣ dk ∨ dv = 0 := by
  constructor
  · intro h
    by_contra! hne
    obtain ⟨d, hd⟩ := uncovered_row hne.1
    obtain ⟨e⟩ : Nonempty (Fin dv) := Fin.pos_iff_nonempty.mp (Nat.pos_of_ne_zero hne.2)
    obtain ⟨x, hx⟩ := exists_ne (expectedAllscan sLocals gammas ⟨0, hP⟩ d e)
    -- the last rows keep what the caller's buffer held
    have hrow := congrFun (congrFun (congrFun (h fun _ => of fun _ _ => x) ⟨0, hP⟩) d) e
    rw [run_apply, if_neg hd] at hrow
    exact hx hrow
  · rintro (h | rfl) outputs
    · exact run_of_dvd sLocals gammas h outputs
    · funext p
      ext d e
      exact e.elim0

section Backward

variable (gOut : States P dk dv R) (outs : States P dk dv R)

def runBackwardBlock (lo hi : ℕ) (x : States P dk dv R × Decays P dk R) :
    States P dk dv R × Decays P dk R :=
  let dS := if h : 0 < P then Function.update x.1 (lastIndex h)
    (setRows lo hi (x.1 (lastIndex h)) (gOut (lastIndex h))) else x.1
  let dS := Loop.down (P - 1) (fun i dS => Function.update dS (lower i)
    (setRows lo hi (dS (lower i))
      (gOut (lower i) + rowScale (gammas (upper i)) (dS (upper i))))) dS
  let dgamma := Loop.up (P - 1) (fun i (dgamma : Decays P dk R) =>
    Function.update dgamma (upper i) (setEntries lo hi (dgamma (upper i))
      (rowSum (dS (upper i) ⊙ outs (lower i))))) x.2
  (dS, dgamma)

def runBackward (K : ℕ) (dS : States P dk dv R) (_dgamma : Decays P dk R) :
    States P dk dv R × Decays P dk R :=
  let block := dk / K
  let dgamma : Decays P dk R := fun _ => 0
  Loop.up K (fun k => runBackwardBlock gammas gOut outs (k * block) ((k + 1) * block)) (dS, dgamma)

theorem runBackwardBlock_dS (lo hi : ℕ) (x : States P dk dv R × Decays P dk R) (p : Fin P)
    (d : Fin dk) (e : Fin dv) : (runBackwardBlock gammas gOut outs lo hi x).1 p d e =
      if lo ≤ d.val ∧ d.val < hi then reverseScan gammas gOut p d e else x.1 p d e := by
  have key : ∀ (p : Fin P) (d : Fin dk) (e : Fin dv),
      (runBackwardBlock gammas gOut outs lo hi x).1 p d e =
      if (lo ≤ d.val ∧ d.val < hi) ∧ 0 ≤ p.val then reverseScan gammas gOut p d e
      else x.1 p d e := by
    unfold runBackwardBlock
    apply Loop.down_invariant fun n (dS : States P dk dv R) => ∀ p d e, dS p d e =
      if (lo ≤ d.val ∧ d.val < hi) ∧ n ≤ p.val then reverseScan gammas gOut p d e else x.1 p d e
    · intro p d e
      rw [dif_pos p.pos]
      by_cases hp : p = lastIndex p.pos
      · have hv : P - 1 ≤ p.val := (congrArg Fin.val hp).ge
        rw [← hp, Function.update_self, reverseScan_reverse gammas gOut p, message,
          dif_neg (by omega), add_zero]
        simp [setRows, hv]
      · have hv : ¬ P - 1 ≤ p.val := fun h => hp (Fin.ext (by simp only [lastIndex]; omega))
        rw [Function.update_of_ne hp]
        simp [hv]
    · intro i dS ih p d e
      by_cases hp : p = lower i
      · subst hp
        have hu : nextRank (lower i) = some (upper i) := nextRank_eq.mpr rfl
        have hm : prevRank (upper i) = some (lower i) := prevRank_eq.mpr rfl
        rw [Function.update_self, reverseScan_reverse gammas gOut (lower i),
          message_prevRank gammas _ hm]
        by_cases hd : lo ≤ d.val ∧ d.val < hi
        · have hl : dS (upper i) d e = reverseScan gammas gOut (upper i) d e := by
            rw [ih, if_pos ⟨hd, le_rfl⟩]
          simp [setRows, hd, hl, lower]
        · simp [setRows, hd, ih (lower i)]
      · have hv : p.val ≠ i := fun h => hp (Fin.ext h)
        have hle : i.val ≤ p.val ↔ i.val + 1 ≤ p.val := by omega
        simp only [Function.update_of_ne hp, ih p d e, hle]
  rw [key p d e]
  simp only [Nat.zero_le, and_true]

theorem runBackwardBlock_dgamma (lo hi : ℕ) (x : States P dk dv R × Decays P dk R) (p : Fin P)
    (d : Fin dk) : (runBackwardBlock gammas gOut outs lo hi x).2 p d =
      if (lo ≤ d.val ∧ d.val < hi) ∧ p.val ≠ 0 then gammaGrads (reverseScan gammas gOut) outs p d
      else x.2 p d := by
  have hdS := runBackwardBlock_dS gammas gOut outs lo hi x
  have key : ∀ (p : Fin P) (d : Fin dk), (runBackwardBlock gammas gOut outs lo hi x).2 p d =
      if (lo ≤ d.val ∧ d.val < hi) ∧ p.val ≠ 0 ∧ p.val ≤ P - 1 then
        gammaGrads (reverseScan gammas gOut) outs p d else x.2 p d := by
    apply Loop.up_invariant fun n (dgamma : Decays P dk R) => ∀ p d, dgamma p d =
      if (lo ≤ d.val ∧ d.val < hi) ∧ p.val ≠ 0 ∧ p.val ≤ n then
        gammaGrads (reverseScan gammas gOut) outs p d else x.2 p d
    · intro p d
      rw [if_neg (by omega)]
    · intro i dgamma ih p d
      by_cases hp : p = upper i
      · subst hp
        rw [Function.update_self]
        by_cases hd : lo ≤ d.val ∧ d.val < hi
        · rw [if_pos ⟨hd, Nat.succ_ne_zero i, le_rfl⟩, gammaGrads_apply, sRecv_upper, setEntries,
            if_pos hd]
          apply Finset.sum_congr rfl
          intro e _
          have hrow := hdS (upper i) d e
          rw [if_pos hd] at hrow
          exact congrArg (· * outs (lower i) d e) hrow
        · simp [setEntries, hd, ih (upper i)]
      · have hv : p.val ≠ i + 1 := fun h => hp (Fin.ext h)
        have hle : p.val ≤ i + 1 ↔ p.val ≤ i := by omega
        simp only [Function.update_of_ne hp, ih p d, hle]
  rw [key p d]
  have hp : p.val ≤ P - 1 := by omega
  simp only [hp, and_true]

theorem gammaGrads_first (dS : States P dk dv R) {p : Fin P} (hp : p.val = 0) :
    gammaGrads dS outs p = 0 := by
  funext d
  simp [gammaGrads_apply, sRecv_first _ hp]

/-- `run_backward` writes both gradients in the first `K * (dk // K)` rows; the rest of `dS` keeps
what it held, and the rest of `dgamma` is zero. -/
theorem runBackward_apply (K : ℕ) (dS : States P dk dv R) (dgamma : Decays P dk R) :
    (∀ p d e, (runBackward gammas gOut outs K dS dgamma).1 p d e =
      if d.val < K * (dk / K) then reverseScan gammas gOut p d e else dS p d e) ∧
    ∀ p d, (runBackward gammas gOut outs K dS dgamma).2 p d =
      if d.val < K * (dk / K) then gammaGrads (reverseScan gammas gOut) outs p d else 0 := by
  apply Loop.up_invariant
    (f := fun k : Fin K => runBackwardBlock gammas gOut outs (k * (dk / K)) ((k + 1) * (dk / K)))
    (s := (dS, fun _ => 0))
    (fun n x => (∀ p d e, x.1 p d e =
        if d.val < n * (dk / K) then reverseScan gammas gOut p d e else dS p d e) ∧
      ∀ p d, x.2 p d =
        if d.val < n * (dk / K) then gammaGrads (reverseScan gammas gOut) outs p d else 0)
    (by simp)
  intro k x ih
  have hs : (k.val + 1) * (dk / K) = k * (dk / K) + dk / K := by ring
  simp only [hs, runBackwardBlock_dS, runBackwardBlock_dgamma, ih.1, ih.2]
  generalize dk / K = block
  constructor
  · intro p d e
    split_ifs
    all_goals first | rfl | omega
  · intro p d
    by_cases hp : p.val = 0
    · simp only [gammaGrads_first outs _ hp, Pi.zero_apply, ite_self]
    · split_ifs
      all_goals first | rfl | omega

theorem runBackward_full_iff [Nontrivial R] (hP : 0 < P) (K : ℕ) :
    (∀ dS dgamma, runBackward gammas gOut outs K dS dgamma =
      expectedAllscanBackward gammas outs gOut) ↔ K ∣ dk ∨ dv = 0 := by
  constructor
  · intro h
    by_contra! hne
    obtain ⟨d, hd⟩ := uncovered_row hne.1
    obtain ⟨e⟩ : Nonempty (Fin dv) := Fin.pos_iff_nonempty.mp (Nat.pos_of_ne_zero hne.2)
    obtain ⟨x, hx⟩ := exists_ne (reverseScan gammas gOut ⟨0, hP⟩ d e)
    have hrow := (runBackward_apply gammas gOut outs K (fun _ => of fun _ _ => x) 0).1 ⟨0, hP⟩ d e
    rw [if_neg hd, h] at hrow
    exact hx hrow.symm
  · intro hK dS dgamma
    obtain ⟨hS, hg⟩ := runBackward_apply gammas gOut outs K dS dgamma
    rcases hK with hK | rfl
    · apply Prod.ext
      · funext p
        ext d e
        rw [hS, Nat.mul_div_cancel' hK, if_pos d.isLt]
        rfl
      · funext p d
        rw [hg, Nat.mul_div_cancel' hK, if_pos d.isLt]
        rfl
    · apply Prod.ext
      · funext p
        ext d e
        exact e.elim0
      · funext p d
        have hzero : gammaGrads (reverseScan gammas gOut) outs p d = 0 := by
          rw [gammaGrads_apply, rowSum_apply, Fin.sum_univ_zero]
        rw [hg, hzero, ite_self]
        exact hzero.symm

end Backward

/-- A positive `K` raises nothing, whatever `dk` is. The reference backend is complete exactly when
`K` divides `dk`, unless the state has no columns. -/
theorem torchAllscan_complete_iff [Nontrivial R] (hP : 0 < P) (K : ℕ)
    (gOut outs : States P dk dv R) :
    ((∀ outputs, run sLocals gammas K outputs = expectedAllscan sLocals gammas) ∧
      ∀ dS dgamma, runBackward gammas gOut outs K dS dgamma =
        expectedAllscanBackward gammas outs gOut) ↔ K ∣ dk ∨ dv = 0 := by
  rw [run_full_iff sLocals gammas hP, runBackward_full_iff gammas gOut outs hP, and_self]

theorem torchAllscan_complete_iff_four_rows :
    ((∀ outputs, run (fun _ => 1 : States 2 4 4 ℤ) (fun _ _ => 1) 2 outputs =
        expectedAllscan (fun _ => 1) fun _ _ => 1) ∧
      ∀ dS dgamma, runBackward (fun _ _ => 1) (fun _ => 1 : States 2 4 4 ℤ) (fun _ => 1) 2 dS
        dgamma = expectedAllscanBackward (fun _ _ => 1) (fun _ => 1) fun _ => 1) ↔ 2 ∣ 4 ∨ 4 = 0 :=
  torchAllscan_complete_iff (fun _ => 1) (fun _ _ => 1) (by decide) 2 (fun _ => 1) fun _ => 1

theorem torchAllscan_incomplete :
    (¬ ∀ outputs, run (fun _ => 1 : States 1 3 3 ℤ) (fun _ _ => 1) 2 outputs =
        expectedAllscan (fun _ => 1) fun _ _ => 1) ∧
      ¬ ∀ dS dgamma, runBackward (fun _ _ => 1) (fun _ => 1) (fun _ => 1 : States 1 3 3 ℤ) 2 dS
        dgamma = expectedAllscanBackward (fun _ _ => 1) (fun _ => 1) fun _ => 1 := by
  constructor
  · intro h
    have hrow := congrFun (congrFun (congrFun (h fun _ => 0) 0) 2) 2
    revert hrow
    decide
  · intro h
    have hrow := congrFun (congrFun (congrFun (congrArg Prod.fst (h (fun _ => 0) 0)) 0) 2) 2
    revert hrow
    decide

end TorchAllscan

namespace TorchZeCo

variable [Field R] (Q K : Fin P → Matrix (Fin (N * C)) (Fin dk) R)
  (V : Fin P → Matrix (Fin (N * C)) (Fin dv) R) (A : Fin P → Matrix (Fin (N * C)) (Fin dk) R)

def forward : Fin P → Matrix (Fin (N * C)) (Fin dv) R :=
  let caches p := glaChunkScan (Q p) (K p) (V p) (A p)
  let sLocals p := (caches p).sTotal
  let gammas p := (caches p).gTotal
  let outs := TorchAllscan.run sLocals gammas 1 (fun _ => 0)
  fun p => glaReconstruct (Q p) (A p) (caches p).sPrev (caches p).cPrev (sRecv outs p)
    (caches p).oIntra

end TorchZeCo

end ZeCo
