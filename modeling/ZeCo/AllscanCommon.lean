import ZeCo.Loop
import ZeCo.Tensor

namespace ZeCo

open Matrix

variable {R : Type*} {P dk dv : ℕ}

abbrev States (P dk dv : ℕ) (R : Type*) := Fin P → Matrix (Fin dk) (Fin dv) R

abbrev Decays (P dk : ℕ) (R : Type*) := Fin P → Fin dk → R

def lower (i : Fin (P - 1)) : Fin P := ⟨i, by omega⟩

def upper (i : Fin (P - 1)) : Fin P := ⟨i + 1, by omega⟩

def expectedAllscan [Semiring R] (sLocals : States P dk dv R) (gammas : Decays P dk R) :
    States P dk dv R :=
  let out : States P dk dv R := fun _ => 0
  let out := if h : 0 < P then Function.update out ⟨0, h⟩ (sLocals ⟨0, h⟩) else out
  Loop.up (P - 1) (fun i out => Function.update out (upper i)
    (sLocals (upper i) + rowScale (gammas (upper i)) (out (lower i)))) out

def reverseScan [Semiring R] (gammas : Decays P dk R) (gOut : States P dk dv R) :
    States P dk dv R :=
  let dS : States P dk dv R := fun _ => 0
  let dS := if h : 0 < P then
    Function.update dS (lastIndex h) (gOut (lastIndex h)) else dS
  Loop.down (P - 1) (fun i dS => Function.update dS (lower i)
    (gOut (lower i) + rowScale (gammas (upper i)) (dS (upper i)))) dS

def gammaGrads [Semiring R] (dS outs : States P dk dv R) : Decays P dk R :=
  let dgamma : Decays P dk R := fun _ => 0
  Loop.up (P - 1) (fun i (dgamma : Decays P dk R) => Function.update dgamma (upper i)
    (rowSum (dS (upper i) ⊙ outs (lower i)))) dgamma

def expectedAllscanBackward [Semiring R] (gammas : Decays P dk R) (outs gOut : States P dk dv R) :
    States P dk dv R × Decays P dk R :=
  let dS := reverseScan gammas gOut
  (dS, gammaGrads dS outs)

def sRecv [Zero R] (outs : States P dk dv R) (p : Fin P) : Matrix (Fin dk) (Fin dv) R :=
  if p.val = 0 then 0 else outs ⟨p - 1, pred_lt p⟩

def gOutOf [Zero R] (dSRecv : States P dk dv R) (p : Fin P) : Matrix (Fin dk) (Fin dv) R :=
  if h : p.val + 1 < P then dSRecv ⟨p + 1, h⟩ else 0

theorem sRecv_first [Zero R] (outs : States P dk dv R) {p : Fin P} (h : p.val = 0) :
    sRecv outs p = 0 := if_pos h

theorem sRecv_upper [Zero R] (outs : States P dk dv R) (i : Fin (P - 1)) :
    sRecv outs (upper i) = outs (lower i) := by
  rw [sRecv, if_neg (by simp [upper])]
  rfl

theorem lower_ne_upper (i : Fin (P - 1)) : lower i ≠ upper i := fun h => by
  simp [upper, lower, Fin.ext_iff] at h

def nextRank (p : Fin P) : Option (Fin P) := if h : p.val + 1 < P then some ⟨p + 1, h⟩ else none

def prevRank (p : Fin P) : Option (Fin P) := if p.val = 0 then none else some ⟨p - 1, pred_lt p⟩

theorem nextRank_eq {p q : Fin P} : nextRank p = some q ↔ p.val + 1 = q := by
  rw [nextRank]
  split_ifs with h
  · rw [Option.some.injEq, Fin.ext_iff]
  · simp only [false_iff]
    omega

theorem prevRank_eq {p q : Fin P} : prevRank p = some q ↔ p.val = q + 1 := by
  rw [prevRank]
  split_ifs with h
  · simp only [false_iff]
    omega
  · rw [Option.some.injEq, Fin.ext_iff]
    simp only
    omega

theorem prevRank_ne_zero {p q : Fin P} (h : prevRank p = some q) : p.val ≠ 0 := by
  rw [prevRank_eq.mp h]
  exact Nat.succ_ne_zero q

theorem sRecv_nextRank [Zero R] (outs : States P dk dv R) {p q : Fin P} (h : nextRank p = some q) :
    sRecv outs q = outs p := by
  have hq := nextRank_eq.mp h
  rw [sRecv, if_neg (by omega)]
  congr 1
  exact Fin.ext (by simp only; omega)

section Forward

variable [Semiring R] (sLocals : States P dk dv R) (gammas : Decays P dk R)

def ScansTo (out : States P dk dv R) (p : Fin P) : Prop :=
  out p = sLocals p + rowScale (gammas p) (sRecv out p)

theorem expectedAllscan_scans (p : Fin P) :
    ScansTo sLocals gammas (expectedAllscan sLocals gammas) p := by
  have key : ∀ p : Fin P, p.val ≤ P - 1 →
      ScansTo sLocals gammas (expectedAllscan sLocals gammas) p := by
    unfold expectedAllscan
    apply Loop.up_invariant fun n out => ∀ p : Fin P, p.val ≤ n → ScansTo sLocals gammas out p
    · intro p hp
      have hp0 : p = ⟨0, p.pos⟩ := Fin.ext (by simpa using hp)
      rw [ScansTo, sRecv_first _ (by omega), rowScale_zero, add_zero, dif_pos p.pos, ← hp0,
        Function.update_self]
    · intro i out ih p hp
      by_cases hpi : p = upper i
      · subst hpi
        rw [ScansTo, Function.update_self, sRecv_upper, Function.update_of_ne (lower_ne_upper i)]
      · have hv : p.val ≠ i + 1 := fun h => hpi (Fin.ext h)
        have hprev : (⟨p - 1, pred_lt p⟩ : Fin P) ≠ upper i := fun h => by
          have := congrArg Fin.val h
          simp only [upper] at this
          omega
        have hs := ih p (by omega)
        rw [ScansTo, sRecv] at hs ⊢
        rwa [Function.update_of_ne hpi, Function.update_of_ne hprev]
  exact key p (by omega)

theorem eq_expectedAllscan {S : States P dk dv R} (h : ∀ p, ScansTo sLocals gammas S p) :
    S = expectedAllscan sLocals gammas := by
  have key : ∀ n (hn : n < P), S ⟨n, hn⟩ = expectedAllscan sLocals gammas ⟨n, hn⟩ := by
    intro n
    induction n with
    | zero =>
      intro hn
      rw [h ⟨0, hn⟩, expectedAllscan_scans sLocals gammas ⟨0, hn⟩]
      simp [sRecv]
    | succ n ih =>
      intro hn
      rw [h ⟨n + 1, hn⟩, expectedAllscan_scans sLocals gammas ⟨n + 1, hn⟩]
      simp [sRecv, ih (by omega)]
  funext p
  exact key p p.isLt

end Forward

section Backward

variable [Semiring R] (gammas : Decays P dk R) (outs gOut : States P dk dv R)

def message (dS : States P dk dv R) (p : Fin P) : Matrix (Fin dk) (Fin dv) R :=
  if h : p.val + 1 < P then rowScale (gammas ⟨p + 1, h⟩) (dS ⟨p + 1, h⟩) else 0

theorem message_prevRank (dS : States P dk dv R) {p q : Fin P} (h : prevRank p = some q) :
    message gammas dS q = rowScale (gammas p) (dS p) := by
  have hq := prevRank_eq.mp h
  have hlt : q.val + 1 < P := hq ▸ p.isLt
  have hpq : (⟨q + 1, hlt⟩ : Fin P) = p := Fin.ext hq.symm
  rw [message, dif_pos hlt, hpq]

def ReverseScansTo (dS : States P dk dv R) (p : Fin P) : Prop :=
  dS p = gOut p + message gammas dS p

theorem reverseScan_reverse (p : Fin P) :
    ReverseScansTo gammas gOut (reverseScan gammas gOut) p := by
  have key : ∀ p : Fin P, 0 ≤ p.val → ReverseScansTo gammas gOut (reverseScan gammas gOut) p := by
    unfold reverseScan
    apply Loop.down_invariant fun n dS => ∀ p : Fin P, n ≤ p.val → ReverseScansTo gammas gOut dS p
    · intro p hp
      have hpl : p = lastIndex p.pos := Fin.ext (show p.val = P - 1 by omega)
      rw [ReverseScansTo, message, dif_neg (show ¬ p.val + 1 < P by omega), add_zero,
        dif_pos p.pos, ← hpl,
        Function.update_self]
    · intro i dS ih p hp
      by_cases hpi : p = lower i
      · subst hpi
        have hu : (lower i).val + 1 < P := by simp only [lower]; omega
        have hue : (⟨(lower i).val + 1, hu⟩ : Fin P) = upper i := rfl
        rw [ReverseScansTo, Function.update_self, message, dif_pos hu, hue,
          Function.update_of_ne (lower_ne_upper i).symm]
      · have hv : p.val ≠ i := fun h => hpi (Fin.ext h)
        have hs := ih p (by omega)
        rw [ReverseScansTo, message] at hs ⊢
        rw [Function.update_of_ne hpi, hs]
        by_cases h : p.val + 1 < P
        · have hne : (⟨p + 1, h⟩ : Fin P) ≠ lower i := fun h => by
            have := congrArg Fin.val h
            simp only [lower] at this
            omega
          rw [dif_pos h, dif_pos h, Function.update_of_ne hne]
        · rw [dif_neg h, dif_neg h]
  exact key p (Nat.zero_le _)

theorem gammaGrads_apply (dS : States P dk dv R) (p : Fin P) :
    gammaGrads dS outs p = rowSum (dS p ⊙ sRecv outs p) := by
  have key : ∀ p : Fin P, p.val ≤ P - 1 → gammaGrads dS outs p = rowSum (dS p ⊙ sRecv outs p) := by
    unfold gammaGrads
    apply Loop.up_invariant fun n (dgamma : Decays P dk R) => ∀ p : Fin P, p.val ≤ n →
      dgamma p = rowSum (dS p ⊙ sRecv outs p)
    · intro p hp
      funext j
      simp [sRecv, show p.val = 0 by omega]
    · intro i dgamma ih p hp
      by_cases hpi : p = upper i
      · subst hpi
        rw [Function.update_self, sRecv_upper]
      · have hv : p.val ≠ i + 1 := fun h => hpi (Fin.ext h)
        rw [Function.update_of_ne hpi, ih p (by omega)]
  exact key p (by omega)

theorem eq_reverseScan {S : States P dk dv R} (h : ∀ p, ReverseScansTo gammas gOut S p) :
    S = reverseScan gammas gOut := by
  have key : ∀ n (hn : n < P), S ⟨P - 1 - n, by omega⟩ =
      reverseScan gammas gOut ⟨P - 1 - n, by omega⟩ := by
    intro n
    induction n with
    | zero =>
      intro hn
      rw [h, reverseScan_reverse gammas gOut]
      simp [message, show ¬ P - 1 + 1 < P by omega]
    | succ n ih =>
      intro hn
      have hs : P - 1 - (n + 1) + 1 = P - 1 - n := by omega
      rw [h, reverseScan_reverse gammas gOut]
      simp only [message, hs, ih (by omega)]
  funext p
  have hp : p = ⟨P - 1 - (P - 1 - p), by omega⟩ :=
    Fin.ext (show p.val = P - 1 - (P - 1 - p.val) by omega)
  rw [hp]
  exact key _ (by omega)

end Backward

end ZeCo
