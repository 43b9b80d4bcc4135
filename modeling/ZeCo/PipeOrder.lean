import ZeCo.Pipes

namespace ZeCo.Pipes

open Relation

variable {κ ι β σ : Type*}

theorem foldl_order {α : Type*} [DecidableEq α] {f : α → σ → σ} {E : α → α → Prop}
    {ref is : List α} (hnodup : ref.Nodup) (hperm : is.Perm ref)
    (hrespects : is.Pairwise fun i j => ¬ E j i)
    (hcommute : ref.Pairwise fun i j => E i j ∨ Function.Commute (f i) (f j)) (m : σ) :
    is.foldl (fun m i => f i m) m = ref.foldl (fun m i => f i m) m := by
  let before : Preorder α := Preorder.lift fun i => ref.idxOf i
  have hkept : is.Pairwise fun i j => j < i → ¬ E j i :=
    hrespects.imp fun {i j} (h : ¬ E j i) (_ : j < i) => h
  refine Schedules.foldl_reorder ?_ hperm hkept hcommute m
  apply List.pairwise_iff_getElem.mpr
  intro i j hi hj hij
  change ref.idxOf ref[i] < ref.idxOf ref[j]
  rwa [hnodup.idxOf_getElem, hnodup.idxOf_getElem]

section Tame

variable [DecidableEq κ] (c : Core κ) (run : β → σ → σ) (prog : List (Instr κ ι β))

def Tame : Prop := ∀ i j, i < j → j < prog.length →
  Ordered c prog i j ∨ Function.Commute (effectAt run prog i) (effectAt run prog j)

def Instr.shape : Instr κ ι β → Instr κ ι Unit
  | .op queue drain _ => .op queue drain ()
  | .setFlag src dst id => .setFlag src dst id
  | .waitFlag src dst id => .waitFlag src dst id
  | .barrier pipe => .barrier pipe
  | .barrierAll => .barrierAll

def Instr.isOp : Instr κ ι β → Bool
  | .op _ _ _ => true
  | _ => false

def followers (i : ℕ) : List ℕ :=
  (List.range prog.length).foldl (fun acc j =>
    if edge c prog i j || acc.any (fun k => edge c prog k j) then j :: acc else acc) []

def unordered : List (ℕ × ℕ) :=
  (List.range prog.length).flatMap fun i =>
    if (prog[i]?).any Instr.isOp then
      ((List.range prog.length).filter fun j =>
        i < j && (prog[j]?).any Instr.isOp && !(followers c prog i).contains j).map fun j => (i, j)
    else []

def Instr.isFence (a : Instr κ ι β) : Bool :=
  match a.drain with
  | some p => p = c.front
  | none => true

def Sealed : Prop := ∀ i < prog.length, ∃ k < prog.length,
  (i = k ∨ Ordered c prog i k) ∧ (prog[k]?).any (Instr.isFence c) = true

def isSealed : Bool :=
  (List.range prog.length).all fun i => (List.range prog.length).any fun k =>
    (i = k || (followers c prog i).contains k) && (prog[k]?).any (Instr.isFence c)

def isLast (n : ℕ) : Bool :=
  (List.range prog.length).all fun i => i = n || (followers c prog i).contains n

end Tame

section Order

variable {c c' : Core κ} {run : β → σ → σ} {prog A B : List (Instr κ ι β)} {m : σ}
  {s : State κ ι σ} {is : List ℕ} {i j : ℕ} {a b : Instr κ ι β}

theorem runAll_eq : runAll run prog m =
    (List.range prog.length).foldl (fun m i => effectAt run prog i m) m := by
  induction prog using List.reverseRecOn with
  | nil => rfl
  | append_singleton prog a ih =>
    rw [runAll, List.foldl_append, List.length_append, List.length_singleton, List.range_succ,
      List.foldl_append]
    have hsame : (List.range prog.length).foldl (fun m i => effectAt run (prog ++ [a]) i m) m =
        (List.range prog.length).foldl (fun m i => effectAt run prog i m) m := by
      apply List.foldl_ext
      intro m i hi
      rw [effectAt, effectAt, List.getElem?_append_left (List.mem_range.mp hi)]
    rw [hsame, ← ih, runAll]
    simp [effectAt]

theorem runAll_nil : runAll run ([] : List (Instr κ ι β)) m = m := rfl

theorem runAll_cons : runAll run (a :: prog) m = runAll run prog (a.effect run m) := by
  rw [runAll, List.foldl_cons, runAll]

theorem runAll_append : runAll run (A ++ B) m = runAll run B (runAll run A m) :=
  List.foldl_append

theorem any_shape {P : Instr κ ι β → Bool} {P' : Instr κ ι Unit → Bool}
    (h : ∀ a, P' a.shape = P a) : ((prog.map Instr.shape)[i]?).any P' = (prog[i]?).any P := by
  rw [List.getElem?_map]
  cases prog[i]? with
  | none => rfl
  | some a => exact h a

theorem effectAt_of_not_op (h : (prog[i]?).any Instr.isOp = false) :
    effectAt run prog i = id := by
  rw [effectAt]
  cases hi : prog[i]? with
  | none => rfl
  | some a =>
    rw [hi] at h
    cases a with
    | op _ _ _ => cases h
    | _ => rfl

variable [DecidableEq κ]

/-- A complete run against any order of its instructions that keeps those that do not commute. -/
theorem run_order [DecidableEq ι] {ref : List ℕ} {E : ℕ → ℕ → Prop} (hp : Paired prog)
    (h : Run c run prog m is s) (hfin : Finished prog s) (href : ref.Perm (List.range prog.length))
    (hkept : is.Pairwise fun i j => ¬ E j i)
    (hcommute : ref.Pairwise fun i j => (Ordered c prog i j ∨ E i j) ∨
      Function.Commute (effectAt run prog i) (effectAt run prog j)) :
    s.mem = ref.foldl (fun m i => effectAt run prog i m) m := by
  have hinv := run_inv hp h
  rw [hinv.mem]
  apply foldl_order (E := fun i j => Ordered c prog i j ∨ E i j)
    (href.nodup_iff.mpr List.nodup_range) ((hinv.perm hfin).trans href.symm) ?_ hcommute
  exact (hinv.ordered.and hkept).imp fun h => not_or.mpr h

theorem run_final [DecidableEq ι] (hp : Paired prog) (ht : Tame c run prog)
    (h : Run c run prog m is s) (hfin : Finished prog s) : s.mem = runAll run prog m := by
  rw [runAll_eq]
  refine run_order (E := fun _ _ => False) hp h hfin (List.Perm.refl _)
    (List.pairwise_iff_getElem.mpr fun _ _ _ _ _ => not_false) ?_
  apply List.pairwise_iff_getElem.mpr
  intro i j hi hj hij
  rw [List.getElem_range, List.getElem_range]
  rw [List.length_range] at hj
  exact (ht i j hij hj).imp .inl id

theorem holdsBack_mono (hfront : c.front = c'.front) (hserial : ∀ p, c.serial p → c'.serial p)
    (h : a.holdsBack c b = true) : a.holdsBack c' b = true := by
  rw [Instr.holdsBack] at h ⊢
  split at h
  · next p q _ _ =>
    simp only [Bool.or_eq_true, Bool.and_eq_true, decide_eq_true_eq] at h ⊢
    rw [← hfront]
    exact h.imp id fun h => ⟨h.1, h.2.imp id (hserial p)⟩
  · rfl

theorem Ordered.mono (hfront : c.front = c'.front) (hserial : ∀ p, c.serial p → c'.serial p)
    (h : Ordered c prog i j) : Ordered c' prog i j := by
  refine TransGen.mono (fun i j hij => ?_) _ _ h
  obtain ⟨hlt, a, b, ha, hb, hcause⟩ := edge_cases hij
  exact edge_intro hlt ha hb (hcause.imp (holdsBack_mono hfront hserial) id)

theorem shape_holdsBack : a.shape.holdsBack c b.shape = a.holdsBack c b := by
  cases a <;> cases b <;> rfl

theorem edge_shape : edge c (prog.map Instr.shape) i j = edge c prog i j := by
  rw [edge, edge, List.getElem?_map, List.getElem?_map]
  cases hi : prog[i]? with
  | none => rfl
  | some a =>
    cases hj : prog[j]? with
    | none => rfl
    | some b =>
      dsimp only [Option.map_some]
      rw [shape_holdsBack]
      cases a <;> rfl

theorem followers_shape : followers c (prog.map Instr.shape) i = followers c prog i := by
  simp only [followers, edge_shape, List.length_map]

theorem unordered_shape : unordered c (prog.map Instr.shape) = unordered c prog := by
  have hop (i : ℕ) : ((prog.map Instr.shape)[i]?).any Instr.isOp = (prog[i]?).any Instr.isOp :=
    any_shape fun a => by cases a <;> rfl
  simp only [unordered, followers_shape, List.length_map, hop]

theorem unordered_congr {β' : Type*} {prog' : List (Instr κ ι β')}
    (h : prog.map Instr.shape = prog'.map Instr.shape) : unordered c prog = unordered c prog' := by
  rw [← unordered_shape, h, unordered_shape]

theorem isSealed_shape : isSealed c (prog.map Instr.shape) = isSealed c prog := by
  have hfence (i : ℕ) : ((prog.map Instr.shape)[i]?).any (Instr.isFence c) =
      (prog[i]?).any (Instr.isFence c) := any_shape fun a => by cases a <;> rfl
  simp only [isSealed, followers_shape, List.length_map, hfence]

theorem isSealed_congr {β' : Type*} {prog' : List (Instr κ ι β')}
    (h : prog.map Instr.shape = prog'.map Instr.shape) : isSealed c prog = isSealed c prog' := by
  rw [← isSealed_shape, h, isSealed_shape]

theorem isLast_shape : isLast c (prog.map Instr.shape) j = isLast c prog j := by
  simp only [isLast, followers_shape, List.length_map]

theorem isLast_congr {β' : Type*} {prog' : List (Instr κ ι β')}
    (h : prog.map Instr.shape = prog'.map Instr.shape) : isLast c prog j = isLast c prog' j := by
  rw [← isLast_shape, h, isLast_shape]

theorem ordered_of_mem_followers (h : j ∈ followers c prog i) : Ordered c prog i j := by
  suffices hall : ∀ js acc : List ℕ, (∀ k ∈ acc, Ordered c prog i k) →
      ∀ k ∈ js.foldl (fun acc j =>
        if edge c prog i j || acc.any (fun k => edge c prog k j) then j :: acc else acc) acc,
        Ordered c prog i k by
    exact hall _ [] nofun j h
  intro js
  induction js with
  | nil => exact fun acc hacc => hacc
  | cons j js ih =>
    intro acc hacc
    rw [List.foldl_cons]
    apply ih
    by_cases hedge : (edge c prog i j || acc.any fun k => edge c prog k j) = true
    · rw [if_pos hedge]
      intro k hk
      rcases List.mem_cons.mp hk with rfl | hk
      · rcases Bool.or_eq_true _ _ |>.mp hedge with hedge | hedge
        · exact TransGen.single hedge
        · obtain ⟨l, hl, hlk⟩ := List.any_eq_true.mp hedge
          exact (hacc l hl).tail hlk
      · exact hacc k hk
    · rw [if_neg hedge]
      exact hacc

theorem ordered_or_commute (c : Core κ) (run : β → σ → σ) (prog : List (Instr κ ι β))
    (hij : i < j) (hj : j < prog.length) : Ordered c prog i j ∨ (i, j) ∈ unordered c prog ∨
      Function.Commute (effectAt run prog i) (effectAt run prog j) := by
  by_cases hi' : (prog[i]?).any Instr.isOp = true
  · by_cases hj' : (prog[j]?).any Instr.isOp = true
    · by_cases hord : j ∈ followers c prog i
      · exact .inl (ordered_of_mem_followers hord)
      · refine .inr (.inl (List.mem_flatMap.mpr ⟨i, List.mem_range.mpr (hij.trans hj), ?_⟩))
        rw [if_pos hi']
        refine List.mem_map.mpr ⟨j, List.mem_filter.mpr ⟨List.mem_range.mpr hj, ?_⟩, rfl⟩
        simp [hij, hj', hord]
    · right; right
      rw [effectAt_of_not_op (Bool.eq_false_iff.mpr hj')]
      exact Function.Commute.id_right
  · right; right
    rw [effectAt_of_not_op (Bool.eq_false_iff.mpr hi')]
    exact Function.Commute.id_left

theorem Tame.of_unordered (hfront : c.front = c'.front) (hserial : ∀ p, c.serial p → c'.serial p)
    (h : ∀ x ∈ unordered c prog, Function.Commute (effectAt run prog x.1) (effectAt run prog x.2)) :
    Tame c' run prog := by
  intro i j hij hj
  rcases ordered_or_commute c run prog hij hj with hord | hmem | hcomm
  · exact .inl (hord.mono hfront hserial)
  · exact .inr (h (i, j) hmem)
  · exact .inr hcomm

theorem Sealed.of_isSealed (hfront : c.front = c'.front) (hserial : ∀ p, c.serial p → c'.serial p)
    (h : isSealed c prog = true) : Sealed c' prog := by
  intro i hi
  obtain ⟨k, hk, hfence⟩ := List.any_eq_true.mp (List.all_eq_true.mp h i (List.mem_range.mpr hi))
  simp only [Bool.and_eq_true, Bool.or_eq_true, decide_eq_true_eq, List.contains_eq_mem] at hfence
  refine ⟨k, List.mem_range.mp hk, hfence.1.imp id fun h =>
    (ordered_of_mem_followers h).mono hfront hserial, ?_⟩
  have hsame : (Instr.isFence c' : Instr κ ι β → Bool) = Instr.isFence c := by
    funext a
    rw [Instr.isFence, Instr.isFence, hfront]
  rw [hsame]
  exact hfence.2

theorem ordered_of_isLast (h : isLast c prog j = true) (hi : i < prog.length) (hij : i ≠ j) :
    Ordered c prog i j := by
  have hall := List.all_eq_true.mp h i (List.mem_range.mpr hi)
  simp only [hij, decide_false, Bool.false_or, List.contains_eq_mem, decide_eq_true_eq] at hall
  exact ordered_of_mem_followers hall

end Order

section Parts

variable {c : Core κ} {run : β → σ → σ} {A B : List (Instr κ ι β)} {i j : ℕ} {a b : Instr κ ι β}

theorem getElem?_append_add (A B : List (Instr κ ι β)) (j : ℕ) :
    (A ++ B)[A.length + j]? = B[j]? := by
  rw [List.getElem?_append_right (Nat.le_add_right _ _), Nat.add_sub_cancel_left]

theorem effectAt_append_left (hi : i < A.length) :
    effectAt run (A ++ B) i = effectAt run A i := by
  rw [effectAt, effectAt, List.getElem?_append_left hi]

theorem effectAt_append_right : effectAt run (A ++ B) (A.length + j) = effectAt run B j := by
  rw [effectAt, effectAt, getElem?_append_add]

variable [DecidableEq κ]

theorem Ordered.append_left (h : Ordered c A i j) (B : List (Instr κ ι β)) :
    Ordered c (A ++ B) i j := by
  refine TransGen.mono (fun i j hij => ?_) _ _ h
  obtain ⟨hlt, a, b, ha, hb, hcause⟩ := edge_cases hij
  have hi := (List.getElem?_eq_some_iff.mp ha).1
  have hj := (List.getElem?_eq_some_iff.mp hb).1
  exact edge_intro hlt ((List.getElem?_append_left hi).trans ha)
    ((List.getElem?_append_left hj).trans hb) hcause

theorem Ordered.append_right (h : Ordered c B i j) (A : List (Instr κ ι β)) :
    Ordered c (A ++ B) (A.length + i) (A.length + j) := by
  refine TransGen.lift (A.length + ·) (fun i j hij => ?_) _ _ h
  obtain ⟨hlt, a, b, ha, hb, hcause⟩ := edge_cases hij
  refine edge_intro (Nat.add_lt_add_left hlt _) ((getElem?_append_add A B i).trans ha)
    ((getElem?_append_add A B j).trans hb) (hcause.imp id fun ⟨hj, hset⟩ => ⟨?_, hset⟩)
  rw [hj]
  rfl

theorem Tame.append (hA : Tame c run A) (hB : Tame c run B)
    (hcross : ∀ i < A.length, ∀ j < B.length, Ordered c (A ++ B) i (A.length + j) ∨
      Function.Commute (effectAt run A i) (effectAt run B j)) : Tame c run (A ++ B) := by
  intro i j hij hj
  rw [List.length_append] at hj
  by_cases hjA : j < A.length
  · rw [effectAt_append_left hjA, effectAt_append_left (hij.trans hjA)]
    exact (hA i j hij hjA).imp (fun h => h.append_left B) id
  · obtain ⟨j, rfl⟩ := Nat.exists_eq_add_of_le (Nat.not_lt.mp hjA)
    rw [effectAt_append_right]
    by_cases hiA : i < A.length
    · rw [effectAt_append_left hiA]
      exact hcross i hiA j (by omega)
    · obtain ⟨i, rfl⟩ := Nat.exists_eq_add_of_le (Nat.not_lt.mp hiA)
      rw [effectAt_append_right]
      exact (hB i j (by omega) (by omega)).imp (fun h => h.append_right A) id

theorem Tame.append_barrierAll (hA : Tame c run A) : Tame c run (A ++ [.barrierAll]) := by
  refine hA.append (fun i j hij hj => ?_) fun i _ j hj => .inr ?_
  · rw [List.length_singleton] at hj
    omega
  · obtain rfl : j = 0 := Nat.lt_one_iff.mp hj
    exact Function.Commute.id_right

theorem fence_holdsBack (ha : a.isFence c = true) : a.holdsBack c b = true := by
  rw [Instr.isFence] at ha
  rw [Instr.holdsBack]
  cases hd : a.drain with
  | none => rfl
  | some p =>
    rw [hd] at ha
    cases b.queue with
    | none => rfl
    | some q =>
      exact Bool.or_eq_true_iff.mpr (.inl ha)

theorem Sealed.across (h : Sealed c A) (hi : i < A.length) (hj : j < B.length) :
    Ordered c (A ++ B) i (A.length + j) := by
  obtain ⟨k, hk, hik, hfence⟩ := h i hi
  obtain ⟨a, ha, hfence⟩ := (Option.any_eq_true _ _).mp hfence
  have hkj : edge c (A ++ B) k (A.length + j) = true :=
    edge_intro (by omega) ((List.getElem?_append_left hk).trans ha)
      ((getElem?_append_add A B j).trans (List.getElem?_eq_getElem hj))
      (.inl (fence_holdsBack hfence))
  rcases hik with rfl | hik
  · exact TransGen.single hkj
  · exact (hik.append_left B).tail hkj

theorem Sealed.append (hA : Sealed c A) (hB : Sealed c B) : Sealed c (A ++ B) := by
  intro i hi
  rw [List.length_append] at hi ⊢
  by_cases hiA : i < A.length
  · obtain ⟨k, hk, hik, hfence⟩ := hA i hiA
    refine ⟨k, by omega, hik.imp id fun h => h.append_left B, ?_⟩
    rwa [List.getElem?_append_left hk]
  · obtain ⟨i, rfl⟩ := Nat.exists_eq_add_of_le (Nat.not_lt.mp hiA)
    obtain ⟨k, hk, hik, hfence⟩ := hB i (by omega)
    refine ⟨A.length + k, by omega, hik.imp (congrArg _) fun h => h.append_right A, ?_⟩
    rwa [getElem?_append_add]

theorem Tame.append_sealed (hA : Tame c run A) (hs : Sealed c A) (hB : Tame c run B) :
    Tame c run (A ++ B) :=
  hA.append hB fun _ hi _ hj => .inl (hs.across hi hj)

theorem Tame.append_barrier {queue drain : κ} {body : β} {rest : List (Instr κ ι β)}
    (hA : Tame c run A) (hB : Tame c run (.op queue drain body :: .barrierAll :: rest))
    (hbody : ∀ i < A.length, Function.Commute (effectAt run A i) (run body)) :
    Tame c run (A ++ .op queue drain body :: .barrierAll :: rest) := by
  refine hA.append hB fun i hi j hj => ?_
  have hbarrier : (A ++ .op queue drain body :: .barrierAll :: rest)[A.length + 1]? =
      some .barrierAll := getElem?_append_add _ _ 1
  have hend : edge c (A ++ .op queue drain body :: .barrierAll :: rest) i (A.length + 1) = true :=
    edge_intro (by omega) ((List.getElem?_append_left hi).trans (List.getElem?_eq_getElem hi))
      hbarrier (.inl (by rw [Instr.holdsBack]; cases A[i].drain <;> rfl))
  obtain rfl | rfl | ⟨j, rfl⟩ : j = 0 ∨ j = 1 ∨ ∃ k, j = k + 2 := by
    by_cases hj2 : 2 ≤ j
    · exact .inr (.inr ⟨j - 2, (Nat.sub_add_cancel hj2).symm⟩)
    · omega
  · exact .inr (hbody i hi)
  · exact .inl (TransGen.single hend)
  · left
    have hfirst : Ordered c (A ++ .op queue drain body :: .barrierAll :: rest) i (A.length + 1) :=
      TransGen.single hend
    have hlast := getElem?_append_add A (.op queue drain body :: .barrierAll :: rest) (j + 2)
    have hnext := edge_intro (c := c) (i := A.length + 1) (by omega) hbarrier
      (hlast.trans (List.getElem?_eq_getElem hj)) (.inl (fence_holdsBack rfl))
    exact hfirst.tail hnext

end Parts

section Rounds

variable {c : Core κ} {run : β → σ → σ} {prog : List (Instr κ ι β)} {code : ℕ → List (Instr κ ι β)}
  {m : σ} {s s' : State κ ι σ} {is js : List ℕ} {i n : ℕ}

theorem exists_effectAt (run : β → σ → σ) (hi : i < prog.length) :
    ∃ a ∈ prog, effectAt run prog i = a.effect run := by
  refine ⟨prog[i], List.getElem_mem hi, ?_⟩
  rw [effectAt, List.getElem?_eq_getElem hi]
  rfl

theorem runAll_rounds (K : ℕ) : runAll run ((List.range K).flatMap code) m =
    (List.range K).foldl (fun m k => runAll run (code k) m) m := by
  induction K with
  | zero => rfl
  | succ K ih =>
    rw [List.range_succ, List.flatMap_append, runAll_append, ih, List.foldl_append,
      List.flatMap_singleton]
    rfl

theorem effectAt_cases (run : β → σ → σ) (prog : List (Instr κ ι β)) (i : ℕ) :
    effectAt run prog i = id ∨ ∃ a ∈ prog, effectAt run prog i = a.effect run := by
  by_cases hi : i < prog.length
  · exact .inr (exists_effectAt run hi)
  · left
    rw [effectAt, List.getElem?_eq_none (Nat.not_lt.mp hi)]
    rfl

theorem effectAt_keeps {P : σ → Prop} (h : ∀ a ∈ prog, ∀ m, P m → P (a.effect run m)) (i : ℕ)
    (hm : P m) : P (effectAt run prog i m) := by
  rcases effectAt_cases run prog i with heff | ⟨a, ha, heff⟩
  · rwa [heff]
  · rw [heff]
    exact h a ha m hm

variable [DecidableEq κ]

theorem tame_nil : Tame c run ([] : List (Instr κ ι β)) := fun _ _ _ hj => absurd hj (by simp)

theorem tame_rounds_sealed (ht : ∀ k, Tame c run (code k)) (hs : ∀ k, Sealed c (code k)) (K : ℕ) :
    Tame c run ((List.range K).flatMap code) ∧ Sealed c ((List.range K).flatMap code) := by
  induction K with
  | zero => exact ⟨tame_nil, fun _ hi => absurd hi (by simp)⟩
  | succ K ih =>
    rw [List.range_succ, List.flatMap_append, List.flatMap_singleton]
    exact ⟨ih.1.append_sealed ih.2 (ht K), ih.2.append (hs K)⟩

theorem tame_rounds_barrier (ht : ∀ k, Tame c run (code k))
    (hcode : ∀ k, ∃ queue drain body rest, code k = .op queue drain body :: .barrierAll :: rest ∧
      ∀ j < k, ∀ a ∈ code j, Function.Commute (a.effect run) (run body)) (K : ℕ) :
    Tame c run ((List.range K).flatMap code) := by
  induction K with
  | zero => exact tame_nil
  | succ K ih =>
    obtain ⟨queue, drain, body, rest, hK, hbody⟩ := hcode K
    have htK := ht K
    rw [List.range_succ, List.flatMap_append, List.flatMap_singleton, hK]
    rw [hK] at htK
    refine ih.append_barrier htK fun i hi => ?_
    obtain ⟨a, ha, heff⟩ := exists_effectAt run hi
    obtain ⟨j, hj, ha⟩ := List.mem_flatMap.mp ha
    rw [heff]
    exact hbody j (List.mem_range.mp hj) a ha

section Keeps

variable {P : σ → Prop} {A B : List (Instr κ ι β)} {d k K : ℕ}

def Keeps (c : Core κ) (run : β → σ → σ) (prog : List (Instr κ ι β)) (P : σ → Prop) (n : ℕ) :
    Prop :=
  ∀ i, i = n ∨ Ordered c prog i n ∨ ∀ m, P m → P (effectAt run prog i m)

theorem Keeps.append_left (hA : Keeps c run A P n)
    (hB : ∀ b ∈ B, ∀ m, P m → P (b.effect run m)) : Keeps c run (A ++ B) P n := by
  intro i
  by_cases hi : i < A.length
  · rw [effectAt_append_left hi]
    exact (hA i).imp id (Or.imp (fun h => h.append_left B) id)
  · obtain ⟨j, rfl⟩ := Nat.exists_eq_add_of_le (Nat.not_lt.mp hi)
    rw [effectAt_append_right]
    exact .inr (.inr fun m hm => effectAt_keeps hB j hm)

theorem Keeps.append_right (hA : ∀ a ∈ A, ∀ m, P m → P (a.effect run m))
    (hB : Keeps c run B P d) : Keeps c run (A ++ B) P (A.length + d) := by
  intro i
  by_cases hi : i < A.length
  · rw [effectAt_append_left hi]
    exact .inr (.inr fun m hm => effectAt_keeps hA i hm)
  · obtain ⟨j, rfl⟩ := Nat.exists_eq_add_of_le (Nat.not_lt.mp hi)
    rw [effectAt_append_right]
    exact (hB j).imp (congrArg _) (Or.imp (fun h => h.append_right A) id)

def roundAt (code : ℕ → List (Instr κ ι β)) (k d : ℕ) : ℕ :=
  ((List.range k).flatMap code).length + d

theorem Keeps.rounds (hk : k < K) (hin : Keeps c run (code k) P d)
    (hout : ∀ j, j ≠ k → ∀ a ∈ code j, ∀ m, P m → P (a.effect run m)) :
    Keeps c run ((List.range K).flatMap code) P (roundAt code k d) := by
  induction K, hk using Nat.le_induction with
  | base =>
    rw [List.range_succ, List.flatMap_append, List.flatMap_singleton]
    refine Keeps.append_right (fun a ha => ?_) hin
    obtain ⟨j, hj, ha⟩ := List.mem_flatMap.mp ha
    exact hout j (Nat.ne_of_lt (List.mem_range.mp hj)) a ha
  | succ K hK ih =>
    rw [List.range_succ, List.flatMap_append, List.flatMap_singleton]
    exact ih.append_left (hout K (Nat.ne_of_gt hK))

end Keeps

theorem run_done_settled [DecidableEq ι] {P : σ → Prop} (hp : Paired prog)
    (h : Run c run prog m is s) (hn : n ∈ is) (h' : Run c run prog m (is ++ js) s') (hP : P s.mem)
    (hkeep : Keeps c run prog P n) : P s'.mem := by
  have hinv := run_inv hp h
  have hdone : n ∈ s.done := (hinv.mem_done n).mpr hn
  refine run_settled h h' hP fun i hi => ?_
  rcases hkeep i with rfl | hord | hkeep
  · exact absurd hdone hi
  · exact absurd (hinv.ordered_done hdone hord) hi
  · exact hkeep

end Rounds

end ZeCo.Pipes
