import Mathlib.Data.List.FinRange
import Mathlib.Data.Set.Basic
import Mathlib.Logic.Function.Conjugate

namespace ZeCo.Schedules

section Orders

variable {β σ : Type*} {E : β → β → Prop} {ts : List β}

structure Schedule (E : β → β → Prop) (ts : List β) where
  order : List (Fin ts.length)
  perm : order.Perm (List.finRange ts.length)
  respects : order.Pairwise fun i j => j < i → ¬ E ts[j] ts[i]

theorem sorted_respects (E : β → β → Prop) {is : List (Fin ts.length)} (h : is.Pairwise (· < ·)) :
    is.Pairwise fun i j => j < i → ¬ E ts[j] ts[i] :=
  h.imp fun h h' => absurd h' (Nat.lt_asymm h)

def Schedule.submitted (E : β → β → Prop) (ts : List β) : Schedule E ts where
  order := List.finRange ts.length
  perm := List.Perm.refl _
  respects := sorted_respects E (List.pairwise_lt_finRange ts.length)

def Schedule.first (p : β → Bool) (h : ∀ a ∈ ts, ∀ b ∈ ts, E a b → p b → p a) : Schedule E ts where
  order := (List.finRange ts.length).filter (fun i => p ts[i]) ++
    (List.finRange ts.length).filter fun i => !p ts[i]
  perm := List.filter_append_perm _ _
  respects := by
    have hsorted := List.pairwise_lt_finRange ts.length
    refine List.pairwise_append.mpr ⟨sorted_respects E (hsorted.filter _),
      sorted_respects E (hsorted.filter _), fun i hi j hj _ hedge => ?_⟩
    have hpi : p ts[i] = true := (List.mem_filter.mp hi).2
    have hpj : (!p ts[j]) = true := (List.mem_filter.mp hj).2
    rw [h ts[j] (List.getElem_mem _) ts[i] (List.getElem_mem _) hedge hpi] at hpj
    cases hpj

def runAll (run : β → σ → σ) (ts : List β) (s : σ) : σ := ts.foldl (fun s t => run t s) s

def Schedule.run (x : Schedule E ts) (run : β → σ → σ) (s : σ) : σ :=
  x.order.foldl (fun s i => run ts[i] s) s

theorem foldl_commute {ι : Type*} {f : ι → σ → σ} {g : σ → σ} {is : List ι}
    (h : ∀ i ∈ is, Function.Commute g (f i)) (s : σ) :
    is.foldl (fun s i => f i s) (g s) = g (is.foldl (fun s i => f i s) s) := by
  induction is generalizing s with
  | nil => rfl
  | cons i is ih =>
    rw [List.foldl_cons, List.foldl_cons, ← h i List.mem_cons_self s]
    exact ih (fun j hj => h j (List.mem_cons_of_mem i hj)) (f i s)

theorem foldl_reorder {ι : Type*} [Preorder ι] {f : ι → σ → σ} {edge : ι → ι → Prop}
    {is order : List ι} (hsorted : is.Pairwise (· < ·)) (hperm : order.Perm is)
    (hrespects : order.Pairwise fun i j => j < i → ¬ edge j i)
    (hcommute : is.Pairwise fun i j => edge i j ∨ Function.Commute (f i) (f j)) (s : σ) :
    order.foldl (fun s i => f i s) s = is.foldl (fun s i => f i s) s := by
  induction is generalizing order s with
  | nil => rw [List.perm_nil.mp hperm]
  | cons i is ih =>
    obtain ⟨hfirst, hsorted⟩ := List.pairwise_cons.mp hsorted
    obtain ⟨hedges, hcommute⟩ := List.pairwise_cons.mp hcommute
    obtain ⟨before, behind, rfl⟩ := List.append_of_mem (hperm.mem_iff.mpr List.mem_cons_self)
    obtain ⟨hbefore, hbehind, hcross⟩ := List.pairwise_append.mp hrespects
    have hrest : (before ++ behind).Perm is := by
      have hmoved : (i :: (before ++ behind)).Perm (i :: is) := List.perm_middle.symm.trans hperm
      exact hmoved.cons_inv
    have hpast (j : ι) (hj : j ∈ before) : Function.Commute (f i) (f j) := by
      have hmem : j ∈ is := hrest.mem_iff.mp (List.mem_append_left behind hj)
      have hedge := hcross j hj i List.mem_cons_self (hfirst j hmem)
      exact (hedges j hmem).resolve_left hedge
    have hrespects' : (before ++ behind).Pairwise fun i j => j < i → ¬ edge j i := by
      apply List.pairwise_append.mpr
      refine ⟨hbefore, (List.pairwise_cons.mp hbehind).2, fun a ha b hb => ?_⟩
      exact hcross a ha b (List.mem_cons_of_mem i hb)
    rw [List.foldl_append, List.foldl_cons, ← foldl_commute hpast, ← List.foldl_append,
      ih hsorted hrest hrespects' hcommute, List.foldl_cons]

inductive Carries (step : β → σ → σ → Prop) : List β → σ → σ → Prop
  | nil (s : σ) : Carries step [] s s
  | cons {t : β} {ts : List β} {s s' s'' : σ} (h : step t s s') (hs : Carries step ts s' s'') :
      Carries step (t :: ts) s s''

theorem Carries.foldl_eq {step : β → σ → σ → Prop} {run : β → σ → σ} {s s' : σ}
    (hs : Carries step ts s s') (h : ∀ t ∈ ts, ∀ s s', step t s s' → s' = run t s) :
    s' = ts.foldl (fun s t => run t s) s := by
  induction hs with
  | nil => rfl
  | cons ht _ ih =>
    rw [List.foldl_cons, ← h _ List.mem_cons_self _ _ ht]
    exact ih fun t ht => h t (List.mem_cons_of_mem _ ht)

theorem exists_carries {step : β → σ → σ → Prop} (ts : List β)
    (h : ∀ t ∈ ts, ∀ s, ∃ s', step t s s') (s : σ) : ∃ s', Carries step ts s s' := by
  induction ts generalizing s with
  | nil => exact ⟨s, .nil s⟩
  | cons t ts ih =>
    obtain ⟨s', hs'⟩ := h t List.mem_cons_self s
    obtain ⟨s'', hs''⟩ := ih (fun u hu => h u (List.mem_cons_of_mem t hu)) s'
    exact ⟨s'', .cons hs' hs''⟩

def Schedule.tasks (x : Schedule E ts) : List β := x.order.map fun i => ts[i]

theorem Schedule.mem_of_mem_tasks {x : Schedule E ts} {t : β} (h : t ∈ x.tasks) : t ∈ ts := by
  obtain ⟨i, -, rfl⟩ := List.mem_map.mp h
  exact List.getElem_mem i.isLt

theorem Schedule.run_tasks (x : Schedule E ts) (run : β → σ → σ) (s : σ) :
    x.run run s = x.tasks.foldl (fun s t => run t s) s := by
  rw [Schedule.run, Schedule.tasks, List.foldl_map]

theorem Schedule.run_eq (x : Schedule E ts) {run : β → σ → σ}
    (h : ts.Pairwise fun a b => E a b ∨ Function.Commute (run a) (run b)) (s : σ) :
    x.run run s = runAll run ts s := by
  have hsubmitted : runAll run ts s =
      (List.finRange ts.length).foldl (fun s i => run ts[i] s) s := by
    conv_lhs => rw [← List.map_get_finRange ts]
    rw [runAll, List.foldl_map]
    rfl
  rw [hsubmitted, Schedule.run]
  have hpairs : (List.finRange ts.length).Pairwise fun i j =>
      E ts[i] ts[j] ∨ Function.Commute (run ts[i]) (run ts[j]) := by
    rw [← List.map_get_finRange ts, List.pairwise_map] at h
    exact h
  exact foldl_reorder (List.pairwise_lt_finRange ts.length) x.perm x.respects hpairs s

end Orders

section Footprints

variable {L α : Type*} {f g : (L → α) → L → α} {reads writes reads' writes' : Set L}

structure Footprint (f : (L → α) → L → α) (reads writes : Set L) : Prop where
  frame : ∀ s, ∀ l ∉ writes, f s l = s l
  reads : ∀ s t, (∀ l ∈ reads, s l = t l) → ∀ l ∈ writes, f s l = f t l

theorem Footprint.commute (hf : Footprint f reads writes) (hg : Footprint g reads' writes')
    (hfg : ∀ l ∈ writes, l ∉ reads' ∧ l ∉ writes') (hgf : ∀ l ∈ writes', l ∉ reads) :
    Function.Commute f g := by
  intro s
  funext l
  by_cases hl : l ∈ writes
  · have hkeep : ∀ k ∈ reads, g s k = s k := fun k hk => hg.frame s k fun hk' => hgf k hk' hk
    rw [hf.reads _ _ hkeep l hl, hg.frame (f s) l (hfg l hl).2]
  · rw [hf.frame (g s) l hl]
    by_cases hl' : l ∈ writes'
    · have hkeep : ∀ k ∈ reads', f s k = s k := fun k hk => hf.frame s k fun hk' =>
        (hfg k hk').1 hk
      exact (hg.reads _ _ hkeep l hl').symm
    · rw [hg.frame s l hl', hg.frame (f s) l hl', hf.frame s l hl]

theorem Footprint.comp (hf : Footprint f reads writes) (hg : Footprint g reads' writes') :
    Footprint (g ∘ f) (reads ∪ reads') (writes ∪ writes') := by
  constructor
  · intro s l hl
    have hl' := not_or.mp hl
    exact (hg.frame (f s) l hl'.2).trans (hf.frame s l hl'.1)
  · intro s t hst l hl
    have hreads : ∀ k ∈ reads, s k = t k := fun k hk => hst k (.inl hk)
    by_cases hl' : l ∈ writes'
    · refine hg.reads (f s) (f t) (fun k hk => ?_) l hl'
      by_cases hkw : k ∈ writes
      · exact hf.reads s t hreads k hkw
      · rw [hf.frame s k hkw, hf.frame t k hkw, hst k (.inr hk)]
    · exact (hg.frame (f s) l hl').trans
        ((hf.reads s t hreads l (hl.resolve_right hl')).trans (hg.frame (f t) l hl').symm)
end Footprints

end ZeCo.Schedules
