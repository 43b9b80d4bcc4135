import Mathlib.Data.List.Basic

namespace ZeCo.Calls

variable {σ α β : Type*} (call : σ → α → Option (List β × σ))

def run : σ → List α → Option (List β × σ)
  | s, [] => some ([], s)
  | s, a :: as => (call s a).bind fun x => (run x.2 as).map fun y => (x.1 ++ y.1, y.2)

def Meets (fits : σ → α → Prop) : σ → List α → Prop
  | _, [] => True
  | s, a :: as => fits s a ∧ ∀ x, call s a = some x → Meets fits x.2 as

variable {call}

theorem run_cons {s : σ} {a : α} {as : List α} {z : List β × σ} :
    run call s (a :: as) = some z ↔ ∃ x y, call s a = some x ∧ run call x.2 as = some y ∧
      z = (x.1 ++ y.1, y.2) := by
  simp only [run, Option.bind_eq_some_iff, Option.map_eq_some_iff]
  constructor
  · rintro ⟨x, hx, y, hy, rfl⟩
    exact ⟨x, y, hx, hy, rfl⟩
  · rintro ⟨x, y, hx, hy, rfl⟩
    exact ⟨x, hx, y, hy, rfl⟩

theorem run_append {s : σ} {as bs : List α} {z : List β × σ} :
    run call s (as ++ bs) = some z ↔ ∃ x y, run call s as = some x ∧ run call x.2 bs = some y ∧
      z = (x.1 ++ y.1, y.2) := by
  induction as generalizing s z with
  | nil =>
    constructor
    · intro h
      exact ⟨([], s), z, rfl, h, rfl⟩
    · rintro ⟨x, y, hx, hy, rfl⟩
      cases hx
      exact hy
  | cons a as ih =>
    rw [List.cons_append, run_cons]
    constructor
    · rintro ⟨x, y, hx, hy, rfl⟩
      obtain ⟨u, v, hu, hv, rfl⟩ := ih.mp hy
      exact ⟨(x.1 ++ u.1, u.2), v, run_cons.mpr ⟨x, u, hx, hu, rfl⟩, hv, by simp⟩
    · rintro ⟨x, y, hx, hy, rfl⟩
      obtain ⟨u, v, hu, hv, rfl⟩ := run_cons.mp hx
      exact ⟨u, (v.1 ++ y.1, y.2), hu, ih.mpr ⟨v, y, hv, hy, rfl⟩, by simp⟩

theorem run_safe {I : σ → Prop} {allowed : α → Prop} {safe : β → Prop}
    (step : ∀ s a x, I s → allowed a → call s a = some x → I x.2 ∧ ∀ b ∈ x.1, safe b) {s : σ}
    {as : List α} {z : List β × σ} (start : I s) (hall : ∀ a ∈ as, allowed a)
    (h : run call s as = some z) : I z.2 ∧ ∀ b ∈ z.1, safe b := by
  induction as generalizing s z with
  | nil =>
    cases h
    exact ⟨start, fun b hb => absurd hb List.not_mem_nil⟩
  | cons a as ih =>
    obtain ⟨x, y, hx, hy, rfl⟩ := run_cons.mp h
    obtain ⟨hI, hsafe⟩ := step s a x start (hall a List.mem_cons_self) hx
    obtain ⟨hJ, htail⟩ := ih hI (fun b hb => hall b (List.mem_cons_of_mem a hb)) hy
    refine ⟨hJ, fun b hb => ?_⟩
    rcases List.mem_append.mp hb with hb | hb
    · exact hsafe b hb
    · exact htail b hb

theorem run_safe_iff {I : σ → Prop} {fits : σ → α → Prop} {safe : β → Prop}
    (exact_step : ∀ s a x, I s → call s a = some x → ((∀ b ∈ x.1, safe b) ↔ fits s a))
    (keep : ∀ s a x, I s → fits s a → call s a = some x → I x.2) {s : σ} {as : List α}
    {z : List β × σ} (start : I s) (h : run call s as = some z) :
    (∀ b ∈ z.1, safe b) ↔ Meets call fits s as := by
  induction as generalizing s z with
  | nil =>
    cases h
    exact ⟨fun _ => trivial, fun _ b hb => absurd hb List.not_mem_nil⟩
  | cons a as ih =>
    obtain ⟨x, y, hx, hy, rfl⟩ := run_cons.mp h
    have hstep := exact_step s a x start hx
    constructor
    · intro hsafe
      have hfit := hstep.mp fun b hb => hsafe b (List.mem_append_left y.1 hb)
      refine ⟨hfit, fun x' hx' => ?_⟩
      obtain rfl : x' = x := Option.some.inj (hx'.symm.trans hx)
      apply (ih (keep s a x' start hfit hx) hy).mp
      exact fun b hb => hsafe b (List.mem_append_right x'.1 hb)
    · rintro ⟨hfit, hmeets⟩ b hb
      rcases List.mem_append.mp hb with hb | hb
      · exact hstep.mpr hfit b hb
      · exact (ih (keep s a x start hfit hx) hy).mpr (hmeets x hx) b hb

theorem run_replies {I : σ → Prop} {reply : α → List β}
    (step : ∀ s a, I s → ∃ t, call s a = some (reply a, t) ∧ I t) {s : σ} (start : I s)
    (as : List α) : ∃ t, run call s as = some (as.flatMap reply, t) ∧ I t := by
  induction as generalizing s with
  | nil => exact ⟨s, rfl, start⟩
  | cons a as ih =>
    obtain ⟨t, ht, hI⟩ := step s a start
    obtain ⟨u, hu, hJ⟩ := ih hI
    exact ⟨u, run_cons.mpr ⟨_, _, ht, hu, rfl⟩, hJ⟩

theorem run_simulation {τ : Type*} {call' : τ → α → Option (List β × τ)} {rel : σ → τ → Prop}
    {fits : τ → α → Prop}
    (step : ∀ s t a, rel s t → fits t a → ∃ b s' t', call s a = some (b, s') ∧
      call' t a = some (b, t') ∧ rel s' t') {s : σ} {t : τ} {as : List α} (start : rel s t)
    (h : Meets call' fits t as) :
    ∃ b s' t', run call s as = some (b, s') ∧ run call' t as = some (b, t') ∧ rel s' t' := by
  induction as generalizing s t with
  | nil => exact ⟨[], s, t, rfl, rfl, start⟩
  | cons a as ih =>
    obtain ⟨b, s', t', hs, ht, hrel⟩ := step s t a start h.1
    obtain ⟨c, s'', t'', hs', ht', hrel'⟩ := ih hrel (h.2 _ ht)
    exact ⟨b ++ c, s'', t'', run_cons.mpr ⟨_, _, hs, hs', rfl⟩, run_cons.mpr ⟨_, _, ht, ht', rfl⟩,
      hrel'⟩

inductive History (call : σ → α → List β → σ → Prop) : σ → List α → List β → σ → Prop where
  | nil (s : σ) : History call s [] [] s
  | cons {s t u : σ} {a : α} {as : List α} {bs cs : List β} (head : call s a bs t)
      (tail : History call t as cs u) : History call s (a :: as) (bs ++ cs) u

variable {outcome : σ → α → List β → σ → Prop} {I : σ → Prop}

theorem history_replies {reply : α → List β}
    (step : ∀ s a bs t, I s → outcome s a bs t → bs = reply a ∧ I t) {s t : σ} {as : List α}
    {bs : List β} (start : I s) (h : History outcome s as bs t) : bs = as.flatMap reply ∧ I t := by
  induction h with
  | nil => exact ⟨rfl, start⟩
  | cons head _ ih =>
    obtain ⟨rfl, hI⟩ := step _ _ _ _ start head
    obtain ⟨rfl, hJ⟩ := ih hI
    exact ⟨rfl, hJ⟩

theorem history_exists (step : ∀ s a, I s → ∃ bs t, outcome s a bs t ∧ I t) {s : σ} (start : I s)
    (as : List α) : ∃ bs t, History outcome s as bs t := by
  induction as generalizing s with
  | nil => exact ⟨[], s, .nil s⟩
  | cons a as ih =>
    obtain ⟨bs, t, head, hI⟩ := step s a start
    obtain ⟨cs, u, tail⟩ := ih hI
    exact ⟨bs ++ cs, u, .cons head tail⟩

end ZeCo.Calls
