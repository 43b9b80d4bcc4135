import Mathlib.Data.List.FinRange
import ZeCo.Processes

namespace ZeCo.Processes

variable {ρ τ μ α β : Type*} [DecidableEq ρ]

structure Comm (ρ τ μ : Type*) where
  src : ρ
  dst : ρ
  tag : τ
  m : μ
  sent : Bool

def Takes (p : ρ) (c : Comm ρ τ μ) (x y : Proc ρ τ μ α) : Prop :=
  if c.src = p ∧ c.sent = false then x = .send c.tag c.dst c.m y
  else if c.dst = p then ∃ next, x = .recv c.tag c.src next ∧ y = next c.m
  else x = y

def Advances (p : ρ) : List (Comm ρ τ μ) → Proc ρ τ μ α → Proc ρ τ μ α → Prop
  | [], x, y => x = y
  | c :: cs, x, z => ∃ y, Takes p c x y ∧ Advances p cs y z

structure Realizes (cs : List (Comm ρ τ μ)) (prog : ρ → Proc ρ τ μ α) (result : ρ → α) : Prop where
  ne : ∀ c ∈ cs, c.src ≠ c.dst
  unsent : ∀ c ∈ cs, c.sent = false
  advances : ∀ p, Advances p cs (prog p) (.ret (result p))

section Rules

theorem Advances.append {p : ρ} {cs ds : List (Comm ρ τ μ)} {x y z : Proc ρ τ μ α}
    (h : Advances p cs x y) (h' : Advances p ds y z) : Advances p (cs ++ ds) x z := by
  induction cs generalizing x with
  | nil =>
    cases h
    exact h'
  | cons c cs ih =>
    obtain ⟨w, hw, hy⟩ := h
    exact ⟨w, hw, ih hy⟩

theorem Takes.bind {p : ρ} {c : Comm ρ τ μ} {x y : Proc ρ τ μ α} (f : α → Proc ρ τ μ β)
    (h : Takes p c x y) : Takes p c (x.bind f) (y.bind f) := by
  unfold Takes at h ⊢
  split_ifs at h ⊢
  · rw [h]
    rfl
  · obtain ⟨next, rfl, rfl⟩ := h
    exact ⟨fun m => (next m).bind f, rfl, rfl⟩
  · rw [h]

theorem Advances.bind {p : ρ} {cs : List (Comm ρ τ μ)} {x : Proc ρ τ μ α} {a : α}
    (f : α → Proc ρ τ μ β) (h : Advances p cs x (.ret a)) : Advances p cs (x.bind f) (f a) := by
  have key (y : Proc ρ τ μ α) (h : Advances p cs x y) : Advances p cs (x.bind f) (y.bind f) := by
    clear * - h
    induction cs generalizing x with
    | nil =>
      cases h
      rfl
    | cons c cs ih =>
      obtain ⟨w, hw, hy⟩ := h
      exact ⟨w.bind f, hw.bind f, ih hy⟩
  exact key (.ret a) h

theorem Advances.forRange {p : ρ} {body : ℕ → α → Proc ρ τ μ α} {round : ℕ → List (Comm ρ τ μ)}
    (I : ℕ → α → Prop) {n : ℕ} {a : α} (start : I 0 a)
    (next : ∀ k a, k < n → I k a → ∃ b, Advances p (round k) (body k a) (.ret b) ∧ I (k + 1) b) :
    ∃ b, Advances p ((List.range n).flatMap round) (Proc.forRange body n a) (.ret b) ∧ I n b := by
  induction n with
  | zero => exact ⟨a, rfl, start⟩
  | succ n ih =>
    obtain ⟨b, hb, hI⟩ := ih fun k a hk => next k a (by omega)
    obtain ⟨c, hc, hI⟩ := next n b (by omega) hI
    refine ⟨c, ?_, hI⟩
    rw [List.range_succ, List.flatMap_append, List.flatMap_singleton]
    apply Advances.append (y := body n b)
    · exact hb.bind (body n)
    · exact hc

theorem advances_finRange {p : ρ} {n : ℕ} (c : Fin n → Comm ρ τ μ) (x : ℕ → Proc ρ τ μ α)
    (h : ∀ i : Fin n, Takes p (c i) (x i) (x (i + 1))) :
    Advances p ((List.finRange n).map c) (x 0) (x n) := by
  induction n generalizing x with
  | zero => rfl
  | succ n ih =>
    rw [List.finRange_succ, List.map_cons, List.map_map]
    refine ⟨x 1, h 0, ?_⟩
    exact ih (c ∘ Fin.succ) (fun k => x (k + 1)) fun i => h i.succ

end Rules

section Active

def Idle (p : ρ) (c : Comm ρ τ μ) : Prop := (c.src = p → c.sent = true) ∧ c.dst ≠ p

theorem Idle.takes {p : ρ} {c : Comm ρ τ μ} {x y : Proc ρ τ μ α} (h : Idle p c) :
    Takes p c x y ↔ x = y := by
  have hsrc : ¬ (c.src = p ∧ c.sent = false) := fun hc => by simp [h.1 hc.1] at hc
  rw [Takes, if_neg hsrc, if_neg h.2]

theorem advances_idle {p : ρ} {l r : List (Comm ρ τ μ)} {x z : Proc ρ τ μ α}
    (hl : ∀ c ∈ l, Idle p c) : Advances p (l ++ r) x z ↔ Advances p r x z := by
  induction l with
  | nil => rfl
  | cons c l ih =>
    have hc (y : Proc ρ τ μ α) := (hl c List.mem_cons_self).takes (x := x) (y := y)
    have ih := ih fun d hd => hl d (List.mem_cons_of_mem c hd)
    constructor
    · rintro ⟨y, hy, h⟩
      rw [hc] at hy
      subst hy
      exact ih.mp h
    · exact fun h => ⟨x, (hc x).mpr rfl, ih.mpr h⟩

theorem Takes.active {p : ρ} {c : Comm ρ τ μ} {x y : Proc ρ τ μ α} (h : Takes p c x y)
    (hc : ¬ Idle p c) : (c.src = p ∧ c.sent = false ∧ x = .send c.tag c.dst c.m y) ∨
      (c.dst = p ∧ ∃ next, x = .recv c.tag c.src next ∧ y = next c.m) := by
  unfold Takes at h
  split_ifs at h with hsrc hdst
  · exact .inl ⟨hsrc.1, hsrc.2, h⟩
  · exact .inr ⟨hdst, h⟩
  · refine absurd ⟨fun hs => ?_, hdst⟩ hc
    by_contra hb
    exact hsrc ⟨hs, by simpa using hb⟩

theorem advances_active {p : ρ} {cs : List (Comm ρ τ μ)} {x z : Proc ρ τ μ α}
    (h : Advances p cs x z) (hx : x ≠ z) : ∃ l c r y, cs = l ++ c :: r ∧ (∀ d ∈ l, Idle p d) ∧
      ¬ Idle p c ∧ Takes p c x y ∧ Advances p r y z := by
  induction cs with
  | nil => exact absurd h hx
  | cons c cs ih =>
    obtain ⟨y, hy, h⟩ := h
    by_cases hc : Idle p c
    · rw [hc.takes] at hy
      subst hy
      obtain ⟨l, d, r, w, rfl, hl, hrest⟩ := ih h
      refine ⟨c :: l, d, r, w, rfl, ?_, hrest⟩
      intro e he
      rcases List.mem_cons.mp he with rfl | he
      · exact hc
      · exact hl e he
    · exact ⟨[], c, cs, y, rfl, by simp, hc, hy, h⟩

theorem advances_send {p dst : ρ} {tag : τ} {m : μ} {cs : List (Comm ρ τ μ)}
    {next : Proc ρ τ μ α} {a : α} (h : Advances p cs (.send tag dst m next) (.ret a)) :
    ∃ l r, cs = l ++ ⟨p, dst, tag, m, false⟩ :: r ∧ (∀ d ∈ l, Idle p d) ∧
      Advances p r next (.ret a) := by
  obtain ⟨l, ⟨src, d, t, x, b⟩, r, y, rfl, hl, hc, hy, hr⟩ := advances_active h (by simp)
  rcases hy.active hc with ⟨rfl, rfl, heq⟩ | ⟨-, next', heq, -⟩
  · cases heq
    exact ⟨l, r, rfl, hl, hr⟩
  · cases heq

theorem advances_recv {q src : ρ} {tag : τ} {cs : List (Comm ρ τ μ)} {next : μ → Proc ρ τ μ α}
    {a : α} (h : Advances q cs (.recv tag src next) (.ret a)) :
    ∃ l r m b, cs = l ++ ⟨src, q, tag, m, b⟩ :: r ∧ (∀ d ∈ l, Idle q d) ∧
      Advances q r (next m) (.ret a) := by
  obtain ⟨l, ⟨s, d, t, x, b⟩, r, y, rfl, hl, hc, hy, hr⟩ := advances_active h (by simp)
  rcases hy.active hc with ⟨-, -, heq⟩ | ⟨rfl, next', heq, rfl⟩
  · cases heq
  · cases heq
    exact ⟨l, r, x, b, rfl, hl, hr⟩

theorem advances_ret {p : ρ} {cs : List (Comm ρ τ μ)} {a b : α}
    (h : Advances p cs (.ret a) (.ret b)) : a = b := by
  by_contra hne
  obtain ⟨l, c, r, y, rfl, hl, hc, hy, hr⟩ := advances_active h (by simpa using hne)
  rcases hy.active hc with ⟨-, -, heq⟩ | ⟨-, next', heq, -⟩ <;> cases heq

end Active

section Transit

def inTransit (p q : ρ) (cs : List (Comm ρ τ μ)) : List (τ × μ) :=
  (cs.filter fun c => c.src = p ∧ c.dst = q ∧ c.sent = true).map fun c => (c.tag, c.m)

theorem inTransit_append (p q : ρ) (cs ds : List (Comm ρ τ μ)) :
    inTransit p q (cs ++ ds) = inTransit p q cs ++ inTransit p q ds := by
  rw [inTransit, List.filter_append, List.map_append]
  rfl

theorem inTransit_cons_of_ne {p q src dst : ρ} (tag : τ) (m : μ) (b : Bool)
    (cs : List (Comm ρ τ μ)) (h : (p, q) ≠ (src, dst)) :
    inTransit p q (⟨src, dst, tag, m, b⟩ :: cs) = inTransit p q cs := by
  have hc : ¬ (src = p ∧ dst = q ∧ b = true) := fun hc => h (by rw [hc.1, hc.2.1])
  rw [inTransit, List.filter_cons_of_neg (by simpa using hc)]
  rfl

theorem inTransit_cons_sent (p q : ρ) (tag : τ) (m : μ) (cs : List (Comm ρ τ μ)) :
    inTransit p q (⟨p, q, tag, m, true⟩ :: cs) = (tag, m) :: inTransit p q cs := by
  simp [inTransit]

theorem inTransit_cons_unsent {p q : ρ} {c : Comm ρ τ μ} (cs : List (Comm ρ τ μ))
    (h : c.sent = false) : inTransit p q (c :: cs) = inTransit p q cs := by
  simp [inTransit, h]

theorem inTransit_eq_nil {p q : ρ} {cs : List (Comm ρ τ μ)}
    (h : ∀ c ∈ cs, c.src = p → c.dst = q → c.sent = false) : inTransit p q cs = [] := by
  rw [inTransit, List.map_eq_nil_iff, List.filter_eq_nil_iff]
  intro c hc hcond
  obtain ⟨hs, hd, hsent⟩ := of_decide_eq_true hcond
  rw [h c hc hs hd] at hsent
  cases hsent

theorem inTransit_idle {p q : ρ} {cs : List (Comm ρ τ μ)} (h : ∀ c ∈ cs, Idle q c) :
    inTransit p q cs = [] :=
  inTransit_eq_nil fun c hc _ hd => absurd hd (h c hc).2

def Fifo (cs : List (Comm ρ τ μ)) : Prop :=
  cs.Pairwise fun c d => c.src = d.src → c.dst = d.dst → d.sent = true → c.sent = true

theorem Fifo.unsent {p q : ρ} {tag : τ} {m : μ} {l r : List (Comm ρ τ μ)}
    (h : Fifo (l ++ ⟨p, q, tag, m, false⟩ :: r)) : inTransit p q r = [] := by
  obtain ⟨-, hr, -⟩ := List.pairwise_append.mp h
  apply inTransit_eq_nil
  intro c hc hs hd
  by_contra hsent
  have := (List.pairwise_cons.mp hr).1 c hc hs.symm hd.symm (by simpa using hsent)
  cases this

end Transit

section Runs

variable {result : ρ → α} {cs : List (Comm ρ τ μ)} {s : State ρ τ μ α}

structure Tracks (result : ρ → α) (cs : List (Comm ρ τ μ)) (s : State ρ τ μ α) : Prop where
  ne : ∀ c ∈ cs, c.src ≠ c.dst
  fifo : Fifo cs
  chan : ∀ p q, s.chan (p, q) = inTransit p q cs
  advances : ∀ p, Advances p cs (s.proc p) (.ret (result p))

theorem advances_replace {p : ρ} {c d : Comm ρ τ μ} {l r : List (Comm ρ τ μ)} {x z : Proc ρ τ μ α}
    (hcd : ∀ x y : Proc ρ τ μ α, Takes p c x y → Takes p d x y) (h : Advances p (l ++ c :: r) x z) :
    Advances p (l ++ d :: r) x z := by
  induction l generalizing x with
  | nil =>
    obtain ⟨y, hy, h⟩ := h
    exact ⟨y, hcd x y hy, h⟩
  | cons e l ih =>
    obtain ⟨y, hy, h⟩ := h
    exact ⟨y, hy, ih h⟩

theorem advances_skip {p : ρ} {c : Comm ρ τ μ} {l r : List (Comm ρ τ μ)} {x z : Proc ρ τ μ α}
    (hc : Idle p c) (h : Advances p (l ++ c :: r) x z) : Advances p (l ++ r) x z := by
  induction l generalizing x with
  | nil =>
    obtain ⟨y, hy, h⟩ := h
    rw [hc.takes] at hy
    subst hy
    exact h
  | cons e l ih =>
    obtain ⟨y, hy, h⟩ := h
    exact ⟨y, hy, ih h⟩

def steps : List (Comm ρ τ μ) → ℕ
  | [] => 0
  | c :: cs => (if c.sent then 1 else 2) + steps cs

omit [DecidableEq ρ] in
theorem steps_split (l r : List (Comm ρ τ μ)) (c : Comm ρ τ μ) :
    steps (l ++ c :: r) = steps (l ++ r) + if c.sent then 1 else 2 := by
  induction l with
  | nil =>
    simp only [List.nil_append, steps]
    omega
  | cons d l ih =>
    simp only [List.cons_append, steps, ih]
    omega

omit [DecidableEq ρ] in
theorem steps_unsent {cs : List (Comm ρ τ μ)} (h : ∀ c ∈ cs, c.sent = false) :
    steps cs = 2 * cs.length := by
  induction cs with
  | nil => rfl
  | cons c cs ih =>
    have hc := h c List.mem_cons_self
    have ih := ih fun d hd => h d (List.mem_cons_of_mem c hd)
    simp only [steps, hc, List.length_cons, Bool.false_eq_true, if_false, ih]
    omega

theorem tracks_send (h : Tracks result cs s) {p dst : ρ} {tag : τ} {m : μ} {next : Proc ρ τ μ α}
    (hp : s.proc p = .send tag dst m next) : ∃ cs', steps cs' + 1 = steps cs ∧ Tracks result cs'
      { proc := Function.update s.proc p next
        chan := Function.update s.chan (p, dst) (s.chan (p, dst) ++ [(tag, m)]) } := by
  have hadv := h.advances p
  rw [hp] at hadv
  obtain ⟨l, r, rfl, hl, hr⟩ := advances_send hadv
  obtain ⟨fl, fr, fc⟩ := List.pairwise_append.mp h.fifo
  have hdst : dst ≠ p := fun he => h.ne ⟨p, dst, tag, m, false⟩ (by simp) he.symm
  refine ⟨l ++ ⟨p, dst, tag, m, true⟩ :: r, ?_, ?_, ?_, ?_, ?_⟩
  · rw [steps_split, steps_split]
    rfl
  · intro c hc
    rcases List.mem_append.mp hc with hc | hc
    · exact h.ne c (List.mem_append_left _ hc)
    · rcases List.mem_cons.mp hc with rfl | hc
      · exact hdst.symm
      · exact h.ne c (by simp [hc])
  · apply List.pairwise_append.mpr
    refine ⟨fl, List.pairwise_cons.mpr ⟨fun _ _ _ _ _ => rfl, (List.pairwise_cons.mp fr).2⟩, ?_⟩
    intro c hc d hd hs hq hsent
    rcases List.mem_cons.mp hd with rfl | hd
    · exact (hl c hc).1 hs
    · exact fc c hc d (List.mem_cons_of_mem _ hd) hs hq hsent
  · intro p' q'
    have hc := h.chan p' q'
    rw [inTransit_append, inTransit_cons_unsent _ rfl] at hc
    rw [inTransit_append]
    by_cases he : (p', q') = (p, dst)
    · cases he
      simp only [Function.update_self, hc, inTransit_cons_sent, h.fifo.unsent, List.append_nil]
    · simp only [Function.update_of_ne he, hc, inTransit_cons_of_ne tag m true r he]
  · intro p'
    by_cases he : p' = p
    · subst he
      simp only [Function.update_self]
      apply (advances_idle hl).mpr
      have hidle : Idle p' (⟨p', dst, tag, m, true⟩ : Comm ρ τ μ) := ⟨fun _ => rfl, hdst⟩
      exact ⟨next, hidle.takes.mpr rfl, hr⟩
    · simp only [Function.update_of_ne he]
      refine advances_replace (fun x y hxy => ?_) (h.advances p')
      have hne : p ≠ p' := fun h' => he h'.symm
      simpa only [Takes, hne, false_and, if_false] using hxy

theorem tracks_recv (h : Tracks result cs s) {q src : ρ} {tag : τ} {next : μ → Proc ρ τ μ α}
    (hq : s.proc q = .recv tag src next) {x : τ × μ} {rest : List (τ × μ)}
    (hc : s.chan (src, q) = x :: rest) : x.1 = tag ∧ ∃ cs', steps cs' + 1 = steps cs ∧
      Tracks result cs'
      { proc := Function.update s.proc q (next x.2)
        chan := Function.update s.chan (src, q) rest } := by
  have hadv := h.advances q
  rw [hq] at hadv
  obtain ⟨l, r, m, b, rfl, hl, hr⟩ := advances_recv hadv
  have hchan := h.chan src q
  rw [hc, inTransit_append, inTransit_idle hl, List.nil_append] at hchan
  cases b with
  | false =>
    rw [inTransit_cons_unsent _ rfl, h.fifo.unsent] at hchan
    cases hchan
  | true =>
    rw [inTransit_cons_sent] at hchan
    cases hchan
    refine ⟨rfl, l ++ r, ?_, fun c hc => h.ne c ?_, ?_, fun p' q' => ?_, fun p' => ?_⟩
    · rw [steps_split]
      rfl
    · rcases List.mem_append.mp hc with hc | hc <;> simp [hc]
    · exact h.fifo.sublist (List.Sublist.append_left (List.sublist_cons_self _ r) l)
    · have hc := h.chan p' q'
      rw [inTransit_append] at hc ⊢
      by_cases he : (p', q') = (src, q)
      · cases he
        simp only [Function.update_self, inTransit_idle hl, List.nil_append]
      · simp only [Function.update_of_ne he, hc, inTransit_cons_of_ne tag m true r he]
    · by_cases he : p' = q
      · subst he
        simp only [Function.update_self]
        exact (advances_idle hl).mpr hr
      · simp only [Function.update_of_ne he]
        exact advances_skip ⟨fun _ => rfl, fun h' => he h'.symm⟩ (h.advances p')

theorem tracks_handshake (h : Tracks result cs s) {p q : ρ} {tag tag' : τ} {m : μ}
    {next : Proc ρ τ μ α} {next' : μ → Proc ρ τ μ α} (hp : s.proc p = .send tag q m next)
    (hq : s.proc q = .recv tag' p next') (hc : s.chan (p, q) = []) :
    tag = tag' ∧ ∃ cs', steps cs' + 1 < steps cs ∧ Tracks result cs'
      { s with proc := Function.update (Function.update s.proc p next) q (next' m) } := by
  have hne : q ≠ p := fun he => by
    rw [he, hp] at hq
    cases hq
  obtain ⟨cs₁, hw₁, h₁⟩ := tracks_send h hp
  have hq₁ : (Function.update s.proc p next) q = .recv tag' p next' := by
    rw [Function.update_of_ne hne, hq]
  have hc₁ : Function.update s.chan (p, q) (s.chan (p, q) ++ [(tag, m)]) (p, q) = [(tag, m)] := by
    rw [Function.update_self, hc, List.nil_append]
  obtain ⟨htag, cs₂, hw₂, h₂⟩ := tracks_recv h₁ hq₁ hc₁
  refine ⟨htag, cs₂, by omega, ?_⟩
  have hchan : Function.update (Function.update s.chan (p, q) (s.chan (p, q) ++ [(tag, m)])) (p, q)
      [] = s.chan := by
    rw [Function.update_idem, ← hc, Function.update_eq_self]
  rw [hchan] at h₂
  exact h₂

theorem Tracks.matched (h : Tracks result cs s) : s.Matched := by
  intro q tag src next hq
  constructor
  · intro x rest hc
    exact (tracks_recv h hq hc).1
  · intro hc tag' m next' hsrc
    exact (tracks_handshake h hsrc hq hc).1

variable {prog : ρ → Proc ρ τ μ α} {mode : Mode} {es : List (Event ρ)}

theorem Realizes.tracks (h : Realizes cs prog result) : Tracks result cs (State.init prog) where
  ne := h.ne
  fifo := List.pairwise_of_forall_mem_list fun c hc _ _ _ _ hd => by
    have := h.unsent
    simp_all
  chan p q := (inTransit_eq_nil fun c hc _ _ => h.unsent c hc).symm
  advances := h.advances

theorem run_tracks (h : Realizes cs prog result) (hrun : State.Run mode prog es s) :
    (∃ cs', es.length + steps cs' ≤ steps cs ∧ Tracks result cs' s) ∧
      (mode = .rendezvous → ∀ c, s.chan c = []) := by
  refine Runs.exec_invariant (fun es s => (∃ cs', es.length + steps cs' ≤ steps cs ∧
    Tracks result cs' s) ∧ (mode = .rendezvous → ∀ c, s.chan c = []))
    ⟨⟨cs, by simp, h.tracks⟩, fun _ _ => rfl⟩ ?_ hrun
  rintro es x e y ⟨⟨cs', hle, hx⟩, hempty⟩ hstep
  rw [List.length_append, List.length_singleton]
  obtain ⟨p, tag, dst, m, next, rfl, hp, rfl⟩ | ⟨q, tag, src, next, z, rest, hq, hc, rfl⟩ |
    ⟨p, q, tag, tag', m, next, next', rfl, hp, hq, rfl⟩ := State.step_cases hstep
  · obtain ⟨cs₁, hw, h₁⟩ := tracks_send hx hp
    exact ⟨⟨cs₁, by omega, h₁⟩, fun hm => by cases hm⟩
  · obtain ⟨-, cs₁, hw, h₁⟩ := tracks_recv hx hq hc
    refine ⟨⟨cs₁, by omega, h₁⟩, fun hm => ?_⟩
    rw [hempty hm] at hc
    cases hc
  · obtain ⟨-, cs₁, hw, h₁⟩ := tracks_handshake hx hp hq (hempty rfl _)
    exact ⟨⟨cs₁, by omega, h₁⟩, hempty⟩

theorem run_length (h : Realizes cs prog result) (hrun : State.Run mode prog es s) :
    es.length ≤ 2 * cs.length := by
  obtain ⟨⟨cs', hle, -⟩, -⟩ := run_tracks h hrun
  rw [← steps_unsent h.unsent]
  omega

theorem run_matched (h : Realizes cs prog result) (hrun : State.Run mode prog es s) :
    s.Matched := by
  obtain ⟨⟨cs', -, hs⟩, -⟩ := run_tracks h hrun
  exact hs.matched

theorem run_returns (h : Realizes cs prog result) (hrun : State.Run mode prog es s) {p : ρ} {a : α}
    (hp : s.proc p = .ret a) : a = result p := by
  obtain ⟨⟨cs', -, hs⟩, -⟩ := run_tracks h hrun
  have hadv := hs.advances p
  rw [hp] at hadv
  exact advances_ret hadv

theorem final_of_stuck (h : Realizes cs prog result) (hrun : State.Run mode prog es s)
    (hstuck : Runs.Stuck (State.step mode) s) : s.Final := by
  obtain ⟨⟨cs', -, hs⟩, -⟩ := run_tracks h hrun
  cases cs' with
  | nil => exact fun p => ⟨result p, hs.advances p⟩
  | cons c r =>
    exfalso
    have hne := hs.ne c List.mem_cons_self
    obtain ⟨y, hy, -⟩ := hs.advances c.dst
    rw [Takes, if_neg fun hc => hne hc.1, if_pos rfl] at hy
    obtain ⟨next', hrecv, -⟩ := hy
    -- the receiver of the first communication is ready: its message is there, or its sender is
    cases hsent : c.sent with
    | true =>
      apply State.step_recv hrecv _ (hstuck (.recv c.dst))
      rw [hs.chan]
      simp [inTransit, hsent]
    | false =>
      obtain ⟨x, hx, -⟩ := hs.advances c.src
      rw [Takes, if_pos ⟨rfl, hsent⟩] at hx
      cases mode with
      | buffered => exact State.step_send hx (hstuck (.send c.src))
      | rendezvous => exact State.step_handshake hx hrecv (hstuck (.handshake c.src c.dst))

end Runs

end ZeCo.Processes
