import Mathlib.Data.Finset.Card
import Mathlib.Data.Finset.Range
import Mathlib.Logic.Relation
import ZeCo.Runs
import ZeCo.Schedules

/-!
A core that queues one stream of instructions on several pipes. The pipes work at the same time, and
what is queued on one of them starts in the order of the stream but may overlap: flags from pipe to
pipe and barriers are what orders the rest. The control pipe `front` does the queueing itself.
-/

namespace ZeCo.Pipes

open Finset Relation

variable {κ ι β σ : Type*}

/-- `drain` is the pipe whose barriers and flags await the instruction. -/
inductive Instr (κ ι β : Type*)
  | op (queue drain : κ) (body : β)
  | setFlag (src dst : κ) (id : ι)
  | waitFlag (src dst : κ) (id : ι)
  | barrier (pipe : κ)
  | barrierAll

/-- `serial` tells the pipes that finish an instruction before they start the next one, and a flag
holds up to `depth` sets. -/
structure Core (κ : Type*) where
  front : κ
  serial : κ → Bool
  depth : ℕ
  depth_pos : 0 < depth

namespace Instr

def queue : Instr κ ι β → Option κ
  | op queue _ _ => some queue
  | setFlag src _ _ => some src
  | waitFlag _ dst _ => some dst
  | barrier pipe => some pipe
  | barrierAll => none

def drain : Instr κ ι β → Option κ
  | op _ drain _ => some drain
  | setFlag src _ _ => some src
  | waitFlag _ dst _ => some dst
  | barrier pipe => some pipe
  | barrierAll => none

def awaits : Instr κ ι β → Bool
  | setFlag _ _ _ | barrier _ => true
  | _ => false

def blocks : Instr κ ι β → Bool
  | waitFlag _ _ _ | barrier _ => true
  | _ => false

def isSet : Instr κ ι β → Bool
  | setFlag _ _ _ => true
  | _ => false

def isFlag : Instr κ ι β → Bool
  | setFlag _ _ _ | waitFlag _ _ _ => true
  | _ => false

variable [DecidableEq κ] [DecidableEq ι]

def sets (f : κ × κ × ι) : Instr κ ι β → Bool
  | setFlag src dst id => (src, dst, id) = f
  | _ => false

def waits (f : κ × κ × ι) : Instr κ ι β → Bool
  | waitFlag src dst id => (src, dst, id) = f
  | _ => false

def holdsBack (c : Core κ) (a b : Instr κ ι β) : Bool :=
  match a.drain, b.queue with
  | some p, some q => p = c.front || (p = q && (a.blocks || b.awaits || c.serial p))
  | _, _ => true

def can (c : Core κ) (flag : κ × κ × ι → ℕ) : Instr κ ι β → Bool
  | setFlag src dst id => flag (src, dst, id) < c.depth
  | waitFlag src dst id => 0 < flag (src, dst, id)
  | _ => true

def flags (flag : κ × κ × ι → ℕ) : Instr κ ι β → κ × κ × ι → ℕ
  | setFlag src dst id => Function.update flag (src, dst, id) (flag (src, dst, id) + 1)
  | waitFlag src dst id => Function.update flag (src, dst, id) (flag (src, dst, id) - 1)
  | _ => flag

def effect (run : β → σ → σ) : Instr κ ι β → σ → σ
  | op _ _ body => run body
  | _ => id

end Instr

structure State (κ ι σ : Type*) where
  done : Finset ℕ
  flag : κ × κ × ι → ℕ
  mem : σ

def start (m : σ) : State κ ι σ := ⟨∅, fun _ => 0, m⟩

section Machine

variable [DecidableEq κ] [DecidableEq ι] (c : Core κ) (run : β → σ → σ)
  (prog : List (Instr κ ι β))

def held (j i : ℕ) : Bool :=
  match prog[j]?, prog[i]? with
  | some a, some b => a.holdsBack c b
  | _, _ => false

def step (s : State κ ι σ) (i : ℕ) : Option (State κ ι σ) :=
  match prog[i]? with
  | none => none
  | some a =>
    if i ∉ s.done ∧ (∀ j < i, held c prog j i → j ∈ s.done) ∧ a.can c s.flag then
      some ⟨insert i s.done, a.flags s.flag, a.effect run s.mem⟩
    else none

def Run (m : σ) (is : List ℕ) (s : State κ ι σ) : Prop :=
  Runs.exec (step c run prog) (start m) is = some s

def Finished (s : State κ ι σ) : Prop := s.done = range prog.length

def effectAt (i : ℕ) : σ → σ := (prog[i]?).elim id (Instr.effect run)

def runAll (m : σ) : σ := prog.foldl (fun m a => a.effect run m) m

inductive Paired : List (Instr κ ι β) → Prop
  | nil : Paired []
  | flag (src dst : κ) (id : ι) {prog : List (Instr κ ι β)} (h : Paired prog) :
      Paired (.setFlag src dst id :: .waitFlag src dst id :: prog)
  | cons {a : Instr κ ι β} {prog : List (Instr κ ι β)} (ha : a.isFlag = false) (h : Paired prog) :
      Paired (a :: prog)

def edge (i j : ℕ) : Bool :=
  match prog[i]?, prog[j]? with
  | some a, some b => i < j && (a.holdsBack c b || (j = i + 1 && a.isSet))
  | _, _ => false

def Ordered : ℕ → ℕ → Prop := TransGen fun i j => edge c prog i j = true

end Machine

section Steps

variable [DecidableEq κ] {c : Core κ} {run : β → σ → σ} {prog : List (Instr κ ι β)}
  {s s' : State κ ι σ} {i j : ℕ} {a b : Instr κ ι β}

theorem held_eq (hj : prog[j]? = some a) (hi : prog[i]? = some b) :
    held c prog j i = a.holdsBack c b := by
  rw [held, hj, hi]

theorem edge_cases (h : edge c prog i j = true) : i < j ∧ ∃ a b, prog[i]? = some a ∧
    prog[j]? = some b ∧ (a.holdsBack c b = true ∨ (j = i + 1 ∧ a.isSet = true)) := by
  rw [edge] at h
  split at h
  · next a b ha hb =>
    simp only [Bool.and_eq_true, Bool.or_eq_true, decide_eq_true_eq] at h
    exact ⟨h.1, a, b, ha, hb, h.2⟩
  · cases h

theorem edge_intro (hij : i < j) (ha : prog[i]? = some a) (hb : prog[j]? = some b)
    (h : a.holdsBack c b = true ∨ (j = i + 1 ∧ a.isSet = true)) : edge c prog i j = true := by
  simp only [edge, ha, hb, Bool.and_eq_true, Bool.or_eq_true, decide_eq_true_eq]
  exact ⟨hij, h⟩

variable [DecidableEq ι]

theorem step_cases : step c run prog s i = some s' ↔ ∃ a, prog[i]? = some a ∧ i ∉ s.done ∧
    (∀ j < i, held c prog j i → j ∈ s.done) ∧ a.can c s.flag = true ∧
      s' = ⟨insert i s.done, a.flags s.flag, a.effect run s.mem⟩ := by
  rw [step]
  cases h : prog[i]? with
  | none => simp
  | some a =>
    dsimp only
    constructor
    · intro h
      split_ifs at h with hg
      exact ⟨a, rfl, hg.1, hg.2.1, hg.2.2, (Option.some.inj h).symm⟩
    · rintro ⟨b, hb, hi, hheld, hcan, rfl⟩
      obtain rfl := Option.some.inj hb
      exact if_pos ⟨hi, hheld, hcan⟩

theorem isSet_iff : a.isSet = true ↔ ∃ f, a.sets f = true := by
  cases a <;> simp [Instr.isSet, Instr.sets]

theorem sets_cases {f : κ × κ × ι} (h : a.sets f = true) : a = .setFlag f.1 f.2.1 f.2.2 := by
  cases a with
  | setFlag src dst id =>
    obtain rfl := of_decide_eq_true h
    rfl
  | _ => cases h

theorem waits_cases {f : κ × κ × ι} (h : a.waits f = true) : a = .waitFlag f.1 f.2.1 f.2.2 := by
  cases a with
  | waitFlag src dst id =>
    obtain rfl := of_decide_eq_true h
    rfl
  | _ => cases h

theorem sets_holdsBack {f : κ × κ × ι} (ha : a.sets f = true) (hb : b.sets f = true) :
    a.holdsBack c b = true := by
  rw [sets_cases ha, sets_cases hb]
  simp [Instr.holdsBack, Instr.drain, Instr.queue, Instr.awaits]

theorem waits_holdsBack {f : κ × κ × ι} (ha : a.waits f = true) (hb : b.waits f = true) :
    a.holdsBack c b = true := by
  rw [waits_cases ha, waits_cases hb]
  simp [Instr.holdsBack, Instr.drain, Instr.queue, Instr.blocks]

theorem flags_eq (flag : κ × κ × ι → ℕ) (h : a.can c flag = true) (f : κ × κ × ι) :
    a.flags flag f + (if a.waits f then 1 else 0) = flag f + if a.sets f then 1 else 0 := by
  cases a with
  | setFlag src dst id =>
    by_cases hf : (src, dst, id) = f
    · subst hf
      simp [Instr.flags, Instr.waits, Instr.sets]
    · simp [Instr.flags, Instr.waits, Instr.sets, hf, Ne.symm hf]
  | waitFlag src dst id =>
    by_cases hf : (src, dst, id) = f
    · subst hf
      have hpos : 0 < flag (src, dst, id) := of_decide_eq_true h
      simp only [Instr.flags, Instr.waits, Instr.sets, Function.update_self, decide_true, if_true,
        Bool.false_eq_true, if_false]
      omega
    · simp [Instr.flags, Instr.waits, Instr.sets, hf, Ne.symm hf]
  | op _ _ _ | barrier _ | barrierAll => rfl

end Steps

section Counts

variable {prog : List (Instr κ ι β)} {i : ℕ} {a : Instr κ ι β} {D : Finset ℕ}

def count (prog : List (Instr κ ι β)) (P : Instr κ ι β → Bool) (D : Finset ℕ) : ℕ :=
  #{j ∈ D | (prog[j]?).any P}

theorem count_insert (P : Instr κ ι β → Bool) (hi : i ∉ D) (ha : prog[i]? = some a) :
    count prog P (insert i D) = count prog P D + if P a then 1 else 0 := by
  rw [count, filter_insert, ha, Option.any_some]
  by_cases hP : P a
  · rw [if_pos hP, if_pos hP, card_insert_of_notMem fun h => hi (mem_of_mem_filter i h), count]
  · rw [if_neg hP, if_neg hP, Nat.add_zero, count]

theorem count_range_succ (P : Instr κ ι β → Bool) (ha : prog[i]? = some a) :
    count prog P (range (i + 1)) = count prog P (range i) + if P a then 1 else 0 := by
  rw [range_add_one, count_insert P notMem_range_self ha]

theorem count_mono (P : Instr κ ι β → Bool) {D E : Finset ℕ}
    (h : ∀ j ∈ D, ∀ a, prog[j]? = some a → P a = true → j ∈ E) :
    count prog P D ≤ count prog P E := by
  apply card_le_card
  intro j hj
  obtain ⟨hD, hP⟩ := mem_filter.mp hj
  obtain ⟨a, ha, hPa⟩ := (Option.any_eq_true _ _).mp hP
  exact mem_filter.mpr ⟨h j hD a ha hPa, hP⟩

theorem Paired.wait_next (h : Paired prog) {src dst : κ} {id : ι}
    (hi : prog[i]? = some (.setFlag src dst id)) :
    prog[i + 1]? = some (.waitFlag src dst id) := by
  induction h generalizing i with
  | nil => cases hi
  | flag src' dst' id' h ih =>
    match i with
    | 0 =>
      cases hi
      rfl
    | 1 => cases hi
    | i + 2 => exact ih hi
  | @cons a prog ha h ih =>
    cases i with
    | zero =>
      obtain rfl := Option.some.inj hi
      cases ha
    | succ i => exact ih hi

theorem Paired.set_before (h : Paired prog) {src dst : κ} {id : ι}
    (hi : prog[i]? = some (.waitFlag src dst id)) :
    ∃ j, i = j + 1 ∧ prog[j]? = some (.setFlag src dst id) := by
  induction h generalizing i with
  | nil => cases hi
  | flag src' dst' id' h ih =>
    match i with
    | 0 => cases hi
    | 1 =>
      cases hi
      exact ⟨0, rfl, rfl⟩
    | i + 2 =>
      obtain ⟨j, rfl, hj⟩ := ih hi
      exact ⟨j + 2, rfl, hj⟩
  | @cons a prog ha h ih =>
    cases i with
    | zero =>
      obtain rfl := Option.some.inj hi
      cases ha
    | succ i =>
      obtain ⟨j, rfl, hj⟩ := ih hi
      exact ⟨j + 1, rfl, hj⟩

theorem Paired.append {prog prog' : List (Instr κ ι β)} (h : Paired prog) (h' : Paired prog') :
    Paired (prog ++ prog') := by
  induction h with
  | nil => exact h'
  | flag src dst id _ ih => exact .flag src dst id ih
  | cons ha _ ih => exact .cons ha ih

theorem Paired.flatMap {α : Type*} {xs : List α} {f : α → List (Instr κ ι β)}
    (h : ∀ x, Paired (f x)) : Paired (xs.flatMap f) := by
  induction xs with
  | nil => exact .nil
  | cons x xs ih => exact (h x).append ih

theorem Paired.count_eq [DecidableEq κ] [DecidableEq ι] (h : Paired prog) (f : κ × κ × ι)
    (ha : prog[i]? = some a) (hw : a.waits f = false) :
    count prog (Instr.sets f) (range i) = count prog (Instr.waits f) (range i) := by
  refine card_bij' (fun j _ => j + 1) (fun j _ => j - 1) ?_ ?_ ?_ ?_
  · intro j hj
    obtain ⟨hji, hj⟩ := mem_filter.mp hj
    obtain ⟨b, hb, hsets⟩ := (Option.any_eq_true _ _).mp hj
    rw [sets_cases hsets] at hb
    have hnext := h.wait_next hb
    -- instruction `i` does not wait for the flag
    have hne : j + 1 ≠ i := by
      rintro rfl
      rw [hnext] at ha
      obtain rfl := Option.some.inj ha
      simp [Instr.waits] at hw
    have hlt := mem_range.mp hji
    refine mem_filter.mpr ⟨mem_range.mpr (by omega), ?_⟩
    rw [hnext]
    exact decide_eq_true rfl
  · intro j hj
    obtain ⟨hji, hj⟩ := mem_filter.mp hj
    obtain ⟨b, hb, hwaits⟩ := (Option.any_eq_true _ _).mp hj
    rw [waits_cases hwaits] at hb
    obtain ⟨j, rfl, hset⟩ := h.set_before hb
    have hlt := mem_range.mp hji
    refine mem_filter.mpr ⟨mem_range.mpr (by omega), ?_⟩
    rw [Nat.add_sub_cancel, hset]
    exact decide_eq_true rfl
  · intro j _
    rfl
  · intro j hj
    obtain ⟨-, hj⟩ := mem_filter.mp hj
    obtain ⟨b, hb, hwaits⟩ := (Option.any_eq_true _ _).mp hj
    rw [waits_cases hwaits] at hb
    obtain ⟨j, rfl, -⟩ := h.set_before hb
    rfl

end Counts

section Runs

variable [DecidableEq κ] [DecidableEq ι] {c : Core κ} {run : β → σ → σ}
  {prog : List (Instr κ ι β)} {m : σ} {s s' : State κ ι σ} {is : List ℕ} {i j : ℕ}
  {a b : Instr κ ι β}

structure Inv (c : Core κ) (run : β → σ → σ) (prog : List (Instr κ ι β)) (m : σ) (is : List ℕ)
    (s : State κ ι σ) : Prop where
  nodup : is.Nodup
  mem_done : ∀ i, i ∈ s.done ↔ i ∈ is
  bounded : ∀ i ∈ s.done, i < prog.length
  counted : ∀ f, count prog (Instr.sets f) s.done = s.flag f + count prog (Instr.waits f) s.done
  closed : ∀ i ∈ s.done, ∀ j, edge c prog j i = true → j ∈ s.done
  ordered : is.Pairwise fun i j => ¬ Ordered c prog j i
  mem : s.mem = is.foldl (fun m i => effectAt run prog i m) m

theorem start_inv : Inv c run prog m [] (start m) :=
  ⟨List.nodup_nil, fun _ => ⟨fun h => absurd h (notMem_empty _), nofun⟩,
    fun _ h => absurd h (notMem_empty _), fun _ => rfl, fun _ h => absurd h (notMem_empty _), .nil,
    rfl⟩

theorem Inv.held_done (h : Inv c run prog m is s) (hi : i ∈ s.done) (ha : prog[j]? = some a)
    (hb : prog[i]? = some b) (hji : j < i) (hheld : a.holdsBack c b = true) : j ∈ s.done :=
  h.closed i hi j (edge_intro hji ha hb (.inl hheld))

theorem Inv.ordered_done (h : Inv c run prog m is s) (hi : i ∈ s.done)
    (hj : Ordered c prog j i) : j ∈ s.done := by
  induction hj using TransGen.head_induction_on with
  | single hj => exact h.closed i hi _ hj
  | head hj _ ih => exact h.closed _ ih _ hj

theorem Inv.sets_le (h : Inv c run prog m is s) (f : κ × κ × ι) (ha : prog[j]? = some a)
    (hset : a.sets f = true) (hj : j ∉ s.done) :
    count prog (Instr.sets f) s.done ≤ count prog (Instr.sets f) (range j) := by
  apply count_mono
  intro k hk b hb hb'
  apply mem_range.mpr
  by_contra hle
  have hne : j ≠ k := fun hjk => hj (hjk ▸ hk)
  exact hj (h.held_done hk ha hb (by omega) (sets_holdsBack hset hb'))

theorem Inv.set_done (h : Inv c run prog m is s) (hp : Paired prog) (ha : prog[j]? = some a)
    (hb : prog[j + 1]? = some b) (hset : a.isSet = true)
    (hheld : ∀ k < j + 1, held c prog k (j + 1) → k ∈ s.done) (hcan : b.can c s.flag = true) :
    j ∈ s.done := by
  obtain ⟨f, hf⟩ := isSet_iff.mp hset
  have hwait : b = .waitFlag f.1 f.2.1 f.2.2 := by
    rw [sets_cases hf] at ha
    exact Option.some.inj (hb.symm.trans (hp.wait_next ha))
  by_contra hj
  have hpos : 0 < s.flag f := by
    rw [hwait] at hcan
    exact of_decide_eq_true hcan
  have hwaits : count prog (Instr.waits f) (range j) ≤ count prog (Instr.waits f) s.done := by
    apply count_mono
    intro k hk d hd hd'
    have hlt := mem_range.mp hk
    apply hheld k (by omega)
    rw [held_eq hd hb]
    exact waits_holdsBack hd' (by rw [hwait]; exact decide_eq_true rfl)
  have heq := hp.count_eq f ha (by rw [sets_cases hf]; rfl)
  have hle := h.sets_le f ha hf hj
  have hcount := h.counted f
  omega

theorem Inv.step (h : Inv c run prog m is s) (hp : Paired prog)
    (hs : Pipes.step c run prog s i = some s') : Inv c run prog m (is ++ [i]) s' := by
  obtain ⟨b, hb, hi, hheld, hcan, rfl⟩ := step_cases.mp hs
  have hmem := fun k => h.mem_done k
  constructor
  · apply List.nodup_append.mpr
    refine ⟨h.nodup, List.nodup_singleton i, fun k hk l hl => ?_⟩
    rw [List.mem_singleton.mp hl]
    rintro rfl
    exact hi ((hmem k).mpr hk)
  · intro k
    rw [mem_insert, List.mem_append, List.mem_singleton, hmem, or_comm]
  · intro k hk
    rcases mem_insert.mp hk with rfl | hk
    · exact (List.getElem?_eq_some_iff.mp hb).1
    · exact h.bounded k hk
  · intro f
    have hflags := flags_eq s.flag hcan f
    have hcount := h.counted f
    rw [count_insert _ hi hb, count_insert _ hi hb]
    dsimp only
    omega
  · intro k hk j hedge
    rcases mem_insert.mp hk with rfl | hk
    · obtain ⟨hlt, a, b', ha, hb', hcause⟩ := edge_cases hedge
      obtain rfl := Option.some.inj (hb.symm.trans hb')
      apply mem_insert_of_mem
      rcases hcause with hback | ⟨rfl, hset⟩
      · exact hheld j hlt (by rw [held_eq ha hb, hback])
      · exact h.set_done hp ha hb hset hheld hcan
    · exact mem_insert_of_mem (h.closed k hk j hedge)
  · apply List.pairwise_append.mpr
    refine ⟨h.ordered, List.pairwise_singleton _ _, fun k hk l hl hkl => ?_⟩
    rw [List.mem_singleton.mp hl] at hkl
    exact hi (h.ordered_done ((hmem k).mpr hk) hkl)
  · rw [List.foldl_append, ← h.mem]
    simp only [List.foldl_cons, List.foldl_nil, effectAt, hb, Option.elim_some]

theorem run_inv (hp : Paired prog) (h : Run c run prog m is s) : Inv c run prog m is s :=
  Runs.exec_invariant (Inv c run prog m) start_inv (fun _ _ _ _ h hs => h.step hp hs) h

theorem Inv.length_le (h : Inv c run prog m is s) : is.length ≤ prog.length := by
  have hsub : is ⊆ List.range prog.length := fun i hi =>
    List.mem_range.mpr (h.bounded i ((h.mem_done i).mpr hi))
  have hle := (List.subperm_of_subset h.nodup hsub).length_le
  rwa [List.length_range] at hle

theorem Inv.perm (h : Inv c run prog m is s) (hfin : Finished prog s) :
    is.Perm (List.range prog.length) := by
  apply (List.perm_ext_iff_of_nodup h.nodup List.nodup_range).mpr
  intro i
  rw [← h.mem_done, hfin, mem_range, List.mem_range]

theorem Inv.first_ready (h : Inv c run prog m is s) (hp : Paired prog) (hi : i < prog.length)
    (hnot : i ∉ s.done) (hfirst : ∀ j < i, j ∈ s.done) :
    ∃ s', Pipes.step c run prog s i = some s' := by
  obtain ⟨a, ha⟩ : ∃ a, prog[i]? = some a := ⟨prog[i], List.getElem?_eq_getElem hi⟩
  refine ⟨_, step_cases.mpr ⟨a, ha, hnot, fun j hj _ => hfirst j hj, ?_, rfl⟩⟩
  have hbefore (P : Instr κ ι β → Bool) : count prog P (range i) ≤ count prog P s.done :=
    count_mono P fun j hj _ _ _ => hfirst j (mem_range.mp hj)
  cases a with
  | setFlag src dst id =>
    have hcount := h.counted (src, dst, id)
    have hle := h.sets_le (src, dst, id) ha (decide_eq_true rfl) hnot
    have heq := hp.count_eq (src, dst, id) ha rfl
    have hge := hbefore (Instr.waits (src, dst, id))
    have hdepth := c.depth_pos
    exact decide_eq_true (by omega)
  | waitFlag src dst id =>
    obtain ⟨j, rfl, hset⟩ := hp.set_before ha
    have hcount := h.counted (src, dst, id)
    have hge := hbefore (Instr.sets (src, dst, id))
    have heq := hp.count_eq (src, dst, id) hset rfl
    have hsucc (P : Instr κ ι β → Bool) := count_range_succ P hset
    have hwaits : count prog (Instr.waits (src, dst, id)) s.done ≤
        count prog (Instr.waits (src, dst, id)) (range (j + 1)) := by
      apply count_mono
      intro k hk b hb hb'
      apply mem_range.mpr
      by_contra hle
      have hne : j + 1 ≠ k := fun hjk => hnot (hjk ▸ hk)
      exact hnot (h.held_done hk ha hb (by omega) (waits_holdsBack (decide_eq_true rfl) hb'))
    have hs := hsucc (Instr.sets (src, dst, id))
    have hw := hsucc (Instr.waits (src, dst, id))
    simp only [Instr.sets, Instr.waits, decide_true, if_true, Bool.false_eq_true, if_false] at hs hw
    exact decide_eq_true (by omega)
  | op _ _ _ | barrier _ | barrierAll => rfl

theorem finished_of_stuck (hp : Paired prog) (h : Run c run prog m is s)
    (hstuck : Runs.Stuck (step c run prog) s) : Finished prog s := by
  have hinv := run_inv hp h
  apply Subset.antisymm
  · intro i hi
    exact mem_range.mpr (hinv.bounded i hi)
  · intro i hi
    induction i using Nat.strongRecOn with
    | ind i ih =>
      by_contra hnot
      have hlt := mem_range.mp hi
      obtain ⟨s', hs'⟩ := hinv.first_ready hp hlt hnot fun j hj =>
        ih j hj (mem_range.mpr (hj.trans hlt))
      rw [hstuck i] at hs'
      cases hs'

theorem run_finishes (hp : Paired prog) (h : Run c run prog m is s) :
    ∃ js s', Run c run prog m (is ++ js) s' ∧ Finished prog s' := by
  obtain ⟨js, s', hrun, hstuck⟩ := Runs.exists_stuck (n := prog.length)
    (fun _ _ h' => (run_inv (c := c) (m := m) hp h').length_le) h
  exact ⟨js, s', hrun, finished_of_stuck hp hrun hstuck⟩

theorem run_settled {P : σ → Prop} (h : Run c run prog m is s) {js : List ℕ}
    (h' : Run c run prog m (is ++ js) s') (hP : P s.mem)
    (hkeep : ∀ i ∉ s.done, ∀ m, P m → P (effectAt run prog i m)) : P s'.mem := by
  rw [Run, Runs.exec_append, h, Option.bind_some] at h'
  refine (Runs.exec_invariant (fun _ x => s.done ⊆ x.done ∧ P x.mem) ⟨Subset.refl _, hP⟩
    (fun _ x i y hx hs => ?_) h').2
  obtain ⟨a, ha, hi, -, -, rfl⟩ := step_cases.mp hs
  have hnext := hkeep i (fun hi' => hi (hx.1 hi')) x.mem hx.2
  rw [effectAt, ha] at hnext
  exact ⟨hx.1.trans (subset_insert i _), hnext⟩

theorem exists_run_range (hp : Paired prog) (c : Core κ) (m : σ) {k : ℕ}
    (hk : k ≤ prog.length) : ∃ s, Run c run prog m (List.range k) s := by
  induction k with
  | zero => exact ⟨_, rfl⟩
  | succ k ih =>
    obtain ⟨s, hs⟩ := ih (by omega)
    have hinv := run_inv hp hs
    have hdone (i : ℕ) : i ∈ s.done ↔ i < k := by rw [hinv.mem_done, List.mem_range]
    obtain ⟨s', hs'⟩ := hinv.first_ready hp (i := k) (by omega)
      (fun h => Nat.lt_irrefl k ((hdone k).mp h)) fun j hj => (hdone j).mpr hj
    exact ⟨s', by rw [List.range_succ]; exact Runs.exec_snoc.mpr ⟨s, hs, hs'⟩⟩

end Runs

end ZeCo.Pipes
