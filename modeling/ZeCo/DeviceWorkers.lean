import Mathlib.Data.List.Nodup
import Mathlib.Data.List.Range
import ZeCo.Calls

/-!
Which devices the workers of one `SimplerZeCo` object hold. A plain runner opens and closes a worker
around every dispatch, a persistent one opens its worker lazily and keeps it, and a boundary phase
opens one worker on all the devices. What a call shows of itself is, at every instant at which a
worker has been opened or closed, the devices of the live workers; closing several workers in a row
counts as one instant. `leaked` are the devices of the workers whose runner was dropped unclosed.
-/

namespace ZeCo.DeviceWorkers

open Calls

structure Config where
  P : ℕ
  deviceIds : List ℕ
  pos : 0 < P
  distinct : deviceIds.Nodup

def Config.devices (c : Config) : List ℕ := c.deviceIds.take c.P

inductive ComputeRunner where
  | plain (device : ℕ)
  | persistent (device : ℕ) (isOpen : Bool)
  deriving DecidableEq

def ComputeRunner.device : ComputeRunner → ℕ
  | .plain d => d
  | .persistent d _ => d

def ComputeRunner.held : ComputeRunner → List ℕ
  | .persistent d true => [d]
  | _ => []

def ComputeRunner.close : ComputeRunner → ComputeRunner
  | .plain d => .plain d
  | .persistent d _ => .persistent d false

structure Zeco where
  config : Option Config
  runners : List ComputeRunner
  leaked : List ℕ

def new : Zeco := ⟨none, [], []⟩

def Zeco.heldByRunners (s : Zeco) : List ℕ := s.runners.flatMap ComputeRunner.held

def Zeco.held (s : Zeco) : List ℕ := s.leaked ++ s.heldByRunners

def Zeco.releaseDevices (s : Zeco) : Zeco := { s with runners := s.runners.map ComputeRunner.close }

def Zeco.dropRunners (s : Zeco) (runners : List ComputeRunner) : Zeco :=
  { s with runners, leaked := s.leaked ++ s.heldByRunners }

inductive Act where
  | dispatch (p : ℕ)
  | boundary (release : Bool)
  | releaseDevices
  | usePlainRunners
  | usePersistentRunners

def act (s : Zeco) : Act → Option (List (List ℕ) × Zeco)
  | .dispatch p =>
    match s.runners[p]? with
    | none => none
    | some (.plain d) => some ([d :: s.held, s.held], s)
    | some (.persistent d _) =>
      let s := { s with runners := s.runners.set p (.persistent d true) }
      some ([s.held], s)
  | .boundary release => s.config.map fun c =>
    let s := if release then s.releaseDevices else s
    ([s.held, c.devices ++ s.held, s.held], s)
  | .releaseDevices => some ([s.releaseDevices.held], s.releaseDevices)
  | .usePlainRunners => s.config.map fun c =>
    let s := s.releaseDevices.dropRunners (c.devices.map .plain)
    ([s.held], s)
  | .usePersistentRunners => s.config.map fun c =>
    let s := s.dropRunners (c.devices.map fun d => .persistent d false)
    ([s.held], s)

inductive Op where
  | build (c : Config)
  | forward
  | backward
  | measure (nIters : ℕ)
  | measureBackward (nIters : ℕ)
  | forwardMultihead (H : ℕ)
  | backwardMultihead (H : ℕ)
  | close

def eachRank (P : ℕ) : List Act := (List.range P).map Act.dispatch

def eachRankTwice (P : ℕ) : List Act := (List.range P).flatMap fun p => [.dispatch p, .dispatch p]

def boundaryPhase (P : ℕ) (release : Bool) : List Act := if P = 1 then [] else [.boundary release]

def forwardActs (P : ℕ) : List Act := eachRankTwice P ++ (boundaryPhase P true ++ eachRank P)

def backwardActs (P : ℕ) : List Act :=
  eachRankTwice P ++ (boundaryPhase P true ++ (eachRank P ++ (boundaryPhase P true ++
    eachRankTwice P)))

def eachHead (H : ℕ) (acts : List Act) : List Act := (List.replicate H acts).flatten

def measureActs (pass : List Act) (nIters : ℕ) : List Act :=
  .usePlainRunners :: (pass ++ .usePersistentRunners :: (pass ++ (eachHead nIters pass ++
    [.releaseDevices])))

-- the two multi-head passes do not release the devices
def Op.acts (P : ℕ) : Op → List Act
  | .forward => forwardActs P
  | .backward => backwardActs P
  | .measure n => measureActs (forwardActs P) n
  | .measureBackward n => measureActs (backwardActs P) n
  | .forwardMultihead H =>
    eachHead H (eachRankTwice P) ++ (boundaryPhase P false ++ eachHead H (eachRank P))
  | .backwardMultihead H =>
    eachHead H (eachRankTwice P) ++ (boundaryPhase P false ++ (eachHead H (eachRank P) ++
      (boundaryPhase P false ++ eachHead H (eachRankTwice P))))
  | .build _ | .close => []

def call (s : Zeco) : Op → Option (List (List ℕ) × Zeco)
  | .build c =>
    let s := { s.dropRunners (c.devices.map .plain) with config := some c }
    some ([s.held], s)
  | .close =>
    let s := { s.releaseDevices with runners := [] }
    some ([s.held], s)
  | op => s.config.bind fun c => run act s (op.acts c.P)

def Zeco.Free (s : Zeco) (c : Config) : Prop := ∀ d ∈ c.devices, d ∉ s.leaked

def ComputeRunner.IsPlain (r : ComputeRunner) : Prop := r = .plain r.device

def fits (s : Zeco) : Op → Prop
  | .build _ | .close => True
  | .forward | .backward | .measure _ | .measureBackward _ => ∀ c ∈ s.config, s.Free c
  | .forwardMultihead H | .backwardMultihead H => ∀ c ∈ s.config, (H = 0 ∧ c.P = 1) ∨
    (s.Free c ∧ (c.P = 1 ∨ ∀ r ∈ s.runners, r.IsPlain ∨ (H = 0 ∧ r.held = [])))

theorem held_sublist (r : ComputeRunner) : r.held.Sublist [r.device] := by
  cases r with
  | plain d => exact List.nil_sublist _
  | persistent d isOpen =>
    cases isOpen with
    | false => exact List.nil_sublist _
    | true => exact List.Sublist.refl _

theorem heldByRunners_sublist (s : Zeco) :
    s.heldByRunners.Sublist (s.runners.map ComputeRunner.device) := by
  rw [Zeco.heldByRunners]
  induction s.runners with
  | nil => exact List.nil_sublist _
  | cons r rs ih => exact (held_sublist r).append ih

theorem held_close (r : ComputeRunner) : r.close.held = [] := by
  cases r with
  | plain d => rfl
  | persistent d isOpen => rfl

theorem device_close (r : ComputeRunner) : r.close.device = r.device := by
  cases r with
  | plain d => rfl
  | persistent d isOpen => rfl

theorem heldByRunners_eq_nil {s : Zeco} :
    s.heldByRunners = [] ↔ ∀ r ∈ s.runners, r.held = [] := List.flatMap_eq_nil_iff

theorem releaseDevices_idle (s : Zeco) : s.releaseDevices.heldByRunners = [] := by
  apply heldByRunners_eq_nil.mpr
  intro r hr
  obtain ⟨r, -, rfl⟩ := List.mem_map.mp hr
  exact held_close r

theorem held_of_idle {s : Zeco} (h : s.heldByRunners = []) : s.held = s.leaked := by
  rw [Zeco.held, h, List.append_nil]

theorem plain_held {r : ComputeRunner} (h : r.IsPlain) : r.held = [] := by rw [h]; rfl

structure Ready (c : Config) (s : Zeco) : Prop where
  config : s.config = some c
  runners : s.runners.map ComputeRunner.device = c.devices ∨ s.runners = []
  nodup : (s.leaked ++ c.devices).Nodup

theorem Ready.sublist {c : Config} {s : Zeco} (h : Ready c s) :
    (s.runners.map ComputeRunner.device).Sublist c.devices := by
  rcases h.runners with hr | hr
  · rw [hr]
  · rw [hr]
    exact List.nil_sublist _

theorem Ready.held_nodup {c : Config} {s : Zeco} (h : Ready c s) : s.held.Nodup :=
  h.nodup.sublist ((heldByRunners_sublist s).trans h.sublist |>.append_left s.leaked)

theorem Ready.of_devices {c : Config} {s t : Zeco} (h : Ready c s) (hc : t.config = s.config)
    (hl : t.leaked = s.leaked)
    (hr : t.runners.map ComputeRunner.device = s.runners.map ComputeRunner.device) : Ready c t := by
  constructor
  · rw [hc, h.config]
  · rcases h.runners with h | h
    · left
      rw [hr, h]
    · right
      rw [h] at hr
      exact List.map_eq_nil_iff.mp hr
  · rw [hl]
    exact h.nodup

theorem Ready.releaseDevices {c : Config} {s : Zeco} (h : Ready c s) :
    Ready c s.releaseDevices := by
  apply h.of_devices (t := s.releaseDevices) rfl rfl
  simp only [Zeco.releaseDevices, List.map_map]
  apply List.map_congr_left
  intro r _
  exact device_close r

theorem set_device {rs : List ComputeRunner} {p d : ℕ} {b : Bool}
    (h : rs[p]? = some (.persistent d b)) :
    (rs.set p (.persistent d true)).map ComputeRunner.device = rs.map ComputeRunner.device := by
  apply List.ext_getElem?
  intro i
  rw [List.getElem?_map, List.getElem?_map, List.getElem?_set]
  by_cases hi : p = i
  · subst hi
    have hlt := (List.getElem?_eq_some_iff.mp h).choose
    rw [if_pos rfl, if_pos hlt, h]
    rfl
  · rw [if_neg hi]

theorem dispatch_cases {s : Zeco} {p : ℕ} {x : List (List ℕ) × Zeco}
    (h : act s (.dispatch p) = some x) :
    (∃ d, s.runners[p]? = some (.plain d) ∧ x = ([d :: s.held, s.held], s)) ∨
      ∃ d b, s.runners[p]? = some (.persistent d b) ∧
        x = ([Zeco.held { s with runners := s.runners.set p (.persistent d true) }],
          { s with runners := s.runners.set p (.persistent d true) }) := by
  simp only [act] at h
  split at h
  · cases h
  · rename_i d hr
    exact Or.inl ⟨d, hr, (Option.some.inj h).symm⟩
  · rename_i d b hr
    exact Or.inr ⟨d, b, hr, (Option.some.inj h).symm⟩

theorem plain_notHeld {s : Zeco} {p d : ℕ} (h : s.runners[p]? = some (.plain d))
    (hn : (s.runners.map ComputeRunner.device).Nodup) : d ∉ s.heldByRunners := by
  intro hd
  obtain ⟨r, hr, hdr⟩ := List.mem_flatMap.mp hd
  obtain ⟨q, hq⟩ := List.getElem?_of_mem hr
  have hdev : r.device = d := by
    have := (held_sublist r).subset hdr
    exact (List.mem_singleton.mp this).symm
  have hp' : (s.runners.map ComputeRunner.device)[p]? = some d := by rw [List.getElem?_map, h]; rfl
  have hq' : (s.runners.map ComputeRunner.device)[q]? = some d := by
    rw [List.getElem?_map, hq, Option.map_some, hdev]
  have hpq : p = q := by
    have hlt := (List.getElem?_eq_some_iff.mp hp').choose
    exact (List.getElem?_inj hlt hn).mp (hp'.trans hq'.symm)
  rw [← hpq, h] at hq
  rw [← Option.some.inj hq] at hdr
  exact List.not_mem_nil hdr

theorem Ready.dispatch {c : Config} {s : Zeco} {p : ℕ} {x : List (List ℕ) × Zeco} (h : Ready c s)
    (hx : act s (.dispatch p) = some x) : Ready c x.2 ∧ ∀ held ∈ x.1, held.Nodup := by
  rcases dispatch_cases hx with ⟨d, hr, rfl⟩ | ⟨d, b, hr, rfl⟩
  · refine ⟨h, ?_⟩
    have hd : d ∈ c.devices := by
      apply h.sublist.subset
      exact List.mem_map.mpr ⟨_, List.mem_of_getElem? hr, rfl⟩
    have hfree : d ∉ s.held := by
      rw [Zeco.held, List.mem_append]
      rintro (hl | hh)
      · exact (List.nodup_append.mp h.nodup).2.2 d hl d hd rfl
      · exact plain_notHeld hr (h.nodup.of_append_right.sublist h.sublist) hh
    simp only [List.forall_mem_cons]
    exact ⟨List.nodup_cons.mpr ⟨hfree, h.held_nodup⟩, h.held_nodup,
      fun _ hn => absurd hn List.not_mem_nil⟩
  · have hready : Ready c { s with runners := s.runners.set p (.persistent d true) } :=
      h.of_devices rfl rfl (set_device hr)
    refine ⟨hready, ?_⟩
    simp only [List.forall_mem_cons]
    exact ⟨hready.held_nodup, fun _ hn => absurd hn List.not_mem_nil⟩

theorem Ready.boundary {c : Config} {s : Zeco} {release : Bool} {x : List (List ℕ) × Zeco}
    (h : Ready c s) (hidle : release = true ∨ s.heldByRunners = [])
    (hx : act s (.boundary release) = some x) : Ready c x.2 ∧ ∀ held ∈ x.1, held.Nodup := by
  simp only [act, h.config, Option.map_some, Option.some.injEq] at hx
  subst hx
  have hnodup : (c.devices ++ s.leaked).Nodup := List.nodup_append_comm.mp h.nodup
  have hleaked : s.leaked.Nodup := h.nodup.of_append_left
  have hheld : (if release then s.releaseDevices else s).held = s.leaked := by
    cases release with
    | true => exact held_of_idle (releaseDevices_idle s)
    | false =>
      rcases hidle with hf | hidle
      · cases hf
      · exact held_of_idle hidle
  constructor
  · cases release with
    | true => exact h.releaseDevices
    | false => exact h
  · simp only [hheld, List.forall_mem_cons]
    exact ⟨hleaked, hnodup, hleaked, fun _ hn => absurd hn List.not_mem_nil⟩

def Zeco.AllPlain (s : Zeco) : Prop := ∀ r ∈ s.runners, r.IsPlain

theorem Zeco.AllPlain.idle {s : Zeco} (h : s.AllPlain) : s.heldByRunners = [] :=
  heldByRunners_eq_nil.mpr fun r hr => plain_held (h r hr)

theorem close_plain {r : ComputeRunner} (h : r.IsPlain) : r.close = r := by rw [h]; rfl

theorem Zeco.AllPlain.releaseDevices {s : Zeco} (h : s.AllPlain) : s.releaseDevices.AllPlain := by
  intro r hr
  obtain ⟨q, hq, rfl⟩ := List.mem_map.mp hr
  rw [close_plain (h q hq)]
  exact h q hq

def Allowed (plain : Prop) : Act → Prop
  | .dispatch _ | .boundary true | .releaseDevices => True
  | .boundary false => plain
  | _ => False

theorem act_safe {plain : Prop} {c : Config} {s : Zeco} {a : Act} {x : List (List ℕ) × Zeco}
    (h : Ready c s ∧ (plain → s.AllPlain)) (ha : Allowed plain a) (hx : act s a = some x) :
    (Ready c x.2 ∧ (plain → x.2.AllPlain)) ∧ ∀ held ∈ x.1, held.Nodup := by
  obtain ⟨hready, hplain⟩ := h
  cases a with
  | dispatch p =>
    obtain ⟨hr, hs⟩ := hready.dispatch hx
    refine ⟨⟨hr, fun hp => ?_⟩, hs⟩
    rcases dispatch_cases hx with ⟨d, -, rfl⟩ | ⟨d, b, hrun, rfl⟩
    · exact hplain hp
    · exact nomatch hplain hp (.persistent d b) (List.mem_of_getElem? hrun)
  | boundary release =>
    have hidle : release = true ∨ s.heldByRunners = [] := by
      cases release with
      | true => exact Or.inl rfl
      | false => exact Or.inr (hplain ha).idle
    obtain ⟨hr, hs⟩ := hready.boundary hidle hx
    refine ⟨⟨hr, fun hp => ?_⟩, hs⟩
    simp only [act, hready.config, Option.map_some, Option.some.injEq] at hx
    subst hx
    cases release with
    | true => exact (hplain hp).releaseDevices
    | false => exact hplain hp
  | releaseDevices =>
    obtain rfl := Option.some.inj hx
    refine ⟨⟨hready.releaseDevices, fun hp => (hplain hp).releaseDevices⟩, ?_⟩
    intro held hh
    rw [List.mem_singleton.mp hh]
    exact hready.releaseDevices.held_nodup
  | usePlainRunners => exact ha.elim
  | usePersistentRunners => exact ha.elim

section Programs

variable {plain : Prop} {P : ℕ}

theorem eachRank_allowed : ∀ a ∈ eachRank P, Allowed plain a := by
  intro a ha
  obtain ⟨p, -, rfl⟩ := List.mem_map.mp ha
  exact trivial

theorem eachRankTwice_allowed : ∀ a ∈ eachRankTwice P, Allowed plain a := by
  intro a ha
  obtain ⟨p, -, hp⟩ := List.mem_flatMap.mp ha
  simp only [List.mem_cons, List.not_mem_nil, or_false, or_self] at hp
  rw [hp]
  exact trivial

theorem boundaryPhase_allowed {release : Bool} (h : P = 1 ∨ release = true ∨ plain) :
    ∀ a ∈ boundaryPhase P release, Allowed plain a := by
  intro a ha
  rw [boundaryPhase] at ha
  split_ifs at ha with hP
  · cases ha
  · rw [List.mem_singleton.mp ha]
    rcases h with h | h | h
    · exact absurd h hP
    · rw [h]
      exact trivial
    · cases release with
      | true => exact trivial
      | false => exact h

theorem eachHead_allowed {acts : List Act} (h : ∀ a ∈ acts, Allowed plain a) (H : ℕ) :
    ∀ a ∈ eachHead H acts, Allowed plain a := by
  intro a ha
  obtain ⟨l, hl, hal⟩ := List.mem_flatten.mp ha
  rw [List.eq_of_mem_replicate hl] at hal
  exact h a hal

theorem forwardActs_allowed : ∀ a ∈ forwardActs P, Allowed plain a := by
  simp only [forwardActs, List.forall_mem_append]
  exact ⟨eachRankTwice_allowed, boundaryPhase_allowed (Or.inr (Or.inl rfl)), eachRank_allowed⟩

theorem backwardActs_allowed : ∀ a ∈ backwardActs P, Allowed plain a := by
  have hb : ∀ a ∈ boundaryPhase P true, Allowed plain a :=
    boundaryPhase_allowed (Or.inr (Or.inl rfl))
  simp only [backwardActs, List.forall_mem_append]
  exact ⟨eachRankTwice_allowed, hb, eachRank_allowed, hb, eachRankTwice_allowed⟩

end Programs

theorem Ready.swap {c : Config} {s : Zeco} (h : Ready c s) (hidle : s.heldByRunners = [])
    {rs : List ComputeRunner} (hrs : rs.map ComputeRunner.device = c.devices) :
    Ready c (s.dropRunners rs) := by
  constructor
  · exact h.config
  · exact Or.inl hrs
  · rw [Zeco.dropRunners, hidle, List.append_nil]
    exact h.nodup

theorem Ready.usePlainRunners {c : Config} {s : Zeco} {x : List (List ℕ) × Zeco} (h : Ready c s)
    (hx : act s .usePlainRunners = some x) :
    (Ready c x.2 ∧ x.2.AllPlain) ∧ ∀ held ∈ x.1, held.Nodup := by
  simp only [act, h.config, Option.map_some, Option.some.injEq] at hx
  subst hx
  have hready : Ready c (s.releaseDevices.dropRunners (c.devices.map .plain)) := by
    apply h.releaseDevices.swap (releaseDevices_idle s)
    simp [Function.comp_def, ComputeRunner.device]
  refine ⟨⟨hready, fun r hr => ?_⟩, fun held hh => ?_⟩
  · obtain ⟨d, -, rfl⟩ := List.mem_map.mp hr
    rfl
  · rw [List.mem_singleton.mp hh]
    exact hready.held_nodup

theorem Ready.usePersistentRunners {c : Config} {s : Zeco} {x : List (List ℕ) × Zeco}
    (h : Ready c s) (hidle : s.heldByRunners = []) (hx : act s .usePersistentRunners = some x) :
    Ready c x.2 ∧ ∀ held ∈ x.1, held.Nodup := by
  simp only [act, h.config, Option.map_some, Option.some.injEq] at hx
  subst hx
  have hready : Ready c (s.dropRunners (c.devices.map fun d => .persistent d false)) := by
    apply h.swap hidle
    simp [Function.comp_def, ComputeRunner.device]
  refine ⟨hready, fun held hh => ?_⟩
  rw [List.mem_singleton.mp hh]
  exact hready.held_nodup

theorem measure_safe {c : Config} {s : Zeco} {pass : List Act} {n : ℕ}
    {z : List (List ℕ) × Zeco} (hpass : ∀ plain, ∀ a ∈ pass, Allowed plain a) (h : Ready c s)
    (hz : run act s (measureActs pass n) = some z) :
    Ready c z.2 ∧ ∀ held ∈ z.1, held.Nodup := by
  obtain ⟨x, y, hx, hy, rfl⟩ := run_cons.mp hz
  obtain ⟨u, v, hu, hv, rfl⟩ := run_append.mp hy
  obtain ⟨x', y', hx', hy', rfl⟩ := run_cons.mp hv
  obtain ⟨⟨hready, hplain⟩, hsafe⟩ := h.usePlainRunners hx
  -- the first pass is on plain runners, so nothing is dropped open
  obtain ⟨hu1, hu2⟩ := run_safe (I := fun s => Ready c s ∧ (True → s.AllPlain))
    (fun s a x => act_safe) ⟨hready, fun _ => hplain⟩ (hpass True) hu
  obtain ⟨hpers, hsafe'⟩ := hu1.1.usePersistentRunners (hu1.2 trivial).idle hx'
  have hrest : ∀ a ∈ pass ++ (eachHead n pass ++ [Act.releaseDevices]), Allowed False a := by
    simp only [List.forall_mem_append]
    exact ⟨hpass False, eachHead_allowed (hpass False) n, by simp [Allowed]⟩
  obtain ⟨hv1, hv2⟩ := run_safe (I := fun s => Ready c s ∧ (False → s.AllPlain))
    (fun s a x => act_safe) ⟨hpers, False.elim⟩ hrest hy'
  refine ⟨hv1.1, ?_⟩
  simp only [List.forall_mem_append]
  exact ⟨hsafe, hu2, hsafe', hv2⟩

structure Inv (s : Zeco) : Prop where
  runners : ∀ c ∈ s.config, s.runners.map ComputeRunner.device = c.devices ∨ s.runners = []
  nodup : s.held.Nodup

theorem Ready.inv {c : Config} {s : Zeco} (h : Ready c s) : Inv s := by
  refine ⟨fun c' hc => ?_, h.held_nodup⟩
  obtain rfl : c = c' := Option.some.inj (h.config.symm.trans hc)
  exact h.runners

theorem Inv.ready {c : Config} {s : Zeco} (h : Inv s) (hc : s.config = some c) (hf : s.Free c) :
    Ready c s := by
  refine ⟨hc, h.runners c hc, List.nodup_append.mpr ⟨?_, ?_, ?_⟩⟩
  · exact h.nodup.of_append_left
  · exact c.distinct.sublist (List.take_sublist _ _)
  · rintro d hd _ hd' rfl
    exact hf d hd' hd

theorem Inv.releaseDevices {s : Zeco} (h : Inv s) : Inv s.releaseDevices := by
  constructor
  · intro c hc
    refine (h.runners c hc).imp (fun hr => ?_) (fun hr => ?_)
    · rw [← hr]
      simp only [Zeco.releaseDevices, List.map_map]
      exact List.map_congr_left fun r _ => device_close r
    · rw [Zeco.releaseDevices, hr]
      rfl
  · rw [held_of_idle (releaseDevices_idle s)]
    exact h.nodup.of_append_left

theorem Inv.drop {s : Zeco} (h : Inv s) (c : Config) :
    let t := { s.dropRunners (c.devices.map .plain) with config := some c }
    Inv t ∧ t.held = s.held := by
  intro t
  have hidle : t.heldByRunners = [] := by
    apply heldByRunners_eq_nil.mpr
    intro r hr
    obtain ⟨d, -, rfl⟩ := List.mem_map.mp hr
    rfl
  have hheld : t.held = s.held := held_of_idle hidle
  refine ⟨⟨fun c' hc => ?_, ?_⟩, hheld⟩
  · obtain rfl : c = c' := Option.some.inj hc
    left
    simp [t, Zeco.dropRunners, Function.comp_def, ComputeRunner.device]
  · rw [hheld]
    exact h.nodup

theorem call_built {s : Zeco} {op : Op} {x : List (List ℕ) × Zeco} (h : call s op = some x) :
    (∃ c, op = .build c ∧ x.2 = { s.dropRunners (c.devices.map .plain) with config := some c } ∧
        x.1 = [x.2.held]) ∨
      (op = .close ∧ x.2 = { s.releaseDevices with runners := [] } ∧ x.1 = [x.2.held]) ∨
      ∃ c, s.config = some c ∧ run act s (op.acts c.P) = some x := by
  cases op with
  | build c =>
    obtain rfl := Option.some.inj h
    exact Or.inl ⟨c, rfl, rfl, rfl⟩
  | close =>
    obtain rfl := Option.some.inj h
    exact Or.inr (Or.inl ⟨rfl, rfl, rfl⟩)
  | _ =>
    obtain ⟨c, hc, hx⟩ := Option.bind_eq_some_iff.mp h
    exact Or.inr (Or.inr ⟨c, hc, hx⟩)

theorem pass_safe {c : Config} {s : Zeco} {acts : List Act} {x : List (List ℕ) × Zeco}
    (h : Ready c s) {plain : Prop} (hplain : plain → s.AllPlain)
    (hacts : ∀ a ∈ acts, Allowed plain a) (hx : run act s acts = some x) :
    Inv x.2 ∧ ∀ held ∈ x.1, held.Nodup := by
  obtain ⟨hI, hs⟩ := run_safe (I := fun s => Ready c s ∧ (plain → s.AllPlain))
    (fun s a x => act_safe) ⟨h, hplain⟩ hacts hx
  exact ⟨hI.1.inv, hs⟩

theorem boundaries_safe {c : Config} {s : Zeco} {acts : List Act} {x : List (List ℕ) × Zeco}
    (h : Ready c s) (hidle : s.heldByRunners = []) (hacts : ∀ a ∈ acts, a = .boundary false)
    (hx : run act s acts = some x) : Inv x.2 ∧ ∀ held ∈ x.1, held.Nodup := by
  have step (s : Zeco) (a : Act) (x : List (List ℕ) × Zeco) (h : Ready c s ∧ s.heldByRunners = [])
      (ha : a = .boundary false) (hx : act s a = some x) :
      (Ready c x.2 ∧ x.2.heldByRunners = []) ∧ ∀ held ∈ x.1, held.Nodup := by
    subst ha
    obtain ⟨hr, hs⟩ := h.1.boundary (Or.inr h.2) hx
    refine ⟨⟨hr, ?_⟩, hs⟩
    simp only [act, h.1.config, Option.map_some, Option.some.injEq] at hx
    subst hx
    exact h.2
  obtain ⟨hI, hs⟩ := run_safe step ⟨h, hidle⟩ hacts hx
  exact ⟨hI.1.inv, hs⟩

structure Multihead (P H : ℕ) (acts : List Act) : Prop where
  allowed : ∀ plain : Prop, P = 1 ∨ plain → ∀ a ∈ acts, Allowed plain a
  starts : ∃ rest, acts = eachHead H (eachRankTwice P) ++ (boundaryPhase P false ++ rest)
  alone : H = 0 → P = 1 → acts = []
  headless : H = 0 → ∀ a ∈ acts, a = .boundary false

theorem forwardMultihead_shape (P H : ℕ) : Multihead P H ((Op.forwardMultihead H).acts P) := by
  constructor
  · intro plain h
    simp only [Op.acts, List.forall_mem_append]
    exact ⟨eachHead_allowed eachRankTwice_allowed H,
      boundaryPhase_allowed (h.imp_right Or.inr), eachHead_allowed eachRank_allowed H⟩
  · exact ⟨_, rfl⟩
  · rintro rfl rfl
    rfl
  · rintro rfl
    by_cases hP : P = 1
    · simp [Op.acts, eachHead, boundaryPhase, hP]
    · simp [Op.acts, eachHead, boundaryPhase, hP]

theorem backwardMultihead_shape (P H : ℕ) : Multihead P H ((Op.backwardMultihead H).acts P) := by
  constructor
  · intro plain h
    have hb : ∀ a ∈ boundaryPhase P false, Allowed plain a :=
      boundaryPhase_allowed (h.imp_right Or.inr)
    simp only [Op.acts, List.forall_mem_append]
    exact ⟨eachHead_allowed eachRankTwice_allowed H, hb, eachHead_allowed eachRank_allowed H, hb,
      eachHead_allowed eachRankTwice_allowed H⟩
  · exact ⟨_, rfl⟩
  · rintro rfl rfl
    rfl
  · rintro rfl
    by_cases hP : P = 1
    · simp [Op.acts, eachHead, boundaryPhase, hP]
    · simp [Op.acts, eachHead, boundaryPhase, hP]

def MultiheadFits (s : Zeco) (c : Config) (H : ℕ) : Prop :=
  (H = 0 ∧ c.P = 1) ∨
    (s.Free c ∧ (c.P = 1 ∨ ∀ r ∈ s.runners, r.IsPlain ∨ (H = 0 ∧ r.held = [])))

theorem multihead_safe {c : Config} {s : Zeco} {H : ℕ} {acts : List Act}
    {x : List (List ℕ) × Zeco} (h : Inv s) (hc : s.config = some c)
    (hacts : Multihead c.P H acts) (hfit : MultiheadFits s c H) (hx : run act s acts = some x) :
    Inv x.2 ∧ ∀ held ∈ x.1, held.Nodup := by
  rcases hfit with ⟨h0, hP⟩ | ⟨hfree, hP | hrunners⟩
  · rw [hacts.alone h0 hP] at hx
    obtain rfl := Option.some.inj hx
    exact ⟨h, fun _ hn => absurd hn List.not_mem_nil⟩
  · exact pass_safe (h.ready hc hfree) False.elim (hacts.allowed False (Or.inl hP)) hx
  · have hready := h.ready hc hfree
    by_cases h0 : H = 0
    · have hidle : s.heldByRunners = [] := by
        apply heldByRunners_eq_nil.mpr
        intro r hr
        rcases hrunners r hr with hp | ⟨-, hn⟩
        · exact plain_held hp
        · exact hn
      exact boundaries_safe hready hidle (hacts.headless h0) hx
    · have hplain : s.AllPlain := fun r hr => (hrunners r hr).resolve_right fun hn => h0 hn.1
      exact pass_safe hready (fun _ => hplain) (hacts.allowed True (Or.inr trivial)) hx

theorem call_safe {s : Zeco} {op : Op} {x : List (List ℕ) × Zeco} (h : Inv s) (hfit : fits s op)
    (hx : call s op = some x) : Inv x.2 ∧ ∀ held ∈ x.1, held.Nodup := by
  rcases call_built hx with ⟨c, rfl, hs, ht⟩ | ⟨rfl, hs, ht⟩ | ⟨c, hc, hrun⟩
  · obtain ⟨hinv, hheld⟩ := h.drop c
    rw [ht, hs]
    refine ⟨hinv, fun held hh => ?_⟩
    rw [List.mem_singleton.mp hh]
    exact hinv.nodup
  · have hheld : x.2.held = s.leaked := by rw [hs]; exact List.append_nil _
    constructor
    · constructor
      · rw [hs]
        exact fun _ _ => Or.inr rfl
      · rw [hheld]
        exact h.nodup.of_append_left
    · rw [ht, hheld]
      simpa using h.nodup.of_append_left
  · cases op with
    | build c' =>
      obtain rfl := Option.some.inj hrun
      exact ⟨h, fun _ hn => absurd hn List.not_mem_nil⟩
    | close =>
      obtain rfl := Option.some.inj hrun
      exact ⟨h, fun _ hn => absurd hn List.not_mem_nil⟩
    | forward => exact pass_safe (h.ready hc (hfit c hc)) False.elim forwardActs_allowed hrun
    | backward => exact pass_safe (h.ready hc (hfit c hc)) False.elim backwardActs_allowed hrun
    | measure n =>
      obtain ⟨hr, hs⟩ := measure_safe (fun _ => forwardActs_allowed) (h.ready hc (hfit c hc)) hrun
      exact ⟨hr.inv, hs⟩
    | measureBackward n =>
      obtain ⟨hr, hs⟩ := measure_safe (fun _ => backwardActs_allowed) (h.ready hc (hfit c hc)) hrun
      exact ⟨hr.inv, hs⟩
    | forwardMultihead H =>
      exact multihead_safe h hc (forwardMultihead_shape c.P H) (hfit c hc) hrun
    | backwardMultihead H =>
      exact multihead_safe h hc (backwardMultihead_shape c.P H) (hfit c hc) hrun

section Exact

structure Keeps (s t : Zeco) : Prop where
  config : t.config = s.config
  leaked : t.leaked = s.leaked
  devices : t.runners.map ComputeRunner.device = s.runners.map ComputeRunner.device

theorem act_keeps {s : Zeco} {a : Act} {x : List (List ℕ) × Zeco} (ha : Allowed True a)
    (hx : act s a = some x) : Keeps s x.2 := by
  have hrel : Keeps s s.releaseDevices := by
    refine ⟨rfl, rfl, ?_⟩
    simp only [Zeco.releaseDevices, List.map_map]
    exact List.map_congr_left fun r _ => device_close r
  cases a with
  | dispatch p =>
    rcases dispatch_cases hx with ⟨d, -, rfl⟩ | ⟨d, b, hr, rfl⟩
    · exact ⟨rfl, rfl, rfl⟩
    · exact ⟨rfl, rfl, set_device hr⟩
  | boundary release =>
    obtain ⟨c, -, rfl⟩ := Option.map_eq_some_iff.mp hx
    cases release with
    | true => exact hrel
    | false => exact ⟨rfl, rfl, rfl⟩
  | releaseDevices =>
    obtain rfl := Option.some.inj hx
    exact hrel
  | usePlainRunners => exact ha.elim
  | usePersistentRunners => exact ha.elim

theorem run_keeps {s : Zeco} {acts : List Act} {x : List (List ℕ) × Zeco}
    (hacts : ∀ a ∈ acts, Allowed True a) (hx : run act s acts = some x) : Keeps s x.2 := by
  have step (t : Zeco) (a : Act) (x : List (List ℕ) × Zeco) (h : Keeps s t) (ha : Allowed True a)
      (hx : act t a = some x) : Keeps s x.2 ∧ ∀ held ∈ x.1, True := by
    have hk := act_keeps ha hx
    exact ⟨⟨hk.config.trans h.config, hk.leaked.trans h.leaked, hk.devices.trans h.devices⟩,
      fun _ _ => trivial⟩
  exact (run_safe step ⟨rfl, rfl, rfl⟩ hacts hx).1

theorem dispatch_leaked {s : Zeco} {acts : List Act} {x : List (List ℕ) × Zeco} {p d : ℕ}
    (hacts : ∀ a ∈ acts, Allowed True a) (hx : run act s acts = some x)
    (hp : Act.dispatch p ∈ acts)
    (hdev : ∀ e, (s.runners.map ComputeRunner.device)[p]? = some e → e = d) (hd : d ∈ s.leaked) :
    ¬ ∀ held ∈ x.1, held.Nodup := by
  obtain ⟨before, after, rfl⟩ := List.append_of_mem hp
  obtain ⟨u, v, hu, hv, rfl⟩ := run_append.mp hx
  obtain ⟨y, z, hy, hz, rfl⟩ := run_cons.mp hv
  intro hsafe
  simp only [List.forall_mem_append] at hsafe hacts
  have hk := run_keeps hacts.1 hu
  have hleaked : d ∈ u.2.leaked := hk.leaked ▸ hd
  rcases dispatch_cases hy with ⟨e, hr, rfl⟩ | ⟨e, b, hr, rfl⟩
  · obtain rfl : e = d := by
      apply hdev
      rw [← hk.devices, List.getElem?_map, hr]
      rfl
    have hn := hsafe.2.1 (e :: u.2.held) List.mem_cons_self
    exact (List.nodup_cons.mp hn).1 (List.mem_append_left _ hleaked)
  · obtain rfl : e = d := by
      apply hdev
      rw [← hk.devices, List.getElem?_map, hr]
      rfl
    have hn := hsafe.2.1 _ List.mem_cons_self
    have hlt := (List.getElem?_eq_some_iff.mp hr).choose
    have hopen : e ∈ Zeco.heldByRunners
        { u.2 with runners := u.2.runners.set p (.persistent e true) } :=
      List.mem_flatMap.mpr ⟨.persistent e true, List.mem_set hlt _, List.mem_singleton.mpr rfl⟩
    exact (List.nodup_append.mp hn).2.2 e hleaked e hopen rfl

theorem pass_free {c : Config} {s : Zeco} {acts : List Act} {x : List (List ℕ) × Zeco} (h : Inv s)
    (hc : s.config = some c) (hacts : ∀ a ∈ acts, Allowed True a)
    (hall : ∀ p < c.P, Act.dispatch p ∈ acts) (hx : run act s acts = some x)
    (hsafe : ∀ held ∈ x.1, held.Nodup) : s.Free c := by
  intro d hd hl
  obtain ⟨p, hp⟩ := List.getElem?_of_mem hd
  have hlt : p < c.P := by
    have := (List.getElem?_eq_some_iff.mp hp).choose
    rw [Config.devices, List.length_take] at this
    omega
  apply dispatch_leaked hacts hx (hall p hlt) _ hl hsafe
  intro e he
  rcases h.runners c hc with hr | hr
  · rw [hr, hp] at he
    exact (Option.some.inj he).symm
  · rw [hr] at he
    cases he

theorem mem_eachRankTwice {P p : ℕ} (h : p < P) : Act.dispatch p ∈ eachRankTwice P :=
  List.mem_flatMap.mpr ⟨p, List.mem_range.mpr h, List.mem_cons_self⟩

theorem measure_free {c : Config} {s : Zeco} {pass : List Act} {n : ℕ}
    {x : List (List ℕ) × Zeco} (hc : s.config = some c) (h : Inv s)
    (hpass : ∀ a ∈ pass, Allowed True a) (hall : ∀ p < c.P, Act.dispatch p ∈ pass)
    (hx : run act s (measureActs pass n) = some x) (hsafe : ∀ held ∈ x.1, held.Nodup) :
    s.Free c := by
  obtain ⟨u, v, hu, hv, rfl⟩ := run_cons.mp hx
  obtain ⟨y, z, hy, hz, rfl⟩ := run_append.mp hv
  simp only [List.forall_mem_append] at hsafe
  simp only [act, hc, Option.map_some, Option.some.injEq] at hu
  subst hu
  have hleaked : (s.releaseDevices.dropRunners (c.devices.map .plain)).leaked = s.leaked := by
    rw [Zeco.dropRunners, releaseDevices_idle, List.append_nil]
    rfl
  have hinv : Inv (s.releaseDevices.dropRunners (c.devices.map .plain)) := by
    have hdrop := (h.releaseDevices.drop c).1
    rwa [← hc] at hdrop
  have hfree := pass_free hinv hc hpass hall hy hsafe.2.1
  rwa [Zeco.Free, hleaked] at hfree

theorem dispatch_opens {s : Zeco} {acts : List Act} {x : List (List ℕ) × Zeco} {p d : ℕ} {b : Bool}
    (hacts : ∀ a ∈ acts, ∃ q, a = .dispatch q) (hx : run act s acts = some x)
    (hr : s.runners[p]? = some (.persistent d b)) (hp : b = true ∨ Act.dispatch p ∈ acts) :
    x.2.runners[p]? = some (.persistent d true) := by
  induction acts generalizing s x b with
  | nil =>
    obtain rfl := Option.some.inj hx
    rcases hp with rfl | hp
    · exact hr
    · cases hp
  | cons a acts ih =>
    obtain ⟨y, z, hy, hz, rfl⟩ := run_cons.mp hx
    obtain ⟨q, rfl⟩ := hacts a List.mem_cons_self
    have hlt := (List.getElem?_eq_some_iff.mp hr).choose
    have hrest : ∀ a ∈ acts, ∃ q, a = .dispatch q := fun a ha =>
      hacts a (List.mem_cons_of_mem _ ha)
    rcases dispatch_cases hy with ⟨e, hq, rfl⟩ | ⟨e, b', hq, rfl⟩
    · have hpq : p ≠ q := by
        rintro rfl
        rw [hq] at hr
        cases hr
      have hp' : b = true ∨ Act.dispatch p ∈ acts := hp.imp_right fun h => by
        rcases List.mem_cons.mp h with h | h
        · exact absurd (Act.dispatch.inj h) hpq
        · exact h
      have hopen := ih hrest hz hr hp'
      exact hopen
    · by_cases hpq : q = p
      · subst hpq
        rw [hq] at hr
        cases hr
        have hopen := ih hrest hz (List.getElem?_set_self hlt) (Or.inl rfl)
        exact hopen
      · have hp' : b = true ∨ Act.dispatch p ∈ acts := hp.imp_right fun h => by
          rcases List.mem_cons.mp h with h | h
          · exact absurd (Act.dispatch.inj h).symm hpq
          · exact h
        have hopen := ih hrest hz ((List.getElem?_set_ne hpq).trans hr) hp'
        exact hopen

theorem eachHead_dispatch (H P : ℕ) : ∀ a ∈ eachHead H (eachRankTwice P), ∃ q, a = .dispatch q := by
  intro a ha
  obtain ⟨l, hl, hal⟩ := List.mem_flatten.mp ha
  rw [List.eq_of_mem_replicate hl] at hal
  obtain ⟨q, -, hq⟩ := List.mem_flatMap.mp hal
  simp only [List.mem_cons, List.not_mem_nil, or_false, or_self] at hq
  exact ⟨q, hq⟩

theorem closed_of_released {s : Zeco} {acts : List Act} {x : List (List ℕ) × Zeco} {p d : ℕ}
    {b : Bool} (hacts : ∀ a ∈ acts, ∃ q, a = .dispatch q) (hx : run act s acts = some x)
    (hr : s.runners[p]? = some (.persistent d b)) (hd : d ∉ x.2.heldByRunners) :
    b = false ∧ Act.dispatch p ∉ acts := by
  have hclosed : ¬ (b = true ∨ Act.dispatch p ∈ acts) := fun ho => by
    have hopen := dispatch_opens hacts hx hr ho
    exact hd (List.mem_flatMap.mpr
      ⟨.persistent d true, List.mem_of_getElem? hopen, List.mem_singleton.mpr rfl⟩)
  obtain ⟨hb, hp⟩ := not_or.mp hclosed
  exact ⟨Bool.eq_false_iff.mpr hb, hp⟩

theorem boundary_opens {c : Config} {s : Zeco} {rest : List Act} {x : List (List ℕ) × Zeco}
    (hc : s.config = some c) (hP : c.P ≠ 1)
    (hx : run act s (boundaryPhase c.P false ++ rest) = some x)
    (hsafe : ∀ held ∈ x.1, held.Nodup) : (c.devices ++ s.held).Nodup := by
  rw [boundaryPhase, if_neg hP] at hx
  obtain ⟨y, z, hy, hz, rfl⟩ := run_cons.mp hx
  simp only [act, hc, Option.map_some, Option.some.injEq] at hy
  subst hy
  simp only [List.forall_mem_append] at hsafe
  exact hsafe.1 _ (List.mem_cons_of_mem _ List.mem_cons_self)

theorem Inv.runner {c : Config} {s : Zeco} (h : Inv s) (hc : s.config = some c) {p : ℕ}
    {r : ComputeRunner} (hr : s.runners[p]? = some r) : p < c.P ∧ r.device ∈ c.devices := by
  obtain ⟨hlt, -⟩ := List.getElem?_eq_some_iff.mp hr
  have hdev : s.runners.map ComputeRunner.device = c.devices := by
    rcases h.runners c hc with hdev | hnil
    · exact hdev
    · rw [hnil] at hr
      cases hr
  constructor
  · rw [← List.length_map ComputeRunner.device, hdev, Config.devices, List.length_take] at hlt
    omega
  · rw [← hdev]
    exact List.mem_map_of_mem (List.mem_of_getElem? hr)

theorem multihead_fits {c : Config} {s : Zeco} {H : ℕ} {acts : List Act}
    {x : List (List ℕ) × Zeco} (h : Inv s) (hc : s.config = some c)
    (hacts : Multihead c.P H acts) (hx : run act s acts = some x)
    (hsafe : ∀ held ∈ x.1, held.Nodup) : MultiheadFits s c H := by
  obtain ⟨rest, rfl⟩ := hacts.starts
  have hall := hacts.allowed True (Or.inr trivial)
  have hhead (h0 : H ≠ 0) (p : ℕ) (hp : p < c.P) :
      Act.dispatch p ∈ eachHead H (eachRankTwice c.P) :=
    List.mem_flatten.mpr ⟨_, List.mem_replicate.mpr ⟨h0, rfl⟩, mem_eachRankTwice hp⟩
  by_cases hP : c.P = 1
  · by_cases h0 : H = 0
    · exact Or.inl ⟨h0, hP⟩
    · refine Or.inr ⟨?_, Or.inl hP⟩
      exact pass_free h hc hall (fun p hp => List.mem_append_left _ (hhead h0 p hp)) hx hsafe
  · obtain ⟨u, v, hu, hv, rfl⟩ := run_append.mp hx
    simp only [List.forall_mem_append] at hsafe hall
    have hk := run_keeps hall.1 hu
    have hn := boundary_opens (hk.config.trans hc) hP hv hsafe.2
    have hdisj := (List.nodup_append.mp hn).2.2
    refine Or.inr ⟨fun d hd hl => ?_, Or.inr fun r hr => ?_⟩
    · exact hdisj d hd d (List.mem_append_left _ (hk.leaked ▸ hl)) rfl
    · obtain ⟨p, hp⟩ := List.getElem?_of_mem hr
      obtain ⟨hlt, hd⟩ := h.runner hc hp
      cases r with
      | plain d => exact Or.inl rfl
      | persistent d b =>
        right
        have hfree : d ∉ u.2.heldByRunners := fun hheld =>
          hdisj d hd d (List.mem_append_right _ hheld) rfl
        obtain ⟨rfl, hnot⟩ := closed_of_released (eachHead_dispatch H c.P) hu hp hfree
        exact ⟨by_contra fun h0 => hnot (hhead h0 p hlt), rfl⟩

theorem call_fits {s : Zeco} {op : Op} {x : List (List ℕ) × Zeco} (h : Inv s)
    (hx : call s op = some x) (hsafe : ∀ held ∈ x.1, held.Nodup) : fits s op := by
  have htwice {P p : ℕ} (hp : p < P) (rest : List Act) : Act.dispatch p ∈ eachRankTwice P ++ rest :=
    List.mem_append_left _ (mem_eachRankTwice hp)
  rcases call_built hx with ⟨c, rfl, -, -⟩ | ⟨rfl, -, -⟩ | ⟨c, hc, hrun⟩
  · trivial
  · trivial
  · have hof {p : Config → Prop} (hp : p c) : ∀ c ∈ s.config, p c := by
      intro c' hc'
      obtain rfl : c = c' := Option.some.inj (hc.symm.trans hc')
      exact hp
    cases op with
    | build c' => trivial
    | close => trivial
    | forward =>
      exact hof (pass_free h hc forwardActs_allowed (fun p hp => htwice hp _) hrun hsafe)
    | backward =>
      exact hof (pass_free h hc backwardActs_allowed (fun p hp => htwice hp _) hrun hsafe)
    | measure n =>
      exact hof (measure_free hc h forwardActs_allowed (fun p hp => htwice hp _) hrun hsafe)
    | measureBackward n =>
      exact hof (measure_free hc h backwardActs_allowed (fun p hp => htwice hp _) hrun hsafe)
    | forwardMultihead H =>
      exact hof (multihead_fits h hc (forwardMultihead_shape c.P H) hrun hsafe)
    | backwardMultihead H =>
      exact hof (multihead_fits h hc (backwardMultihead_shape c.P H) hrun hsafe)

end Exact

theorem new_inv : Inv new := ⟨fun _ hc => (nomatch hc), List.nodup_nil⟩

theorem oneWorker_iff {history : List Op} {z : List (List ℕ) × Zeco}
    (h : run call new history = some z) :
    (∀ held ∈ z.1, ∀ d, held.count d ≤ 1) ↔ Meets call fits new history := by
  simp only [← List.nodup_iff_count_le_one]
  apply run_safe_iff (I := Inv) _ _ new_inv h
  · intro s op x hs hx
    exact ⟨call_fits hs hx, fun hfit => (call_safe hs hfit hx).2⟩
  · intro s op x hs hfit hx
    exact (call_safe hs hfit hx).1

theorem oneWorker_iff_two :
    let c : Config := ⟨2, [0, 1], by decide, by decide⟩
    (∃ z ∈ run call new [.build c, .measure 1, .forward],
      (∀ held ∈ z.1, ∀ d, held.count d ≤ 1) ∧ [0, 1] ∈ z.1) ∧
    Meets call fits new [.build c, .measure 1, .forward] := by
  intro c
  have h : ∃ z ∈ run call new [.build c, .measure 1, .forward],
      (∀ held ∈ z.1, held.Nodup) ∧ [0, 1] ∈ z.1 := by decide +kernel
  obtain ⟨z, hz, hone, hboundary⟩ := h
  have hcount : ∀ held ∈ z.1, ∀ d, held.count d ≤ 1 := fun held hh =>
    List.nodup_iff_count_le_one.mp (hone held hh)
  exact ⟨⟨z, hz, hcount, hboundary⟩, (oneWorker_iff (Option.mem_def.mp hz)).mp hcount⟩

/-- `measure` leaves persistent runners behind, and `forward_multihead` builds its AllScan worker
while they hold their devices; and a second `build` drops them open. -/
theorem twoWorkers_multihead :
    let c : Config := ⟨2, [0, 1], by decide, by decide⟩
    (∃ z ∈ run call new [.build c, .measure 1, .forwardMultihead 1],
      ∃ held ∈ z.1, held.count 0 = 2) ∧
    ∃ z ∈ run call new [.build c, .measure 1, .forward, .build c, .forward],
      ∃ held ∈ z.1, held.count 0 = 2 := by
  decide +kernel

end ZeCo.DeviceWorkers
