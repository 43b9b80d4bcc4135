import Mathlib.Data.Finset.Basic
import Mathlib.Logic.Function.Basic

/-!
`_PersistentComputeRunner` on a runtime that may raise. A call is given the stage at which the
runtime raises in it, if the call gets so far; a worker is alive from the start of its `init` until
it is closed.
-/

namespace ZeCo.HeldFailures

inductive Stage
  | construct
  | register (k : ℕ)
  | init
  | run
  deriving DecidableEq

/-- `host` is raised by the Python code itself: an assertion, a copy or a missing handle. -/
inductive Exc
  | runtime (stage : Stage)
  | host
  deriving DecidableEq

structure Worker where
  serial : ℕ
  devices : List ℕ
  deriving DecidableEq

structure Runtime where
  created : ℕ
  alive : Finset Worker

def Runtime.construct (devices : List ℕ) (t : Runtime) : Worker × Runtime :=
  (⟨t.created, devices⟩, { t with created := t.created + 1 })

def Runtime.init (w : Worker) (t : Runtime) : Runtime := { t with alive := insert w t.alive }

def Runtime.close (w : Worker) (t : Runtime) : Runtime := { t with alive := t.alive.erase w }

section Runner

variable {κ : Type*} [DecidableEq κ]

/-- A handle is the position at which its callable was registered. -/
structure HeldWorker (κ : Type*) where
  worker : Worker
  registered : List κ
  ready : Bool

structure PersistentRunner (κ : Type*) where
  deviceId : ℕ
  callables : List κ
  cids : κ → Option ℕ
  worker : Option (HeldWorker κ)

def PersistentRunner.prepared (deviceId : ℕ) (callables : List κ) : PersistentRunner κ :=
  ⟨deviceId, callables, fun _ => none, none⟩

def registerAll (fault : Option Stage) :
    List κ → List κ → (κ → Option ℕ) → Except Exc Unit × List κ × (κ → Option ℕ)
  | [], registered, cids => (.ok (), registered, cids)
  | name :: names, registered, cids =>
    if fault = some (.register registered.length) then
      (.error (.runtime (.register registered.length)), registered, cids)
    else
      registerAll fault names (registered ++ [name])
        (Function.update cids name (some registered.length))

def PersistentRunner.open (fault : Option Stage) (t : Runtime) (r : PersistentRunner κ) :
    Except Exc Unit × Runtime × PersistentRunner κ :=
  match r.worker with
  | some _ => (.ok (), t, r)
  | none =>
    if fault = some .construct then (.error (.runtime .construct), t, r)
    else
      let (w, t) := t.construct [r.deviceId]
      let (result, registered, cids) := registerAll fault r.callables [] r.cids
      let r := { r with cids, worker := some ⟨w, registered, false⟩ }
      match result with
      | .error e => (.error e, t, r)
      | .ok _ =>
        let t := t.init w
        if fault = some .init then (.error (.runtime .init), t, r)
        else (.ok (), t, { r with worker := some ⟨w, registered, true⟩ })

def PersistentRunner.reach (name : κ) (fits : Bool) (fault : Option Stage) (t : Runtime)
    (r : PersistentRunner κ) :
    Except Exc (HeldWorker κ × ℕ) × Runtime × PersistentRunner κ :=
  if name ∈ r.callables then
    match r.open fault t with
    | (.error e, t, r) => (.error e, t, r)
    | (.ok _, t, r) =>
      match fits, r.worker, r.cids name with
      | true, some worker, some cid => (.ok (worker, cid), t, r)
      | _, _, _ => (.error .host, t, r)
  else (.error .host, t, r)

def PersistentRunner.run (name : κ) (fits : Bool) (fault : Option Stage) (t : Runtime)
    (r : PersistentRunner κ) : Except Exc Unit × Runtime × PersistentRunner κ :=
  match r.reach name fits fault t with
  | (.error e, t, r) => (.error e, t, r)
  | (.ok _, t, r) => (if fault = some .run then .error (.runtime .run) else .ok (), t, r)

def PersistentRunner.close (t : Runtime) (r : PersistentRunner κ) :
    Runtime × PersistentRunner κ :=
  match r.worker with
  | none => (t, r)
  | some h => (t.close h.worker, { r with cids := fun _ => none, worker := none })

inductive Call (κ : Type*)
  | run (name : κ) (fits : Bool) (fault : Option Stage)
  | open (fault : Option Stage)
  | close

def call (s : Runtime × PersistentRunner κ) : Call κ → Runtime × PersistentRunner κ
  | .run name fits fault => (s.2.run name fits fault s.1).2
  | .open fault => (s.2.open fault s.1).2
  | .close => s.2.close s.1

def after (s : Runtime × PersistentRunner κ) (calls : List (Call κ)) :
    Runtime × PersistentRunner κ := calls.foldl call s

def Call.opens (callables : List κ) : Call κ → Option (Option Stage)
  | .run name _ fault => if name ∈ callables then some fault else none
  | .open fault => some fault
  | .close => none

def Call.Runs (callables : List κ) : Call κ → Prop
  | .run name _ _ => name ∈ callables
  | .open _ | .close => False

def HeldWorker.Serves (h : HeldWorker κ) (callables : List κ) (cids : κ → Option ℕ) : Prop :=
  h.ready = true ∧ ∀ n ∈ callables, ∃ cid, cids n = some cid ∧ h.registered[cid]? = some n

def PersistentRunner.Opened (r : PersistentRunner κ) : Prop :=
  ∃ h, r.worker = some h ∧ h.Serves r.callables r.cids

def OpenRaises (s : Runtime × PersistentRunner κ) (c : Call κ) : Prop :=
  ∃ fault e, c.opens s.2.callables = some fault ∧ (s.2.open fault s.1).1 = .error e

structure Recovers (s : Runtime × PersistentRunner κ) (calls : List (Call κ)) : Prop where
  dispatch : ∀ earlier name fits fault later, calls = earlier ++ .run name fits fault :: later →
    ∀ h cid t r, (after s earlier).2.reach name fits fault (after s earlier).1 =
      (.ok (h, cid), t, r) → h.Serves r.callables r.cids ∧ h.registered[cid]? = some name
  reopens : ∀ earlier c between run later, calls = earlier ++ c :: (between ++ run :: later) →
    OpenRaises (after s earlier) c → (∀ x ∈ between, ¬ x.Runs s.2.callables) →
    run.Runs s.2.callables → (after s (earlier ++ c :: between)).2.Opened ∨
      (after s (earlier ++ c :: between)).2.worker = none

inductive Phase
  | closed
  | opened
  | halfOpen
  deriving DecidableEq

def Phase.opening (n : ℕ) : Option Stage → Phase
  | some .construct => .closed
  | some (.register k) => if k < n then .halfOpen else .opened
  | some .init => .halfOpen
  | some .run | none => .opened

def Phase.next (callables : List κ) (ph : Phase) (c : Call κ) : Phase :=
  match c, c.opens callables with
  | .close, _ => .closed
  | _, some fault => if ph = .closed then .opening callables.length fault else ph
  | _, none => ph

def phase (callables : List κ) (calls : List (Call κ)) : Phase :=
  calls.foldl (Phase.next callables) .closed

def ClosesFirst (callables : List κ) (calls : List (Call κ)) : Prop :=
  ∀ earlier run later, calls = earlier ++ run :: later → run.Runs callables →
    phase callables earlier ≠ .halfOpen

inductive PersistentRunner.At (r : PersistentRunner κ) : Phase → Prop
  | closed : r.worker = none → r.At .closed
  | opened : r.Opened → r.At .opened
  | halfOpen (h : HeldWorker κ) : r.worker = some h → h.ready = false → r.At .halfOpen

variable {fault : Option Stage} {t : Runtime} {r : PersistentRunner κ}

theorem registerAll_ok {names registered : List κ} {cids : κ → Option ℕ}
    (h : ∀ k, fault = some (.register k) → registered.length + names.length ≤ k) :
    (registerAll fault names registered cids).1 = .ok () := by
  induction names generalizing registered cids with
  | nil => rfl
  | cons name names ih =>
    rw [registerAll, if_neg]
    · apply ih
      intro k hk
      have hle := h k hk
      simp only [List.length_append, List.length_cons, List.length_nil] at hle ⊢
      omega
    · intro hk
      have hle := h _ hk
      simp only [List.length_cons] at hle
      omega

theorem registerAll_error {names registered : List κ} {cids : κ → Option ℕ} {k : ℕ}
    (hfault : fault = some (.register k)) (hk : registered.length ≤ k)
    (hlt : k < registered.length + names.length) :
    (registerAll fault names registered cids).1 = .error (.runtime (.register k)) := by
  induction names generalizing registered cids with
  | nil => simp at hlt; omega
  | cons name names ih =>
    rw [registerAll]
    split_ifs with h
    · rw [hfault] at h
      obtain rfl : k = registered.length := by simpa using h
      rfl
    · apply ih
      · have hne : k ≠ registered.length := fun heq => h (by rw [hfault, heq])
        simp only [List.length_append, List.length_cons, List.length_nil]
        omega
      · simp only [List.length_append, List.length_cons, List.length_nil] at hlt ⊢
        omega

theorem registerAll_serves {names registered : List κ} {cids : κ → Option ℕ} {name : κ}
    (h : name ∈ names ∨ ∃ cid, cids name = some cid ∧ registered[cid]? = some name)
    (hok : (registerAll fault names registered cids).1 = .ok ()) :
    ∃ cid, (registerAll fault names registered cids).2.2 name = some cid ∧
      (registerAll fault names registered cids).2.1[cid]? = some name := by
  induction names generalizing registered cids with
  | nil => exact h.resolve_left List.not_mem_nil
  | cons n names ih =>
    rw [registerAll] at hok ⊢
    split_ifs at hok ⊢
    apply ih _ hok
    by_cases hname : name = n
    · subst hname
      right
      exact ⟨registered.length, Function.update_self .., List.getElem?_concat_length⟩
    · apply h.imp
      · exact fun hmem => (List.mem_cons.mp hmem).resolve_left hname
      · rintro ⟨cid, hcid, hreg⟩
        refine ⟨cid, ?_, ?_⟩
        · rw [Function.update_of_ne hname, hcid]
        · obtain ⟨hlt, -⟩ := List.getElem?_eq_some_iff.mp hreg
          rw [← hreg]
          exact List.getElem?_append_left hlt

theorem open_callables (fault : Option Stage) (t : Runtime) (r : PersistentRunner κ) :
    (r.open fault t).2.2.callables = r.callables := by
  unfold PersistentRunner.open
  split
  · rfl
  · split
    · rfl
    · dsimp only
      split
      · rfl
      · split <;> rfl

theorem open_closed (fault : Option Stage) (t : Runtime) (hr : r.worker = none) :
    (r.open fault t).2.2.At (.opening r.callables.length fault) ∧
      ((r.open fault t).1 = .ok () ↔ Phase.opening r.callables.length fault = .opened) := by
  by_cases hconstruct : fault = some .construct
  · subst hconstruct
    simp only [PersistentRunner.open, hr, if_true, Phase.opening]
    exact ⟨.closed hr, by simp⟩
  · by_cases hregister : ∃ k < r.callables.length, fault = some (.register k)
    · obtain ⟨k, hk, hfault⟩ := hregister
      have herror : (registerAll fault r.callables [] r.cids).1 = _ :=
        registerAll_error hfault (Nat.zero_le k) (by simpa using hk)
      have hphase : Phase.opening r.callables.length fault = .halfOpen := by
        rw [hfault]
        exact if_pos hk
      rw [hphase]
      simp only [PersistentRunner.open, hr, if_neg hconstruct, herror]
      exact ⟨.halfOpen _ rfl rfl, by simp⟩
    · have hok : (registerAll fault r.callables [] r.cids).1 = .ok () := by
        apply registerAll_ok
        intro k hk
        by_contra hlt
        exact hregister ⟨k, by simpa using hlt, hk⟩
      by_cases hinit : fault = some .init
      · simp only [PersistentRunner.open, hr, if_neg hconstruct, hok, if_pos hinit]
        subst hinit
        exact ⟨.halfOpen _ rfl rfl, by simp [Phase.opening]⟩
      · have hphase : Phase.opening r.callables.length fault = .opened := by
          unfold Phase.opening
          split
          · exact absurd rfl hconstruct
          · rename_i k
            exact if_neg fun hk => hregister ⟨k, hk, rfl⟩
          · exact absurd rfl hinit
          · rfl
          · rfl
        rw [hphase]
        simp only [PersistentRunner.open, hr, if_neg hconstruct, hok, if_neg hinit]
        refine ⟨.opened ⟨_, rfl, rfl, fun n hn => ?_⟩, by simp⟩
        exact registerAll_serves (Or.inl hn) hok

theorem open_runtime (fault : Option Stage) (t : Runtime) (hr : r.worker = none) :
    ((r.open fault t).2.1 = t ∧ (r.open fault t).2.2.worker = none) ∨
      (r.open fault t).2.1.created = t.created + 1 ∧
        ∃ h, (r.open fault t).2.2.worker = some h ∧ h.worker = ⟨t.created, [r.deviceId]⟩ ∧
          t.alive ⊆ (r.open fault t).2.1.alive ∧
          (r.open fault t).2.1.alive ⊆ insert h.worker t.alive := by
  unfold PersistentRunner.open
  rw [hr]
  dsimp only
  split
  · exact Or.inl ⟨rfl, hr⟩
  · right
    split
    · exact ⟨rfl, _, rfl, rfl, Finset.Subset.rfl, Finset.subset_insert _ _⟩
    · split
      · exact ⟨rfl, _, rfl, rfl, Finset.subset_insert _ _, Finset.Subset.rfl⟩
      · exact ⟨rfl, _, rfl, rfl, Finset.subset_insert _ _, Finset.Subset.rfl⟩

theorem open_held {h : HeldWorker κ} (hr : r.worker = some h) :
    r.open fault t = (.ok (), t, r) := by
  unfold PersistentRunner.open
  rw [hr]

theorem reach_snd {name : κ} {fits : Bool} : (r.reach name fits fault t).2 =
    if name ∈ r.callables then (r.open fault t).2 else (t, r) := by
  unfold PersistentRunner.reach
  split
  · split
    · rename_i h
      rw [h]
    · rename_i h
      rw [h]
      split <;> rfl
  · rfl

theorem reach_ok {name : κ} {fits : Bool} {h : HeldWorker κ} {cid : ℕ}
    {x : Runtime × PersistentRunner κ} (hx : r.reach name fits fault t = (.ok (h, cid), x)) :
    name ∈ r.callables ∧ r.open fault t = (.ok (), x) ∧ x.2.worker = some h ∧
      x.2.cids name = some cid := by
  unfold PersistentRunner.reach at hx
  split at hx
  · rename_i hname
    split at hx
    · cases hx
    · rename_i hopen
      split at hx
      · rename_i hworker hcid
        cases hx
        exact ⟨hname, hopen, hworker, hcid⟩
      · cases hx
  · cases hx

theorem run_snd {name : κ} {fits : Bool} :
    (r.run name fits fault t).2 = (r.reach name fits fault t).2 := by
  unfold PersistentRunner.run
  split
  · rename_i h
    rw [h]
  · rename_i h
    rw [h]

theorem call_eq (s : Runtime × PersistentRunner κ) (c : Call κ) : call s c =
    match c, c.opens s.2.callables with
    | .close, _ => s.2.close s.1
    | _, some fault => (s.2.open fault s.1).2
    | _, none => s := by
  cases c with
  | run name fits fault =>
    rw [call, run_snd, reach_snd]
    by_cases hname : name ∈ s.2.callables <;> simp [Call.opens, hname]
  | «open» fault => rfl
  | close => rfl

omit [DecidableEq κ] in
theorem close_closed (t : Runtime) (r : PersistentRunner κ) :
    (r.close t).2.worker = none ∧ (r.close t).2.callables = r.callables := by
  unfold PersistentRunner.close
  split
  · rename_i h
    exact ⟨h, rfl⟩
  · exact ⟨rfl, rfl⟩

omit [DecidableEq κ] in
theorem close_runtime (t : Runtime) (r : PersistentRunner κ) :
    (r.close t).1.created = t.created ∧ ∀ w, w ∈ (r.close t).1.alive ↔
      w ∈ t.alive ∧ r.worker.map HeldWorker.worker ≠ some w := by
  unfold PersistentRunner.close
  split
  · rename_i h
    simp [h]
  · rename_i h
    simp [h, Runtime.close, and_comm, eq_comm]

theorem call_callables (s : Runtime × PersistentRunner κ) (c : Call κ) :
    (call s c).2.callables = s.2.callables := by
  rw [call_eq]
  split
  · exact (close_closed s.1 s.2).2
  · exact open_callables _ s.1 s.2
  · rfl

theorem open_at {ph : Phase} (h : r.At ph) (fault : Option Stage) (t : Runtime) :
    (r.open fault t).2.2.At
      (if ph = .closed then .opening r.callables.length fault else ph) := by
  cases h with
  | closed hr => exact (open_closed fault t hr).1
  | opened hr =>
    obtain ⟨w, hw, hserves⟩ := hr
    rw [open_held hw]
    exact .opened ⟨w, hw, hserves⟩
  | halfOpen w hw hready =>
    rw [open_held hw]
    exact .halfOpen w hw hready

theorem call_at {s : Runtime × PersistentRunner κ} {ph : Phase} (h : s.2.At ph) (c : Call κ) :
    (call s c).2.At (ph.next s.2.callables c) := by
  cases c with
  | close => exact .closed (close_closed s.1 s.2).1
  | «open» fault => exact open_at h fault s.1
  | run name fits fault =>
    rw [call_eq]
    by_cases hname : name ∈ s.2.callables
    · simp only [Phase.next, Call.opens, hname, if_true]
      exact open_at h fault s.1
    · simp only [Phase.next, Call.opens, hname, if_false]
      exact h

section Runs

variable {s : Runtime × PersistentRunner κ}

theorem after_snoc (s : Runtime × PersistentRunner κ) (calls : List (Call κ)) (c : Call κ) :
    after s (calls ++ [c]) = call (after s calls) c := by
  rw [after, List.foldl_append]
  rfl

theorem phase_snoc (callables : List κ) (calls : List (Call κ)) (c : Call κ) :
    phase callables (calls ++ [c]) = (phase callables calls).next callables c := by
  rw [phase, List.foldl_append]
  rfl

theorem after_at (hs : s.2.worker = none) (calls : List (Call κ)) :
    (after s calls).2.callables = s.2.callables ∧
      (after s calls).2.At (phase s.2.callables calls) := by
  induction calls using List.reverseRecOn with
  | nil => exact ⟨rfl, .closed hs⟩
  | append_singleton calls c ih =>
    obtain ⟨hc, hat⟩ := ih
    rw [after_snoc, phase_snoc, call_callables, ← hc]
    exact ⟨rfl, hc ▸ call_at hat c⟩

theorem Phase.next_half (callables : List κ) {ph : Phase} {c : Call κ}
    (h : ph.next callables c = .halfOpen) : c ≠ .close ∧ (ph = .halfOpen ∨ ph = .closed ∧
      ∃ fault, c.opens callables = some fault ∧ opening callables.length fault = .halfOpen) := by
  unfold Phase.next at h
  split at h
  · cases h
  · rename_i fault hclose hopens
    refine ⟨hclose, ?_⟩
    split at h
    · exact Or.inr ⟨‹_›, fault, hopens, h⟩
    · exact Or.inl h
  · rename_i hclose _
    exact ⟨hclose, Or.inl h⟩

theorem ClosesFirst.prefix {callables : List κ} {earlier later : List (Call κ)}
    (h : ClosesFirst callables (earlier ++ later)) : ClosesFirst callables earlier := by
  intro before run rest heq hrun
  apply h before run (rest ++ later) _ hrun
  rw [heq, List.append_assoc, List.cons_append]

theorem halfOpen_origin (hs : s.2.worker = none) {calls : List (Call κ)}
    (hfirst : ClosesFirst s.2.callables calls) (h : phase s.2.callables calls = .halfOpen) :
    ∃ earlier c between, calls = earlier ++ c :: between ∧ OpenRaises (after s earlier) c ∧
      ∀ x ∈ between, ¬ x.Runs s.2.callables := by
  induction calls using List.reverseRecOn with
  | nil => cases h
  | append_singleton calls c ih =>
    rw [phase_snoc] at h
    obtain ⟨-, hhalf | ⟨hclosed, fault, hopens, hopening⟩⟩ := Phase.next_half _ h
    · obtain ⟨earlier, c', between, rfl, hraises, hbetween⟩ := ih hfirst.prefix hhalf
      refine ⟨earlier, c', between ++ [c], by simp, hraises, ?_⟩
      intro x hx
      obtain hx | hx := List.mem_append.mp hx
      · exact hbetween x hx
      · obtain rfl := List.mem_singleton.mp hx
        exact fun hrun => hfirst _ x [] rfl hrun hhalf
    · refine ⟨calls, c, [], rfl, ?_, fun x hx => absurd hx List.not_mem_nil⟩
      obtain ⟨hcallables, hat⟩ := after_at hs calls
      rw [hclosed] at hat
      cases hat with
      | closed hworker =>
        have hok := (open_closed fault (after s calls).1 hworker).2
        rw [hcallables, hopening] at hok
        cases hx : ((after s calls).2.open fault (after s calls).1).1 with
        | ok u => nomatch hok.mp hx
        | error e => exact ⟨fault, e, by rw [hcallables, hopens], hx⟩

theorem Recovers.closesFirst (hs : s.2.worker = none) {calls : List (Call κ)}
    (h : Recovers s calls) : ClosesFirst s.2.callables calls := by
  suffices hprefix : ∀ earlier later, calls = earlier ++ later →
      ClosesFirst s.2.callables earlier by
    exact hprefix calls [] (List.append_nil calls).symm
  intro earlier
  induction earlier using List.reverseRecOn with
  | nil =>
    intro later _ before run rest heq
    simp at heq
  | append_singleton earlier c ih =>
    intro later hcalls before run rest heq hrun
    have hfirst := ih (c :: later) (by simpa using hcalls)
    rcases List.eq_nil_or_concat rest with rfl | ⟨rest, x, rfl⟩
    · obtain ⟨rfl, hc⟩ := List.append_inj' heq rfl
      obtain rfl := List.head_eq_of_cons_eq hc
      intro hhalf
      obtain ⟨a, c', between, rfl, hraises, hbetween⟩ := halfOpen_origin hs hfirst hhalf
      have hat := (after_at hs (a ++ c' :: between)).2
      rw [hhalf] at hat
      cases hat with
      | halfOpen w hw hready =>
        rcases h.reopens a c' between c later (by simp [hcalls]) hraises hbetween hrun with
          ⟨w', hw', hserves⟩ | hnone
        · obtain rfl := Option.some.inj (hw.symm.trans hw')
          nomatch hready.symm.trans hserves.1
        · nomatch hw.symm.trans hnone
    · apply hfirst before run rest _ hrun
      rw [List.concat_eq_append, ← List.cons_append, ← List.append_assoc] at heq
      exact (List.append_inj' heq rfl).1

theorem ClosesFirst.recovers (hs : s.2.worker = none) {calls : List (Call κ)}
    (h : ClosesFirst s.2.callables calls) : Recovers s calls := by
  constructor
  · intro earlier name fits fault later hcalls w cid t r hreach
    obtain ⟨hname, hopen, hworker, hcid⟩ := reach_ok hreach
    obtain ⟨hcallables, hat⟩ := after_at hs earlier
    have hrun : (Call.run name fits fault).Runs s.2.callables := hcallables ▸ hname
    have hopened : r.Opened := by
      have hhalf := h earlier _ later hcalls hrun
      have hafter := open_callables fault (after s earlier).1 (after s earlier).2
      rw [hopen] at hafter
      cases hphase : phase s.2.callables earlier with
      | closed =>
        rw [hphase] at hat
        cases hat with
        | closed hnone =>
          obtain ⟨hat', hok⟩ := open_closed fault (after s earlier).1 hnone
          rw [hok.mp (by rw [hopen]), hopen] at hat'
          cases hat' with
          | opened hr => exact hr
      | opened =>
        rw [hphase] at hat
        cases hat with
        | opened hr =>
          obtain ⟨w', hw', hserves⟩ := hr
          rw [open_held hw'] at hopen
          cases hopen
          exact ⟨w', hw', hserves⟩
      | halfOpen => exact absurd hphase hhalf
    obtain ⟨w', hw', hserves⟩ := hopened
    obtain rfl := Option.some.inj (hworker.symm.trans hw')
    refine ⟨hserves, ?_⟩
    have hafter := open_callables fault (after s earlier).1 (after s earlier).2
    rw [hopen] at hafter
    obtain ⟨cid', hcid', hreg⟩ := hserves.2 name (hafter ▸ hname)
    obtain rfl := Option.some.inj (hcid.symm.trans hcid')
    exact hreg
  · intro earlier c between run later hcalls _ _ hrun
    obtain ⟨-, hat⟩ := after_at hs (earlier ++ c :: between)
    have hhalf := h (earlier ++ c :: between) run later (by simp [hcalls]) hrun
    cases hphase : phase s.2.callables (earlier ++ c :: between) with
    | closed =>
      rw [hphase] at hat
      cases hat with
      | closed hnone => exact Or.inr hnone
    | opened =>
      rw [hphase] at hat
      cases hat with
      | opened hr => exact Or.inl hr
    | halfOpen => exact absurd hphase hhalf

theorem recovers_iff (deviceId : ℕ) (callables : List κ) (t : Runtime) (calls : List (Call κ)) :
    Recovers (t, .prepared deviceId callables) calls ↔ ClosesFirst callables calls := by
  have hs : (t, PersistentRunner.prepared deviceId callables).2.worker = none := rfl
  exact ⟨Recovers.closesFirst hs, ClosesFirst.recovers hs⟩

/-- The run after an `init` that raised is dispatched on the worker that `init` left behind. -/
theorem run_on_halfOpen : ¬ Recovers (⟨0, ∅⟩, .prepared 0 ["gate_cumsum"])
    [.open (some .init), .run "gate_cumsum" true none] := by
  intro h
  obtain ⟨⟨hready, -⟩, -⟩ := h.dispatch [.open (some .init)] "gate_cumsum" true none [] rfl
    ⟨⟨0, [0]⟩, ["gate_cumsum"], false⟩ 0 _ _ rfl
  nomatch hready

end Runs

end Runner

end ZeCo.HeldFailures
