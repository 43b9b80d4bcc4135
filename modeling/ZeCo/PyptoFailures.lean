import Mathlib.Data.List.Basic
import ZeCo.PyptoDispatch

/-!
`PyPtoZeCo` when its calls fail. A method runs with an `Outcome`, which tells how the calls it makes
out of the object end; what it dispatches is recorded with everything it used: the program, the
shape fields, the constant tiles, the shared buffers, and whether the worker was held.
-/

namespace ZeCo.PyptoFailures

open PyptoZeCo (Direction)

structure Config where
  P : ℕ
  L : ℕ
  C : ℕ
  dk : ℕ
  dv : ℕ
  deviceIds : List ℕ
  platform : String
  deriving DecidableEq

/-- `hasPrepare` is false for a program that was compiled without a host orchestrator. -/
structure Program where
  direction : Direction
  config : Config
  hasPrepare : Bool
  deriving DecidableEq

structure Tiles where
  C : ℕ
  dk : ℕ
  dv : ℕ
  deriving DecidableEq

structure Buffers where
  P : ℕ
  L : ℕ
  dk : ℕ
  dv : ℕ
  deriving DecidableEq

structure Zeco where
  config : Option Config
  tiles : Option Tiles
  compiled : Option Program
  bcompiled : Option Program
  bcompileArgs : Option Config
  buffers : Option Buffers
  rt : Option Program
  rtBackward : Bool
  deriving DecidableEq

structure Outcome where
  compile : Option Bool
  prepare : Bool
  dispatch : Bool
  deriving DecidableEq

inductive Exc
  | shape
  | buildFirst
  | notImplemented
  | noOrchestrator
  | compile
  | prepare
  | dispatch
  deriving DecidableEq

structure Dispatch where
  program : Program
  held : Bool
  config : Option Config
  tiles : Option Tiles
  buffers : Option Buffers
  deriving DecidableEq

inductive Timing
  | perCall
  | steadyState
  deriving DecidableEq

def new : Zeco := ⟨none, none, none, none, none, none, none, false⟩

def Config.used (cfg : Config) : Config := { cfg with deviceIds := cfg.deviceIds.take cfg.P }

/-- `L % C == 0`; a `C` of zero raises there too. -/
def Config.passes (cfg : Config) : Prop := cfg.C ≠ 0 ∧ cfg.L % cfg.C = 0

instance (cfg : Config) : Decidable cfg.passes := inferInstanceAs (Decidable (_ ∧ _))

def close (s : Zeco) : Zeco := { s with rt := none }

def build (cfg : Config) (o : Outcome) (s : Zeco) : Except Exc Unit × Zeco :=
  if cfg.passes then
    let s := close { s with config := some cfg.used }
    let s := { s with tiles := some ⟨cfg.C, cfg.dk, cfg.dv⟩ }
    match o.compile with
    | none => (.error .compile, s)
    | some hasPrepare =>
      let program : Program := ⟨.forward, cfg.used, hasPrepare⟩
      let s := { s with
        compiled := some program, bcompiled := none, bcompileArgs := some cfg.used, rt := none }
      if hasPrepare then
        let s := { s with
          buffers := some ⟨cfg.P, cfg.L, cfg.dk, cfg.dv⟩, rtBackward := false }
        if o.prepare then (.ok (), { s with rt := some program }) else (.error .prepare, s)
      else (.ok (), s)
  else (.error .shape, s)

def ensureBackwardCompiled (o : Outcome) (s : Zeco) : Except Exc Zeco :=
  match s.bcompiled, s.bcompileArgs, o.compile with
  | some _, _, _ => .ok s
  | none, some args, some hasPrepare =>
    .ok { s with bcompiled := some ⟨.backward, args, hasPrepare⟩ }
  | none, _, _ => .error .compile

def prepare (o : Outcome) (compiled : Option Program) : Except Exc Program :=
  match compiled with
  | some program => if program.hasPrepare ∧ o.prepare then .ok program else .error .prepare
  | none => .error .prepare

def select (backward : Bool) (o : Outcome) (s : Zeco) : Except Exc Program × Zeco :=
  match s.rt, decide (s.rtBackward = backward) with
  | some program, true => (.ok program, s)
  | _, _ =>
    let s := { s with rt := none }
    match (if backward then ensureBackwardCompiled o s else .ok s) with
    | .error exc => (.error exc, s)
    | .ok s =>
      match prepare o (if backward then s.bcompiled else s.compiled) with
      | .error exc => (.error exc, s)
      | .ok program => (.ok program, { s with rt := some program, rtBackward := backward })

def dispatch (o : Outcome) (s : Zeco) (program : Program) (held : Bool) : Except Exc Dispatch :=
  if o.dispatch then
    .ok ⟨program, held, s.config, s.tiles, if held then s.buffers else none⟩
  else .error .dispatch

def runFusedForward (o : Outcome) (s : Zeco) (compiled : Program) : Except Exc Dispatch :=
  if compiled.hasPrepare then
    if o.prepare then dispatch o s compiled false else .error .prepare
  else .error .noOrchestrator

def selected (x : Except Exc Program × Zeco) (o : Outcome) : Except Exc Dispatch × Zeco :=
  match x with
  | (.error exc, s) => (.error exc, s)
  | (.ok program, s) => (dispatch o s program true, s)

def forward (o : Outcome) (s : Zeco) : Except Exc Dispatch × Zeco :=
  match s.compiled with
  | none => (.error .buildFirst, s)
  | some compiled =>
    if s.rt.isSome then selected (select false o s) o else (runFusedForward o s compiled, s)

def backward (o : Outcome) (s : Zeco) : Except Exc Dispatch × Zeco :=
  match s.compiled with
  | none => (.error .buildFirst, s)
  | some _ =>
    if s.rt.isNone then (.error .notImplemented, s) else selected (select true o s) o

def measureTiming (s : Zeco) : Timing := if s.rt.isNone then .perCall else .steadyState

section Build

variable {cfg : Config} {o : Outcome} {s : Zeco}

theorem build_rejected (h : ¬ cfg.passes) : build cfg o s = (.error .shape, s) := by
  simp [build, h]

theorem build_uncompiled (h : cfg.passes) (hc : o.compile = none) : build cfg o s =
    (.error .compile, { s with
      config := some cfg.used, tiles := some ⟨cfg.C, cfg.dk, cfg.dv⟩, rt := none }) := by
  simp [build, h, hc, close]

theorem build_undistributed (h : cfg.passes) (hc : o.compile = some false) : build cfg o s =
    (.ok (), ⟨some cfg.used, some ⟨cfg.C, cfg.dk, cfg.dv⟩, some ⟨.forward, cfg.used, false⟩, none,
      some cfg.used, s.buffers, none, s.rtBackward⟩) := by
  simp [build, h, hc, close]

def builtWith (cfg : Config) (rt : Option Program) : Zeco :=
  ⟨some cfg.used, some ⟨cfg.C, cfg.dk, cfg.dv⟩, some ⟨.forward, cfg.used, true⟩, none,
    some cfg.used, some ⟨cfg.P, cfg.L, cfg.dk, cfg.dv⟩, rt, false⟩

theorem build_distributed (h : cfg.passes) (hc : o.compile = some true) : build cfg o s =
    if o.prepare then (.ok (), builtWith cfg (some ⟨.forward, cfg.used, true⟩))
    else (.error .prepare, builtWith cfg none) := by
  simp [build, h, hc, close, builtWith]

end Build

section Backward

inductive Later (s : Zeco) : Zeco → Prop
  | refl : Later s s
  | forward {x : Zeco} (o : Outcome) : Later s x → Later s (forward o x).2
  | backward {x : Zeco} (o : Outcome) : Later s x → Later s (backward o x).2

inductive Built : Zeco → Prop
  | build {x : Zeco} (cfg : Config) (o : Outcome) : o.compile = some true →
      (build cfg o x).1 = .ok () → Built (build cfg o x).2
  | later {s x : Zeco} : Built s → Later s x → Built x

structure Continues (s : Zeco) : Prop where
  forward : ∀ x, Later s x → ∀ o d, (forward o x).1 = .ok d → d.held = true
  measure : ∀ x, Later s x → measureTiming x = .steadyState
  backward : ∀ x, Later s x → ∀ o, (backward o x).1 ≠ .error .notImplemented

structure Degraded (s : Zeco) : Prop where
  forward : ∀ x, Later s x → ∀ o : Outcome, o.prepare = true → o.dispatch = true →
    ∃ d, (forward o x).1 = .ok d ∧ d.held = false
  measure : ∀ x, Later s x → measureTiming x = .perCall
  backward : ∀ x, Later s x → ∀ o, (backward o x).1 = .error .notImplemented

variable {s : Zeco} {program : Program}

theorem forward_unprepared (hc : s.compiled = some program) (hrt : s.rt = none) (o : Outcome) :
    forward o s = (runFusedForward o s program, s) := by
  simp [forward, hc, hrt]

theorem backward_unprepared (hc : s.compiled = some program) (hrt : s.rt = none) (o : Outcome) :
    backward o s = (.error .notImplemented, s) := by
  simp [backward, hc, hrt]

theorem later_unprepared (hc : s.compiled = some program) (hrt : s.rt = none) {x : Zeco}
    (h : Later s x) : x = s := by
  induction h with
  | refl => rfl
  | forward o _ ih => rw [ih, forward_unprepared hc hrt]
  | backward o _ ih => rw [ih, backward_unprepared hc hrt]

theorem degraded_of_unprepared (hc : s.compiled = some program) (hp : program.hasPrepare = true)
    (hrt : s.rt = none) : Degraded s := by
  constructor
  · intro x hx o hprep hdisp
    rw [later_unprepared hc hrt hx, forward_unprepared hc hrt]
    exact ⟨⟨program, false, s.config, s.tiles, none⟩,
      by simp [runFusedForward, dispatch, hp, hprep, hdisp], rfl⟩
  · intro x hx
    rw [later_unprepared hc hrt hx]
    simp [measureTiming, hrt]
  · intro x hx o
    rw [later_unprepared hc hrt hx, backward_unprepared hc hrt]

theorem ensureBackwardCompiled_kept {o : Outcome} {x : Zeco}
    (h : ensureBackwardCompiled o s = .ok x) : x.rt = s.rt ∧ x.compiled = s.compiled := by
  unfold ensureBackwardCompiled at h
  split at h
  · cases h
    exact ⟨rfl, rfl⟩
  · cases h
    exact ⟨rfl, rfl⟩
  · cases h

theorem select_kept (d : Bool) (o : Outcome) (s : Zeco) : (select d o s).2.compiled = s.compiled ∧
    ∀ exc, (select d o s).1 = .error exc → (select d o s).2.rt = none := by
  unfold select
  split
  · exact ⟨rfl, fun _ h => nomatch h⟩
  · have hready (x : Zeco) (hx : (if d then ensureBackwardCompiled o { s with rt := none }
        else .ok { s with rt := none }) = .ok x) : x.rt = none ∧ x.compiled = s.compiled := by
      cases d with
      | false =>
        cases hx
        exact ⟨rfl, rfl⟩
      | true => exact ensureBackwardCompiled_kept hx
    dsimp only
    split
    · exact ⟨rfl, fun _ _ => rfl⟩
    · rename_i x hx
      obtain ⟨hrt, hcompiled⟩ := hready x hx
      split
      · exact ⟨hcompiled, fun _ _ => hrt⟩
      · exact ⟨hcompiled, fun _ h => nomatch h⟩

theorem selected_error {x : Except Exc Program × Zeco} {o : Outcome} {exc : Exc}
    (h : (selected x o).1 = .error exc) (hne : exc ≠ .dispatch) : x.1 = .error exc := by
  obtain ⟨(e | program), s⟩ := x
  · exact congrArg Except.error (Except.error.inj h)
  · rw [selected, dispatch] at h
    split_ifs at h
    · exact absurd (Except.error.inj h).symm hne

theorem selected_kept (d : Bool) (o : Outcome) (s : Zeco) :
    (selected (select d o s) o).2 = (select d o s).2 := by
  unfold selected
  split
  · rename_i h
    rw [h]
  · rename_i h
    rw [h]

theorem forward_compiled (o : Outcome) (s : Zeco) : (forward o s).2.compiled = s.compiled := by
  unfold forward
  split
  · rfl
  · split_ifs
    · rw [selected_kept]
      exact (select_kept false o s).1
    · rfl

theorem backward_compiled (o : Outcome) (s : Zeco) : (backward o s).2.compiled = s.compiled := by
  unfold backward
  split
  · rfl
  · split_ifs
    · rfl
    · rw [selected_kept]
      exact (select_kept true o s).1

theorem Later.compiled {x : Zeco} (h : Later s x) : x.compiled = s.compiled := by
  induction h with
  | refl => rfl
  | forward o _ ih => rw [forward_compiled, ih]
  | backward o _ ih => rw [backward_compiled, ih]

theorem Built.compiled (h : Built s) : ∃ program, s.compiled = some program ∧
    program.hasPrepare = true := by
  induction h with
  | @build x cfg o hcompile hok =>
    refine ⟨⟨.forward, cfg.used, true⟩, ?_, rfl⟩
    by_cases hpass : cfg.passes
    · rw [build_distributed hpass hcompile]
      split_ifs <;> rfl
    · rw [build_rejected hpass] at hok
      nomatch hok
  | later _ hx ih =>
    obtain ⟨program, hc, hp⟩ := ih
    exact ⟨program, hx.compiled.trans hc, hp⟩

/-- After a backward that fails to compile or to prepare, a built object never continues: until the
next build it has no worker. -/
theorem backward_failure_degrades (h : Built s) {o : Outcome} {exc : Exc}
    (hb : (backward o s).1 = .error exc) (he : exc = .compile ∨ exc = .prepare) :
    Degraded (backward o s).2 ∧ ¬ Continues (backward o s).2 := by
  obtain ⟨program, hc, hp⟩ := h.compiled
  have hrt : (backward o s).2.rt = none := by
    have hne : exc ≠ .dispatch ∧ exc ≠ .notImplemented := by
      rcases he with rfl | rfl <;> decide
    simp only [backward, hc] at hb ⊢
    split_ifs at hb ⊢ with hnone
    · exact absurd (Except.error.inj hb).symm hne.2
    · rw [selected_kept]
      exact (select_kept true o s).2 exc (selected_error hb hne.1)
  have hdeg := degraded_of_unprepared ((backward_compiled o s).trans hc) hp hrt
  refine ⟨hdeg, fun hcont => ?_⟩
  nomatch (hdeg.measure _ .refl).symm.trans (hcont.measure _ .refl)

def twoRanks : Config := ⟨2, 64, 32, 64, 64, [0, 1], "a2a3"⟩

def allReturn : Outcome := ⟨some true, true, true⟩

def noPlan : Outcome := ⟨none, true, true⟩

theorem backward_failure_degrades_two_ranks :
    Degraded (backward noPlan (build twoRanks allReturn new).2).2 ∧
      ¬ Continues (backward noPlan (build twoRanks allReturn new).2).2 :=
  backward_failure_degrades (.build twoRanks allReturn rfl rfl) rfl (Or.inl rfl)

theorem backward_failure_drops_worker :
    (build twoRanks allReturn new).1 = .ok () ∧
      (backward noPlan (build twoRanks allReturn new).2).1 = .error .compile ∧
      ¬ Continues (backward noPlan (build twoRanks allReturn new).2).2 := by
  refine ⟨rfl, rfl, fun h => ?_⟩
  have hmeasure := h.measure _ .refl
  revert hmeasure
  decide

end Backward

section Rebuild

def builds (bs : List (Config × Outcome)) : Zeco := bs.foldl (fun s b => (build b.1 b.2 s).2) new

def succeeds (b : Config × Outcome) : Prop := (build b.1 b.2 new).1 = .ok ()

def compiles (b : Config × Outcome) : Prop := b.1.passes ∧ b.2.compile.isSome = true

def Dispatch.Whole (d : Dispatch) : Prop :=
  let cfg := d.program.config
  d.config = some cfg ∧ d.tiles = some ⟨cfg.C, cfg.dk, cfg.dv⟩ ∧
    ∀ b ∈ d.buffers, b = ⟨cfg.P, cfg.L, cfg.dk, cfg.dv⟩

/-- After the builds `bs`, `op` asks for a build or does what it does on an object that only had
the last successful one. -/
def RunsLastBuild (bs : List (Config × Outcome))
    (op : Outcome → Zeco → Except Exc Dispatch × Zeco) : Prop :=
  ∀ o, (op o (builds bs)).1 = .error .buildFirst ∨
    (∃ earlier b later, bs = earlier ++ b :: later ∧ succeeds b ∧ (∀ x ∈ later, ¬ succeeds x) ∧
      (op o (builds bs)).1 = (op o (build b.1 b.2 new).2).1) ∧
      ∀ d, (op o (builds bs)).1 = .ok d → d.Whole

/-- The last build whose compile returned succeeded, and no later one has got past the shape
assertion, unless that compile left nothing to prepare; or no compile ever returned. -/
def SafeRebuild (bs : List (Config × Outcome)) : Prop :=
  (∀ b ∈ bs, ¬ compiles b) ∨ ∃ earlier b later, bs = earlier ++ b :: later ∧ succeeds b ∧
    (∀ x ∈ later, ¬ compiles x) ∧ (b.2.compile = some false ∨ ∀ x ∈ later, ¬ x.1.passes)

variable {bs : List (Config × Outcome)} {b : Config × Outcome}

theorem builds_snoc (bs : List (Config × Outcome)) (b : Config × Outcome) :
    builds (bs ++ [b]) = (build b.1 b.2 (builds bs)).2 := by
  rw [builds, List.foldl_append]
  rfl

theorem succeeds_iff : succeeds b ↔
    b.1.passes ∧ (b.2.compile = some false ∨ b.2.compile = some true ∧ b.2.prepare = true) := by
  unfold succeeds
  by_cases hp : b.1.passes
  · match hc : b.2.compile with
    | none => simp [build_uncompiled hp hc]
    | some false => simp [build_undistributed hp hc, hp]
    | some true =>
      rw [build_distributed hp hc]
      split_ifs with h <;> simp [hp, h]
  · simp [build_rejected hp, hp]

theorem succeeds.compiles (h : succeeds b) : compiles b := by
  obtain ⟨hp, hc⟩ := succeeds_iff.mp h
  refine ⟨hp, ?_⟩
  rcases hc with hc | ⟨hc, -⟩ <;> rw [hc] <;> rfl

inductive Leaves (bs : List (Config × Outcome)) (s : Zeco) : Prop
  | nothing : (∀ b ∈ bs, ¬ compiles b) → s.compiled = none → Leaves bs s
  | built (earlier : List (Config × Outcome)) (b : Config × Outcome)
      (later : List (Config × Outcome)) (x : Zeco) : bs = earlier ++ b :: later → compiles b →
      (∀ x ∈ later, ¬ x.1.passes) → s = (build b.1 b.2 x).2 → Leaves bs s
  | dropped (earlier : List (Config × Outcome)) (b : Config × Outcome)
      (later : List (Config × Outcome)) (hasPrepare : Bool) : bs = earlier ++ b :: later →
      compiles b → b.2.compile = some hasPrepare → (∀ x ∈ later, ¬ compiles x) →
      (∃ x ∈ later, x.1.passes) → s.compiled = some ⟨.forward, b.1.used, hasPrepare⟩ →
      s.rt = none → Leaves bs s

theorem build_compiled {cfg : Config} {o : Outcome} {hasPrepare : Bool} (hp : cfg.passes)
    (hc : o.compile = some hasPrepare) (s : Zeco) :
    (build cfg o s).2.compiled = some ⟨.forward, cfg.used, hasPrepare⟩ := by
  cases hasPrepare with
  | false => rw [build_undistributed hp hc]
  | true =>
    rw [build_distributed hp hc]
    split_ifs <;> rfl

theorem forall_mem_snoc {α : Type*} {p : α → Prop} {xs : List α} {x : α} (h : ∀ y ∈ xs, p y)
    (hx : p x) : ∀ y ∈ xs ++ [x], p y := by
  exact List.forall_mem_append.mpr ⟨h, List.forall_mem_singleton.mpr hx⟩

theorem builds_leaves (bs : List (Config × Outcome)) : Leaves bs (builds bs) := by
  induction bs using List.reverseRecOn with
  | nil => exact .nothing (fun _ hb => absurd hb List.not_mem_nil) rfl
  | append_singleton bs b ih =>
    rw [builds_snoc]
    by_cases hp : b.1.passes
    · cases hc : b.2.compile with
      | some hasPrepare =>
        exact .built bs b [] (builds bs) rfl ⟨hp, by rw [hc]; rfl⟩
          (fun _ hx => absurd hx List.not_mem_nil) rfl
      | none =>
        have hb : ¬ compiles b := fun h => by simp [compiles, hc] at h
        rw [build_uncompiled hp hc]
        cases ih with
        | nothing hall hnone => exact .nothing (forall_mem_snoc hall hb) hnone
        | built earlier b' later x hbs hb' hlater hs =>
          obtain ⟨hp', hc'⟩ := hb'
          obtain ⟨hasPrepare, hc'⟩ := Option.isSome_iff_exists.mp hc'
          refine .dropped earlier b' (later ++ [b]) hasPrepare (by simp [hbs]) ⟨hp', by simp [hc']⟩
            hc' (forall_mem_snoc (fun x hx h => hlater x hx h.1) hb) ⟨b, by simp, hp⟩ ?_ rfl
          rw [hs]
          exact build_compiled hp' hc' x
        | dropped earlier b' later hasPrepare hbs hb' hc' hlater _ hcompiled _ =>
          exact .dropped earlier b' (later ++ [b]) hasPrepare (by simp [hbs]) hb' hc'
            (forall_mem_snoc hlater hb) ⟨b, by simp, hp⟩ hcompiled rfl
    · have hb : ¬ compiles b := fun h => hp h.1
      rw [build_rejected hp]
      cases ih with
      | nothing hall hnone => exact .nothing (forall_mem_snoc hall hb) hnone
      | built earlier b' later x hbs hb' hlater hs =>
        exact .built earlier b' (later ++ [b]) x (by simp [hbs]) hb' (forall_mem_snoc hlater hp) hs
      | dropped earlier b' later hasPrepare hbs hb' hc' hlater hpass hcompiled hrt =>
        obtain ⟨y, hy, hpass⟩ := hpass
        exact .dropped earlier b' (later ++ [b]) hasPrepare (by simp [hbs]) hb' hc'
          (forall_mem_snoc hlater hb) ⟨y, by simp [hy], hpass⟩ hcompiled hrt

theorem last_unique {α : Type*} {p : α → Prop} {xs ys xs' ys' : List α} {x x' : α}
    (h : xs ++ x :: ys = xs' ++ x' :: ys') (hx : p x) (hx' : p x') (hy : ∀ y ∈ ys, ¬ p y)
    (hy' : ∀ y ∈ ys', ¬ p y) : x = x' ∧ ys = ys' := by
  rcases List.append_eq_append_iff.mp h with ⟨t, -, ht⟩ | ⟨t, -, ht⟩
  · cases t with
    | nil => exact List.cons.inj ht
    | cons c t =>
      obtain ⟨-, rfl⟩ := List.cons.inj ht
      exact absurd hx' (hy x' (by simp))
  · cases t with
    | nil =>
      obtain ⟨rfl, rfl⟩ := List.cons.inj ht
      exact ⟨rfl, rfl⟩
    | cons c t =>
      obtain ⟨-, rfl⟩ := List.cons.inj ht
      exact absurd hx (hy' x (by simp))

theorem SafeRebuild.last {earlier later : List (Config × Outcome)} (h : SafeRebuild bs)
    (hbs : bs = earlier ++ b :: later) (hb : compiles b) (hlater : ∀ x ∈ later, ¬ compiles x) :
    succeeds b ∧ (b.2.compile = some false ∨ ∀ x ∈ later, ¬ x.1.passes) := by
  rcases h with hall | ⟨earlier', b', later', hbs', hs, hlater', hend⟩
  · exact absurd hb (hall b (by simp [hbs]))
  · obtain ⟨rfl, rfl⟩ := last_unique (hbs.symm.trans hbs') hb hs.compiles hlater hlater'
    exact ⟨hs, hend⟩

theorem forward_builtWith (cfg : Config) (o : Outcome) :
    forward o (builtWith cfg (some ⟨.forward, cfg.used, true⟩)) =
      (dispatch o (builtWith cfg (some ⟨.forward, cfg.used, true⟩)) ⟨.forward, cfg.used, true⟩ true,
        builtWith cfg (some ⟨.forward, cfg.used, true⟩)) := rfl

theorem forward_undistributed {s : Zeco} {cfg : Config}
    (hc : s.compiled = some ⟨.forward, cfg, false⟩) (hrt : s.rt = none) (o : Outcome) :
    (forward o s).1 = .error .noOrchestrator := by
  rw [forward_unprepared hc hrt]
  rfl

theorem not_runsLastBuild {program : Program} (hc : (builds bs).compiled = some program)
    (hp : program.hasPrepare = true) (hrt : (builds bs).rt = none) :
    ¬ RunsLastBuild bs forward := by
  intro h
  obtain ⟨d, hd, hheld⟩ := (degraded_of_unprepared hc hp hrt).forward _ .refl allReturn rfl rfl
  rcases h allReturn with hfirst | ⟨⟨_, b, _, _, hs, _, heq⟩, _⟩
  · nomatch hd.symm.trans hfirst
  · rw [hd] at heq
    obtain ⟨hpass, hcompile | ⟨hcompile, hprep⟩⟩ := succeeds_iff.mp hs
    · rw [build_undistributed hpass hcompile, forward_undistributed rfl rfl] at heq
      nomatch heq
    · rw [build_distributed hpass hcompile, if_pos hprep, forward_builtWith] at heq
      obtain rfl := Except.ok.inj heq
      nomatch hheld

theorem builtWith_whole (cfg : Config) (o : Outcome) (held : Bool) (d : Direction) (flag : Bool)
    (bcompiled rt : Option Program) (x : Dispatch)
    (h : dispatch o { builtWith cfg rt with bcompiled := bcompiled, rtBackward := flag }
      ⟨d, cfg.used, true⟩ held = .ok x) : x.Whole := by
  unfold dispatch at h
  split_ifs at h with hd hheld
  · obtain rfl := Except.ok.inj h
    refine ⟨rfl, rfl, fun b hb => ?_⟩
    exact (Option.some.inj hb).symm
  · obtain rfl := Except.ok.inj h
    exact ⟨rfl, rfl, fun b hb => nomatch hb⟩

theorem backward_builtWith (cfg : Config) (o : Outcome) (x : Dispatch)
    (h : (backward o (builtWith cfg (some ⟨.forward, cfg.used, true⟩))).1 = .ok x) : x.Whole := by
  simp only [backward, select, builtWith, ensureBackwardCompiled, Option.isNone_some,
    Bool.false_eq_true, decide_false, if_false, if_true] at h
  match hc : o.compile with
  | none =>
    rw [hc] at h
    nomatch h
  | some false =>
    rw [hc] at h
    nomatch h
  | some true =>
    rw [hc] at h
    by_cases hp : o.prepare = true
    · simp only [prepare, hp, and_self, if_true, selected] at h
      exact builtWith_whole cfg o true .backward true _ _ x h
    · simp [prepare, hp, selected] at h

theorem succeeds.pass (hs : succeeds b) (x : Zeco) (o : Outcome)
    {op : Outcome → Zeco → Except Exc Dispatch × Zeco} (hop : op = forward ∨ op = backward) :
    (op o (build b.1 b.2 x).2).1 = (op o (build b.1 b.2 new).2).1 ∧
      ∀ d, (op o (build b.1 b.2 new).2).1 = .ok d → d.Whole := by
  obtain ⟨hpass, hcompile | ⟨hcompile, hprep⟩⟩ := succeeds_iff.mp hs
  · rw [build_undistributed hpass hcompile, build_undistributed hpass hcompile]
    rcases hop with rfl | rfl
    · rw [forward_undistributed rfl rfl, forward_undistributed rfl rfl]
      exact ⟨rfl, fun _ hd => nomatch hd⟩
    · rw [backward_unprepared rfl rfl, backward_unprepared rfl rfl]
      exact ⟨rfl, fun _ hd => nomatch hd⟩
  · rw [build_distributed hpass hcompile, build_distributed hpass hcompile, if_pos hprep]
    refine ⟨rfl, fun d hd => ?_⟩
    rcases hop with rfl | rfl
    · rw [forward_builtWith] at hd
      exact builtWith_whole b.1 o true .forward false none _ d hd
    · exact backward_builtWith b.1 o d hd

theorem runsLastBuild_of_built {earlier later : List (Config × Outcome)} {x : Zeco}
    (hbs : bs = earlier ++ b :: later) (hb : succeeds b) (hlater : ∀ y ∈ later, ¬ y.1.passes)
    (hs : builds bs = (build b.1 b.2 x).2)
    {op : Outcome → Zeco → Except Exc Dispatch × Zeco} (hop : op = forward ∨ op = backward) :
    RunsLastBuild bs op := by
  intro o
  obtain ⟨heq, hwhole⟩ := hb.pass x o hop
  have hfail (y) (hy : y ∈ later) : ¬ succeeds y := fun h => hlater y hy (succeeds_iff.mp h).1
  rw [hs, heq]
  exact Or.inr ⟨⟨earlier, b, later, hbs, hb, hfail, rfl⟩, hwhole⟩

theorem runsLastBuild_of_undistributed {earlier later : List (Config × Outcome)}
    (hbs : bs = earlier ++ b :: later) (hb : succeeds b) (hc : b.2.compile = some false)
    (hlater : ∀ y ∈ later, ¬ compiles y)
    (hcompiled : (builds bs).compiled = some ⟨.forward, b.1.used, false⟩)
    (hrt : (builds bs).rt = none)
    {op : Outcome → Zeco → Except Exc Dispatch × Zeco} (hop : op = forward ∨ op = backward) :
    RunsLastBuild bs op := by
  intro o
  have hfail (y) (hy : y ∈ later) : ¬ succeeds y := fun h => hlater y hy h.compiles
  have hpass := (succeeds_iff.mp hb).1
  refine Or.inr ⟨⟨earlier, b, later, hbs, hb, hfail, ?_⟩, fun d hd => ?_⟩
  · rw [build_undistributed hpass hc]
    rcases hop with rfl | rfl
    · rw [forward_undistributed hcompiled hrt, forward_undistributed rfl rfl]
    · rw [backward_unprepared hcompiled hrt, backward_unprepared rfl rfl]
  · rcases hop with rfl | rfl
    · rw [forward_undistributed hcompiled hrt] at hd
      nomatch hd
    · rw [backward_unprepared hcompiled hrt] at hd
      nomatch hd

theorem rebuild_whole_iff (bs : List (Config × Outcome)) :
    RunsLastBuild bs forward ∧ RunsLastBuild bs backward ↔ SafeRebuild bs := by
  cases builds_leaves bs with
  | nothing hall hnone =>
    have hfirst (o : Outcome) : (forward o (builds bs)).1 = .error .buildFirst ∧
        (backward o (builds bs)).1 = .error .buildFirst := by
      simp [forward, backward, hnone]
    exact iff_of_true ⟨fun o => Or.inl (hfirst o).1, fun o => Or.inl (hfirst o).2⟩ (Or.inl hall)
  | built earlier b later x hbs hb hlater hs =>
    have hlater' := fun y hy (h : compiles y) => hlater y hy h.1
    by_cases hsucc : succeeds b
    · apply iff_of_true
      · exact ⟨runsLastBuild_of_built hbs hsucc hlater hs (Or.inl rfl),
          runsLastBuild_of_built hbs hsucc hlater hs (Or.inr rfl)⟩
      · exact Or.inr ⟨earlier, b, later, hbs, hsucc, hlater', Or.inr hlater⟩
    · apply iff_of_false
      · obtain ⟨hpass, hcompile⟩ := hb
        match hc : b.2.compile with
        | none => simp [hc] at hcompile
        | some false => exact absurd (succeeds_iff.mpr ⟨hpass, Or.inl hc⟩) hsucc
        | some true =>
          have hprep : ¬ b.2.prepare = true := fun h =>
            hsucc (succeeds_iff.mpr ⟨hpass, Or.inr ⟨hc, h⟩⟩)
          rw [build_distributed hpass hc, if_neg hprep] at hs
          exact fun h => not_runsLastBuild (congrArg Zeco.compiled hs) rfl
            (congrArg Zeco.rt hs) h.1
      · exact fun h => hsucc (h.last hbs hb hlater').1
  | dropped earlier b later hasPrepare hbs hb hc hlater hpass hcompiled hrt =>
    cases hasPrepare with
    | true =>
      apply iff_of_false
      · exact fun h => not_runsLastBuild hcompiled rfl hrt h.1
      · intro h
        obtain ⟨y, hy, hyp⟩ := hpass
        rcases (h.last hbs hb hlater).2 with hfalse | hno
        · rw [hc] at hfalse
          nomatch hfalse
        · exact hno y hy hyp
    | false =>
      have hsucc : succeeds b := succeeds_iff.mpr ⟨hb.1, Or.inl hc⟩
      apply iff_of_true
      · exact ⟨runsLastBuild_of_undistributed hbs hsucc hc hlater hcompiled hrt (Or.inl rfl),
          runsLastBuild_of_undistributed hbs hsucc hc hlater hcompiled hrt (Or.inr rfl)⟩
      · exact Or.inr ⟨earlier, b, later, hbs, hsucc, hlater, Or.inl hc⟩

def widerHeads : Config := ⟨2, 64, 32, 64, 512, [0, 1], "a2a3"⟩

/-- The second build finds no plan: the forward then runs the first program on the second shape. -/
theorem rebuild_half_configured :
    (build widerHeads noPlan (builds [(twoRanks, allReturn)])).1 = .error .compile ∧
      ¬ (RunsLastBuild [(twoRanks, allReturn), (widerHeads, noPlan)] forward ∧
        RunsLastBuild [(twoRanks, allReturn), (widerHeads, noPlan)] backward) := by
  refine ⟨rfl, fun h => ?_⟩
  have hrun : (forward allReturn (builds [(twoRanks, allReturn), (widerHeads, noPlan)])).1 =
      .ok ⟨⟨.forward, twoRanks.used, true⟩, false, some widerHeads.used, some ⟨32, 64, 512⟩,
        none⟩ := rfl
  rcases h.1 allReturn with hfirst | ⟨-, hwhole⟩
  · nomatch hrun.symm.trans hfirst
  · have hconfig := (hwhole _ hrun).1
    revert hconfig
    decide

end Rebuild

end ZeCo.PyptoFailures
