import Mathlib.Data.Finset.Dedup
import Mathlib.Data.Finset.Lattice.Lemmas
import ZeCo.Raising
import ZeCo.ShapeCeiling

/-!
The sweep of the GLA benchmark over backends, directions and shapes. What `bench_one`, a file write
and a `close` do is given for each state of the world; any of them may raise.
-/

namespace ZeCo.BenchSweep

open Raising Text

/-- `caught` tells the instances of `Exception` from an interrupt or an exit. -/
structure Exn where
  text : Text
  caught : Bool

def drainCode : Text := lit "507018"

def isDrainTimeout (msg : Text) : Bool := drainCode <:+: msg

structure Config where
  P : ℤ
  L : ℤ
  C : ℤ
  D : ℤ
  deriving DecidableEq

inductive Direction
  | forward
  | backward
  deriving DecidableEq

structure Slot (ι : Type*) where
  impl : ι
  direction : Direction
  config : Config

def slots {ι : Type*} (impls : List ι) (directions : List Direction) (configs : List Config) :
    List (Slot ι) :=
  impls.flatMap fun impl => directions.flatMap fun direction => configs.map fun config =>
    ⟨impl, direction, config⟩

inductive File (ρ : Type*)
  | untouched
  | rows (rows : List ρ)
  | torn

inductive Event (ι ρ : Type*)
  | skipped (slot : Slot ι)
  | started (slot : Slot ι)
  | measured (row : ρ)
  | drained (slot : Slot ι)
  | closed (impl : ι)

/-- `log` is what an observer of the run sees; the code does not read it. -/
structure State (ω ι ρ : Type*) where
  world : ω
  suspect : Finset ℤ
  allRows : List ρ
  file : File ρ
  log : List (Event ι ρ)

structure Bench (ω ι ρ : Type*) where
  deviceIds : List ℤ
  noClean : Bool
  json : Bool
  benchOne : Slot ι → ω → Except Exn ρ × ω
  writeText : List ρ → ω → Except Exn Unit × ω
  closeImpl : ι → ω → Except Exn Unit × ω
  cleanRendezvous : ω → ω

section Events

variable {ι ρ : Type*}

def Event.row? : Event ι ρ → Option ρ
  | .measured row => some row
  | _ => none

def Event.slot? : Event ι ρ → Option (Slot ι)
  | .skipped slot | .started slot => some slot
  | _ => none

def Event.Quiet : Event ι ρ → Prop
  | .measured _ | .drained _ => False
  | _ => True

def attempted (slot : Slot ι) (row : Option ρ) (drained : Bool) : List (Event ι ρ) :=
  .started slot :: (row.toList.map .measured ++ if drained then [.drained slot] else [])

inductive Closed : List (Event ι ρ) → Prop
  | start : Closed []
  | skipped {log : List (Event ι ρ)} (h : Closed log) (slot : Slot ι) :
      Closed (log ++ [.skipped slot])
  | closed {log : List (Event ι ρ)} (h : Closed log) (slot : Slot ι) (row : Option ρ)
      (drained : Bool) : Closed (log ++ (attempted slot row drained ++ [.closed slot.impl]))

def File.Holds (json : Bool) (allRows : List ρ) : File ρ → Prop
  | .untouched => json = true → allRows = []
  | .rows written => json = true ∧ written = allRows
  | .torn => json = true

theorem File.Holds.unwritten {file : File ρ} {xs : List ρ} (h : file.Holds false xs)
    (ys : List ρ) : file.Holds false ys := by
  cases file with
  | untouched => exact nofun
  | rows _ => exact absurd h.1 nofun
  | torn => exact h

end Events

namespace Bench

variable {ω ι ρ : Type*} (b : Bench ω ι ρ)

def used (slot : Slot ι) : List ℤ :=
  let P := slot.config.P
  if 0 ≤ P then b.deviceIds.take P.toNat else b.deviceIds.take (b.deviceIds.length - P.natAbs)

def record (e : Event ι ρ) : Program Exn (State ω ι ρ) := apply fun s =>
  { s with log := s.log ++ [e] }

def clean : Program Exn (State ω ι ρ) := apply fun s =>
  if b.noClean then s else { s with world := b.cleanRendezvous s.world }

def write : Program Exn (State ω ι ρ) := fun s =>
  match b.writeText s.allRows s.world with
  | (.ok _, w) => (.ok (), { s with world := w, file := .rows s.allRows })
  | (.error e, w) => (.error e, { s with world := w, file := .torn })

def attempt (slot : Slot ι) : Program Exn (State ω ι ρ) := fun s =>
  match b.benchOne slot s.world with
  | (.error e, w) => (.error e, { s with world := w })
  | (.ok row, w) =>
    let s := { s with
      world := w
      allRows := s.allRows ++ [row]
      log := s.log ++ [.measured row] }
    if b.json then b.write s else (.ok (), s)

def markSuspect (slot : Slot ι) : Program Exn (State ω ι ρ) :=
  seq (apply fun s => { s with suspect := s.suspect ∪ (b.used slot).toFinset })
    (record (.drained slot))

def except (slot : Slot ι) (e : Exn) : Program Exn (State ω ι ρ) :=
  if !e.caught then raise e
  else if isShapeCeiling e.text then skip
  else if isDrainTimeout e.text then b.markSuspect slot
  else skip

def close (impl : ι) : Program Exn (State ω ι ρ) :=
  seq (record (.closed impl)) fun s =>
    let (x, w) := b.closeImpl impl s.world
    (x, { s with world := w })

def visit (slot : Slot ι) : Program Exn (State ω ι ρ) := fun s =>
  let wedged := s.suspect ∩ (b.used slot).toFinset
  if wedged.Nonempty then record (.skipped slot) s
  else
    seq b.clean (seq (record (.started slot))
      (ensure (handle (b.attempt slot) (b.except slot)) (seq (b.close slot.impl) b.clean))) s

def sweep (impls : List ι) (directions : List Direction) (configs : List Config) :
    Program Exn (State ω ι ρ) :=
  forEach (fun impl => forEach (fun direction => forEach (fun config =>
    b.visit ⟨impl, direction, config⟩) configs) directions) impls

def exit : Exn := ⟨[], false⟩

def main (impls : List ι) (directions : List Direction) (requested : List Config) :
    Program Exn (State ω ι ρ) :=
  let configs := requested.filter fun c => c.P ≤ (b.deviceIds.length : ℤ)
  if impls.isEmpty || configs.isEmpty then raise exit
  else
    seq b.clean (seq (b.sweep impls directions configs) (if b.json then b.write else skip))

def Meet (x y : Slot ι) : Prop := ∃ d, d ∈ b.used x ∧ d ∈ b.used y

def Proper (before : List (Event ι ρ)) : Event ι ρ → Prop
  | .skipped slot => ∃ x, .drained x ∈ before ∧ b.Meet x slot
  | .started slot => ∀ x, .drained x ∈ before → ¬ b.Meet x slot
  | _ => True

def Lawful (log : List (Event ι ρ)) : Prop :=
  ∀ before e after, log = before ++ e :: after → b.Proper before e

structure Sound (s : State ω ι ρ) : Prop where
  lawful : b.Lawful s.log
  suspect : ∀ d, d ∈ s.suspect ↔ ∃ x, .drained x ∈ s.log ∧ d ∈ b.used x
  rows : s.allRows = s.log.filterMap Event.row?
  file : s.file.Holds b.json s.allRows

theorem Lawful.snoc {log : List (Event ι ρ)} (h : b.Lawful log) {e : Event ι ρ}
    (he : b.Proper log e) : b.Lawful (log ++ [e]) := by
  intro before x after hlog
  rcases after.eq_nil_or_concat with rfl | ⟨after, y, rfl⟩
  · obtain ⟨rfl, hx⟩ := List.append_inj' hlog rfl
    obtain rfl := List.head_eq_of_cons_eq hx
    exact he
  · rw [List.concat_eq_append, ← List.cons_append, ← List.append_assoc] at hlog
    exact h before x after (List.append_inj' hlog rfl).1

variable {b} {s : State ω ι ρ} {slot : Slot ι}

theorem Sound.quiet (h : b.Sound s) {e : Event ι ρ} (hq : e.Quiet) (he : b.Proper s.log e) :
    b.Sound { s with log := s.log ++ [e] } := by
  refine ⟨h.lawful.snoc _ he, fun d => ?_, ?_, h.file⟩
  · rw [h.suspect]
    cases e <;> simp_all [Event.Quiet]
  · rw [h.rows, List.filterMap_append]
    cases e <;> simp_all [Event.Quiet, Event.row?]

theorem Sound.drained (h : b.Sound s) (slot : Slot ι) : b.Sound { s with
    suspect := s.suspect ∪ (b.used slot).toFinset
    log := s.log ++ [.drained slot] } := by
  refine ⟨h.lawful.snoc _ trivial, fun d => ?_, ?_, h.file⟩
  · simp only [Finset.mem_union, List.mem_toFinset, h.suspect, List.mem_append, List.mem_singleton,
      Event.drained.injEq, or_and_right, exists_or, exists_eq_left]
  · rw [h.rows, List.filterMap_append]
    exact (List.append_nil _).symm

theorem Sound.measured (h : b.Sound s) (row : ρ) {file : File ρ} {w : ω}
    (hfile : file.Holds b.json (s.allRows ++ [row])) :
    b.Sound (⟨w, s.suspect, s.allRows ++ [row], file, s.log ++ [.measured row]⟩ : State ω ι ρ) := by
  refine ⟨h.lawful.snoc _ trivial, fun d => ?_, ?_, hfile⟩
  · rw [h.suspect]
    simp
  · rw [h.rows, List.filterMap_append]
    rfl

theorem Sound.wedged (h : b.Sound s) : (s.suspect ∩ (b.used slot).toFinset).Nonempty ↔
    ∃ x, .drained x ∈ s.log ∧ b.Meet x slot := by
  simp only [Finset.Nonempty, Finset.mem_inter, List.mem_toFinset, h.suspect, Meet]
  constructor
  · rintro ⟨d, ⟨x, hx, hd⟩, hslot⟩
    exact ⟨x, hx, d, hd, hslot⟩
  · rintro ⟨x, hx, d, hd, hslot⟩
    exact ⟨d, ⟨x, hx, hd⟩, hslot⟩

theorem Sound.world (h : b.Sound s) (w : ω) : b.Sound { s with world := w } :=
  ⟨h.lawful, h.suspect, h.rows, h.file⟩

variable (b) in
structure Between (done : List (Slot ι)) (s : State ω ι ρ) : Prop where
  sound : b.Sound s
  closed : Closed s.log
  slots : s.log.filterMap Event.slot? = done

variable (b) in
structure Inside (before : List (Event ι ρ)) (slot : Slot ι) (row : Option ρ) (drained : Bool)
    (s : State ω ι ρ) : Prop where
  sound : b.Sound s
  log : s.log = before ++ attempted slot row drained

theorem clean_triple {I E : State ω ι ρ → Prop} (h : ∀ s w, I s → I { s with world := w }) :
    Triple I b.clean I E := by
  apply Triple.apply
  intro s hs
  split
  · exact hs
  · exact h s _ hs

theorem attempt_inside {before : List (Event ι ρ)} (h : b.Inside before slot none false s) :
    ∃ row, b.Inside before slot row false (b.attempt slot s).2 := by
  unfold attempt
  cases b.benchOne slot s.world with
  | mk x w =>
    cases x with
    | error e => exact ⟨none, h.sound.world w, h.log⟩
    | ok row =>
      have hlog : s.log ++ [.measured row] = before ++ attempted slot (some row) false := by
        rw [h.log, List.append_assoc]
        rfl
      cases hjson : b.json with
      | false =>
        have hfile := h.sound.file
        rw [hjson] at hfile
        exact ⟨some row, h.sound.measured row (hjson ▸ hfile.unwritten _), hlog⟩
      | true =>
        simp only [if_true, write]
        cases b.writeText (s.allRows ++ [row]) w with
        | mk y v =>
          cases y with
          | ok u =>
            exact ⟨some row, h.sound.measured row ⟨hjson, rfl⟩, hlog⟩
          | error e => exact ⟨some row, h.sound.measured row hjson, hlog⟩

theorem except_triple (before : List (Event ι ρ)) (slot : Slot ι) (e : Exn) :
    Triple (fun s => ∃ row, b.Inside before slot row false s) (b.except slot e)
      (fun s => ∃ row drained, b.Inside before slot row drained s)
      (fun s => ∃ row drained, b.Inside before slot row drained s) := by
  unfold except
  split
  · exact Triple.raise fun s ⟨row, h⟩ => ⟨row, false, h⟩
  · split
    · exact fun s ⟨row, h⟩ => ⟨row, false, h⟩
    · split
      · rintro s ⟨row, h⟩
        refine ⟨row, true, h.sound.drained slot, ?_⟩
        change s.log ++ [.drained slot] = _
        rw [h.log, List.append_assoc]
        simp [attempted]
      · exact fun s ⟨row, h⟩ => ⟨row, false, h⟩

variable (b) in
theorem release_triple {before : List (Event ι ρ)} {done : List (Slot ι)}
    (hclosed : Closed before) (hslots : before.filterMap Event.slot? = done) (slot : Slot ι) :
    Triple (fun s => ∃ row drained, b.Inside before slot row drained s)
      (seq (b.close slot.impl) b.clean) (b.Between (done ++ [slot]))
      (b.Between (done ++ [slot])) := by
  apply Triple.seq (Q := b.Between (done ++ [slot]))
  · apply Triple.of_final
    rintro s ⟨row, drained, h⟩
    have hlog : s.log ++ [.closed slot.impl] =
        before ++ (attempted slot row drained ++ [.closed slot.impl]) := by
      rw [h.log, List.append_assoc]
    have hquiet : (Event.closed slot.impl : Event ι ρ).Quiet := trivial
    refine ⟨(h.sound.quiet hquiet trivial).world _, ?_, ?_⟩
    · change Closed (s.log ++ [Event.closed slot.impl])
      rw [hlog]
      exact hclosed.closed slot row drained
    · change (s.log ++ [Event.closed slot.impl]).filterMap Event.slot? = _
      rw [hlog, List.filterMap_append, hslots]
      cases row <;> cases drained <;> rfl
  · exact clean_triple fun s w h => ⟨h.sound.world w, h.closed, h.slots⟩

theorem visit_triple (done : List (Slot ι)) (slot : Slot ι) :
    Triple (b.Between done) (b.visit slot) (b.Between (done ++ [slot]))
      (b.Between (done ++ [slot])) := by
  intro s h
  unfold visit
  dsimp only
  split_ifs with hwedged
  · have hskip := h.sound.wedged.mp hwedged
    have hquiet : (Event.skipped slot : Event ι ρ).Quiet := trivial
    refine ⟨h.sound.quiet hquiet hskip, h.closed.skipped slot, ?_⟩
    change (s.log ++ [Event.skipped slot]).filterMap Event.slot? = _
    rw [List.filterMap_append, h.slots]
    rfl
  · have hfree : b.Proper s.log (.started slot) := by
      intro x hx hmeet
      exact hwedged (h.sound.wedged.mpr ⟨x, hx, hmeet⟩)
    have hrest : Triple (fun t => b.Between done t ∧ t.log = s.log)
        (seq b.clean (seq (record (.started slot))
          (ensure (handle (b.attempt slot) (b.except slot)) (seq (b.close slot.impl) b.clean))))
        (b.Between (done ++ [slot])) (b.Between (done ++ [slot])) := by
      apply Triple.seq
      · exact clean_triple fun t w ht => ⟨⟨ht.1.sound.world w, ht.1.closed, ht.1.slots⟩, ht.2⟩
      · apply Triple.seq (Q := b.Inside s.log slot none false)
        · rintro t ⟨ht, hlog⟩
          have hquiet : (Event.started slot : Event ι ρ).Quiet := trivial
          refine ⟨ht.sound.quiet hquiet (hlog ▸ hfree), ?_⟩
          change t.log ++ [Event.started slot] = _
          rw [hlog]
          rfl
        · have hrelease := b.release_triple h.closed h.slots slot
          apply Triple.ensure _ hrelease hrelease
          exact Triple.handle (Triple.weaken (Triple.of_final fun t => attempt_inside)
            (fun _ ht => ht) (fun t ⟨row, ht⟩ => ⟨row, false, ht⟩) fun _ ht => ht)
            (except_triple s.log slot)
    exact hrest s ⟨h, rfl⟩

variable (b) in
theorem sweep_eq (impls : List ι) (directions : List Direction) (configs : List Config) :
    b.sweep impls directions configs = forEach b.visit (slots impls directions configs) := by
  simp only [slots, forEach_flatMap, forEach_map]
  rfl

variable (b) in
theorem sweep_triple (impls : List ι) (directions : List Direction) (configs : List Config) :
    Triple (b.Between []) (b.sweep impls directions configs)
      (b.Between (slots impls directions configs))
      (fun s => ∃ done, done <+: slots impls directions configs ∧ b.Between done s) := by
  rw [sweep_eq]
  apply Triple.forEach_done
  intro done slot hdone
  exact Triple.weaken (visit_triple done slot) (fun _ h => h) (fun _ h => h)
    fun s h => ⟨done ++ [slot], hdone, h⟩

theorem write_triple {done : List (Slot ι)} (hjson : b.json = true) :
    Triple (b.Between done) b.write (fun s => b.Between done s ∧ s.file = .rows s.allRows)
      (b.Between done) := by
  intro s h
  unfold write
  cases b.writeText s.allRows s.world with
  | mk x w =>
    cases x with
    | ok u =>
      have hsound : b.Sound { s with world := w, file := .rows s.allRows } :=
        ⟨h.sound.lawful, h.sound.suspect, h.sound.rows, hjson, rfl⟩
      exact ⟨⟨hsound, h.closed, h.slots⟩, rfl⟩
    | error e =>
      have hsound : b.Sound { s with world := w, file := .torn } :=
        ⟨h.sound.lawful, h.sound.suspect, h.sound.rows, hjson⟩
      exact ⟨hsound, h.closed, h.slots⟩

variable (b) in
structure Swept (all : List (Slot ι)) (returned : Bool) (s : State ω ι ρ) : Prop where
  lawful : b.Lawful s.log
  closed : Closed s.log
  rows : s.allRows = s.log.filterMap Event.row?
  file : s.file.Holds b.json s.allRows
  slots : s.log.filterMap Event.slot? <+: all
  complete : returned = true → s.log.filterMap Event.slot? = all ∧
    (b.json = true → s.file = .rows s.allRows)

theorem Between.escaped {all done : List (Slot ι)} (h : b.Between done s) (hdone : done <+: all) :
    b.Swept all false s :=
  ⟨h.sound.lawful, h.closed, h.sound.rows, h.sound.file, h.slots ▸ hdone, nofun⟩

theorem Between.returned {all : List (Slot ι)} (h : b.Between all s)
    (hfile : b.json = true → s.file = .rows s.allRows) : b.Swept all true s :=
  ⟨h.sound.lawful, h.closed, h.sound.rows, h.sound.file, h.slots ▸ List.prefix_rfl,
    fun _ => ⟨h.slots, hfile⟩⟩

end Bench

def State.start {ω ι ρ : Type*} (world : ω) : State ω ι ρ := ⟨world, ∅, [], .untouched, []⟩

end ZeCo.BenchSweep
