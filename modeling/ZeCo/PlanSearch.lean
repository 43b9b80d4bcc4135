import Mathlib.Logic.Function.Basic
import ZeCo.BlockingPlans

/-!
The search for the cheapest blocking that fits. `Search` holds what `compile_blocked` keeps between
attempts, and `calls` the plans it has called `build_one` with. `verdict` is what one compile of a
plan comes to.
-/

namespace ZeCo

open List Text

structure CppFile where
  name : Text
  lines : List Text

structure Compiled (Prog : Type*) where
  program : Prog
  outputDir : Option (List CppFile)

/-- The line before a vector tile, or the last one when the tile stands on the first line. -/
def lineBefore (src : List Text) (i : ℕ) : Text :=
  src.getD (if i = 0 then src.length - 1 else i - 1) []

def cubeSideVectorOps (outputDir : Option (List CppFile)) : List Text :=
  (outputDir.getD []).flatMap fun cpp =>
    let src := cpp.lines
    match src.findIdx? fun l => lit "__DAV_CUBE__" <:+: l,
      src.findIdx? fun l => lit "#endif // __DAV_CUBE__" <:+: l with
    | some s, some e =>
      ((range' s (e - s)).filter fun i => lit "TileType::Vec" <:+: src.getD i []).map fun i =>
        let op := strip ((strip (lineBefore src i)).drop 9)
        cpp.name ++ lit ":" ++ if op = [] then lit "vec tile" else op
    | _, _ => []

inductive Kind
  | buffer
  | placement
  deriving DecidableEq, Repr

structure Builder (Exn Prog : Type*) where
  str : Exn → Text
  buildOne : Plan → Except Exn (Compiled Prog)

inductive Verdict (Exn Prog : Type*)
  | fits (compiled : Compiled Prog)
  | rejected (kind : Kind) (detail : Text)
  | raised (exc : Exn)

inductive Kernel
  | kernel
  | fusedForward
  | fusedBackward
  deriving DecidableEq, Repr

def Kernel.text : Kernel → Text
  | .kernel => lit "kernel"
  | .fusedForward => lit "fused forward"
  | .fusedBackward => lit "fused backward"

inductive Failure (Exn : Type*)
  | noLegalBlocking
  | valueError (msg : Text)
  | raised (exc : Exn)

structure Search (Prog : Type*) where
  tried : List (Plan × Text)
  seen : Plan → Option (Option (Compiled Prog))
  why : Plan → Option Kind
  calls : List Plan

def overflows (msg : Text) : Prop :=
  lit "buffer usage" <:+: msg ∧ lit "exceeds platform limit" <:+: msg

instance (msg : Text) : Decidable (overflows msg) := inferInstanceAs (Decidable (_ ∧ _))

variable {Exn Prog : Type*}

namespace Builder

variable (b : Builder Exn Prog)

def verdict (p : Plan) : Verdict Exn Prog :=
  match b.buildOne p with
  | .error exc =>
    if overflows (b.str exc) then .rejected .buffer (strip (before (lit "exceeds") (b.str exc)))
    else .raised exc
  | .ok compiled =>
    match cubeSideVectorOps compiled.outputDir with
    | [] => .fits compiled
    | bad :: _ => .rejected .placement (lit "vector work on the cube core (" ++ bad ++ lit ")")

theorem verdict_overflow {p : Plan} {exc : Exn} (h : b.buildOne p = .error exc)
    (ho : overflows (b.str exc)) :
    b.verdict p = .rejected .buffer (strip (before (lit "exceeds") (b.str exc))) := by
  simp only [verdict, h, if_pos ho]

theorem verdict_placement {p : Plan} {compiled : Compiled Prog} {bad : Text} {ops : List Text}
    (h : b.buildOne p = .ok compiled) (hops : cubeSideVectorOps compiled.outputDir = bad :: ops) :
    b.verdict p =
      .rejected .placement (lit "vector work on the cube core (" ++ bad ++ lit ")") := by
  simp only [verdict, h, hops]

theorem verdict_fits {p : Plan} {compiled : Compiled Prog} (h : b.buildOne p = .ok compiled)
    (hops : cubeSideVectorOps compiled.outputDir = []) : b.verdict p = .fits compiled := by
  simp only [verdict, h, hops]

def attempt (key : Plan) (s : Search Prog) : Except Exn (Option (Compiled Prog)) × Search Prog :=
  match s.seen key with
  | some compiled => (.ok compiled, s)
  | none =>
    let s := { s with calls := s.calls ++ [key] }
    match b.verdict key with
    | .raised exc => (.error exc, s)
    | .rejected kind detail =>
      (.ok none, { s with
        tried := s.tried ++ [(key, detail)]
        why := Function.update s.why key (some kind)
        seen := Function.update s.seen key (some none) })
    | .fits compiled =>
      (.ok (some compiled), { s with seen := Function.update s.seen key (some (some compiled)) })

abbrev Found (Exn Prog : Type*) := Except Exn (Option (Compiled Prog × Plan)) × Search Prog

def walk : List Plan → Search Prog → Found Exn Prog
  | [], s => (.ok none, s)
  | p :: ps, s =>
    match b.attempt p s with
    | (.error exc, s) => (.error exc, s)
    | (.ok (some compiled), s) => (.ok (some (compiled, p)), s)
    | (.ok none, s) => walk ps s

def searchGroup (group : List Plan) (s : Search Prog) : Found Exn Prog :=
  match group with
  | [] => (.ok none, s)
  | head :: rest =>
    match b.attempt head s with
    | (.error exc, s) => (.error exc, s)
    | (.ok (some compiled), s) => (.ok (some (compiled, head)), s)
    | (.ok none, s) =>
      let floor := floorOf group head
      match b.attempt floor s with
      | (.error exc, s) => (.error exc, s)
      | (.ok (some _), s) => b.walk rest s
      | (.ok none, s) => if s.why floor = some .buffer then (.ok none, s) else b.walk rest s

def searchGroups : List (List Plan) → Search Prog → Found Exn Prog
  | [], s => (.ok none, s)
  | group :: groups, s =>
    match b.searchGroup group s with
    | (.ok none, s) => searchGroups groups s
    | found => found

end Builder

def planText (p : Plan) : Text :=
  lit "head_blocks=" ++ ofNat p.headBlocks ++ lit " value_blocks=" ++ ofNat p.valueBlocks ++
    lit " ring_depth=" ++ ofNat p.ringDepth ++ lit " ring_blocks=" ++ ofNat p.ringBlocks ++
    lit " key_row_blocks=" ++ ofNat p.keyRowBlocks

def noPlanFits (what : Kernel) (C dk dv : ℕ) (tried : List (Plan × Text)) : Text :=
  let detail := join (lit "\n  ") (tried.map fun t => planText t.1 ++ lit ": " ++ t.2)
  lit "no blocking plan fits the " ++ what.text ++ lit " at C=" ++ ofNat C ++
    lit " dk=" ++ ofNat dk ++ lit " dv=" ++ ofNat dv ++ lit "; tried:\n  " ++ detail

def Search.init : Search Prog :=
  { tried := [], seen := fun _ => none, why := fun _ => none, calls := [] }

def compileBlocked (b : Builder Exn Prog) (C dk dv : ℕ) (distributed : Bool)
    (plans : Option (List Plan)) (what : Kernel) :
    Except (Failure Exn) (Compiled Prog × Plan) × Search Prog :=
  let plans := plans.getD (blockingPlans C dk dv distributed)
  if plans = [] then (.error .noLegalBlocking, Search.init)
  else
    match b.searchGroups (groupsOf plans) Search.init with
    | (.ok (some found), s) => (.ok found, s)
    | (.ok none, s) => (.error (.valueError (noPlanFits what C dk dv s.tried)), s)
    | (.error exc, s) => (.error (.raised exc), s)

namespace Verdict

def memo : Verdict Exn Prog → Option (Option (Compiled Prog))
  | fits compiled => some (some compiled)
  | rejected _ _ => some none
  | raised _ => none

def outcome : Verdict Exn Prog → Except Exn (Option (Compiled Prog))
  | fits compiled => .ok (some compiled)
  | rejected _ _ => .ok none
  | raised exc => .error exc

def kind? : Verdict Exn Prog → Option Kind
  | fits _ => none
  | rejected kind _ => some kind
  | raised _ => none

def detail? : Verdict Exn Prog → Option Text
  | fits _ => none
  | rejected _ detail => some detail
  | raised _ => none

def compiled? : Verdict Exn Prog → Option (Compiled Prog)
  | fits compiled => some compiled
  | rejected _ _ => none
  | raised _ => none

theorem compiled?_of_kind? {v : Verdict Exn Prog} {kind : Kind} (h : v.kind? = some kind) :
    v.compiled? = none := by
  cases v with
  | fits compiled => nomatch h
  | rejected kind detail => rfl
  | raised exc => rfl

end Verdict

section Memo

variable (b : Builder Exn Prog)

structure Memo (s : Search Prog) : Prop where
  nodup : s.calls.Nodup
  seen : ∀ p, s.seen p = if p ∈ s.calls then (b.verdict p).memo else none
  why : ∀ p, s.why p = if p ∈ s.calls then (b.verdict p).kind? else none
  tried : s.tried = s.calls.filterMap fun p => (b.verdict p).detail?.map (p, ·)

/-- `result` is what the search may report in the state `s`: an error that a compile has raised is
the result. -/
structure Reports {α : Type*} (result : Except Exn α) (s : Search Prog) : Prop where
  memo : Memo b s
  raised : ∀ p ∈ s.calls, ∀ exc, b.verdict p = .raised exc → result = .error exc

variable {b} {α β : Type*} {s : Search Prog} {p : Plan}

theorem Memo.init : Memo b Search.init where
  nodup := nodup_nil
  seen := fun _ => rfl
  why := fun _ => rfl
  tried := rfl

theorem Reports.init (x : α) : Reports b (.ok x) Search.init :=
  ⟨Memo.init, fun _ hp => absurd hp not_mem_nil⟩

theorem Reports.not_raised {x : α} (h : Reports b (.ok x) s) (hp : p ∈ s.calls) (exc : Exn) :
    b.verdict p ≠ .raised exc := fun hv => nomatch h.raised p hp exc hv

theorem Reports.ok {x : α} (h : Reports b (.ok x) s) (y : β) : Reports b (.ok y) s :=
  ⟨h.memo, fun _ hp exc hv => absurd hv (h.not_raised hp exc)⟩

theorem Reports.error {exc : Exn} (h : Reports b (.error exc : Except Exn α) s) :
    Reports b (.error exc : Except Exn β) s :=
  ⟨h.memo, fun p hp e hv => by
    have := h.raised p hp e hv
    simp only [Except.error.injEq] at this ⊢
    exact this⟩

def afterCompile (b : Builder Exn Prog) (p : Plan) (s : Search Prog) : Search Prog :=
  { tried := s.tried ++ ((b.verdict p).detail?.map (p, ·)).toList
    seen := Function.update s.seen p (b.verdict p).memo
    why := Function.update s.why p (b.verdict p).kind?
    calls := s.calls ++ [p] }

theorem Memo.afterCompile (h : Memo b s) (hp : p ∉ s.calls) : Memo b (afterCompile b p s) where
  nodup := h.nodup.append (nodup_singleton p) (by simpa using hp)
  seen q := by
    simp only [ZeCo.afterCompile, Function.update_apply, h.seen]
    by_cases hq : q = p <;> simp [hq]
  why q := by
    simp only [ZeCo.afterCompile, Function.update_apply, h.why]
    by_cases hq : q = p <;> simp [hq]
  tried := by
    simp only [ZeCo.afterCompile, h.tried, filterMap_append]
    cases hd : (b.verdict p).detail? <;> simp [hd]

theorem attempt_new (h : Memo b s) (hp : p ∉ s.calls) :
    b.attempt p s = ((b.verdict p).outcome, afterCompile b p s) := by
  have hseen : s.seen p = none := by rw [h.seen, if_neg hp]
  have hwhy : s.why p = none := by rw [h.why, if_neg hp]
  -- what a verdict does not write, it leaves at `none`
  have hkeep : Function.update s.seen p none = s.seen := by rw [← hseen, Function.update_eq_self]
  have hkeep' : Function.update s.why p none = s.why := by rw [← hwhy, Function.update_eq_self]
  cases hv : b.verdict p with
  | fits compiled =>
    simp [Builder.attempt, hseen, hv, afterCompile, Verdict.outcome, Verdict.detail?, Verdict.memo,
      Verdict.kind?, hkeep']
  | rejected kind detail =>
    simp [Builder.attempt, hseen, hv, afterCompile, Verdict.outcome, Verdict.detail?, Verdict.memo,
      Verdict.kind?]
  | raised exc =>
    simp [Builder.attempt, hseen, hv, afterCompile, Verdict.outcome, Verdict.detail?, Verdict.memo,
      Verdict.kind?, hkeep, hkeep']

theorem attempt_seen (h : Reports b (.ok ()) s) (hp : p ∈ s.calls) :
    b.attempt p s = ((b.verdict p).outcome, s) ∧ Reports b (b.verdict p).outcome s := by
  have hseen : s.seen p = (b.verdict p).memo := by rw [h.memo.seen, if_pos hp]
  cases hv : b.verdict p with
  | fits compiled =>
    rw [hv] at hseen
    simp only [Builder.attempt, hseen, Verdict.memo, Verdict.outcome]
    exact ⟨trivial, h.ok _⟩
  | rejected kind detail =>
    rw [hv] at hseen
    simp only [Builder.attempt, hseen, Verdict.memo, Verdict.outcome]
    exact ⟨trivial, h.ok _⟩
  | raised exc => exact absurd hv (h.not_raised hp exc)

theorem attempt_spec (h : Reports b (.ok ()) s) (p : Plan) :
    ∃ s', b.attempt p s = ((b.verdict p).outcome, s') ∧ Reports b (b.verdict p).outcome s' ∧
      ∀ q, q ∈ s'.calls ↔ q ∈ s.calls ∨ q = p := by
  by_cases hp : p ∈ s.calls
  · obtain ⟨hs, hr⟩ := attempt_seen h hp
    refine ⟨s, hs, hr, fun q => ⟨Or.inl, ?_⟩⟩
    rintro (hq | rfl)
    · exact hq
    · exact hp
  · have hcalls (q : Plan) : q ∈ (afterCompile b p s).calls ↔ q ∈ s.calls ∨ q = p := by
      simp [afterCompile]
    refine ⟨_, attempt_new h.memo hp, ⟨h.memo.afterCompile hp, fun q hq exc hv => ?_⟩, hcalls⟩
    rcases (hcalls q).mp hq with hq | rfl
    · exact absurd hv (h.not_raised hq exc)
    · rw [hv, Verdict.outcome]

variable (b) in
def exhaustive (plans : List Plan) : Option (Compiled Prog × Plan) :=
  plans.findSome? fun p => (b.verdict p).compiled?.map (·, p)

theorem exhaustive_fits {ps : List Plan} {compiled : Compiled Prog}
    (hv : b.verdict p = .fits compiled) : exhaustive b (p :: ps) = some (compiled, p) := by
  simp [exhaustive, hv, Verdict.compiled?]

theorem exhaustive_rejected {ps : List Plan} {kind : Kind} {detail : Text}
    (hv : b.verdict p = .rejected kind detail) : exhaustive b (p :: ps) = exhaustive b ps := by
  simp [exhaustive, hv, Verdict.compiled?]

variable (b) in
def RaisesNone (plans : List Plan) : Prop := ∀ p ∈ plans, ∀ exc, b.verdict p ≠ .raised exc

variable (b) in
def RejectsAll (plans : List Plan) : Prop :=
  ∀ p ∈ plans, ∃ kind detail, b.verdict p = .rejected kind detail

theorem RejectsAll.not_fits {plans : List Plan} (h : RejectsAll b plans) (hp : p ∈ plans)
    {compiled : Compiled Prog} : b.verdict p ≠ .fits compiled := by
  intro hv
  obtain ⟨kind, detail, hv'⟩ := h p hp
  cases hv.symm.trans hv'

theorem RejectsAll.not_raised {plans : List Plan} (h : RejectsAll b plans) (hp : p ∈ plans)
    {exc : Exn} : b.verdict p ≠ .raised exc := by
  intro hv
  obtain ⟨kind, detail, hv'⟩ := h p hp
  cases hv.symm.trans hv'

/-- What a stretch of the search owes: it reports what it met, it returns the first of `plans` that
fits when they are `regular`, and it compiles `attempts` when they are all rejected. -/
structure Searches (s : Search Prog) (regular : Prop) (plans attempts : List Plan)
    (found : Builder.Found Exn Prog) : Prop where
  reports : Reports b found.1 found.2
  result : regular → found.1 = .ok (exhaustive b plans)
  calls : RejectsAll b attempts → found.1 = .ok none ∧
    ∀ q, q ∈ found.2.calls ↔ q ∈ s.calls ∨ q ∈ attempts

theorem walk_spec (ps : List Plan) (h : Reports b (.ok ()) s) :
    Searches (b := b) s (RaisesNone b ps) ps ps (b.walk ps s) := by
  induction ps generalizing s with
  | nil => exact ⟨h.ok _, fun _ => rfl, fun _ => ⟨rfl, by simp [Builder.walk]⟩⟩
  | cons p ps ih =>
    obtain ⟨s', hs, hr, hcalls⟩ := attempt_spec h p
    rw [Builder.walk, hs]
    cases hv : b.verdict p with
    | fits compiled =>
      rw [hv] at hr
      refine ⟨hr.ok _, fun _ => ?_, fun hall => ?_⟩
      · rw [exhaustive_fits hv]
        rfl
      · exact absurd hv (hall.not_fits mem_cons_self)
    | raised exc =>
      rw [hv] at hr
      refine ⟨hr.error, fun hno => ?_, fun hall => ?_⟩
      · exact absurd hv (hno p mem_cons_self exc)
      · exact absurd hv (hall.not_raised mem_cons_self)
    | rejected kind detail =>
      rw [hv] at hr
      have hrest := ih (hr.ok ())
      refine ⟨hrest.reports, fun hno => ?_, fun hall => ?_⟩
      · rw [exhaustive_rejected hv]
        exact hrest.result fun q hq => hno q (mem_cons_of_mem _ hq)
      · obtain ⟨hnone, hc⟩ := hrest.calls fun q hq => hall q (mem_cons_of_mem _ hq)
        refine ⟨hnone, fun q => ?_⟩
        apply (hc q).trans
        rw [hcalls, mem_cons, or_assoc]

variable (b) in
def groupAttempts : List Plan → List Plan
  | [] => []
  | head :: rest => head :: floorOf (head :: rest) head ::
      if (b.verdict (floorOf (head :: rest) head)).kind? = some .buffer then [] else rest

def attempts (b : Builder Exn Prog) (plans : List Plan) : List Plan :=
  (groupsOf plans).flatMap (groupAttempts b)

variable (b) in
/-- Within one group a plan that does not overflow still does not when its head blocking grows and
its ring depth shrinks. -/
def Monotone (plans : List Plan) : Prop :=
  ∀ p ∈ plans, ∀ q ∈ plans, p.key = q.key → p.headBlocks ≤ q.headBlocks →
    q.ringDepth ≤ p.ringDepth → (b.verdict p).kind? ≠ some .buffer →
    (b.verdict q).kind? ≠ some .buffer

variable (b) in
structure Regular (group : List Plan) : Prop where
  raisesNone : RaisesNone b group
  monotone : Monotone b group
  floor : ∀ head ∈ group, floorOf group head ∈ group

theorem Regular.overflows {group : List Plan} {head : Plan} (h : Regular b group)
    (hkey : ∀ p ∈ group, p.key = head.key) (hh : head ∈ group)
    (hfloor : (b.verdict (floorOf group head)).kind? = some .buffer) :
    exhaustive b group = none := by
  apply findSome?_eq_none_iff.mpr
  intro p hp
  obtain ⟨-, -, hbound⟩ := floorOf_spec hh
  obtain ⟨hnb, hslot⟩ := hbound p hp
  have hp' : (b.verdict p).kind? = some .buffer := by
    by_contra hne
    exact h.monotone p hp _ (h.floor head hh) (hkey p hp) hnb hslot hne hfloor
  rw [Verdict.compiled?_of_kind? hp', Option.map_none]

def Builder.probed (b : Builder Exn Prog) (rest : List Plan) (s : Search Prog) :
    Verdict Exn Prog → Found Exn Prog
  | .fits _ | .rejected .placement _ => b.walk rest s
  | .rejected .buffer _ => (.ok none, s)
  | .raised exc => (.error exc, s)

section Probe

variable {head : Plan} {rest : List Plan} {kind : Kind} {detail : Text}
  (hv : b.verdict head = .rejected kind detail)
include hv

theorem searchGroup_probed (h : Reports b (.ok ()) s) :
    let floor := floorOf (head :: rest) head
    ∃ s', Reports b (b.verdict floor).outcome s' ∧
      (∀ q, q ∈ s'.calls ↔ q ∈ s.calls ∨ q = head ∨ q = floor) ∧
      b.searchGroup (head :: rest) s = b.probed rest s' (b.verdict floor) := by
  intro floor
  obtain ⟨s₁, hs₁, hr₁, hcalls₁⟩ := attempt_spec h head
  rw [hv] at hs₁ hr₁
  obtain ⟨s', hs', hr', hcalls'⟩ := attempt_spec (hr₁.ok ()) floor
  have hcalls (q : Plan) : q ∈ s'.calls ↔ q ∈ s.calls ∨ q = head ∨ q = floor := by
    rw [hcalls', hcalls₁, or_assoc]
  refine ⟨s', hr', hcalls, ?_⟩
  rw [Builder.searchGroup, hs₁]
  simp only [Verdict.outcome, floor, hs']
  cases hf : b.verdict (floorOf (head :: rest) head) with
  | fits compiled => rfl
  | raised exc => rfl
  | rejected kind' detail' =>
    have hwhy : s'.why (floorOf (head :: rest) head) = some kind' := by
      rw [hr'.memo.why, if_pos ((hcalls floor).mpr (Or.inr (Or.inr rfl))), hf]
      rfl
    simp only [hwhy]
    cases kind' with
    | buffer => rfl
    | placement => rfl

theorem probed_spec (hkey : ∀ p ∈ head :: rest, ∀ q ∈ head :: rest, p.key = q.key)
    {s' : Search Prog} (hr : Reports b (b.verdict (floorOf (head :: rest) head)).outcome s')
    (hcalls : ∀ q, q ∈ s'.calls ↔ q ∈ s.calls ∨ q = head ∨ q = floorOf (head :: rest) head) :
    Searches (b := b) s (Regular b (head :: rest)) (head :: rest) (groupAttempts b (head :: rest))
      (b.probed rest s' (b.verdict (floorOf (head :: rest) head))) := by
  set floor := floorOf (head :: rest) head with hfloor
  have hh : head ∈ head :: rest := mem_cons_self
  have hwalked (hreg : Regular b (head :: rest)) {found : Builder.Found Exn Prog}
      (hfound : RaisesNone b rest → found.1 = .ok (exhaustive b rest)) :
      found.1 = .ok (exhaustive b (head :: rest)) := by
    rw [exhaustive_rejected hv]
    exact hfound fun q hq => hreg.raisesNone q (mem_cons_of_mem _ hq)
  have hfloor' : floor ∈ groupAttempts b (head :: rest) := by simp [groupAttempts, hfloor]
  cases hf : b.verdict floor with
  | raised exc =>
    rw [hf] at hr
    refine ⟨hr.error, fun hreg => ?_, fun hall => ?_⟩
    · exact absurd hf (hreg.raisesNone _ (hreg.floor head hh) exc)
    · exact absurd hf (hall.not_raised hfloor')
  | fits compiled =>
    rw [hf] at hr
    have hw := walk_spec rest (hr.ok ())
    exact ⟨hw.reports, fun hreg => hwalked hreg hw.result,
      fun hall => absurd hf (hall.not_fits hfloor')⟩
  | rejected kind' detail' =>
    rw [hf] at hr
    cases kind' with
    | buffer =>
      have hgroup : groupAttempts b (head :: rest) = [head, floor] := by
        simp [groupAttempts, ← hfloor, hf, Verdict.kind?]
      refine ⟨hr.ok _, fun hreg => ?_, fun _ => ⟨rfl, fun q => ?_⟩⟩
      · rw [hreg.overflows (fun p hp => hkey p hp head hh) hh (by rw [← hfloor, hf]; rfl)]
        rfl
      · rw [hgroup, mem_cons, mem_singleton]
        exact hcalls q
    | placement =>
      have hgroup : groupAttempts b (head :: rest) = head :: floor :: rest := by
        simp [groupAttempts, ← hfloor, hf, Verdict.kind?]
      have hw := walk_spec rest (hr.ok ())
      refine ⟨hw.reports, fun hreg => hwalked hreg hw.result, fun hall => ?_⟩
      rw [hgroup] at hall ⊢
      obtain ⟨hnone, hc⟩ := hw.calls fun q hq =>
        hall q (mem_cons_of_mem _ (mem_cons_of_mem _ hq))
      refine ⟨hnone, fun q => (hc q).trans ?_⟩
      rw [hcalls, mem_cons, mem_cons, or_assoc, or_assoc]

end Probe

theorem searchGroup_spec (group : List Plan) (hkey : ∀ p ∈ group, ∀ q ∈ group, p.key = q.key)
    (h : Reports b (.ok ()) s) :
    Searches (b := b) s (Regular b group) group (groupAttempts b group)
      (b.searchGroup group s) := by
  cases group with
  | nil =>
    exact ⟨h.ok _, fun _ => rfl, fun _ => ⟨rfl, by simp [Builder.searchGroup, groupAttempts]⟩⟩
  | cons head rest =>
    have hh : head ∈ groupAttempts b (head :: rest) := mem_cons_self
    cases hv : b.verdict head with
    | rejected kind detail =>
      obtain ⟨s', hr', hcalls, hgroup⟩ := searchGroup_probed hv h
      rw [hgroup]
      exact probed_spec hv hkey hr' hcalls
    | fits compiled =>
      obtain ⟨s', hs, hr, -⟩ := attempt_spec h head
      rw [hv] at hs hr
      rw [Builder.searchGroup, hs]
      refine ⟨hr.ok _, fun _ => ?_, fun hall => absurd hv (hall.not_fits hh)⟩
      rw [exhaustive_fits hv]
      rfl
    | raised exc =>
      obtain ⟨s', hs, hr, -⟩ := attempt_spec h head
      rw [hv] at hs hr
      rw [Builder.searchGroup, hs]
      refine ⟨hr.error, fun hreg => ?_, fun hall => absurd hv (hall.not_raised hh)⟩
      exact absurd hv (hreg.raisesNone head mem_cons_self exc)

theorem searchGroups_spec (groups : List (List Plan))
    (hkey : ∀ group ∈ groups, ∀ p ∈ group, ∀ q ∈ group, p.key = q.key)
    (h : Reports b (.ok ()) s) :
    Searches (b := b) s (∀ group ∈ groups, Regular b group) groups.flatten
      (groups.flatMap (groupAttempts b)) (b.searchGroups groups s) := by
  induction groups generalizing s with
  | nil => exact ⟨h.ok _, fun _ => rfl, fun _ => ⟨rfl, by simp [Builder.searchGroups]⟩⟩
  | cons group groups ih =>
    have hg := searchGroup_spec group (hkey group mem_cons_self) h
    have hkey' := fun g hg => hkey g (mem_cons_of_mem _ hg)
    have hfirst : exhaustive b (group :: groups).flatten =
        (exhaustive b group).or (exhaustive b groups.flatten) := by
      rw [flatten_cons, exhaustive, findSome?_append]
      rfl
    have hall {hs : List (List Plan)}
        (hr : RejectsAll b ((group :: hs).flatMap (groupAttempts b))) :
        RejectsAll b (groupAttempts b group) ∧ RejectsAll b (hs.flatMap (groupAttempts b)) := by
      rw [flatMap_cons] at hr
      exact ⟨fun q hq => hr q (mem_append_left _ hq), fun q hq => hr q (mem_append_right _ hq)⟩
    rw [Builder.searchGroups]
    generalize b.searchGroup group s = found at hg
    obtain ⟨(exc | _ | compiled), s'⟩ := found
    · refine ⟨hg.reports, fun hreg => ?_, fun hr => ?_⟩
      · nomatch hg.result (hreg group mem_cons_self)
      · nomatch (hg.calls (hall hr).1).1
    · have hrest := ih hkey' (hg.reports.ok ())
      refine ⟨hrest.reports, fun hreg => ?_, fun hr => ?_⟩
      · have hnone := Except.ok.inj (hg.result (hreg group mem_cons_self))
        rw [hfirst, ← hnone]
        exact hrest.result fun g hg => hreg g (mem_cons_of_mem _ hg)
      · obtain ⟨-, hc⟩ := hg.calls (hall hr).1
        obtain ⟨hnone, hc'⟩ := hrest.calls (hall hr).2
        refine ⟨hnone, fun q => ?_⟩
        rw [hc', hc, flatMap_cons, mem_append, or_assoc]
    · refine ⟨hg.reports, fun hreg => ?_, fun hr => ?_⟩
      · have hsome := Except.ok.inj (hg.result (hreg group mem_cons_self))
        rw [hfirst, ← hsome]
        rfl
      · nomatch (hg.calls (hall hr).1).1

end Memo

section Search

variable (b : Builder Exn Prog) {C dk dv : ℕ} {distributed : Bool} {what : Kernel}

theorem groupsOf_key {plans group : List Plan} (hg : group ∈ groupsOf plans) :
    ∀ p ∈ group, ∀ q ∈ group, p.key = q.key := by
  obtain ⟨k, -, rfl⟩ := mem_map.mp hg
  intro p hp q hq
  simp only [mem_filter, decide_eq_true_eq] at hp hq
  rw [hp.2, hq.2]

theorem blockingPlans_regular (h : blockingPlans C dk dv distributed ≠ [])
    (hraises : RaisesNone b (blockingPlans C dk dv distributed))
    (hmono : Monotone b (blockingPlans C dk dv distributed)) :
    ∀ group ∈ groupsOf (blockingPlans C dk dv distributed), Regular b group := by
  intro group hg
  have hsub : group ⊆ blockingPlans C dk dv distributed := by
    obtain ⟨k, -, rfl⟩ := mem_map.mp hg
    exact filter_subset_self _
  rw [groupsOf_blockingPlans h] at hg
  obtain ⟨k, -, rfl⟩ := mem_map.mp hg
  exact ⟨fun p hp => hraises p (hsub hp), fun p hp q hq => hmono p (hsub hp) q (hsub hq),
    fun head hh => floorOf_mem_planBlock hh⟩

variable (C dk dv distributed what) in
theorem compileBlocked_rejects (plans : Option (List Plan))
    (hne : plans.getD (blockingPlans C dk dv distributed) ≠ [])
    (hall : RejectsAll b (attempts b (plans.getD (blockingPlans C dk dv distributed)))) :
    ∃ tried, (compileBlocked b C dk dv distributed plans what).1 =
        .error (.valueError (noPlanFits what C dk dv tried)) ∧
      ∀ p detail, (p, detail) ∈ tried ↔
        p ∈ attempts b (plans.getD (blockingPlans C dk dv distributed)) ∧
          (b.verdict p).detail? = some detail := by
  simp only [compileBlocked, if_neg hne]
  generalize plans.getD (blockingPlans C dk dv distributed) = candidates at hall
  have hs := searchGroups_spec (groupsOf candidates) (fun _ hg => groupsOf_key hg)
    (Reports.init (b := b) ())
  obtain ⟨hnone, hcalls⟩ := hs.calls hall
  have htried := hs.reports.memo.tried
  generalize b.searchGroups (groupsOf candidates) Search.init = found at hnone hcalls htried
  obtain ⟨result, s⟩ := found
  obtain rfl : result = .ok none := hnone
  refine ⟨s.tried, rfl, fun p detail => ?_⟩
  have hp : p ∈ s.calls ↔ p ∈ attempts b candidates := by
    rw [hcalls p]
    simp [Search.init, attempts]
  simp only at htried
  rw [htried, mem_filterMap, ← hp]
  constructor
  · rintro ⟨q, hq, hqd⟩
    obtain ⟨d, hd, he⟩ := Option.map_eq_some_iff.mp hqd
    obtain ⟨rfl, rfl⟩ := Prod.mk.inj he
    exact ⟨hq, hd⟩
  · rintro ⟨hq, hd⟩
    exact ⟨p, hq, by rw [hd, Option.map_some]⟩

theorem blockingPlans_one_group : blockingPlans 16 16 16 false =
    [⟨1, 1, 4, 1, 1⟩, ⟨1, 1, 2, 1, 1⟩, ⟨1, 1, 1, 1, 1⟩] := by
  simp [blockingPlans, splits, splitsFrom, tileUnit, ringDepths]

def vecOverflow : Text :=
  lit "Vec buffer usage (196608 bytes) exceeds platform limit (188416 bytes)"

theorem vecOverflow_overflows : overflows vecOverflow := by decide +kernel

def deepRingOverflows : Builder Text ℕ where
  str msg := msg
  buildOne p := if p.ringDepth = 4 then .error vecOverflow else .ok ⟨p.ringDepth, none⟩

theorem deepRingOverflows_deep {p : Plan} (hp : p.ringDepth = 4) :
    (deepRingOverflows.verdict p).kind? = some .buffer := by
  have hb : deepRingOverflows.buildOne p = .error vecOverflow := if_pos hp
  rw [Builder.verdict_overflow deepRingOverflows hb vecOverflow_overflows]
  rfl

theorem deepRingOverflows_shallow {p : Plan} (hp : p.ringDepth ≠ 4) :
    deepRingOverflows.verdict p = .fits ⟨p.ringDepth, none⟩ :=
  Builder.verdict_fits deepRingOverflows (if_neg hp) rfl

end Search

section Found

variable {Exn Prog : Type*} (b : Builder Exn Prog) {s : Search Prog} {p : Plan}
  {compiled : Compiled Prog}

def FitsAmong (plans : List Plan) (result : Except Exn (Option (Compiled Prog × Plan))) : Prop :=
  ∀ compiled p, result = .ok (some (compiled, p)) → p ∈ plans ∧ b.verdict p = .fits compiled

variable {b}

theorem fits_of_outcome (h : (b.verdict p).outcome = .ok (some compiled)) :
    b.verdict p = .fits compiled := by
  cases hv : b.verdict p with
  | fits c =>
    rw [hv, Verdict.outcome] at h
    cases h
    rfl
  | rejected kind detail =>
    rw [hv, Verdict.outcome] at h
    cases h
  | raised exc =>
    rw [hv, Verdict.outcome] at h
    cases h

theorem FitsAmong.mono {plans plans' : List Plan}
    {result : Except Exn (Option (Compiled Prog × Plan))} (h : FitsAmong b plans result)
    (hsub : plans ⊆ plans') : FitsAmong b plans' result :=
  fun compiled p he => ⟨hsub (h compiled p he).1, (h compiled p he).2⟩

theorem walk_fits (ps : List Plan) (h : Reports b (.ok ()) s) :
    FitsAmong b ps (b.walk ps s).1 := by
  induction ps generalizing s with
  | nil => nofun
  | cons p ps ih =>
    obtain ⟨s', hs, hr, -⟩ := attempt_spec h p
    rw [Builder.walk, hs]
    cases ho : (b.verdict p).outcome with
    | error exc => nofun
    | ok found =>
      rw [ho] at hr
      cases found with
      | some c =>
        rintro _ _ ⟨⟩
        exact ⟨mem_cons_self, fits_of_outcome ho⟩
      | none => exact (ih (hr.ok ())).mono (subset_cons_self p ps)

theorem searchGroup_fits (group : List Plan) (h : Reports b (.ok ()) s) :
    FitsAmong b group (b.searchGroup group s).1 := by
  cases group with
  | nil => nofun
  | cons head rest =>
    cases hv : b.verdict head with
    | fits c =>
      obtain ⟨s', hs, -⟩ := attempt_spec h head
      rw [Builder.searchGroup, hs, hv]
      rintro _ _ ⟨⟩
      exact ⟨mem_cons_self, hv⟩
    | raised exc =>
      obtain ⟨s', hs, -⟩ := attempt_spec h head
      rw [Builder.searchGroup, hs, hv]
      nofun
    | rejected kind detail =>
      obtain ⟨s', hr, -, hgroup⟩ := searchGroup_probed hv h
      rw [hgroup]
      cases hf : b.verdict (floorOf (head :: rest) head) with
      | raised exc => nofun
      | fits c =>
        rw [hf] at hr
        exact (walk_fits rest (hr.ok ())).mono (subset_cons_self head rest)
      | rejected kind' detail' =>
        rw [hf] at hr
        cases kind' with
        | buffer => nofun
        | placement => exact (walk_fits rest (hr.ok ())).mono (subset_cons_self head rest)

theorem searchGroups_fits (groups : List (List Plan))
    (hkey : ∀ group ∈ groups, ∀ p ∈ group, ∀ q ∈ group, p.key = q.key)
    (h : Reports b (.ok ()) s) : FitsAmong b groups.flatten (b.searchGroups groups s).1 := by
  induction groups generalizing s with
  | nil => nofun
  | cons group groups ih =>
    have hg := searchGroup_fits group h
    have hr := (searchGroup_spec group (hkey group mem_cons_self) h).reports
    rw [Builder.searchGroups, flatten_cons]
    generalize b.searchGroup group s = found at hg hr
    obtain ⟨(exc | _ | compiled), s'⟩ := found
    · nofun
    · exact (ih (fun g hg => hkey g (mem_cons_of_mem _ hg)) (hr.ok ())).mono
        (subset_append_right _ _)
    · exact hg.mono (subset_append_left _ _)

theorem compileBlocked_fits {C dk dv : ℕ} {distributed : Bool} {what : Kernel}
    (h : (compileBlocked b C dk dv distributed none what).1 = .ok (compiled, p)) :
    p ∈ blockingPlans C dk dv distributed ∧ b.verdict p = .fits compiled := by
  simp only [compileBlocked, Option.getD_none] at h
  split_ifs at h with hne
  have hs := searchGroups_fits (groupsOf (blockingPlans C dk dv distributed))
    (fun _ hg => groupsOf_key hg) (Reports.init (b := b) ())
  rw [groupsOf_flatten hne] at hs
  generalize b.searchGroups (groupsOf (blockingPlans C dk dv distributed)) Search.init = found
    at h hs
  obtain ⟨(exc | _ | found), s⟩ := found
  · cases h
  · cases h
  · cases h
    exact hs compiled p rfl

end Found

end ZeCo
