import ZeCo.FusedBackwardPlan
import ZeCo.PlanSearch
import ZeCo.PlanTiling
import ZeCo.PyptoDispatch

namespace ZeCo.PyptoZeCo

open Matrix Network Fused Calls Recurrence

variable {R : Type*} {P N C dk dv : ℕ}

section Compile

variable {Exn : Type*} (str : Exn → Text) (irCompile : Plan → Except Exn (Option (List CppFile)))

/-- `build_one`: `ir.compile` raises on the program of a plan, or writes its sources. -/
def fusedBuilder : Builder Exn Plan where
  str := str
  buildOne p := (irCompile p).map fun out => ⟨p, out⟩

def compileFusedForward (C dk dv P : ℕ) : Except (Failure Exn) (Compiled Plan × Plan) :=
  (compileBlocked (fusedBuilder str irCompile) C dk dv (1 < P) none .fusedForward).1

def compileFusedBackward (C dk dv P : ℕ) : Except (Failure Exn) (Compiled Plan × Plan) :=
  (compileBlocked (fusedBuilder str irCompile) C dk dv (1 < P) none .fusedBackward).1

variable {str irCompile}

theorem forwardPlan_tiles {C dk dv P : ℕ} {compiled : Compiled Plan} {plan : Plan}
    (h : compileFusedForward str irCompile C dk dv P = .ok (compiled, plan)) :
    plan.Tiles C dk dv (1 < P) :=
  tiles_of_mem (compileBlocked_fits h).1

theorem backwardPlan_tiles {C dk dv P : ℕ} {plan : Plan}
    (h : plan ∈ (compileFusedBackward str irCompile C dk dv P).toOption.map Prod.snd) :
    plan.Tiles C dk dv (1 < P) := by
  cases hfound : compileFusedBackward str irCompile C dk dv P with
  | error failure =>
    rw [hfound] at h
    cases h
  | ok found =>
    rw [hfound] at h
    cases h
    exact tiles_of_mem (compileBlocked_fits hfound).1

end Compile

section Dispatch

variable [Field R] (exp log : R → R) (plan : Plan)
  (Q K : Fin P → Matrix (Fin (N * C)) (Fin dk) R) (V : Fin P → Matrix (Fin (N * C)) (Fin dv) R)
  (A : Fin P → Matrix (Fin (N * C)) (Fin dk) R)

abbrev forwardNet (env₀ : Fin P → ForwardTensors N C dk dv R)
    (reg₀ : Fin P → RingTiles (dk / plan.ringBlocks) dv R)
    (inflight : Fin P → ForwardTask → ℕ → Matrix (Fin (dk / plan.ringBlocks)) (Fin dv) R) :=
  forwardProgram
    (chipOrchStage1 exp log plan.headBlocks plan.valueBlocks plan.keyRowBlocks K V A env₀)
    (chipOrchStage2 exp log plan.headBlocks plan.valueBlocks plan.keyRowBlocks Q K V A env₀)
    (gammas A) plan.ringBlocks env₀ reg₀ inflight

abbrev backwardNet (dO : Fin P → Matrix (Fin (N * C)) (Fin dv) R)
    (env₀ : Fin P → BackwardTensors N C dk dv R)
    (reg₀ : Fin P → RingTiles (dk / plan.ringBlocks) dv R)
    (inflight : Fin P → BackwardTask → ℕ → Matrix (Fin (dk / plan.ringBlocks)) (Fin dv) R) :=
  backwardProgram
    (backwardKernels exp log plan.headBlocks plan.valueBlocks plan.keyRowBlocks Q K V dO A env₀)
    (gammas A) plan.ringBlocks env₀ reg₀ inflight

/-- A forward dispatch that has returned: `O` is the output tensor before it and `O'` after it. -/
def ForwardRun (O O' : Fin P → Matrix (Fin (N * C)) (Fin dv) R) : Prop :=
  ∃ env₀ : Fin P → ForwardTensors N C dk dv R, (∀ p, (env₀ p).o = O p) ∧
    if P = 1 then O' = forwardP1 exp log plan.headBlocks plan.valueBlocks plan.keyRowBlocks Q K V A
      env₀
    else ∃ reg₀ inflight es s, (forwardNet exp log plan Q K V A env₀ reg₀ inflight).Run es s ∧
      (forwardNet exp log plan Q K V A env₀ reg₀ inflight).Final s ∧ ∀ p, O' p = (s.env p).o

def BackwardRun (dO : Fin P → Matrix (Fin (N * C)) (Fin dv) R)
    (grads grads' : Fin P → Grads (N * C) dk dv R) : Prop :=
  ∃ env₀ : Fin P → BackwardTensors N C dk dv R,
    (∀ p, rankGrads (env₀ p).adjoints (env₀ p).grads = grads p) ∧
    if P = 1 then grads' = backwardP1 exp log plan.headBlocks plan.valueBlocks plan.keyRowBlocks
      Q K V dO A env₀
    else ∃ reg₀ inflight es s,
      (backwardNet exp log plan Q K V A dO env₀ reg₀ inflight).Run es s ∧
      (backwardNet exp log plan Q K V A dO env₀ reg₀ inflight).Final s ∧
      ∀ p, grads' p = rankGrads (s.env p).adjoints (s.env p).grads

def ForwardRuns (program : ForwardProgram P N C dk dv R) : Prop :=
  ∀ Q K V A O, ForwardRun exp log plan Q K V A O (program Q K V A (gammas A) (tril C) 0 0 O)

def BackwardRuns (program : BackwardProgram P N C dk dv R) : Prop :=
  ∀ Q K V A dO grads, BackwardRun exp log plan Q K V A dO grads
    (program Q K V A dO (gammas A) (tril C) (triu C) 0 0 1 0 grads)

variable (P N C dk dv)

def ForwardFinishes : Prop :=
  ∀ (Q K : Fin P → Matrix (Fin (N * C)) (Fin dk) R) (V : Fin P → Matrix (Fin (N * C)) (Fin dv) R)
    (A : Fin P → Matrix (Fin (N * C)) (Fin dk) R) env₀ reg₀ inflight,
    (forwardNet exp log plan Q K V A env₀ reg₀ inflight).Finishes (P * (17 + 7 * plan.ringBlocks))

def BackwardFinishes : Prop :=
  ∀ (Q K : Fin P → Matrix (Fin (N * C)) (Fin dk) R)
    (V dO : Fin P → Matrix (Fin (N * C)) (Fin dv) R)
    (A : Fin P → Matrix (Fin (N * C)) (Fin dk) R) env₀ reg₀ inflight,
    (backwardNet exp log plan Q K V A dO env₀ reg₀ inflight).Finishes
      (P * (26 + 14 * plan.ringBlocks))

end Dispatch

section Session

variable [Field R] (exp log : R → R)

def DeviceCall (plan : Plan) (bplan : Option Plan) (s : Zeco P N C dk dv R) (op : Op P N C dk dv R)
    (events : List (Event P N C dk dv R)) (s' : Zeco P N C dk dv R) : Prop :=
  ∃ (fwd : ForwardProgram P N C dk dv R) (bwd : Option (BackwardProgram P N C dk dv R)),
    ForwardRuns exp log plan fwd ∧ Option.Rel (BackwardRuns exp log) bplan bwd ∧
    pass bwd { s with compiled := fwd, bcompiled := s.bcompiled.bind fun _ => bwd } op =
      some (events, s')

end Session

def Op.gates : Op P N C dk dv R → Fin P → Matrix (Fin (N * C)) (Fin dk) R
  | .forward _ _ _ A | .backward _ _ _ A _ => A

def Op.reference [Field R] : Op P N C dk dv R → Output P N C dk dv R
  | .forward Q K V A => .o fun p t =>
      expectedGla (flattenSeq Q) (flattenSeq K) (flattenSeq V) (flattenSeq A) (token p t)
  | .backward Q K V A dO =>
    let g := expectedGlaBackward (flattenSeq Q) (flattenSeq K) (flattenSeq V) (flattenSeq A)
      (flattenSeq dO)
    .grads fun p => ⟨fun t => g.dQ (token p t), fun t => g.dK (token p t),
      fun t => g.dV (token p t), fun t => g.dA (token p t)⟩

section Runs

variable {plan : Plan} {distributed : Bool} (ht : plan.Tiles C dk dv distributed)
include ht

variable {Q K : Fin P → Matrix (Fin (N * C)) (Fin dk) ℝ}
  {V : Fin P → Matrix (Fin (N * C)) (Fin dv) ℝ} {A : Fin P → Matrix (Fin (N * C)) (Fin dk) ℝ}

theorem forwardRun_rows (hA : ∀ p t d, 0 < A p t d)
    {O O' : Fin P → Matrix (Fin (N * C)) (Fin dv) ℝ}
    (h : ForwardRun Real.exp Real.log plan Q K V A O O') (p : Fin P) (t : Fin (N * C)) :
    O' p t =
      expectedGla (flattenSeq Q) (flattenSeq K) (flattenSeq V) (flattenSeq A) (token p t) := by
  have hpos := ht.value_pos
  obtain ⟨env₀, -, h⟩ := h
  split_ifs at h with hP
  · rw [h]
    apply chipOrch_row ht.head.dvd ht.value.dvd ht.keyRow.dvd Q K V env₀ hA hpos p
    have h0 : p.val = 0 := by omega
    rw [h0, boundaryState, Nat.zero_mul, stateAt_zero]
  · obtain ⟨reg₀, inflight, es, s, hrun, hfinal, hO⟩ := h
    have hdone : (s.env p).o = _ := Net.final_done (t := .stage2)
      (forwardProgram_wired ht.ring_pos) (forwardOutline ht.ring) hrun hfinal
      (Finset.mem_univ _)
    rw [hO, hdone]
    apply chipOrch_row ht.head.dvd ht.value.dvd ht.keyRow.dvd Q K V env₀ hA hpos p
    apply sRecv_boundary K V
    apply allscan_boundary K V A
    · exact fun q => congrArg Prod.snd
        (chipOrchStage1_eq ht.head.dvd ht.value.dvd ht.keyRow.dvd K V env₀ hA hpos q)
    · exact fun q => funext fun d => prod_eq_decay (A q) d

theorem backwardRun_rows {dO : Fin P → Matrix (Fin (N * C)) (Fin dv) ℝ}
    (hA : ∀ p t d, 0 < A p t d) {grads grads' : Fin P → Grads (N * C) dk dv ℝ}
    (h : BackwardRun Real.exp Real.log plan Q K V A dO grads grads') (p : Fin P)
    (t : Fin (N * C)) :
    (grads' p).row t = (expectedGlaBackward (flattenSeq Q) (flattenSeq K) (flattenSeq V)
      (flattenSeq A) (flattenSeq dO)).row (token p t) := by
  have hpos := ht.value_pos
  obtain ⟨hnb, hnv, hnc⟩ := And.intro ht.head.dvd (And.intro ht.value.dvd ht.keyRow.dvd)
  obtain ⟨env₀, -, h⟩ := h
  have hrec := chipRecompute_eq hnb hnv hpos hnc K V env₀ hA
  have hgradO := chipGradO_eq hnb hnv hnc Q K V dO env₀ hA
  have hrow := rankGrads_row hnb hnv hpos hnc Q K V dO env₀ hA
  split_ifs at h with hP
  · have h0 : boundaryState K V A p = 0 := by
      have hp : p.val = 0 := by omega
      rw [hp, boundaryState, Nat.zero_mul, stateAt_zero]
    have hE := boundaryAdjoint_single Q dO A hP p
    rw [h]
    simp only [backwardP1, hrec]
    rw [hgradO p 0 h0.symm]
    apply hrow p ⟨0, 0⟩ hE.symm
    funext d
    simp [hE]
  · obtain ⟨reg₀, inflight, es, s, hrun, hfinal, hg⟩ := h
    let kernels := backwardKernels Real.exp Real.log plan.headBlocks plan.valueBlocks
      plan.keyRowBlocks Q K V dO A env₀
    have done (u : BackwardTask) : BackwardDone kernels (gammas A) p u (s.env p) :=
      Net.final_done (backwardProgram_wired ht.ring_pos) (backwardOutline ht.ring) hrun hfinal
        (Finset.mem_univ u)
    have hdecay (p : Fin P) : gammas A p = fun d => decay (gate (A p) d) 0 (N * C) :=
      funext fun d => prod_eq_decay (A p) d
    have houts := allscan_boundary K V A (fun q => congrArg Prod.snd (hrec q)) hdecay
    have hout (q : Fin P) : gradOut kernels (gammas A) q =
        (adjointsOf (Q q) (K q) (V q) (dO q) (boundaryState K V A q) (A q),
          adjointAt (Q q) (A q) (dO q) 0 0) := by
      have hq : (kernels.recompute q).1 = recordsOf (K q) (V q) (A q) := congrArg Prod.fst (hrec q)
      rw [gradOut, hq]
      exact hgradO q _ (sRecv_boundary K V houts q)
    have hring := ring_boundary Q K V dO hdecay houts (fun q => congrArg Prod.snd (hout q)) p
    have hq : (kernels.recompute p).1 = recordsOf (K p) (V p) (A p) := congrArg Prod.fst (hrec p)
    have hH : (s.env p).grads = _ := done .gradH
    rw [hg, (done .gradO).1, hH, hout p, hq]
    exact hrow p _ hring.1 hring.2 t

end Runs

section Programs

variable {plan : Plan} {distributed : Bool} (ht : plan.Tiles C dk dv distributed)
include ht

theorem forwardRun_exists (Q K : Fin P → Matrix (Fin (N * C)) (Fin dk) ℝ)
    (V : Fin P → Matrix (Fin (N * C)) (Fin dv) ℝ) (A : Fin P → Matrix (Fin (N * C)) (Fin dk) ℝ)
    (O : Fin P → Matrix (Fin (N * C)) (Fin dv) ℝ) :
    ∃ O', ForwardRun Real.exp Real.log plan Q K V A O O' := by
  let env₀ : Fin P → ForwardTensors N C dk dv ℝ := fun p => ⟨(0, 0), 0, 0, 0, O p⟩
  by_cases hP : P = 1
  · exact ⟨_, env₀, fun _ => rfl, (if_pos hP).mpr rfl⟩
  · have hfin : (forwardNet Real.exp Real.log plan Q K V A env₀ (fun _ => ⟨0, 0⟩)
        fun _ _ _ => 0).Finishes _ := forwardProgram_finishes ht.ring_pos ht.ring
    obtain ⟨es, s, hrun, hfinal⟩ := hfin.exists_final
    exact ⟨fun p => (s.env p).o, env₀, fun _ => rfl,
      (if_neg hP).mpr ⟨_, _, es, s, hrun, hfinal, fun _ => rfl⟩⟩

theorem backwardRun_exists (Q K : Fin P → Matrix (Fin (N * C)) (Fin dk) ℝ)
    (V : Fin P → Matrix (Fin (N * C)) (Fin dv) ℝ) (A : Fin P → Matrix (Fin (N * C)) (Fin dk) ℝ)
    (dO : Fin P → Matrix (Fin (N * C)) (Fin dv) ℝ) (grads : Fin P → Grads (N * C) dk dv ℝ) :
    ∃ grads', BackwardRun Real.exp Real.log plan Q K V A dO grads grads' := by
  let env₀ : Fin P → BackwardTensors N C dk dv ℝ := fun p =>
    ⟨⟨0, 0, 0⟩, 0, 0, 0, ⟨(grads p).dQ, 0, 0, 0, 0, 0⟩, 0, ⟨0, 0⟩,
      ⟨(grads p).dK, (grads p).dV, (grads p).dA, 0, 0⟩⟩
  by_cases hP : P = 1
  · exact ⟨_, env₀, fun _ => rfl, (if_pos hP).mpr rfl⟩
  · have hfin : (backwardNet Real.exp Real.log plan Q K V A dO env₀ (fun _ => ⟨0, 0⟩)
        fun _ _ _ => 0).Finishes _ := backwardProgram_finishes ht.ring_pos ht.ring
    obtain ⟨es, s, hrun, hfinal⟩ := hfin.exists_final
    exact ⟨fun p => rankGrads (s.env p).adjoints (s.env p).grads, env₀, fun _ => rfl,
      (if_neg hP).mpr ⟨_, _, es, s, hrun, hfinal, fun _ => rfl⟩⟩

theorem forwardRuns_exists :
    ∃ program : ForwardProgram P N C dk dv ℝ, ForwardRuns Real.exp Real.log plan program :=
  ⟨fun Q K V A _ _ _ _ O => (forwardRun_exists ht Q K V A O).choose,
    fun Q K V A O => (forwardRun_exists ht Q K V A O).choose_spec⟩

theorem backwardRuns_exists :
    ∃ program : BackwardProgram P N C dk dv ℝ, BackwardRuns Real.exp Real.log plan program :=
  ⟨fun Q K V A dO _ _ _ _ _ _ _ grads => (backwardRun_exists ht Q K V A dO grads).choose,
    fun Q K V A dO grads => (backwardRun_exists ht Q K V A dO grads).choose_spec⟩

end Programs

section Calls

variable {plan : Plan} {bplan : Option Plan} {fwd : ForwardProgram P N C dk dv ℝ}
  {bwd : Option (BackwardProgram P N C dk dv ℝ)} {s s' : Zeco P N C dk dv ℝ}

def Between (bplan : Option Plan) (s : Zeco P N C dk dv ℝ) : Prop :=
  ∃ (fwd : ForwardProgram P N C dk dv ℝ) (bwd : Option (BackwardProgram P N C dk dv ℝ)),
    Inv bwd fwd s ∧ bwd.isSome = bplan.isSome

theorem Between.inv (h : Between bplan s) (fwd : ForwardProgram P N C dk dv ℝ)
    (hb : bwd.isSome = bplan.isSome) :
    Inv bwd fwd { s with compiled := fwd, bcompiled := s.bcompiled.bind fun _ => bwd } ∧
      (s.bcompiled.bind fun _ => bwd).isSome = s.bcompiled.isSome := by
  obtain ⟨fwd₀, bwd₀, hs, hb₀⟩ := h
  have hsome : (s.bcompiled.bind fun _ => bwd).isSome = s.bcompiled.isSome := by
    cases hc : s.bcompiled with
    | none => rfl
    | some program =>
      have := hs.bcompiled program hc
      rw [Option.bind_some, hb, ← hb₀, this]
  refine ⟨⟨rfl, fun program hp => ?_, fun h => ?_, hs.worker⟩, hsome⟩
  · obtain ⟨-, -, he⟩ := Option.bind_eq_some_iff.mp hp
    exact he
  · exact hsome.trans (hs.ready h)

theorem eq_of_rows {grads : Fin P → Grads (N * C) dk dv ℝ} {g : Grads (P * (N * C)) dk dv ℝ}
    (h : ∀ p t, (grads p).row t = g.row (token p t)) :
    grads = fun p => ⟨fun t => g.dQ (token p t), fun t => g.dK (token p t),
      fun t => g.dV (token p t), fun t => g.dA (token p t)⟩ := by
  funext p
  change (⟨(grads p).dQ, (grads p).dK, (grads p).dV, (grads p).dA⟩ : Grads (N * C) dk dv ℝ) = _
  congr 1
  · exact funext fun t => congrArg RowGrads.dQ (h p t)
  · exact funext fun t => congrArg RowGrads.dK (h p t)
  · exact funext fun t => congrArg RowGrads.dV (h p t)
  · exact funext fun t => congrArg RowGrads.dA (h p t)

theorem result_reference {distributed : Bool} (ht : plan.Tiles C dk dv distributed)
    (htb : ∀ q ∈ bplan, q.Tiles C dk dv distributed) (hfwd : ForwardRuns Real.exp Real.log plan fwd)
    (hbwd : Option.Rel (BackwardRuns Real.exp Real.log) bplan bwd) {op : Op P N C dk dv ℝ}
    (hA : ∀ p t d, 0 < op.gates p t d) {v : Output P N C dk dv ℝ}
    (h : some v = op.result bwd fwd) : v = op.reference := by
  cases op with
  | forward Q K V A =>
    obtain rfl : v = .o (fwd Q K V A (gammas A) (tril C) 0 0 fun _ => 0) := Option.some.inj h
    exact congrArg Output.o
      (funext fun p => funext fun t => forwardRun_rows ht hA (hfwd Q K V A _) p t)
  | backward Q K V A dO =>
    cases hbwd with
    | none => cases h
    | @some _ program hruns =>
      obtain rfl : v = .grads (program Q K V A dO (gammas A) (tril C) (triu C) 0 0 1 0
        fun _ => ⟨0, 0, 0, 0⟩) := Option.some.inj h
      exact congrArg Output.grads
        (eq_of_rows fun p t => backwardRun_rows (htb _ rfl) hA (hruns Q K V A dO _) p t)

theorem ensureBackwardCompiled_exists (s : Zeco P N C dk dv ℝ) (hb : bwd.isSome) :
    ∃ x, s.ensureBackwardCompiled bwd = some x := by
  obtain ⟨program, rfl⟩ := Option.isSome_iff_exists.mp hb
  rw [Zeco.ensureBackwardCompiled]
  cases s.bcompiled with
  | none => exact ⟨_, rfl⟩
  | some _ => exact ⟨_, rfl⟩

theorem pass_exists {op : Op P N C dk dv ℝ} (h : Inv bwd fwd s)
    (hb : op.direction = .backward → bwd.isSome) : ∃ x, pass bwd s op = some x := by
  obtain ⟨w, hrt, -⟩ := h.worker
  have select (b : Buffers P N C dk dv ℝ) (backward : Bool) (hb : backward = true → bwd.isSome) :
      ∃ x, ({ s with buffers := b } : Zeco P N C dk dv ℝ).select bwd backward = some x := by
    rw [Zeco.select]
    split_ifs with hsame hback
    · exact ⟨_, rfl⟩
    · obtain ⟨y, hy⟩ := ensureBackwardCompiled_exists
        { s with workers := s.workers.close, buffers := b } (hb hback)
      exact ⟨_, Option.map_eq_some_iff.mpr ⟨y, hy, rfl⟩⟩
    · exact ⟨_, rfl⟩
  cases op with
  | forward Q K V A =>
    rw [pass, hrt, if_neg (by simp)]
    obtain ⟨x, hx⟩ := select _ false Bool.noConfusion
    obtain ⟨w', hw', -⟩ := (select_spec (stageInputs_inv h _) hx).worker
    rw [Zeco.stageInputs, hx, Option.bind_some, hw']
    exact ⟨_, rfl⟩
  | backward Q K V A dO =>
    rw [pass, hrt, if_neg (by simp)]
    obtain ⟨x, hx⟩ := select _ true fun _ => hb rfl
    have hsel := select_spec (stageInputs_inv h _) hx
    obtain ⟨w', hw', -⟩ := hsel.worker
    obtain ⟨program, hp⟩ := Option.isSome_iff_exists.mp (hsel.program rfl)
    simp only [Zeco.stageInputs]
    rw [hx, Option.bind_some, hw', Option.bind_some, hp]
    exact ⟨_, rfl⟩

structure Answered (s s' : Zeco P N C dk dv ℝ) (ops : List (Op P N C dk dv ℝ))
    (events : List (Event P N C dk dv ℝ)) : Prop where
  safe : ∀ e ∈ events, e.Ok
  counted : events.countP Event.isCompilation + compilations s = compilations s'
  returned : returns events = ops.map Op.reference

theorem deviceCall_answered {distributed : Bool} (ht : plan.Tiles C dk dv distributed)
    (htb : ∀ q ∈ bplan, q.Tiles C dk dv distributed) {op : Op P N C dk dv ℝ}
    (hA : ∀ p t d, 0 < op.gates p t d) {events : List (Event P N C dk dv ℝ)}
    (hs : Between bplan s) (h : DeviceCall Real.exp Real.log plan bplan s op events s') :
    Answered s s' [op] events ∧ Between bplan s' := by
  obtain ⟨fwd, bwd, hfwd, hbwd, hpass⟩ := h
  have hsome : bwd.isSome = bplan.isSome := by cases hbwd <;> rfl
  obtain ⟨hinv, hcount⟩ := hs.inv fwd hsome
  have hserved := pass_served hinv hpass
  refine ⟨⟨hserved.safe, ?_, ?_⟩, fwd, bwd, hserved.inv, hsome⟩
  · rw [← hserved.counted, compilations, compilations, hcount]
  · obtain ⟨v, hv, hresult⟩ := List.map_eq_singleton_iff.mp hserved.returned
    rw [hv, result_reference ht htb hfwd hbwd hA hresult]
    rfl

theorem deviceCall_exists {distributed : Bool} (ht : plan.Tiles C dk dv distributed)
    (htb : ∀ q ∈ bplan, q.Tiles C dk dv distributed) {op : Op P N C dk dv ℝ}
    (hb : op.direction = .backward → bplan.isSome) (hs : Between bplan s) :
    ∃ events s', DeviceCall Real.exp Real.log plan bplan s op events s' ∧ Between bplan s' := by
  obtain ⟨fwd, hfwd⟩ := forwardRuns_exists (P := P) (N := N) ht
  obtain ⟨bwd, hbwd⟩ : ∃ bwd : Option (BackwardProgram P N C dk dv ℝ),
      Option.Rel (BackwardRuns Real.exp Real.log) bplan bwd := by
    cases bplan with
    | none => exact ⟨none, .none⟩
    | some q =>
      obtain ⟨program, hp⟩ := backwardRuns_exists (P := P) (N := N) (htb q rfl)
      exact ⟨some program, .some hp⟩
  have hsome : bwd.isSome = bplan.isSome := by cases hbwd <;> rfl
  obtain ⟨hinv, -⟩ := hs.inv fwd hsome
  obtain ⟨x, hx⟩ := pass_exists hinv fun h => hsome.trans (hb h)
  exact ⟨x.1, x.2, ⟨fwd, bwd, hfwd, hbwd, hx⟩, fwd, bwd, (pass_served hinv hx).inv, hsome⟩

theorem Answered.trans {t : Zeco P N C dk dv ℝ} {as bs : List (Op P N C dk dv ℝ)}
    {xs ys : List (Event P N C dk dv ℝ)} (h : Answered s s' as xs) (h' : Answered s' t bs ys) :
    Answered s t (as ++ bs) (xs ++ ys) where
  safe := List.forall_mem_append.mpr ⟨h.safe, h'.safe⟩
  counted := by
    rw [← h'.counted, ← h.counted, List.countP_append]
    omega
  returned := by
    rw [List.map_append, ← h.returned, ← h'.returned, returns, List.filterMap_append]
    rfl

theorem history_answered {distributed : Bool} (ht : plan.Tiles C dk dv distributed)
    (htb : ∀ q ∈ bplan, q.Tiles C dk dv distributed) {ops : List (Op P N C dk dv ℝ)}
    (hA : ∀ op ∈ ops, ∀ p t d, 0 < op.gates p t d) {events : List (Event P N C dk dv ℝ)}
    (hs : Between bplan s)
    (h : History (DeviceCall Real.exp Real.log plan bplan) s ops events s') :
    Answered s s' ops events := by
  induction h with
  | nil s => exact ⟨fun _ he => absurd he List.not_mem_nil, Nat.zero_add _, rfl⟩
  | cons head _ ih =>
    obtain ⟨hop, hops⟩ := List.forall_mem_cons.mp hA
    obtain ⟨hhead, hbetween⟩ := deviceCall_answered ht htb hop hs head
    exact hhead.trans (ih hops hbetween)

theorem histories_exist {distributed : Bool} (ht : plan.Tiles C dk dv distributed)
    (htb : ∀ q ∈ bplan, q.Tiles C dk dv distributed) {ops : List (Op P N C dk dv ℝ)}
    (hb : ∀ op ∈ ops, op.direction = .backward → bplan.isSome) (hs : Between bplan s) :
    ∃ events s', History (DeviceCall Real.exp Real.log plan bplan) s ops events s' := by
  induction ops generalizing s with
  | nil => exact ⟨[], s, .nil s⟩
  | cons op ops ih =>
    obtain ⟨hop, hops⟩ := List.forall_mem_cons.mp hb
    obtain ⟨xs, t, head, hbetween⟩ := deviceCall_exists ht htb hop hs
    obtain ⟨ys, u, tail⟩ := ih hops hbetween
    exact ⟨xs ++ ys, u, .cons head tail⟩

end Calls

/-- From the plan search to the returned tensors: whatever plans the two searches find, every
session on the built object gives back the rows of the sequential operator and of its backward. -/
theorem session_correct {Exn : Type*} (str : Exn → Text)
    (irForward irBackward : Plan → Except Exn (Option (List CppFile))) {compiled : Compiled Plan}
    {plan : Plan} (hbuild : compileFusedForward str irForward C dk dv P = .ok (compiled, plan))
    {ws : Workers} (hws : Earlier ℝ ws) (fwd : ForwardProgram P N C dk dv ℝ)
    (ops : List (Op P N C dk dv ℝ)) (hA : ∀ op ∈ ops, ∀ p t d, 0 < op.gates p t d) :
    let bplan := (compileFusedBackward str irBackward C dk dv P).toOption.map Prod.snd
    let call := DeviceCall Real.exp Real.log plan bplan
    let built := build fwd ws
    ForwardFinishes P N C dk dv Real.exp Real.log plan ∧
    (∀ q ∈ bplan, BackwardFinishes P N C dk dv Real.exp Real.log q) ∧
    ((∀ op ∈ ops, op.direction = .backward → bplan.isSome) →
      ∃ events s, History call built.2 ops events s) ∧
    ∀ events s, History call built.2 ops events s →
      (∀ e ∈ built.1 ++ events, e.Ok) ∧ events.countP Event.isCompilation ≤ 1 ∧
        returns events = ops.map Op.reference := by
  intro bplan call built
  have ht := forwardPlan_tiles hbuild
  have htb : ∀ q ∈ bplan, q.Tiles C dk dv (1 < P) := fun q hq => backwardPlan_tiles hq
  let bwd : Option (BackwardProgram P N C dk dv ℝ) :=
    bplan.map fun _ _ _ _ _ _ _ _ _ _ _ _ _ grads => grads
  obtain ⟨hinv, -⟩ : Inv bwd fwd built.2 ∧ _ := build_inv hws.held
  have hbetween : Between bplan built.2 := ⟨fwd, bwd, hinv, Option.isSome_map⟩
  refine ⟨fun Q K V A env₀ reg₀ inflight => forwardProgram_finishes ht.ring_pos ht.ring,
    fun q hq Q K V dO A env₀ reg₀ inflight =>
      backwardProgram_finishes (htb q hq).ring_pos (htb q hq).ring,
    fun hb => histories_exist ht htb hb hbetween, fun events s h => ?_⟩
  have hall := history_answered ht htb hA hbetween h
  refine ⟨List.forall_mem_append.mpr ⟨build_safe hws.held, hall.safe⟩, ?_, hall.returned⟩
  apply (Nat.le_add_right _ _).trans (hall.counted.trans_le _)
  exact Bool.toNat_le _

theorem blockingPlans_smallest : blockingPlans 16 16 16 true =
    [⟨1, 1, 4, 1, 1⟩, ⟨1, 1, 2, 1, 1⟩, ⟨1, 1, 1, 1, 1⟩] := by
  simp [blockingPlans, splits, splitsFrom, tileUnit, ringDepths]

theorem compileBlocked_smallest (what : Kernel) :
    (compileBlocked (fusedBuilder (id : Text → Text) fun _ => .ok none) 16 16 16 true none what).1 =
      .ok (⟨⟨1, 1, 4, 1, 1⟩, none⟩, ⟨1, 1, 4, 1, 1⟩) := by
  have hfits (p : Plan) : (fusedBuilder (id : Text → Text) fun _ => .ok none).verdict p =
      .fits ⟨p, none⟩ := Builder.verdict_fits _ rfl rfl
  rw [compileBlocked, Option.getD_none, blockingPlans_smallest, if_neg (List.cons_ne_nil _ _)]
  simp [groupsOf, fromkeys, Plan.key, Builder.searchGroups, Builder.searchGroup, Builder.attempt,
    Search.init, hfits]

theorem session_correct_two :
    let ir : Plan → Except Text (Option (List CppFile)) := fun _ => .ok none
    let X : Fin 2 → Matrix (Fin (1 * 16)) (Fin 16) ℝ := fun p _ _ => p
    let A : Fin 2 → Matrix (Fin (1 * 16)) (Fin 16) ℝ := fun _ _ _ => 1 / 2
    let ops : List (Op 2 1 16 16 16 ℝ) := [.backward X X X A X, .forward X X X A]
    let bplan := (compileFusedBackward id ir 16 16 16 2).toOption.map Prod.snd
    let call (s : Zeco 2 1 16 16 16 ℝ) := DeviceCall Real.exp Real.log ⟨1, 1, 4, 1, 1⟩ bplan s
    let start := (build (fun _ _ _ _ _ _ _ _ O => O) Workers.new).2
    (∃ events s, History call start ops events s) ∧
      ∀ events s, History call start ops events s → returns events = ops.map Op.reference := by
  intro ir X A ops bplan call start
  have hf : compileFusedForward id ir 16 16 16 2 = _ := compileBlocked_smallest .fusedForward
  have hb : compileFusedBackward id ir 16 16 16 2 = _ := compileBlocked_smallest .fusedBackward
  have hA : ∀ op ∈ ops, ∀ p t d, 0 < op.gates p t d := by
    intro op hop p t d
    rcases List.mem_pair.mp hop with rfl | rfl
    · exact one_half_pos
    · exact one_half_pos
  have h := session_correct id ir ir hf .new (fun _ _ _ _ _ _ _ _ O => O) ops hA
  refine ⟨h.2.2.1 fun _ _ _ => ?_, fun events s hh => (h.2.2.2 events s hh).2.2⟩
  rw [hb]
  rfl

end ZeCo.PyptoZeCo
