import ZeCo.PlanSearch

namespace ZeCo

open List Text

def limitMarker : Text := lit "exceeds platform limit"

def vecMarker : Text := lit "Vec buffer usage"

def isShapeCeiling (msg : Text) : Bool := limitMarker <:+: msg ∨ vecMarker <:+: msg

section Message

structure Marker (l : Text) : Prop where
  ne : l ≠ []
  lines : '\n' ∉ l
  colons : ':' ∉ l
  opens : '(' ∉ l
  closes : ')' ∉ l
  first : isSpace (l.head ne) = false
  last : isSpace (l.getLast ne) = false
  letter : 'V' ∈ l ∨ 'x' ∈ l

theorem limitMarker_chars : limitMarker =
    ['e', 'x', 'c', 'e', 'e', 'd', 's', ' ', 'p', 'l', 'a', 't', 'f', 'o', 'r', 'm', ' ',
      'l', 'i', 'm', 'i', 't'] :=
  lit_ofList _

theorem vecMarker_chars : vecMarker =
    ['V', 'e', 'c', ' ', 'b', 'u', 'f', 'f', 'e', 'r', ' ', 'u', 's', 'a', 'g', 'e'] :=
  lit_ofList _

theorem limitMarker_marker : Marker limitMarker := by
  rw [limitMarker_chars]
  exact {
    ne := by simp
    lines := by simp
    colons := by simp
    opens := by simp
    closes := by simp
    first := rfl
    last := rfl
    letter := by simp }

theorem vecMarker_marker : Marker vecMarker := by
  rw [vecMarker_chars]
  exact {
    ne := by simp
    lines := by simp
    colons := by simp
    opens := by simp
    closes := by simp
    first := rfl
    last := rfl
    letter := by simp }

variable {l : Text}

theorem Marker.not_infix (hl : Marker l) {text : Text} (hV : 'V' ∉ text) (hx : 'x' ∉ text) :
    ¬ l <:+: text := by
  rcases hl.letter with h | h
  · exact not_infix_of_not_mem h hV
  · exact not_infix_of_not_mem h hx

theorem Marker.infix_blank (hl : Marker l) (text : Text) : l <:+: ' ' :: text ↔ l <:+: text := by
  have hfirst := hl.first
  cases l with
  | nil => exact absurd rfl hl.ne
  | cons a l =>
    apply infix_cons_of_ne
    rintro rfl
    nomatch hfirst

theorem Marker.not_infix_planText (hl : Marker l) (p : Plan) : ¬ l <:+: planText p := by
  apply hl.not_infix
  · simp [planText, lit, not_mem_ofNat]
  · simp [planText, lit, not_mem_ofNat]

theorem Marker.infix_line (hl : Marker l) (p : Plan) (detail : Text) :
    l <:+: planText p ++ lit ": " ++ detail ↔ l <:+: detail := by
  have hsep : lit ": " = [':', ' '] := lit_ofList _
  rw [hsep, append_assoc, cons_append, cons_append, nil_append, infix_append_cons hl.colons,
    hl.infix_blank]
  exact or_iff_right (hl.not_infix_planText p)

theorem Marker.infix_noPlanFits (hl : Marker l) (what : Kernel) (C dk dv : ℕ)
    (tried : List (Plan × Text)) :
    l <:+: noPlanFits what C dk dv tried ↔ ∃ t ∈ tried, l <:+: t.2 := by
  set opening := lit "no blocking plan fits the " ++ what.text ++ lit " at C=" ++ ofNat C ++
    lit " dk=" ++ ofNat dk ++ lit " dv=" ++ ofNat dv ++ lit "; tried:"
  have hopening : ¬ l <:+: opening := by
    apply hl.not_infix
    · cases what <;> simp [opening, Kernel.text, lit, not_mem_ofNat]
    · cases what <;> simp [opening, Kernel.text, lit, not_mem_ofNat]
  have h : noPlanFits what C dk dv tried = opening ++ '\n' :: ' ' :: ' ' ::
      join (lit "\n  ") (tried.map fun t => planText t.1 ++ lit ": " ++ t.2) := by
    have hnl : lit "; tried:\n  " = lit "; tried:" ++ ['\n', ' ', ' '] := by simp [lit]
    rw [noPlanFits, hnl]
    simp only [opening, append_assoc, cons_append, nil_append]
  have hsep (text : Text) : l <:+: [' ', ' '] ++ text ↔ l <:+: text := by
    rw [cons_append, cons_append, nil_append, hl.infix_blank, hl.infix_blank]
  have hjoin : lit "\n  " = '\n' :: [' ', ' '] := lit_ofList _
  rw [h, infix_append_cons hl.lines, hl.infix_blank, hl.infix_blank, or_iff_right hopening, hjoin]
  apply (infix_join hl.lines hl.ne hsep _).trans
  simp only [mem_map, exists_exists_and_eq_and, hl.infix_line]

theorem isShapeCeiling_noPlanFits (what : Kernel) (C dk dv : ℕ) (tried : List (Plan × Text)) :
    isShapeCeiling (noPlanFits what C dk dv tried) = true ↔
      ∃ t ∈ tried, limitMarker <:+: t.2 ∨ vecMarker <:+: t.2 := by
  rw [isShapeCeiling, decide_eq_true_eq, limitMarker_marker.infix_noPlanFits,
    vecMarker_marker.infix_noPlanFits, ← exists_or]
  simp only [← and_or_left]

end Message

section Search

variable {Exn Prog : Type*} (b : Builder Exn Prog)

/-- A rejection whose text the benchmark recognises: the overflow names the `Vec` buffer before the
word the search cuts it at, or the generated code quoted by the placement check holds a pattern. -/
def Recognised (p : Plan) : Prop :=
  match b.buildOne p with
  | .error exc => vecMarker <:+: before (lit "exceeds") (b.str exc)
  | .ok compiled =>
    ∃ bad ∈ (cubeSideVectorOps compiled.outputDir).head?, limitMarker <:+: bad ∨ vecMarker <:+: bad

theorem limitMarker_cut (msg : Text) : ¬ limitMarker <:+: before (lit "exceeds") msg := fun h => by
  have hword : lit "exceeds" <:+: limitMarker :=
    ⟨[], lit " platform limit", by simp [limitMarker_chars, lit]⟩
  exact not_infix_before (by simp [lit]) msg (hword.trans h)

theorem Marker.infix_placement {l : Text} (hl : Marker l) (bad : Text) :
    l <:+: lit "vector work on the cube core (" ++ bad ++ lit ")" ↔ l <:+: bad := by
  have hopen : lit "vector work on the cube core (" =
      lit "vector work on the cube core " ++ ['('] := by simp [lit]
  have hclose : lit ")" = [')'] := lit_ofList _
  have hlead : ¬ l <:+: lit "vector work on the cube core " :=
    hl.not_infix (by simp [lit]) (by simp [lit])
  have hnil : ¬ l <:+: [] := by simpa using hl.ne
  rw [hopen, hclose, append_assoc, append_assoc, cons_append, nil_append,
    infix_append_cons hl.opens, infix_append_cons hl.closes, or_iff_right hlead, or_iff_left hnil]

theorem detail_recognised {p : Plan} {detail : Text} (hd : (b.verdict p).detail? = some detail) :
    limitMarker <:+: detail ∨ vecMarker <:+: detail ↔ Recognised b p := by
  rw [Recognised]
  cases hb : b.buildOne p with
  | error exc =>
    by_cases ho : overflows (b.str exc)
    · rw [b.verdict_overflow hb ho] at hd
      obtain rfl := Option.some.inj hd
      have hlimit := limitMarker_marker
      have hvec := vecMarker_marker
      rw [infix_strip hlimit.ne hlimit.first hlimit.last, infix_strip hvec.ne hvec.first hvec.last]
      exact or_iff_right (limitMarker_cut _)
    · simp [Builder.verdict, hb, if_neg ho, Verdict.detail?] at hd
  | ok compiled =>
    cases hops : cubeSideVectorOps compiled.outputDir with
    | nil =>
      simp [b.verdict_fits hb hops, Verdict.detail?] at hd
    | cons bad ops =>
      rw [b.verdict_placement hb hops] at hd
      obtain rfl := Option.some.inj hd
      rw [limitMarker_marker.infix_placement, vecMarker_marker.infix_placement]
      simp [hops]

theorem noPlanFits_isShapeCeiling_iff (C dk dv : ℕ) (distributed : Bool)
    (plans : Option (List Plan)) (what : Kernel)
    (hne : plans.getD (blockingPlans C dk dv distributed) ≠ [])
    (hall : RejectsAll b (attempts b (plans.getD (blockingPlans C dk dv distributed)))) :
    ∃ msg, (compileBlocked b C dk dv distributed plans what).1 = .error (.valueError msg) ∧
      (isShapeCeiling msg = true ↔
        ∃ p ∈ attempts b (plans.getD (blockingPlans C dk dv distributed)), Recognised b p) := by
  obtain ⟨tried, hresult, htried⟩ :=
    compileBlocked_rejects b C dk dv distributed what plans hne hall
  refine ⟨_, hresult, ?_⟩
  rw [isShapeCeiling_noPlanFits]
  constructor
  · rintro ⟨⟨p, detail⟩, ht, hm⟩
    obtain ⟨hp, hd⟩ := (htried p detail).mp ht
    exact ⟨p, hp, (detail_recognised b hd).mp hm⟩
  · rintro ⟨p, hp, hr⟩
    obtain ⟨kind, detail, hv⟩ := hall p hp
    have hd : (b.verdict p).detail? = some detail := by
      rw [hv]
      rfl
    exact ⟨(p, detail), (htried p detail).mpr ⟨hp, hd⟩, (detail_recognised b hd).mpr hr⟩

def alwaysRaises (msg : Text) : Builder Text ℕ where
  str msg := msg
  buildOne _ := .error msg

theorem alwaysRaises_rejects {msg : Text} (h : overflows msg) (plans : List Plan) :
    RejectsAll (alwaysRaises msg) plans := fun p _ =>
  ⟨_, _, Builder.verdict_overflow (alwaysRaises msg) (p := p) rfl h⟩

theorem noPlanFits_isShapeCeiling_vec :
    ∃ msg, (compileBlocked (alwaysRaises vecOverflow) 64 256 256 true (some [⟨1, 1, 4, 1, 1⟩])
      .fusedBackward).1 = .error (.valueError msg) ∧ isShapeCeiling msg = true := by
  obtain ⟨msg, hmsg, hiff⟩ := noPlanFits_isShapeCeiling_iff (alwaysRaises vecOverflow) 64 256 256
    true (some [⟨1, 1, 4, 1, 1⟩]) .fusedBackward (cons_ne_nil _ _)
    (alwaysRaises_rejects vecOverflow_overflows _)
  have hvec : vecMarker <:+: before (lit "exceeds") vecOverflow := by decide +kernel
  exact ⟨msg, hmsg, hiff.mpr ⟨⟨1, 1, 4, 1, 1⟩, mem_cons_self, hvec⟩⟩

def leftOverflow : Text :=
  lit "Left buffer usage (131072 bytes) exceeds platform limit (65536 bytes)"

/-- A search that only ever overflows the `Left` buffer reports a failure the benchmark does not
recognise. -/
theorem leftOverflow_not_recognised :
    ¬ ∀ msg, (compileBlocked (alwaysRaises leftOverflow) 64 256 256 true (some [⟨1, 1, 4, 1, 1⟩])
      .fusedBackward).1 = .error (.valueError msg) → isShapeCeiling msg = true := by
  have ho : overflows leftOverflow := by decide +kernel
  obtain ⟨tried, hresult, htried⟩ := compileBlocked_rejects (alwaysRaises leftOverflow) 64 256 256
    true .fusedBackward (some [⟨1, 1, 4, 1, 1⟩]) (cons_ne_nil _ _) (alwaysRaises_rejects ho _)
  intro h
  obtain ⟨⟨p, detail⟩, ht, hm⟩ := (isShapeCeiling_noPlanFits _ _ _ _ _).mp (h _ hresult)
  obtain ⟨-, hd⟩ := (htried p detail).mp ht
  have hvec : ¬ vecMarker <:+: before (lit "exceeds") leftOverflow := by decide +kernel
  exact hvec ((detail_recognised _ hd).mp hm)

end Search

end ZeCo
