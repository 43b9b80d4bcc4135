import ZeCo.Texts

namespace ZeCo.Text

open List

/-- The zeros of the decimal digits, as of Unicode 15; the nine other digits follow each. -/
def digitZeros : List ℕ :=
  [0x30, 0x660, 0x6f0, 0x7c0, 0x966, 0x9e6, 0xa66, 0xae6, 0xb66, 0xbe6, 0xc66, 0xce6, 0xd66,
    0xde6, 0xe50, 0xed0, 0xf20, 0x1040, 0x1090, 0x17e0, 0x1810, 0x1946, 0x19d0, 0x1a80, 0x1a90,
    0x1b50, 0x1bb0, 0x1c40, 0x1c50, 0xa620, 0xa8d0, 0xa900, 0xa9d0, 0xa9f0, 0xaa50, 0xabf0, 0xff10,
    0x104a0, 0x10d30, 0x11066, 0x110f0, 0x11136, 0x111d0, 0x112f0, 0x11450, 0x114d0, 0x11650,
    0x116c0, 0x11730, 0x118e0, 0x11950, 0x11c50, 0x11d50, 0x11da0, 0x11f50, 0x16a60, 0x16ac0,
    0x16b50, 0x1d7ce, 0x1d7d8, 0x1d7e2, 0x1d7ec, 0x1d7f6, 0x1e140, 0x1e2f0, 0x1e4f0, 0x1e950,
    0x1fbf0]

def decimal (c : Char) : Option ℕ :=
  (digitZeros.find? fun z => z ≤ c.toNat ∧ c.toNat < z + 10).map (c.toNat - ·)

/-- `int` does not take the separators 28 to 31 for spaces, as `str.strip` does. -/
def isIntSpace (c : Char) : Bool := isSpace c && !(28 ≤ c.toNat && c.toNat ≤ 31)

def intStrip (text : Text) : Text := (text.dropWhile isIntSpace).rdropWhile isIntSpace

def digits : Bool → Text → Option (List ℕ)
  | afterDigit, [] => if afterDigit then some [] else none
  | afterDigit, c :: text =>
    if c = '_' then (if afterDigit then digits false text else none) else do
      let d ← decimal c
      let ds ← digits true text
      return d :: ds

def signed : Text → Bool × Text
  | '-' :: text => (true, text)
  | '+' :: text => (false, text)
  | text => (false, text)

def int (maxStrDigits : ℕ) (text : Text) : Option ℤ := do
  let (negative, body) := signed (intStrip text)
  let ds ← digits false body
  if maxStrDigits ≠ 0 ∧ maxStrDigits < ds.length then none
  else
    let n := ds.foldl (fun (n : ℤ) d => 10 * n + d) 0
    if negative then some (-n) else some n

section Spaces

variable {α β : Type*} {p q : α → Bool} {f : List α → β} {x : List α} {a c : α}

theorem dropWhile_invariant (hf : ∀ c x, p c → f (c :: x) = f x) (x : List α) :
    f (x.dropWhile p) = f x := by
  induction x with
  | nil => rfl
  | cons c x ih =>
    rw [dropWhile_cons]
    split
    · next hc => rw [ih, hf c x hc]
    · rfl

theorem rdropWhile_invariant (hf : ∀ c (x : List α), p c → f (x ++ [c]) = f x) (x : List α) :
    f (x.rdropWhile p) = f x := by
  induction x using reverseRecOn with
  | nil => rfl
  | append_singleton x c ih =>
    rw [rdropWhile_concat]
    split
    · next hc => rw [ih, hf c x hc]
    · rfl

theorem trim_invariant (hcons : ∀ c x, p c → f (c :: x) = f x)
    (hconcat : ∀ c (x : List α), p c → f (x ++ [c]) = f x) (x : List α) :
    f ((x.dropWhile p).rdropWhile p) = f x := by
  rw [rdropWhile_invariant hconcat, dropWhile_invariant hcons]

theorem forall_mem_trim {Q : α → Prop} (hQ : ∀ c, p c → Q c) (x : List α) :
    (∀ c ∈ (x.dropWhile p).rdropWhile p, Q c) ↔ ∀ c ∈ x, Q c := by
  apply iff_of_eq
  apply trim_invariant (f := fun x : List α => ∀ c ∈ x, Q c)
  · intro c x hc
    rw [forall_mem_cons, eq_iff_iff]
    exact and_iff_right (hQ c hc)
  · intro c x hc
    rw [forall_mem_append, forall_mem_singleton, eq_iff_iff]
    exact and_iff_left (hQ c hc)

theorem trim_cons (hc : p c) :
    ((c :: x).dropWhile p).rdropWhile p = (x.dropWhile p).rdropWhile p := by
  rw [dropWhile_cons_of_pos hc]

theorem trim_concat (hc : p c) :
    ((x ++ [c]).dropWhile p).rdropWhile p = (x.dropWhile p).rdropWhile p := by
  rw [dropWhile_append]
  split
  · next hx =>
    rw [isEmpty_iff.mp hx, dropWhile_cons_of_pos hc]
    rfl
  · rw [rdropWhile_concat_pos _ _ _ hc]

theorem dropWhile_append_cons (hc : p c = false) (y : List α) :
    (x ++ c :: y).dropWhile p = x.dropWhile p ++ c :: y := by
  rw [dropWhile_append]
  split
  · next hx => rw [isEmpty_iff.mp hx, dropWhile_cons_of_neg (by simp [hc])]; rfl
  · rfl

theorem rdropWhile_append_cons (hc : p c = false) (y : List α) :
    (x ++ c :: y).rdropWhile p = x ++ c :: y.rdropWhile p := by
  rw [rdropWhile, reverse_append, reverse_cons, append_assoc, singleton_append,
    dropWhile_append_cons hc]
  simp [rdropWhile]

theorem takeWhile_append_self [DecidableEq α] (ha : a ∉ x) (y : List α) :
    (x ++ a :: y).takeWhile (· ≠ a) = x ∧ (x ++ a :: y).dropWhile (· ≠ a) = a :: y := by
  have hx (c : α) (hc : c ∈ x) : decide (c ≠ a) = true := by
    apply decide_eq_true
    rintro rfl
    exact ha hc
  constructor
  · rw [takeWhile_append_of_pos hx, takeWhile_cons_of_neg (by simp), append_nil]
  · rw [dropWhile_append_of_pos hx, dropWhile_cons_of_neg (by simp)]

theorem mem_splitOn [DecidableEq α] {y : List α} (hx : x ∈ y.splitOn a) :
    a ∉ x ∧ ∀ c ∈ x, c ∈ y := by
  induction y generalizing x with
  | nil =>
    obtain rfl := mem_singleton.mp hx
    simp
  | cons b y ih =>
    have hrest {x : List α} (hx : x ∈ y.splitOn a) : a ∉ x ∧ ∀ c ∈ x, c ∈ b :: y :=
      ⟨(ih hx).1, fun c hc => mem_cons_of_mem b ((ih hx).2 c hc)⟩
    rw [splitOn_cons_eq_if_modifyHead] at hx
    split at hx
    · rcases mem_cons.mp hx with rfl | hx
      · simp
      · exact hrest hx
    · next hb =>
      cases hy : y.splitOn a with
      | nil => exact absurd hy (splitOn_ne_nil a y)
      | cons t ts =>
        rw [hy] at hx
        rcases mem_cons.mp hx with rfl | hx
        · obtain ⟨ht, hmem⟩ := hrest (hy ▸ mem_cons_self : t ∈ y.splitOn a)
          refine ⟨?_, forall_mem_cons.mpr ⟨mem_cons_self, hmem⟩⟩
          rw [mem_cons, not_or]
          exact ⟨fun h => hb (by simp [h]), ht⟩
        · exact hrest (hy ▸ mem_cons_of_mem t hx)

theorem dropWhile_congr (h : ∀ c ∈ x, p c = q c) : x.dropWhile p = x.dropWhile q := by
  induction x with
  | nil => rfl
  | cons c x ih =>
    rw [dropWhile_cons, dropWhile_cons, h c mem_cons_self,
      ih fun d hd => h d (mem_cons_of_mem c hd)]

theorem rdropWhile_congr (h : ∀ c ∈ x, p c = q c) : x.rdropWhile p = x.rdropWhile q := by
  rw [rdropWhile, rdropWhile, dropWhile_congr fun c hc => h c (mem_reverse.mp hc)]

end Spaces

section Int

variable {maxStrDigits : ℕ} {text : Text} {n : ℤ} {c : Char}

theorem isSpace_of_isIntSpace (hc : isIntSpace c) : isSpace c := by
  unfold isIntSpace at hc
  exact (Bool.and_eq_true_iff.mp hc).1

theorem digitZeros_apart : ∀ z ∈ digitZeros, z = 0x30 ∨ (0x660 ≤ z ∧ z + 10 ≤ 0x1680) ∨
    (0x17e0 ≤ z ∧ z + 10 ≤ 0x2000) ∨ 0xa620 ≤ z := by
  decide

theorem isSpace_of_decimal {d : ℕ} (hd : decimal c = some d) : isSpace c = false := by
  obtain ⟨z, hz, -⟩ := Option.map_eq_some_iff.mp hd
  have hmem := digitZeros_apart z (mem_of_find?_eq_some hz)
  have hc : z ≤ c.toNat ∧ c.toNat < z + 10 := by simpa using find?_some hz
  unfold isSpace
  apply decide_eq_false
  omega

theorem digits_chars {b : Bool} {ds : List ℕ} (h : digits b text = some ds) :
    ∀ c ∈ text, c = '_' ∨ ∃ d, decimal c = some d := by
  induction text generalizing b ds with
  | nil => simp
  | cons c text ih =>
    rw [digits] at h
    rw [forall_mem_cons]
    split at h
    · next hc =>
      split at h
      · exact ⟨.inl hc, ih h⟩
      · cases h
    · obtain ⟨d, hd, h⟩ := Option.bind_eq_some_iff.mp h
      obtain ⟨ds, hds, -⟩ := Option.bind_eq_some_iff.mp h
      exact ⟨.inr ⟨d, hd⟩, ih hds⟩

theorem signed_chars : ∀ c ∈ text, c = '-' ∨ c = '+' ∨ c ∈ (signed text).2 := by
  intro c hc
  unfold signed
  split
  · rcases mem_cons.mp hc with rfl | hc
    · exact .inl rfl
    · exact .inr (.inr hc)
  · rcases mem_cons.mp hc with rfl | hc
    · exact .inr (.inl rfl)
    · exact .inr (.inr hc)
  · exact .inr (.inr hc)

theorem int_chars (h : int maxStrDigits text = some n) :
    ∀ c ∈ intStrip text, isSpace c = false ∧ c ≠ ',' := by
  intro c hc
  obtain ⟨ds, hds, -⟩ := Option.bind_eq_some_iff.mp h
  rcases signed_chars c hc with rfl | rfl | hc
  · decide
  · decide
  · rcases digits_chars hds c hc with rfl | ⟨d, hd⟩
    · decide
    · refine ⟨isSpace_of_decimal hd, ?_⟩
      have hcomma : decimal ',' = none := by decide
      rintro rfl
      rw [hcomma] at hd
      cases hd

theorem intStrip_cons (hc : isIntSpace c) : intStrip (c :: text) = intStrip text := trim_cons hc

theorem intStrip_concat (hc : isIntSpace c) : intStrip (text ++ [c]) = intStrip text :=
  trim_concat hc

theorem int_spaces (h : int maxStrDigits text = some n) :
    ∀ c ∈ text, isSpace c = isIntSpace c ∧ c ≠ ',' := by
  have hspace (c : Char) (hc : isIntSpace c) : isSpace c = isIntSpace c ∧ c ≠ ',' := by
    refine ⟨(isSpace_of_isIntSpace hc).trans hc.symm, ?_⟩
    rintro rfl
    exact absurd hc (by decide)
  -- what `int` skips are spaces of both kinds, and what is left are none of either
  apply (forall_mem_trim hspace text).mp
  intro c hc
  obtain ⟨hs, hne⟩ := int_chars h c hc
  refine ⟨?_, hne⟩
  rw [isIntSpace, hs, Bool.false_and]

theorem int_dropWhile (h : int maxStrDigits text = some n) :
    int maxStrDigits (text.dropWhile isSpace) = some n := by
  rw [dropWhile_congr fun c hc => (int_spaces h c hc).1, ← h]
  exact dropWhile_invariant (fun c x hc => by rw [int, int, intStrip_cons hc]) text

theorem int_rdropWhile (h : int maxStrDigits text = some n) :
    int maxStrDigits (text.rdropWhile isSpace) = some n := by
  rw [rdropWhile_congr fun c hc => (int_spaces h c hc).1, ← h]
  exact rdropWhile_invariant (fun c x hc => by rw [int, int, intStrip_concat hc]) text

theorem int_strip (h : int maxStrDigits text = some n) : int maxStrDigits (strip text) = some n :=
  int_rdropWhile (int_dropWhile h)

theorem mem_of_mem_strip (h : c ∈ strip text) : c ∈ text := by
  have hstart := rdropWhile_prefix isSpace (text.dropWhile isSpace)
  exact (dropWhile_sublist isSpace).subset (hstart.subset h)

end Int

end ZeCo.Text
