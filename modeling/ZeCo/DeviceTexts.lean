import ZeCo.DeviceSpecs

namespace ZeCo

open List

namespace Text

theorem isDigit_bounds {c : Char} (hc : c.isDigit) : 0x30 ≤ c.toNat ∧ c.toNat < 0x30 + 10 := by
  rw [Char.isDigit, Bool.and_eq_true, decide_eq_true_iff, decide_eq_true_iff] at hc
  exact ⟨hc.1, Nat.lt_succ_of_le hc.2⟩

theorem decimal_isDigit {c : Char} (hc : c.isDigit) : decimal c = some (c.toNat - '0'.toNat) := by
  rw [decimal, digitZeros, find?_cons, decide_eq_true (isDigit_bounds hc)]
  rfl

theorem digits_isDigit {text : Text} (htext : ∀ c ∈ text, c.isDigit) :
    digits true text = some (text.map fun c => c.toNat - '0'.toNat) := by
  induction text with
  | nil => rfl
  | cons c text ih =>
    obtain ⟨hc, htext⟩ := forall_mem_cons.mp htext
    have hne : c ≠ '_' := by
      rintro rfl
      exact absurd hc (by decide)
    rw [digits, if_neg hne, decimal_isDigit hc, ih htext]
    rfl

theorem trim_eq_self {α : Type*} {p : α → Bool} {x : List α} (h : ∀ c ∈ x, p c = false) :
    (x.dropWhile p).rdropWhile p = x := by
  have hfalse : ∀ c ∈ x, ¬ p c = true := fun c hc => by simp [h c hc]
  have hdrop : x.dropWhile p = x := by
    cases x with
    | nil => rfl
    | cons c x => exact dropWhile_cons_of_neg (hfalse c mem_cons_self)
  rw [hdrop, rdropWhile_eq_self_iff]
  exact fun hne => hfalse _ (getLast_mem hne)

structure Numeral where
  text : Text
  ne_nil : text ≠ []
  isDigit : ∀ c ∈ text, c.isDigit

def Numeral.value (x : Numeral) : ℕ := Nat.ofDigitChars 10 x.text 0

def Numeral.Reads (maxStrDigits : ℕ) (x : Numeral) : Prop :=
  maxStrDigits = 0 ∨ x.text.length ≤ maxStrDigits

theorem Numeral.isSpace (x : Numeral) : ∀ c ∈ x.text, isSpace c = false := fun c hc =>
  isSpace_of_decimal (decimal_isDigit (x.isDigit c hc))

theorem Numeral.strip_text (x : Numeral) : strip x.text = x.text := trim_eq_self x.isSpace

theorem Numeral.not_mem (x : Numeral) {c : Char} (hc : c.isDigit = false) : c ∉ x.text := by
  intro h
  rw [x.isDigit c h] at hc
  cases hc

theorem foldl_digits (text : Text) (m : ℕ) :
    (text.map fun c => c.toNat - '0'.toNat).foldl (fun (n : ℤ) d => 10 * n + d) m =
      Nat.ofDigitChars 10 text m := by
  induction text generalizing m with
  | nil => rfl
  | cons c text ih =>
    rw [Nat.ofDigitChars_cons, ← ih]
    simp

theorem Numeral.int_text {maxStrDigits : ℕ} {x : Numeral} (h : x.Reads maxStrDigits) :
    int maxStrDigits x.text = some x.value := by
  have hstrip : intStrip x.text = x.text := by
    apply trim_eq_self
    intro c hc
    rw [isIntSpace, x.isSpace c hc, Bool.false_and]
  have hsigned : signed x.text = (false, x.text) := by
    unfold signed
    split
    · next heq => exact absurd (heq ▸ mem_cons_self) (x.not_mem (c := '-') (by decide))
    · next heq => exact absurd (heq ▸ mem_cons_self) (x.not_mem (c := '+') (by decide))
    · rfl
  have hdigits : digits false x.text = some (x.text.map fun c => c.toNat - '0'.toNat) := by
    rw [← digits_isDigit x.isDigit]
    cases hx : x.text with
    | nil => exact absurd hx x.ne_nil
    | cons c text =>
      have hne : c ≠ '_' := by
        rintro rfl
        exact x.not_mem (c := '_') (by decide) (hx ▸ mem_cons_self)
      rw [digits, digits, if_neg hne, if_neg hne]
  have hlen : ¬ (maxStrDigits ≠ 0 ∧ maxStrDigits < x.text.length) := by
    rintro ⟨hne, hlt⟩
    exact h.elim hne fun hle => absurd hlt (Nat.not_lt.mpr hle)
  rw [int, hstrip, hsigned]
  dsimp only
  rw [hdigits]
  simp only [bind, Option.bind, length_map, if_neg hlen, Bool.false_eq_true, if_false]
  exact congrArg some (foldl_digits x.text 0)

def Numeral.padded (zeros n : ℕ) : Numeral where
  text := replicate zeros '0' ++ ofNat n
  ne_nil := append_ne_nil_of_right_ne_nil _ Nat.toDigits_ne_nil
  isDigit := forall_mem_append.mpr ⟨fun _ hc => eq_of_mem_replicate hc ▸ rfl,
    fun _ hc => Nat.isDigit_of_mem_toDigits (by decide) (by decide) hc⟩

theorem Numeral.value_padded (zeros n : ℕ) : (padded zeros n).value = n := by
  change Nat.ofDigitChars 10 (replicate zeros '0' ++ ofNat n) 0 = n
  induction zeros with
  | zero => exact Nat.ofDigitChars_ten_toDigits
  | succ zeros ih =>
    rw [replicate_succ, cons_append, Nat.ofDigitChars_cons]
    exact ih

end Text

namespace DeviceSpecs

open Text
open Raising (bind_ok)

inductive Token
  | blank
  | one (n : Numeral)
  | span (lo hi : Numeral)

def Token.text : Token → Text
  | .blank => []
  | .one n => n.text
  | .span lo hi => lo.text ++ '-' :: hi.text

def Token.ids : Token → List ℤ
  | .blank => []
  | .one n => [(n.value : ℤ)]
  | .span lo hi => range lo.value (hi.value + 1)

def Token.Reads (maxStrDigits : ℕ) : Token → Prop
  | .blank => True
  | .one n => n.Reads maxStrDigits
  | .span lo hi => lo.Reads maxStrDigits ∧ hi.Reads maxStrDigits

def Token.Ordered : Token → Prop
  | .span lo hi => lo.value ≤ hi.value
  | _ => True

def Written (tokens : List Token) (spec : Text) : Prop :=
  ∃ texts, texts ≠ [] ∧ (∀ text ∈ texts, ',' ∉ text) ∧ spec = [','].intercalate texts ∧
    texts.map strip = tokens.map Token.text

section Writing

variable {maxStrDigits : ℕ} {repr : Text → Text} {tokens : List Token} {spec : Text}

theorem Written.pieces (h : Written tokens spec) :
    (spec.splitOn ',').map strip = tokens.map Token.text := by
  obtain ⟨texts, hne, hcomma, rfl, h⟩ := h
  rw [splitOn_intercalate ',' hcomma hne, h]

theorem dash_not_mem (x : Numeral) : '-' ∉ x.text := x.not_mem (by decide)

theorem block_text {t : Token} (h : t.Reads maxStrDigits) :
    block (tokenDevices maxStrDigits) t.text = .ok t.ids := by
  cases t with
  | blank => rfl
  | one n =>
    rw [Token.text, ← n.strip_text]
    exact block_listed (dash_not_mem n) (Numeral.int_text h)
  | span lo hi =>
    rw [Token.text, block, if_neg (by simp)]
    exact tokenDevices_dash (dash_not_mem lo) (Numeral.int_text h.1) (Numeral.int_text h.2)

theorem tryDevices_one {n : Numeral} (h : n.Reads maxStrDigits) :
    tryDevices maxStrDigits repr n.text = .ok [(n.value : ℤ)] := by
  rw [tryDevices, if_neg (dash_not_mem n), callInt_ok.mpr (Numeral.int_text h)]
  rfl

theorem tryDevices_span {lo hi : Numeral} (hlo : lo.Reads maxStrDigits)
    (hhi : hi.Reads maxStrDigits) :
    tryDevices maxStrDigits repr (lo.text ++ '-' :: hi.text) =
      if (hi.value : ℤ) < lo.value then .error (.usageError
        (lit "--device range must be non-decreasing, got " ++ repr (lo.text ++ '-' :: hi.text)))
      else .ok (range lo.value (hi.value + 1)) := by
  obtain ⟨htake, hdrop⟩ := takeWhile_append_self (dash_not_mem lo) hi.text
  have hsplit : splitDash (lo.text ++ '-' :: hi.text) = (lo.text, hi.text) := by
    rw [splitDash, htake, hdrop]
    rfl
  rw [tryDevices, if_pos (by simp), hsplit]
  dsimp only
  rw [callInt_ok.mpr (Numeral.int_text hlo), callInt_ok.mpr (Numeral.int_text hhi)]
  rfl

theorem optionBlock_text {t : Token} (h : t.Reads maxStrDigits) (ids : List ℤ) :
    block (optionDevices maxStrDigits repr) t.text = .ok ids ↔ t.Ordered ∧ ids = t.ids := by
  cases t with
  | blank =>
    change Except.ok [] = Except.ok ids ↔ True ∧ ids = []
    rw [Except.ok.injEq, true_and, eq_comm]
  | one n =>
    rw [Token.text, block, if_neg n.ne_nil, optionDevices, tryDevices_one h]
    change Except.ok _ = Except.ok ids ↔ True ∧ ids = _
    rw [Except.ok.injEq, true_and, eq_comm]
    rfl
  | span lo hi =>
    rw [Token.text, block, if_neg (by simp), optionDevices, tryDevices_span h.1 h.2]
    by_cases hlt : hi.value < lo.value
    · rw [if_pos (Int.ofNat_lt.mpr hlt)]
      constructor
      · intro herror
        cases herror
      · intro h
        exact absurd h.1 (Nat.not_le.mpr hlt)
    · rw [if_neg (mt Int.ofNat_lt.mp hlt)]
      change Except.ok _ = Except.ok ids ↔
        lo.value ≤ hi.value ∧ ids = range lo.value (hi.value + 1)
      rw [Except.ok.injEq, and_iff_right (Nat.not_lt.mp hlt), eq_comm]

theorem forall₂_texts {ids : Text → Except Exn (List ℤ)} {good : Token → Prop}
    (hids : ∀ t ∈ tokens, ∀ more, block ids t.text = .ok more ↔ good t ∧ more = t.ids)
    {blocks : List (List ℤ)} :
    Forall₂ (fun text more => block ids text = .ok more) (tokens.map Token.text) blocks ↔
      (∀ t ∈ tokens, good t) ∧ blocks = tokens.map Token.ids := by
  induction tokens generalizing blocks with
  | nil => simp
  | cons t tokens ih =>
    obtain ⟨ht, htokens⟩ := forall_mem_cons.mp hids
    rw [map_cons, forall₂_cons_left_iff]
    simp only [ht, ih htokens, forall_mem_cons, map_cons]
    constructor
    · rintro ⟨_, _, ⟨hg, rfl⟩, ⟨hgs, rfl⟩, rfl⟩
      exact ⟨⟨hg, hgs⟩, rfl⟩
    · rintro ⟨⟨hg, hgs⟩, rfl⟩
      exact ⟨_, _, ⟨hg, rfl⟩, ⟨hgs, rfl⟩, rfl⟩

theorem Written.eachToken_ok (h : Written tokens spec) {ids : Text → Except Exn (List ℤ)}
    {good : Token → Prop}
    (hids : ∀ t ∈ tokens, ∀ more, block ids t.text = .ok more ↔ good t ∧ more = t.ids)
    {devices : List ℤ} : eachToken ids spec = .ok devices ↔
      (∀ t ∈ tokens, good t) ∧ devices = tokens.flatMap Token.ids := by
  rw [DeviceSpecs.eachToken_ok, h.pieces]
  simp only [forall₂_texts hids, flatMap_def]
  constructor
  · rintro ⟨_, ⟨hgood, rfl⟩, rfl⟩
    exact ⟨hgood, rfl⟩
  · rintro ⟨hgood, rfl⟩
    exact ⟨_, ⟨hgood, rfl⟩, rfl⟩

def Plain (tokens : List Token) : Prop :=
  (∃ ns : List Numeral, tokens = ns.map .one) ∨ ∃ lo hi, tokens = [.span lo hi]

theorem mem_intercalate {α : Type*} {a c : α} {xs : List (List α)} (h : c ∈ [a].intercalate xs) :
    c = a ∨ ∃ x ∈ xs, c ∈ x := by
  induction xs with
  | nil => exact absurd h not_mem_nil
  | cons x xs ih =>
    cases xs with
    | nil =>
      rw [intercalate_singleton] at h
      exact .inr ⟨x, mem_cons_self, h⟩
    | cons y xs =>
      rw [intercalate_cons_cons, mem_append, mem_append] at h
      rcases h with (h | h) | h
      · exact .inr ⟨x, mem_cons_self, h⟩
      · exact .inl (mem_singleton.mp h)
      · exact (ih h).imp_right fun ⟨z, hz, hc⟩ => ⟨z, mem_cons_of_mem x hz, hc⟩

theorem rangeDevices_span {lo hi : Numeral} (hlo : lo.Reads maxStrDigits)
    (hhi : hi.Reads maxStrDigits) :
    rangeDevices maxStrDigits (lo.text ++ '-' :: hi.text) =
      .ok (range lo.value (hi.value + 1)) := by
  rw [rangeDevices, if_pos (by simp), splitOn_append_cons_self_of_not_mem (dash_not_mem lo),
    splitOn_eq_singleton (dash_not_mem hi), unpackInts, callInt_ok.mpr (Numeral.int_text hlo),
    callInt_ok.mpr (Numeral.int_text hhi)]
  rfl

theorem rangeDevices_ones {ns : List Numeral} (hne : ns ≠ [])
    (hreads : ∀ n ∈ ns, n.Reads maxStrDigits) :
    rangeDevices maxStrDigits ([','].intercalate (ns.map Numeral.text)) =
      .ok (ns.map fun n => (n.value : ℤ)) := by
  have hdash : '-' ∉ [','].intercalate (ns.map Numeral.text) := by
    intro h
    rcases mem_intercalate h with h | ⟨_, hx, h⟩
    · exact absurd h (by decide)
    · obtain ⟨n, -, rfl⟩ := mem_map.mp hx
      exact dash_not_mem n h
  have hcomma : ∀ text ∈ ns.map Numeral.text, ',' ∉ text :=
    forall_mem_map.mpr fun n _ => n.not_mem (by decide)
  have hfull : ∀ text ∈ ns.map Numeral.text, decide (text ≠ []) = true :=
    forall_mem_map.mpr fun n _ => decide_eq_true n.ne_nil
  rw [rangeDevices_listed hdash, listed, splitOn_intercalate ',' hcomma (by simpa using hne),
    filter_eq_self.mpr hfull, map_map, map_map]
  exact map_congr_left fun n hn => Numeral.int_text (hreads n hn)

theorem rangeDevices_written (hplain : Plain tokens) (hne : tokens ≠ [])
    (hreads : ∀ t ∈ tokens, t.Reads maxStrDigits) :
    rangeDevices maxStrDigits ([','].intercalate (tokens.map Token.text)) =
      .ok (tokens.flatMap Token.ids) := by
  rcases hplain with ⟨ns, rfl⟩ | ⟨lo, hi, rfl⟩
  · have htexts : (ns.map Token.one).map Token.text = ns.map Numeral.text := map_map
    have hids : (ns.map Token.one).flatMap Token.ids = ns.map fun n => (n.value : ℤ) := by
      rw [flatMap_map]
      exact flatMap_pure_eq_map _ ns
    rw [htexts, hids]
    exact rangeDevices_ones (by simpa using hne) fun n hn => hreads _ (mem_map_of_mem hn)
  · have hspan := hreads _ mem_cons_self
    rw [map_singleton, intercalate_singleton, flatMap_singleton]
    exact rangeDevices_span hspan.1 hspan.2

theorem Written.ne_nil (h : Written tokens spec) : tokens ≠ [] := by
  rintro rfl
  obtain ⟨texts, hne, -, -, hpieces⟩ := h
  exact hne (map_eq_nil_iff.mp hpieces)

/-- A spec that was written out: the harness takes every one, `conftest` those that name a device
and have no range that runs backwards, and the command line of `simpler`, of ids or one range
without blanks, those of 2 to 16 devices. -/
theorem devices_roundTrip (h : Written tokens spec) (hreads : ∀ t ∈ tokens, t.Reads maxStrDigits) :
    parseDevices maxStrDigits spec = .ok (fromkeys (tokens.flatMap Token.ids)) ∧
      (∀ devices, parseDeviceOption maxStrDigits repr spec = .ok devices ↔
        (∀ t ∈ tokens, t.Ordered) ∧ tokens.flatMap Token.ids ≠ [] ∧
          devices = fromkeys (tokens.flatMap Token.ids)) ∧
      (Plain tokens → spec = [','].intercalate (tokens.map Token.text) →
        ∀ devices, parseDeviceRange maxStrDigits spec = .ok devices ↔
          devices = tokens.flatMap Token.ids ∧ 2 ≤ devices.length ∧ devices.length ≤ 16) := by
  have htokens : eachToken (tokenDevices maxStrDigits) spec =
      .ok (tokens.flatMap Token.ids) := by
    have hblock (t : Token) (ht : t ∈ tokens) (more : List ℤ) :
        block (tokenDevices maxStrDigits) t.text = .ok more ↔ True ∧ more = t.ids := by
      rw [block_text (hreads t ht), Except.ok.injEq, true_and, eq_comm]
    exact (h.eachToken_ok hblock).mpr ⟨fun _ _ => trivial, rfl⟩
  have hoption (devices : List ℤ) : eachToken (optionDevices maxStrDigits repr) spec = .ok devices ↔
      (∀ t ∈ tokens, t.Ordered) ∧ devices = tokens.flatMap Token.ids :=
    h.eachToken_ok fun t ht more => optionBlock_text (hreads t ht) more
  refine ⟨bind_ok.mpr ⟨_, htokens, rfl⟩, fun devices => ?_, fun hplain hspec devices => ?_⟩
  swap
  · rw [parseDeviceRange_ok, hspec, rangeDevices_written hplain h.ne_nil hreads, Except.ok.injEq,
      eq_comm]
  rw [parseDeviceOption]
  split
  · next hblank =>
    -- a blank spec has no devices
    rw [← eachToken_strip, hblank] at htokens
    exact ⟨nofun, fun hdevices => absurd (Except.ok.inj htokens).symm hdevices.2.1⟩
  · rw [bind_ok, eachToken_strip]
    constructor
    · rintro ⟨ids, hids, hdevices⟩
      obtain ⟨hordered, rfl⟩ := (hoption ids).mp hids
      split at hdevices
      · cases hdevices
      · next hne => exact ⟨hordered, hne, (Except.ok.inj hdevices).symm⟩
    · rintro ⟨hordered, hne, rfl⟩
      exact ⟨_, (hoption _).mpr ⟨hordered, rfl⟩, by rw [if_neg hne]; rfl⟩

theorem devices_roundTrip_mixed :
    parseDevices 4300 (lit " 03,,0-03") = .ok [3, 0, 1, 2] ∧
      parseDeviceOption 4300 id (lit " 03,,0-03") = .ok [3, 0, 1, 2] := by
  have hthree : ofNat 3 = ['3'] := Nat.toDigits_of_lt_base (by decide)
  have hzero : ofNat 0 = ['0'] := Nat.toDigits_of_lt_base (by decide)
  have hwritten : Written [.one (.padded 1 3), .blank, .span (.padded 0 0) (.padded 1 3)]
      (lit " 03,,0-03") := by
    refine ⟨[lit " 03", [], lit "0-03"], by decide, by decide +kernel, by decide +kernel, ?_⟩
    simp only [map_cons, map_nil, Token.text, Numeral.padded, hthree, hzero]
    decide +kernel
  have hreads : ∀ t ∈ [Token.one (.padded 1 3), .blank, .span (.padded 0 0) (.padded 1 3)],
      t.Reads 4300 := by
    simp [Token.Reads, Numeral.Reads, Numeral.padded, hthree, hzero]
  obtain ⟨hparse, hoption, -⟩ := @devices_roundTrip 4300 id _ _ hwritten hreads
  have hids : [Token.one (.padded 1 3), .blank, .span (.padded 0 0) (.padded 1 3)].flatMap
      Token.ids = [3, 0, 1, 2, 3] := by
    simp only [flatMap_cons, flatMap_nil, Token.ids, Numeral.value_padded]
    decide
  rw [hids] at hparse hoption
  refine ⟨hparse, (hoption _).mpr ⟨?_, by decide, by decide⟩⟩
  simp [Token.Ordered, Numeral.value_padded]

end Writing

end DeviceSpecs

end ZeCo
