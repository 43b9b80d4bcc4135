import Mathlib.Data.Option.Basic
import ZeCo.TextInts
import ZeCo.BlockingPlans
import ZeCo.Raising

namespace ZeCo.DeviceSpecs

open List Text
open Raising (bind_ok mapM_ok foldlM_append_ok)

section Parsers

variable (maxStrDigits : ℕ) (repr : Text → Text)

/-- A `ValueError` of the interpreter itself has its own message. -/
inductive Exn
  | valueError (message : Option Text)
  | usageError (message : Text)
  deriving DecidableEq

def callInt (text : Text) : Except Exn ℤ :=
  match int maxStrDigits text with
  | some n => .ok n
  | none => .error (.valueError none)

def range (a b : ℤ) : List ℤ := (List.range (b - a).toNat).map fun i : ℕ => a + i

def splitDash (token : Text) : Text × Text :=
  (token.takeWhile (· ≠ '-'), (token.dropWhile (· ≠ '-')).drop 1)

def addToken (ids : Text → Except Exn (List ℤ)) (devices : List ℤ) (token : Text) :
    Except Exn (List ℤ) :=
  if token = [] then .ok devices else do
    let more ← ids token
    return devices ++ more

def eachToken (ids : Text → Except Exn (List ℤ)) (text : Text) : Except Exn (List ℤ) :=
  (text.splitOn ',').foldlM (fun devices token => addToken ids devices (strip token)) []

def tokenDevices (token : Text) : Except Exn (List ℤ) :=
  if '-' ∈ token then do
    let (a, b) := splitDash token
    let a ← callInt maxStrDigits a
    let b ← callInt maxStrDigits b
    return range a (b + 1)
  else do
    let n ← callInt maxStrDigits token
    return [n]

def parseDevices (raw : Text) : Except Exn (List ℤ) := do
  let devices ← eachToken (tokenDevices maxStrDigits) raw
  return fromkeys devices

def tryDevices (token : Text) : Except Exn (List ℤ) :=
  if '-' ∈ token then do
    let (startStr, endStr) := splitDash token
    let start ← callInt maxStrDigits startStr
    let stop ← callInt maxStrDigits endStr
    if stop < start then
      .error (.usageError (lit "--device range must be non-decreasing, got " ++ repr token))
    else
      return range start (stop + 1)
  else do
    let n ← callInt maxStrDigits token
    return [n]

def optionDevices (token : Text) : Except Exn (List ℤ) :=
  match tryDevices maxStrDigits repr token with
  | .error (.valueError _) =>
    .error (.usageError (lit "Invalid device ID or range in --device: " ++ repr token))
  | tried => tried

def parseDeviceOption (raw : Text) : Except Exn (List ℤ) :=
  let text := strip raw
  if text = [] then .error (.usageError (lit "--device must not be empty")) else do
    let devices ← eachToken (optionDevices maxStrDigits repr) text
    if devices = [] then
      .error (.usageError (lit "--device yielded no device ids: " ++ repr raw))
    else
      return fromkeys devices

def ofInt (n : ℤ) : Text := if n < 0 then '-' :: ofNat n.natAbs else ofNat n.natAbs

def listText (ids : List ℤ) : Text := lit "[" ++ (join (lit ", ") (ids.map ofInt) ++ lit "]")

/-- `lo, hi = (int(x) for x in ...)`: a third value is read before there are too many. -/
def unpackInts : List Text → Except Exn (ℤ × ℤ)
  | [x, y] => do
    let lo ← callInt maxStrDigits x
    let hi ← callInt maxStrDigits y
    return (lo, hi)
  | x :: y :: z :: _ => do
    let _ ← callInt maxStrDigits x
    let _ ← callInt maxStrDigits y
    let _ ← callInt maxStrDigits z
    .error (.valueError none)
  | xs => do
    let _ ← xs.mapM (callInt maxStrDigits)
    .error (.valueError none)

def listed (spec : Text) : List Text := (spec.splitOn ',').filter (· ≠ [])

def rangeDevices (spec : Text) : Except Exn (List ℤ) :=
  if '-' ∈ spec then do
    let (lo, hi) ← unpackInts maxStrDigits (spec.splitOn '-')
    return range lo (hi + 1)
  else (listed spec).mapM (callInt maxStrDigits)

def parseDeviceRange (spec : Text) : Except Exn (List ℤ) := do
  let ids ← rangeDevices maxStrDigits spec
  if 2 ≤ ids.length ∧ ids.length ≤ 16 then return ids
  else
    .error (.valueError (some (lit "allscan needs between 2 and 16 devices, got " ++
      (ofNat ids.length ++ (lit " (" ++ (listText ids ++ lit ")"))))))

end Parsers

section Tokens

variable {ids : Text → Except Exn (List ℤ)} {text : Text} {c : Char}

theorem splitOn_concat (hc : c ≠ ',') (text : Text) : ∃ tokens last,
    text.splitOn ',' = tokens ++ [last] ∧
      (text ++ [c]).splitOn ',' = tokens ++ [last ++ [c]] := by
  induction text with
  | nil => exact ⟨[], [], rfl, splitOn_eq_singleton (by simpa using hc.symm)⟩
  | cons x text ih =>
    obtain ⟨tokens, last, h, hc⟩ := ih
    rw [cons_append, splitOn_cons_eq_if_modifyHead, splitOn_cons_eq_if_modifyHead, h, hc]
    split
    · exact ⟨[] :: tokens, last, rfl, rfl⟩
    · cases tokens with
      | nil => exact ⟨[], x :: last, rfl, rfl⟩
      | cons token tokens => exact ⟨(x :: token) :: tokens, last, rfl, rfl⟩

theorem map_strip_splitOn (text : Text) :
    ((strip text).splitOn ',').map strip = (text.splitOn ',').map strip := by
  have hne {c : Char} (hc : isSpace c) : c ≠ ',' := by
    rintro rfl
    exact absurd hc (by decide)
  apply trim_invariant (f := fun x : Text => (x.splitOn ',').map strip)
  · intro c x hc
    rw [splitOn_cons_eq_if_modifyHead, if_neg (by simpa using hne hc)]
    cases hx : x.splitOn ',' with
    | nil => rfl
    | cons token tokens => exact congrArg (· :: tokens.map strip) (trim_cons hc)
  · intro c x hc
    obtain ⟨tokens, last, hx, hxc⟩ := splitOn_concat (hne hc) x
    have hlast : strip (last ++ [c]) = strip last := trim_concat hc
    rw [hx, hxc, map_append, map_append, map_singleton, map_singleton, hlast]

def block (ids : Text → Except Exn (List ℤ)) (token : Text) : Except Exn (List ℤ) :=
  if token = [] then .ok [] else ids token

theorem addToken_eq (ids : Text → Except Exn (List ℤ)) (devices : List ℤ) (token : Text) :
    addToken ids devices token = (do
      let more ← block ids token
      return devices ++ more) := by
  unfold addToken block
  split
  · exact congrArg Except.ok (append_nil devices).symm
  · rfl

theorem eachToken_eq (ids : Text → Except Exn (List ℤ)) (text : Text) :
    eachToken ids text = ((text.splitOn ',').map strip).foldlM (addToken ids) [] :=
  foldlM_map.symm

theorem eachToken_ok {devices : List ℤ} : eachToken ids text = .ok devices ↔
    ∃ blocks, Forall₂ (fun token more => block ids token = .ok more)
      ((text.splitOn ',').map strip) blocks ∧ blocks.flatten = devices := by
  rw [eachToken_eq, funext₂ (addToken_eq ids), foldlM_append_ok]
  rfl

theorem eachToken_strip : eachToken ids (strip text) = eachToken ids text := by
  rw [eachToken_eq, eachToken_eq, map_strip_splitOn]

theorem eachToken_mono {ids' : Text → Except Exn (List ℤ)} {devices : List ℤ}
    (h : ∀ token more, ids token = .ok more → ids' token = .ok more)
    (hd : eachToken ids text = .ok devices) : eachToken ids' text = .ok devices := by
  obtain ⟨blocks, hblocks, hd⟩ := eachToken_ok.mp hd
  refine eachToken_ok.mpr ⟨blocks, hblocks.imp fun token more hm => ?_, hd⟩
  unfold block at hm ⊢
  split at hm
  · next ht => rw [if_pos ht, hm]
  · next ht => rw [if_neg ht, h token more hm]

end Tokens

section Agreement

variable {maxStrDigits : ℕ} {repr : Text → Text} {text : Text} {ids : List ℤ}

theorem callInt_ok {n : ℤ} : callInt maxStrDigits text = .ok n ↔
    int maxStrDigits text = some n := by
  unfold callInt
  split
  · next m hm => rw [hm, Except.ok.injEq, Option.some.injEq]
  · next hm => rw [hm]; exact ⟨nofun, nofun⟩

theorem tokenDevices_of_option (h : optionDevices maxStrDigits repr text = .ok ids) :
    tokenDevices maxStrDigits text = .ok ids := by
  have htry : tryDevices maxStrDigits repr text = .ok ids := by
    unfold optionDevices at h
    split at h
    · cases h
    · exact h
  unfold tryDevices at htry
  unfold tokenDevices
  split at htry
  · next hd =>
    rw [if_pos hd]
    obtain ⟨a, ha, htry⟩ := bind_ok.mp htry
    obtain ⟨b, hb, htry⟩ := bind_ok.mp htry
    split at htry
    · cases htry
    · exact bind_ok.mpr ⟨a, ha, bind_ok.mpr ⟨b, hb, htry⟩⟩
  · next hd =>
    rw [if_neg hd]
    exact htry

theorem parseDevices_of_option (h : parseDeviceOption maxStrDigits repr text = .ok ids) :
    parseDevices maxStrDigits text = .ok ids := by
  dsimp only [parseDeviceOption] at h
  split at h
  · cases h
  · obtain ⟨devices, hd, h⟩ := bind_ok.mp h
    split at h
    · cases h
    · rw [eachToken_strip] at hd
      exact bind_ok.mpr ⟨devices, eachToken_mono (fun _ _ => tokenDevices_of_option) hd, h⟩

theorem parseDeviceRange_ok : parseDeviceRange maxStrDigits text = .ok ids ↔
    rangeDevices maxStrDigits text = .ok ids ∧ 2 ≤ ids.length ∧ ids.length ≤ 16 := by
  unfold parseDeviceRange
  rw [bind_ok]
  constructor
  · rintro ⟨ids, h, hids⟩
    split at hids
    · next hl =>
      obtain rfl := Except.ok.inj hids
      exact ⟨h, hl⟩
    · cases hids
  · rintro ⟨h, hl⟩
    exact ⟨ids, h, by rw [if_pos hl]; rfl⟩

theorem range_nodup (a b : ℤ) : (range a b).Nodup :=
  nodup_range.map fun _ _ h => Int.ofNat_inj.mp (Int.add_left_cancel h)

theorem unpackInts_ok {xs : List Text} {lo hi : ℤ}
    (h : unpackInts maxStrDigits xs = .ok (lo, hi)) :
    ∃ x y, xs = [x, y] ∧ int maxStrDigits x = some lo ∧ int maxStrDigits y = some hi := by
  unfold unpackInts at h
  split at h
  · next x y =>
    obtain ⟨a, ha, h⟩ := bind_ok.mp h
    obtain ⟨b, hb, ⟨⟩⟩ := bind_ok.mp h
    exact ⟨x, y, rfl, callInt_ok.mp ha, callInt_ok.mp hb⟩
  · obtain ⟨a, -, h⟩ := bind_ok.mp h
    obtain ⟨b, -, h⟩ := bind_ok.mp h
    obtain ⟨c, -, ⟨⟩⟩ := bind_ok.mp h
  · obtain ⟨a, -, ⟨⟩⟩ := bind_ok.mp h

theorem tokenDevices_dash {x y : Text} {lo hi : ℤ} (hd : '-' ∉ x)
    (hx : int maxStrDigits x = some lo) (hy : int maxStrDigits y = some hi) :
    tokenDevices maxStrDigits (x ++ '-' :: y) = .ok (range lo (hi + 1)) := by
  obtain ⟨htake, hdrop⟩ := takeWhile_append_self hd y
  unfold tokenDevices splitDash
  rw [if_pos (by simp), htake, hdrop]
  exact bind_ok.mpr ⟨lo, callInt_ok.mpr hx, bind_ok.mpr ⟨hi, callInt_ok.mpr hy, rfl⟩⟩

theorem eachToken_dash {x y : Text} {lo hi : ℤ} (hd : '-' ∉ x)
    (hx : int maxStrDigits x = some lo) (hy : int maxStrDigits y = some hi) :
    eachToken (tokenDevices maxStrDigits) (x ++ '-' :: y) = .ok (range lo (hi + 1)) := by
  have hcomma : ',' ∉ x ++ '-' :: y := by
    rw [mem_append, mem_cons, not_or, not_or]
    exact ⟨fun h => (int_spaces hx _ h).2 rfl, by decide, fun h => (int_spaces hy _ h).2 rfl⟩
  -- so the whole spec is one token, and its blanks are those of the two numbers
  have hspace : isSpace '-' = false := by decide
  have hstrip : strip (x ++ '-' :: y) = x.dropWhile isSpace ++ '-' :: y.rdropWhile isSpace := by
    rw [strip, dropWhile_append_cons hspace, rdropWhile_append_cons hspace]
  rw [eachToken_ok, splitOn_eq_singleton hcomma, map_singleton, hstrip]
  refine ⟨[range lo (hi + 1)], Forall₂.cons ?_ Forall₂.nil, append_nil _⟩
  rw [block, if_neg (by simp)]
  exact tokenDevices_dash (fun h => hd ((dropWhile_sublist _).subset h)) (int_dropWhile hx)
    (int_rdropWhile hy)

theorem block_listed {x : Text} {n : ℤ} (hd : '-' ∉ x) (hx : int maxStrDigits x = some n) :
    block (tokenDevices maxStrDigits) (strip x) = .ok [n] := by
  have hs := int_strip hx
  have hne : strip x ≠ [] := by
    intro h
    rw [h] at hs
    cases hs
  have hd' : '-' ∉ strip x := fun h => hd (mem_of_mem_strip h)
  rw [block, if_neg hne, tokenDevices, if_neg hd']
  exact bind_ok.mpr ⟨n, callInt_ok.mpr hs, rfl⟩

theorem blocks_listed {tokens : List Text} (hd : ∀ x ∈ tokens, '-' ∉ x)
    (h : Forall₂ (fun x n => callInt maxStrDigits x = .ok n) (tokens.filter (· ≠ [])) ids) :
    ∃ blocks, Forall₂ (fun token more => block (tokenDevices maxStrDigits) token = .ok more)
      (tokens.map strip) blocks ∧ blocks.flatten = ids := by
  induction tokens generalizing ids with
  | nil =>
    obtain rfl := forall₂_nil_left_iff.mp h
    exact ⟨[], Forall₂.nil, rfl⟩
  | cons x tokens ih =>
    obtain ⟨hdx, hdt⟩ := forall_mem_cons.mp hd
    by_cases hx : x = []
    · rw [filter_cons_of_neg (by simpa using hx)] at h
      obtain ⟨blocks, hb, hids⟩ := ih hdt h
      have hblock : block (tokenDevices maxStrDigits) (strip x) = .ok [] := by rw [hx]; rfl
      exact ⟨[] :: blocks, hb.cons hblock, hids⟩
    · rw [filter_cons_of_pos (by simpa using hx)] at h
      obtain ⟨n, ns, hn, hns, rfl⟩ := forall₂_cons_left_iff.mp h
      obtain ⟨blocks, hb, rfl⟩ := ih hdt hns
      exact ⟨[n] :: blocks, hb.cons (block_listed hdx (callInt_ok.mp hn)), rfl⟩

theorem eachToken_of_range (h : rangeDevices maxStrDigits text = .ok ids) :
    eachToken (tokenDevices maxStrDigits) text = .ok ids := by
  unfold rangeDevices at h
  split at h
  · obtain ⟨⟨lo, hi⟩, hu, ⟨⟩⟩ := bind_ok.mp h
    obtain ⟨x, y, hxy, hx, hy⟩ := unpackInts_ok hu
    have htext : text = x ++ '-' :: y := by
      have hjoin : intercalate ['-'] (text.splitOn '-') = text := intercalate_splitOn '-'
      rw [hxy] at hjoin
      rw [← hjoin]
      simp [intercalate]
    rw [htext]
    exact eachToken_dash (mem_splitOn (hxy ▸ mem_cons_self : x ∈ text.splitOn '-')).1 hx hy
  · next hd =>
    exact eachToken_ok.mpr
      (blocks_listed (fun x hx h => hd ((mem_splitOn hx).2 _ h)) (mapM_ok.mp h))

theorem parseDevices_of_range (h : rangeDevices maxStrDigits text = .ok ids) :
    parseDevices maxStrDigits text = .ok (fromkeys ids) :=
  bind_ok.mpr ⟨ids, eachToken_of_range h, rfl⟩

theorem rangeDevices_nodup (hd : '-' ∈ text) (h : rangeDevices maxStrDigits text = .ok ids) :
    ids.Nodup := by
  rw [rangeDevices, if_pos hd] at h
  obtain ⟨⟨lo, hi⟩, -, ⟨⟩⟩ := bind_ok.mp h
  exact range_nodup lo (hi + 1)

theorem rangeDevices_listed (hd : '-' ∉ text) : rangeDevices maxStrDigits text = .ok ids ↔
    (listed text).map (int maxStrDigits) = ids.map some := by
  rw [rangeDevices, if_neg hd, mapM_ok, ← forall₂_eq_eq_eq, forall₂_map_left_iff,
    forall₂_map_right_iff]
  simp only [callInt_ok]

def RepeatsId (maxStrDigits : ℕ) (spec : Text) : Prop :=
  '-' ∉ spec ∧ (∀ x ∈ listed spec, int maxStrDigits x ≠ none) ∧
    2 ≤ (listed spec).length ∧ (listed spec).length ≤ 16 ∧
    ¬ ((listed spec).map (int maxStrDigits)).Nodup

theorem repeatsId_iff : RepeatsId maxStrDigits text ↔
    ∃ ids, parseDeviceRange maxStrDigits text = .ok ids ∧ ¬ ids.Nodup := by
  have hsome := Option.some_injective ℤ
  simp only [parseDeviceRange_ok]
  constructor
  · rintro ⟨hd, hint, h2, h16, hnd⟩
    let ids := (listed text).map fun x => (int maxStrDigits x).getD 0
    have hids : (listed text).map (int maxStrDigits) = ids.map some := by
      rw [map_map]
      apply map_congr_left
      intro x hx
      obtain ⟨n, hn⟩ := Option.ne_none_iff_exists'.mp (hint x hx)
      simp [hn]
    have hlen : (listed text).length = ids.length := by simpa using congrArg length hids
    rw [hids, nodup_map_iff hsome] at hnd
    exact ⟨ids, ⟨(rangeDevices_listed hd).mpr hids, hlen ▸ h2, hlen ▸ h16⟩, hnd⟩
  · rintro ⟨ids, ⟨h, h2, h16⟩, hnd⟩
    have hd : '-' ∉ text := fun hd => hnd (rangeDevices_nodup hd h)
    have hids := (rangeDevices_listed hd).mp h
    have hlen : (listed text).length = ids.length := by simpa using congrArg length hids
    refine ⟨hd, fun x hx hnone => ?_, hlen ▸ h2, hlen ▸ h16, ?_⟩
    · have hmem := hids ▸ mem_map_of_mem (f := int maxStrDigits) hx
      simp [hnone] at hmem
    · rw [hids, nodup_map_iff hsome]
      exact hnd

structure Agrees (maxStrDigits : ℕ) (repr : Text → Text) (text : Text) : Prop where
  option : ∀ ids, parseDeviceOption maxStrDigits repr text = .ok ids →
    parseDevices maxStrDigits text = .ok ids ∧ ids.Nodup
  range : ∀ ids, parseDeviceRange maxStrDigits text = .ok ids →
    parseDevices maxStrDigits text = .ok ids ∧ ids.Nodup

theorem parsers_agree : Agrees maxStrDigits repr text ↔ ¬ RepeatsId maxStrDigits text := by
  rw [repeatsId_iff]
  constructor
  · rintro h ⟨ids, hids, hnd⟩
    exact hnd (h.range ids hids).2
  · intro h
    refine ⟨fun ids hids => ?_, fun ids hids => ?_⟩
    · have hp := parseDevices_of_option hids
      obtain ⟨devices, -, ⟨⟩⟩ := bind_ok.mp hp
      exact ⟨hp, nodup_fromkeys devices⟩
    · have hnd : ids.Nodup := by
        by_contra hnd
        exact h ⟨ids, hids, hnd⟩
      rw [parseDevices_of_range (parseDeviceRange_ok.mp hids).1, fromkeys_eq_self hnd]
      exact ⟨rfl, hnd⟩

theorem repeated_id :
    parseDeviceRange 4300 (lit "0,0") = .ok [0, 0] ∧ parseDevices 4300 (lit "0,0") = .ok [0] ∧
      ¬ Agrees 4300 id (lit "0,0") := by
  have hrange : parseDeviceRange 4300 (lit "0,0") = .ok [0, 0] := by decide +kernel
  refine ⟨hrange, by decide +kernel, fun h => ?_⟩
  exact absurd (h.range _ hrange).2 (by decide)

end Agreement

end ZeCo.DeviceSpecs
