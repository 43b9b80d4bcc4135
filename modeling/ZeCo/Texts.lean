import Mathlib.Data.List.Basic
import Mathlib.Data.List.DropRight
import Mathlib.Data.List.Infix

namespace ZeCo

open List

abbrev Text := List Char

namespace Text

/-- A literal; sealed, so that only the kernel spells it out. -/
@[irreducible] def lit (s : String) : Text := s.toList

def isSpace (c : Char) : Bool :=
  let n := c.toNat
  (9 ≤ n ∧ n ≤ 13) ∨ (28 ≤ n ∧ n ≤ 32) ∨ n = 0x85 ∨ n = 0xA0 ∨ n = 0x1680 ∨
    (0x2000 ≤ n ∧ n ≤ 0x200A) ∨ n = 0x2028 ∨ n = 0x2029 ∨ n = 0x202F ∨ n = 0x205F ∨ n = 0x3000

def strip (text : Text) : Text := (text.dropWhile isSpace).rdropWhile isSpace

def before (sep : Text) : Text → Text
  | [] => []
  | c :: text => if sep <+: c :: text then [] else c :: before sep text

def join (sep : Text) : List Text → Text
  | [] => []
  | [x] => x
  | x :: y :: xs => x ++ (sep ++ join sep (y :: xs))

def ofNat (n : ℕ) : Text := Nat.toDigits 10 n

section Occurrences

variable {α : Type*} {l xs ys : List α} {a c : α}

theorem not_infix_of_not_mem (hl : c ∈ l) (h : c ∉ xs) : ¬ l <:+: xs := fun hi => h (hi.subset hl)

theorem infix_cons_of_ne (h : a ≠ c) : a :: l <:+: c :: xs ↔ a :: l <:+: xs := by
  rw [infix_cons_iff]
  constructor
  · rintro (hp | hi)
    · exact absurd (cons_prefix_cons.mp hp).1 h
    · exact hi
  · exact Or.inr

theorem infix_append_cons (h : c ∉ l) : l <:+: xs ++ c :: ys ↔ l <:+: xs ∨ l <:+: ys := by
  induction xs with
  | nil =>
    cases l with
    | nil => simp
    | cons a l =>
      have hne : a ≠ c := by
        rintro rfl
        exact h mem_cons_self
      rw [nil_append, infix_cons_of_ne hne]
      simp
  | cons x xs ih =>
    rw [cons_append, infix_cons_iff, ih, infix_cons_iff, or_assoc]
    -- a prefix that does not contain `c` ends before it
    have hp : l <+: x :: (xs ++ c :: ys) ↔ l <+: x :: xs := by
      constructor
      · intro hp
        rcases prefix_or_prefix_of_prefix hp (prefix_append (x :: xs) (c :: ys)) with hl | hl
        · exact hl
        · obtain ⟨t, rfl⟩ := hl
          have ht : t <+: c :: ys := by
            rw [← cons_append] at hp
            exact (prefix_append_right_inj _).mp hp
          cases t with
          | nil => simp
          | cons b t => exact absurd (by simp [(cons_prefix_cons.mp ht).1]) h
      · intro hp
        exact hp.trans (prefix_append (x :: xs) (c :: ys))
    rw [hp]

theorem infix_dropWhile (p : α → Bool) (ha : p a = false) :
    a :: l <:+: xs.dropWhile p ↔ a :: l <:+: xs := by
  induction xs with
  | nil => rfl
  | cons x xs ih =>
    rw [dropWhile_cons]
    split_ifs with hx
    · rw [ih, infix_cons_of_ne]
      rintro rfl
      simp [ha] at hx
    · rfl

theorem infix_rdropWhile (p : α → Bool) (ha : p a = false) :
    l ++ [a] <:+: xs.rdropWhile p ↔ l ++ [a] <:+: xs := by
  rw [rdropWhile, ← reverse_infix, reverse_reverse, reverse_concat', infix_dropWhile p ha,
    ← reverse_concat', reverse_infix]

end Occurrences

theorem lit_ofList (text : Text) : lit (String.ofList text) = text := by
  unfold lit
  exact String.toList_ofList

theorem infix_strip {l : Text} (hl : l ≠ []) (hfirst : isSpace (l.head hl) = false)
    (hlast : isSpace (l.getLast hl) = false) (text : Text) : l <:+: strip text ↔ l <:+: text := by
  have hend := @infix_rdropWhile _ l.dropLast (text.dropWhile isSpace) _ isSpace hlast
  rw [dropLast_append_getLast] at hend
  rw [strip, hend]
  cases l with
  | nil => exact absurd rfl hl
  | cons a l => exact infix_dropWhile isSpace hfirst

theorem before_prefix (sep text : Text) : before sep text <+: text := by
  induction text with
  | nil => exact prefix_rfl
  | cons c text ih =>
    rw [before]
    split_ifs
    · exact nil_prefix
    · exact cons_prefix_cons.mpr ⟨rfl, ih⟩

theorem not_infix_before {sep : Text} (hs : sep ≠ []) (text : Text) :
    ¬ sep <:+: before sep text := by
  induction text with
  | nil => simpa [before] using hs
  | cons c text ih =>
    rw [before]
    split_ifs with h
    · simpa using hs
    · rw [infix_cons_iff]
      rintro (hp | hi)
      · exact h (hp.trans (cons_prefix_cons.mpr ⟨rfl, before_prefix sep text⟩))
      · exact ih hi

theorem infix_join {l sep : Text} {c : Char} (hc : c ∉ l) (hl : l ≠ [])
    (hsep : ∀ text, l <:+: sep ++ text ↔ l <:+: text) (xs : List Text) :
    l <:+: join (c :: sep) xs ↔ ∃ x ∈ xs, l <:+: x := by
  induction xs with
  | nil => simpa [join] using hl
  | cons x xs ih =>
    cases xs with
    | nil => simp [join]
    | cons y ys =>
      rw [join, cons_append, infix_append_cons hc, hsep, ih]
      simp only [mem_cons, exists_eq_or_imp]

theorem not_mem_ofNat {c : Char} (hc : c.isDigit = false) (n : ℕ) : c ∉ ofNat n := by
  intro h
  rw [Nat.isDigit_of_mem_toDigits (by decide) (by decide) h] at hc
  exact absurd hc (by decide)

end Text

end ZeCo
