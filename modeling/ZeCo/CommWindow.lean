import Mathlib.Tactic.Ring
import ZeCo.Blocks
import ZeCo.NetworkSafety

namespace ZeCo.SimplerAllscan

open Network

/-- One scratch slot: the recv region (`dk * dv` floats) and `K` int32 signal slots. -/
def slotFloats (dk dv K : ℕ) : ℕ := dk * dv + K

def dtypeNbytes : ℕ := 4

def slotNbytes (dk dv K : ℕ) : ℕ := slotFloats dk dv K * dtypeNbytes

def windowSize (dk dv K nSlots : ℕ) : ℕ :=
  max ((nSlots * slotNbytes dk dv K + 511) / 512 * 512) (4 * 1024)

structure Domain (P dk dv K nSlots : ℕ) where
  windowsIn : Fin P → ℕ
  scratch : ℕ
  fits : scratch + nSlots * slotNbytes dk dv K ≤ windowSize dk dv K nSlots
  disjoint : ∀ p q, p ≠ q → windowsIn p + windowSize dk dv K nSlots ≤ windowsIn q ∨
    windowsIn q + windowSize dk dv K nSlots ≤ windowsIn p

namespace Domain

variable {P dk dv K H : ℕ} (d : Domain P dk dv K H)

def recv (p : Fin P) (h : Fin H) : ℕ :=
  d.windowsIn p + d.scratch + h * slotFloats dk dv K * dtypeNbytes

def signal (p : Fin P) (h : Fin H) : ℕ := d.recv p h + dk * dv * dtypeNbytes

def recvBlock (p : Fin P) (h : Fin H) (k : ℕ) : Tile ℕ (dk / K) dv := fun i j =>
  let elt0 := k * (dk / K) * dv
  d.recv p h + (elt0 + i * dv + j) * dtypeNbytes

def signalWord (p : Fin P) (h : Fin H) (k : ℕ) : ℕ := d.signal p h + k * dtypeNbytes

def commRemotePtr (rankId pe : Fin P) (localPtr : ℕ) : ℕ :=
  let offset := localPtr - d.windowsIn rankId
  d.windowsIn pe + offset

def slot (p : Fin P) (h : Fin H) : Set ℕ :=
  {a | d.recv p h ≤ a ∧ a + dtypeNbytes ≤ d.recv p h + slotNbytes dk dv K}

theorem commRemotePtr_recvBlock (p q : Fin P) (h : Fin H) (k : ℕ) (i : Fin (dk / K)) (j : Fin dv) :
    d.commRemotePtr p q (d.recvBlock p h k i j) = d.recvBlock q h k i j := by
  simp only [commRemotePtr, recvBlock, recv]
  omega

theorem commRemotePtr_signalWord (p q : Fin P) (h : Fin H) (k : ℕ) :
    d.commRemotePtr p q (d.signalWord p h k) = d.signalWord q h k := by
  simp only [commRemotePtr, signalWord, signal, recv]
  omega

theorem elt_lt {k : ℕ} (hk : k < K) (i : Fin (dk / K)) (j : Fin dv) :
    k * (dk / K) * dv + i * dv + j < dk * dv := by
  have hrow : k * (dk / K) + i + 1 ≤ dk := by
    have h1 : (k + 1) * (dk / K) ≤ K * (dk / K) := Nat.mul_le_mul_right _ hk
    have h2 : K * (dk / K) ≤ dk := Nat.mul_div_le dk K
    have h3 := i.isLt
    rw [Nat.add_mul, Nat.one_mul] at h1
    omega
  have h := Nat.mul_le_mul_right dv hrow
  have hj := j.isLt
  rw [Nat.add_mul, Nat.add_mul, Nat.one_mul] at h
  omega

theorem recvBlock_mem_slot (p : Fin P) (h : Fin H) {k : ℕ} (hk : k < K) (i : Fin (dk / K))
    (j : Fin dv) : d.recvBlock p h k i j ∈ d.slot p h := by
  have he := elt_lt hk i j
  simp only [slot, Set.mem_ofPred_eq, recvBlock, slotNbytes, slotFloats, dtypeNbytes]
  omega

theorem signalWord_mem_slot (p : Fin P) (h : Fin H) {k : ℕ} (hk : k < K) :
    d.signalWord p h k ∈ d.slot p h := by
  simp only [slot, Set.mem_ofPred_eq, signalWord, signal, slotNbytes, slotFloats, dtypeNbytes]
  omega

theorem slot_subset_window (p : Fin P) (h : Fin H) {a : ℕ} (ha : a ∈ d.slot p h) :
    d.windowsIn p ≤ a ∧ a + dtypeNbytes ≤ d.windowsIn p + windowSize dk dv K H := by
  obtain ⟨hlo, hhi⟩ := ha
  have hslots := Nat.mul_le_mul_right (slotNbytes dk dv K) (show h.val + 1 ≤ H from h.isLt)
  have hfits := d.fits
  simp only [recv, slotNbytes, Nat.mul_assoc, Nat.add_mul, Nat.one_mul] at *
  omega

theorem slot_disjoint {p q : Fin P} {h h' : Fin H} {a : ℕ} (ha : a ∈ d.slot p h)
    (ha' : a ∈ d.slot q h') : p = q ∧ h = h' := by
  have hp : p = q := by
    by_contra hne
    have hw := d.slot_subset_window p h ha
    have hw' := d.slot_subset_window q h' ha'
    simp only [dtypeNbytes] at hw hw'
    rcases d.disjoint p q hne with hd | hd <;> omega
  subst hp
  refine ⟨rfl, ?_⟩
  obtain ⟨hlo, hhi⟩ := ha
  obtain ⟨hlo', hhi'⟩ := ha'
  by_contra hne
  have hv : h.val ≠ h' := fun he => hne (Fin.ext he)
  simp only [recv, slotNbytes, dtypeNbytes] at *
  rcases Nat.lt_or_gt_of_ne hv with hlt | hlt
  · have := Nat.mul_le_mul_right (slotFloats dk dv K) (show h.val + 1 ≤ h' from hlt)
    rw [Nat.add_mul, Nat.one_mul] at this
    omega
  · have := Nat.mul_le_mul_right (slotFloats dk dv K) (show h'.val + 1 ≤ h from hlt)
    rw [Nat.add_mul, Nat.one_mul] at this
    omega

theorem recvBlock_inj {p q : Fin P} {h h' : Fin H} {k k' : ℕ} (hk : k < K) (hk' : k' < K)
    {i i' : Fin (dk / K)} {j j' : Fin dv} (he : d.recvBlock p h k i j = d.recvBlock q h' k' i' j') :
    (p = q ∧ h = h' ∧ k = k') ∧ i = i' ∧ j = j' := by
  have hm := d.recvBlock_mem_slot p h hk i j
  have hm' := d.recvBlock_mem_slot q h' hk' i' j'
  rw [← he] at hm'
  obtain ⟨rfl, rfl⟩ := d.slot_disjoint hm hm'
  simp only [recvBlock, dtypeNbytes] at he
  have helt : (k * (dk / K) + i) * dv + j = (k' * (dk / K) + i') * dv + j' := by
    rw [Nat.add_mul, Nat.add_mul]
    omega
  obtain ⟨hrow, hj⟩ := radix_inj j.isLt j'.isLt helt
  obtain ⟨hkk, hi⟩ := radix_inj i.isLt i'.isLt hrow
  exact ⟨⟨rfl, rfl, hkk⟩, Fin.ext hi, Fin.ext hj⟩

theorem signalWord_inj {p q : Fin P} {h h' : Fin H} {k k' : ℕ} (hk : k < K) (hk' : k' < K)
    (he : d.signalWord p h k = d.signalWord q h' k') : p = q ∧ h = h' ∧ k = k' := by
  have hm := d.signalWord_mem_slot p h hk
  have hm' := d.signalWord_mem_slot q h' hk'
  rw [← he] at hm'
  obtain ⟨rfl, rfl⟩ := d.slot_disjoint hm hm'
  simp only [signalWord, dtypeNbytes] at he
  exact ⟨rfl, rfl, by omega⟩

theorem recvBlock_ne_signalWord (p q : Fin P) (h h' : Fin H) {k k' : ℕ} (hk : k < K) (hk' : k' < K)
    (i : Fin (dk / K)) (j : Fin dv) : d.recvBlock p h k i j ≠ d.signalWord q h' k' := by
  intro he
  have hm := d.recvBlock_mem_slot p h hk i j
  have hm' := d.signalWord_mem_slot q h' hk'
  rw [← he] at hm'
  obtain ⟨rfl, rfl⟩ := d.slot_disjoint hm hm'
  have hlt := elt_lt hk i j
  simp only [recvBlock, signalWord, signal, dtypeNbytes] at he
  omega

end Domain

end ZeCo.SimplerAllscan
