import ChrisOS.Mm.Range
import ChrisOS.Lib.Span

/-!
# What merging and cutting compute

Two readings of a range. Its span is the interval from its address to its exact end point,
which is a set of addresses as long as the range fits below `2 ^ 32`. Its image is the set
of words reached from the address by fewer than `size` steps of 32-bit arithmetic, which
makes sense for every pair of words and agrees with the span for a range that fits.

Merging never covers a word outside the two images, whatever the operands. On disjoint
ranges that fit it is exactly the union of touching spans, and cutting a range out of one
that contains it leaves exactly the two remaining pieces.
-/

namespace ChrisOS.Mm

open ChrisOS.Utils ChrisOS.Lib

/-- The first address of a range. -/
def Range.lo (r : Range) : ℕ := r.address.toNat

/-- The exact end point of a range, never reduced to 32 bits. -/
def Range.hi (r : Range) : ℕ := r.address.toNat + r.size.toNat

/-- The range ends at or below the end of the 32-bit space. -/
def Range.Fits (r : Range) : Prop := r.hi ≤ 2 ^ 32

instance (r : Range) : Decidable r.Fits := inferInstanceAs (Decidable (_ ≤ _))

/-- The words a range reaches from its address in 32-bit arithmetic. -/
def Range.Reaches (r : Range) (x : Word) : Prop := x - r.address < r.size

instance (r : Range) (x : Word) : Decidable (r.Reaches x) := inferInstanceAs (Decidable (_ < _))

/-- A range with a size has a non-empty span. -/
theorem Range.lo_lt_hi {r : Range} (h : r.size ≠ 0) : r.lo < r.hi := by
  unfold Range.lo Range.hi
  bv_omega

variable {a b m : Range}

/-- Everything a successful merge of sorted ranges can be: a range inside the first one, an
overlap, or two adjacent ranges. -/
theorem mergeSorted_cases (h : mergeSorted a b = some m) : m.address = a.address ∧
      ((m.size = a.size ∧ b.address - a.address < a.size ∧
          b.size ≤ a.size - (b.address - a.address)) ∨
        (m.size = b.size + (b.address - a.address) ∧ b.address - a.address < a.size ∧
          a.size ≤ b.size - (a.address - b.address)) ∨
        (m.size = a.size + b.size ∧ b.address - a.address = a.size)) := by
  unfold mergeSorted at h
  split at h
  · next hwithin =>
    cases h
    exact ⟨rfl, Or.inl ⟨rfl, hwithin.1.2, hwithin.2.2⟩⟩
  · split at h
    · next hoverlap =>
      cases h
      exact ⟨rfl, Or.inr (Or.inl ⟨rfl, hoverlap.1.2, hoverlap.2.2⟩)⟩
    · split at h
      · next hadjacent =>
        cases h
        exact ⟨rfl, Or.inr (Or.inr ⟨rfl, hadjacent⟩)⟩
      · cases h

/-- Merging sorted ranges covers no word outside their images, even when sizes wrap. -/
theorem mergeSorted_reaches (h : mergeSorted a b = some m) (x : Word) (hx : m.Reaches x) :
    a.Reaches x ∨ b.Reaches x := by
  unfold Range.Reaches at hx ⊢
  obtain ⟨haddress, hsize⟩ := mergeSorted_cases h
  rw [haddress] at hx
  obtain ⟨hsize, _⟩ | ⟨hsize, _, _⟩ | ⟨hsize, _⟩ := hsize <;> rw [hsize] at hx <;> bv_omega

/-- Merging sorted ranges loses no word while the two sizes together do not wrap. -/
theorem reaches_mergeSorted (hle : a.address ≤ b.address) (hsum : a.size.toNat + b.size.toNat < 2 ^ 32)
    (h : mergeSorted a b = some m) (x : Word)
    (hx : a.Reaches x ∨ b.Reaches x) : m.Reaches x := by
  unfold Range.Reaches at hx ⊢
  obtain ⟨haddress, hsize⟩ := mergeSorted_cases h
  rw [haddress]
  obtain ⟨hsize, _, _⟩ | ⟨hsize, _, _⟩ | ⟨hsize, _⟩ := hsize <;> rw [hsize] <;> bv_omega

/-- The merged size is at most the sum of the sizes. -/
theorem mergeSorted_size_le (h : mergeSorted a b = some m) :
    m.size.toNat ≤ a.size.toNat + b.size.toNat := by
  obtain ⟨hsize, _⟩ | ⟨hsize, _, _⟩ | ⟨hsize, _⟩ := (mergeSorted_cases h).2 <;> rw [hsize] <;>
    bv_omega

/-- On ranges in order and disjoint, only touching ones merge, into their union. -/
theorem mergeSorted_of_le (a b : Range) (hle : a.hi ≤ b.lo) :
    mergeSorted a b = if a.hi = b.lo then some ⟨a.address, a.size + b.size⟩ else none := by
  unfold Range.hi Range.lo at hle ⊢
  have hstart : ¬ StartPointInRange b.address a.address a.size := by
    unfold StartPointInRange
    bv_omega
  have htouch : b.address - a.address = a.size ↔ a.address.toNat + a.size.toNat = b.address.toNat := by
    bv_omega
  unfold mergeSorted
  rw [if_neg (fun h => hstart h.1), if_neg (fun h => hstart h.1)]
  simp only [htouch]

/-- Cutting out a range inside another leaves the two outer pieces. The right-hand piece
starts at the wrapped end of the hole; that only differs from the exact end when it is empty. -/
theorem cut_of_within {a b : Range} (hlo : a.lo ≤ b.lo) (hhi : b.hi ≤ a.hi) (hfits : a.Fits)
    (hstart : b.lo < a.hi) :
    cut a b = some (⟨a.address, b.address - a.address⟩,
      ⟨b.address + b.size, a.size - (b.address + b.size - a.address)⟩) ∧
      (b.address - a.address).toNat = b.lo - a.lo ∧
      (a.size - (b.address + b.size - a.address)).toNat = a.hi - b.hi := by
  simp only [Range.Fits, Range.hi, Range.lo] at hlo hhi hfits hstart ⊢
  have hstartIn : StartPointInRange b.address a.address a.size := by
    unfold StartPointInRange
    bv_omega
  have hendIn : EndPointInRange b.address b.size a.address a.size := by
    unfold EndPointInRange EndPointGtStartPoint EndPointLtEndPoint
    bv_omega
  refine ⟨by rw [cut, if_pos hstartIn, if_pos hendIn], ?_, ?_⟩ <;> bv_omega

end ChrisOS.Mm
