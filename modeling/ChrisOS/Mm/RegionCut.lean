import ChrisOS.Mm.RangeArith
import Mathlib.Data.Set.Lattice
import Mathlib.Order.CompletePartialOrder

/-!
# Cutting one range out of another

`_cut` of `mm/range.h` for arbitrary ranges below `2 ^ 32`, of which the hole need not lie inside
the other. Its tests are read as comparisons of exact end points first; the pieces then follow by
the position of the hole.

The test for a hole that begins before the range computes the distance from the start of the hole to
the end of the range in 32 bits. For a hole that begins at zero and a range that ends at `2 ^ 32`
the distance is zero: the hole is taken to cover the range, and what lies above the hole is lost.
-/

namespace ChrisOS.Mm

open ChrisOS.Utils

/-- The addresses of a range. -/
def Range.addresses (r : Range) : Set ℕ := {x | r.lo ≤ x ∧ x < r.hi}

@[simp]
theorem Range.mem_addresses (r : Range) (x : ℕ) : x ∈ r.addresses ↔ r.lo ≤ x ∧ x < r.hi := Iff.rfl

/-- `_cut` as the callers see it: the value returned and both operands afterwards. -/
def cutOperands (a b : Range) : Bool × Range × Range :=
  match cut a b with
  | some pieces => (true, pieces)
  | none => (false, a, b)

/-- The distance from the start of the hole to the end of the range is `2 ^ 32`. -/
def SpansWholeSpace (a b : Range) : Prop := a.hi = 2 ^ 32 ∧ b.lo = 0

instance (a b : Range) : Decidable (SpansWholeSpace a b) := inferInstanceAs (Decidable (_ ∧ _))

section Tests

variable {a b : Range}

/-- The first test, whether the hole starts inside the range. -/
theorem startPointInRange_iff (ha : a.Fits) (p : Range) :
    StartPointInRange p.address a.address a.size ↔ a.lo ≤ p.lo ∧ p.lo < a.hi := by
  simp only [Range.Fits, Range.hi, Range.lo] at ha ⊢
  unfold StartPointInRange
  bv_omega

/-- Whether a hole that starts inside the range ends inside it. -/
theorem endPointInRange_iff_of_start (ha : a.Fits) (hstart : a.lo ≤ b.lo ∧ b.lo < a.hi) :
    EndPointInRange b.address b.size a.address a.size ↔ b.hi ≤ a.hi := by
  simp only [Range.Fits, Range.hi, Range.lo] at ha hstart ⊢
  unfold EndPointInRange EndPointGtStartPoint EndPointLtEndPoint
  bv_omega

/-- Whether a hole that starts before the range ends inside it, as far as the test can tell. -/
theorem endPointInRange_iff_of_lt (ha : a.Fits) (hlt : b.lo < a.lo) :
    EndPointInRange b.address b.size a.address a.size ↔
      (a.lo ≤ b.hi ∧ b.hi ≤ a.hi) ∧ ¬ SpansWholeSpace a b := by
  simp only [SpansWholeSpace, Range.Fits, Range.hi, Range.lo] at ha hlt ⊢
  unfold EndPointInRange EndPointGtStartPoint EndPointLtEndPoint
  bv_omega

end Tests

section Pieces

variable {a b : Range}

/-- A hole that starts inside the range and ends beyond it. -/
theorem cut_of_right (ha : a.Fits) (hstart : a.lo ≤ b.lo ∧ b.lo < a.hi) (hend : a.hi < b.hi) :
    cut a b = some (⟨a.address, b.address - a.address⟩, ⟨b.address, 0⟩) := by
  rw [cut, if_pos ((startPointInRange_iff ha b).mpr hstart),
    if_neg (fun h => by have := (endPointInRange_iff_of_start ha hstart).mp h; omega)]

/-- What the code does with a hole that starts before the range. -/
theorem cut_of_lt (ha : a.Fits) (hb : b.Fits) (hlt : b.lo < a.lo) :
    cut a b =
      if (a.lo ≤ b.hi ∧ b.hi ≤ a.hi) ∧ ¬ SpansWholeSpace a b then
        some (⟨b.address + b.size, a.size - (b.size - (a.address - b.address))⟩, ⟨b.address, 0⟩)
      else if a.lo < b.hi then some (⟨a.address, 0⟩, ⟨b.address, 0⟩)
      else none := by
  have hstart : ¬ StartPointInRange b.address a.address a.size := fun h => by
    have := (startPointInRange_iff ha b).mp h
    omega
  have hinside : StartPointInRange a.address b.address b.size ↔ a.lo < b.hi :=
    (startPointInRange_iff hb a).trans ⟨fun h => h.2, fun h => ⟨Nat.le_of_lt hlt, h⟩⟩
  rw [cut, if_neg hstart, if_pos (BitVec.lt_def.mpr hlt)]
  simp only [endPointInRange_iff_of_lt ha hlt, hinside]

/-- A hole that starts at or after the end of the range. -/
theorem cut_of_after (ha : a.Fits) (hafter : a.hi ≤ b.lo) : cut a b = none := by
  have hstart : ¬ StartPointInRange b.address a.address a.size := fun h => by
    have := (startPointInRange_iff ha b).mp h
    omega
  have hlt : ¬ b.address < a.address := fun h => by
    have hlo : b.lo < a.lo := BitVec.lt_def.mp h
    simp only [Range.lo, Range.hi] at hlo hafter
    omega
  rw [cut, if_neg hstart, if_neg hlt]

/-- Cutting a hole disjoint from the range leaves the range as it is. -/
theorem cut_of_disjoint (ha : a.Fits) (hb : b.Fits) (hne : b.lo < b.hi)
    (hdisjoint : a.hi ≤ b.lo ∨ b.hi ≤ a.lo) :
    cut a b = none ∨ cut a b = some (a, ⟨b.address, 0⟩) := by
  obtain hafter | hbefore := hdisjoint
  · exact Or.inl (cut_of_after ha hafter)
  · rw [cut_of_lt ha hb (by omega)]
    by_cases htouch : (a.lo ≤ b.hi ∧ b.hi ≤ a.hi) ∧ ¬ SpansWholeSpace a b
    · have haddress : b.address + b.size = a.address := by
        simp only [Range.lo, Range.hi] at htouch hbefore
        bv_omega
      have hsize : a.size - (b.size - (a.address - b.address)) = a.size := by
        rw [← haddress]
        bv_omega
      rw [if_pos htouch, haddress, hsize]
      exact Or.inr rfl
    · rw [if_neg htouch, if_neg (by omega)]
      exact Or.inl rfl

/-- A cut that fails leaves disjoint ranges. -/
theorem disjoint_of_cut_none (ha : a.Fits) (hb : b.Fits) (h : cut a b = none) :
    a.hi ≤ b.lo ∨ b.hi ≤ a.lo := by
  obtain hlt | hge := Nat.lt_or_ge b.lo a.lo
  · rw [cut_of_lt ha hb hlt] at h
    grind
  · by_cases hstart : b.lo < a.hi
    · have hsome : (cut a b).isSome := by
        obtain hin | hout := Nat.lt_or_ge a.hi b.hi
        · rw [cut_of_right ha ⟨hge, hstart⟩ hin]
          rfl
        · rw [(cut_of_within hge hout ha hstart).1]
          rfl
      rw [h] at hsome
      cases hsome
    · exact Or.inl (Nat.le_of_not_lt hstart)

/-- Away from the wrapped distance, the pieces of a cut are the range less the hole. -/
theorem mem_pieces_of_cut {left right : Range} (ha : a.Fits) (hb : b.Fits)
    (hspace : SpansWholeSpace a b → b.hi ≤ a.lo) (h : cut a b = some (left, right)) (x : ℕ) :
    ((left.lo ≤ x ∧ x < left.hi) ∨ (right.lo ≤ x ∧ x < right.hi) ↔
      (a.lo ≤ x ∧ x < a.hi) ∧ ¬ (b.lo ≤ x ∧ x < b.hi)) ∧
      ¬ ((left.lo ≤ x ∧ x < left.hi) ∧ (right.lo ≤ x ∧ x < right.hi)) := by
  obtain hlt | hge := Nat.lt_or_ge b.lo a.lo
  · rw [cut_of_lt ha hb hlt] at h
    split at h
    · next hend =>
      cases h
      simp only [Range.Fits, Range.lo, Range.hi] at *
      bv_omega
    · next hend =>
      split at h
      · next hin =>
        cases h
        have hcover : a.hi < b.hi := by
          by_contra hle
          have := hspace (not_not.mp fun hno => hend ⟨⟨by omega, by omega⟩, hno⟩)
          omega
        simp only [Range.lo, Range.hi] at *
        bv_omega
      · cases h
  · obtain hstart | hafter := Nat.lt_or_ge b.lo a.hi
    · obtain hout | hin := Nat.lt_or_ge a.hi b.hi
      · rw [cut_of_right ha ⟨hge, hstart⟩ hout] at h
        cases h
        simp only [Range.Fits, Range.lo, Range.hi] at *
        bv_omega
      · obtain ⟨hcut, hleft, hright⟩ := cut_of_within hge hin ha hstart
        rw [hcut] at h
        cases h
        simp only [Range.Fits, Range.lo, Range.hi] at *
        bv_omega
    · rw [cut_of_after ha hafter] at h
      cases h

/-- A cut from zero that reaches into a range ending at `2 ^ 32` leaves nothing of it. -/
theorem cut_of_spansWholeSpace (ha : a.Fits) (hb : b.Fits) (hspace : SpansWholeSpace a b)
    (hreach : a.lo < b.hi) : cut a b = some (⟨a.address, 0⟩, ⟨b.address, 0⟩) := by
  have hlt : b.lo < a.lo := by
    have hsize := a.size.isLt
    unfold SpansWholeSpace Range.hi at hspace
    unfold Range.lo at *
    omega
  rw [cut_of_lt ha hb hlt, if_neg (fun h => h.2 hspace), if_pos hreach]

end Pieces

/-- If the cut succeeds the pieces are disjoint and together are the range less the hole, and if it
fails the operands are unchanged and disjoint. -/
structure CutsDifference (a b : Range) : Prop where
  disjoint : (cutOperands a b).1 = true →
    Disjoint (cutOperands a b).2.1.addresses (cutOperands a b).2.2.addresses
  union : (cutOperands a b).1 = true →
    (cutOperands a b).2.1.addresses ∪ (cutOperands a b).2.2.addresses = a.addresses \ b.addresses
  unchanged : (cutOperands a b).1 = false → (cutOperands a b).2 = (a, b)
  apart : (cutOperands a b).1 = false → Disjoint a.addresses b.addresses

/-- Cutting is exact set difference on ranges that end at or below `2 ^ 32`, exactly if the hole does not
start at zero and reach into a range that ends at `2 ^ 32`. -/
theorem cutOperands_difference_iff {a b : Range} (ha : a.Fits) (hb : b.Fits) :
    CutsDifference a b ↔ (SpansWholeSpace a b → b.hi ≤ a.lo) := by
  constructor
  · intro hexact hspace
    by_contra hreach
    rw [Nat.not_le] at hreach
    have hcut := cut_of_spansWholeSpace ha hb hspace hreach
    have hoperands : cutOperands a b = (true, ⟨a.address, 0⟩, ⟨b.address, 0⟩) := by
      rw [cutOperands, hcut]
    have hunion := hexact.union (by rw [hoperands])
    rw [hoperands] at hunion
    -- the hole is too short to cover the range, so its end is lost
    have hlost := Set.ext_iff.mp hunion b.hi
    have hsize := b.size.isLt
    simp only [Set.mem_union, Set.mem_sdiff, Range.mem_addresses] at hlost
    unfold SpansWholeSpace at hspace
    simp only [Range.lo, Range.hi, show (0 : Word).toNat = 0 from rfl] at *
    omega
  · intro hspace
    cases h : cut a b with
    | some pieces =>
      obtain ⟨left, right⟩ := pieces
      have hpieces := mem_pieces_of_cut ha hb hspace h
      have hoperands : cutOperands a b = (true, left, right) := by rw [cutOperands, h]
      refine ⟨fun _ => ?_, fun _ => ?_, fun hfalse => ?_, fun hfalse => ?_⟩
      · rw [hoperands, Set.disjoint_left]
        exact fun x hleft hright => (hpieces x).2 ⟨hleft, hright⟩
      · rw [hoperands]
        ext x
        exact (hpieces x).1
      all_goals
        rw [hoperands] at hfalse
        cases hfalse
    | none =>
      have hoperands : cutOperands a b = (false, a, b) := by rw [cutOperands, h]
      refine ⟨fun htrue => ?_, fun htrue => ?_, fun _ => by rw [hoperands], fun _ => ?_⟩
      · rw [hoperands] at htrue
        cases htrue
      · rw [hoperands] at htrue
        cases htrue
      · rw [Set.disjoint_left]
        intro x hx hy
        have := disjoint_of_cut_none ha hb h
        simp only [Range.mem_addresses] at hx hy
        omega

/-- The page above the kernel's first four megabytes cut out of the kernel's region, which ends at
`2 ^ 32`: two pieces remain. -/
theorem cutOperands_difference_iff_kernel :
    (cutOperands ⟨0xC0000000, 0x40000000⟩ ⟨0xC0400000, 0x1000⟩).1 = true ∧
      (cutOperands ⟨0xC0000000, 0x40000000⟩ ⟨0xC0400000, 0x1000⟩).2.1.addresses ∪
        (cutOperands ⟨0xC0000000, 0x40000000⟩ ⟨0xC0400000, 0x1000⟩).2.2.addresses =
          (⟨0xC0000000, 0x40000000⟩ : Range).addresses \ (⟨0xC0400000, 0x1000⟩ : Range).addresses := by
  have htrue : (cutOperands ⟨0xC0000000, 0x40000000⟩ ⟨0xC0400000, 0x1000⟩).1 = true := by decide
  exact ⟨htrue, ((cutOperands_difference_iff (by decide) (by decide)).mpr (by decide)).union htrue⟩

/-- Everything below the kernel's second page cut out of the kernel's region: the cut reports success
and leaves nothing, although the region less the hole is all but its first page. -/
theorem cutOperands_loses_kernel :
    (cutOperands ⟨0xC0000000, 0x40000000⟩ ⟨0, 0xC0001000⟩).1 = true ∧
      (cutOperands ⟨0xC0000000, 0x40000000⟩ ⟨0, 0xC0001000⟩).2.1.addresses ∪
        (cutOperands ⟨0xC0000000, 0x40000000⟩ ⟨0, 0xC0001000⟩).2.2.addresses ≠
          (⟨0xC0000000, 0x40000000⟩ : Range).addresses \ (⟨0, 0xC0001000⟩ : Range).addresses := by
  refine ⟨by decide, fun heq => ?_⟩
  have hlost := Set.ext_iff.mp heq 0xC0001000
  have hpieces : (cutOperands ⟨0xC0000000, 0x40000000⟩ ⟨0, 0xC0001000⟩).2 =
      (⟨0xC0000000, 0⟩, ⟨0, 0⟩) := by decide
  rw [hpieces] at hlost
  simp [Range.lo, Range.hi] at hlost

end ChrisOS.Mm
