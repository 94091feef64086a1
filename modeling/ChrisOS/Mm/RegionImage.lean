import ChrisOS.Mm.RangeArith
import Mathlib.Algebra.GroupWithZero.Nat

/-!
# Region lists of any shape

The firmware's memory map may hand the region functions overlapping, empty or wrapping
ranges, so nothing can be said about order or disjointness. What remains: a property of
single regions that merging and cutting preserve holds of every region of a list, and the
image of the list, read in 32-bit arithmetic, never grows beyond what was added. While the
sizes together stay below `2 ^ 32` it does not shrink either.
-/

namespace ChrisOS.Mm

open ChrisOS.Utils ChrisOS.Lib

variable {ρ : Type*}

/-- Word `x` is in the image of some region of the list. -/
def Reached (l : List (Region ρ)) (x : Word) : Prop := ∃ q ∈ l, q.Reaches x

/-- The sizes of a list's regions, added exactly. -/
def totalSize (l : List (Region ρ)) : ℕ := (l.map fun q => q.size.toNat).sum

theorem reached_cons (q : Region ρ) (l : List (Region ρ)) (x : Word) :
    Reached (q :: l) x ↔ q.Reaches x ∨ Reached l x := by
  simp [Reached]

theorem totalSize_cons (q : Region ρ) (l : List (Region ρ)) :
    totalSize (q :: l) = q.size.toNat + totalSize l := by
  simp [totalSize]

variable {preMerge : Region ρ → Region ρ → Bool} {a b m : Region ρ}

/-- A successful merge is a merge of the sorted operands that keeps the first one's attributes. -/
theorem merge_eq_some (h : merge preMerge a b = some m) : m.attrs = a.attrs ∧
      ((b.address ≤ a.address ∧ mergeSorted b.toRange a.toRange = some m.toRange) ∨
        (a.address ≤ b.address ∧ mergeSorted a.toRange b.toRange = some m.toRange)) := by
  unfold merge at h
  split at h
  · obtain ⟨output, hout, rfl⟩ := Option.map_eq_some_iff.mp h
    refine ⟨rfl, ?_⟩
    split at hout
    · next hlt => exact Or.inl ⟨BitVec.le_of_lt hlt, hout⟩
    · next hlt => exact Or.inr ⟨BitVec.not_lt.mp hlt, hout⟩
  · cases h

/-- Merging covers no word outside the two images. -/
theorem merge_reaches (h : merge preMerge a b = some m) (x : Word) (hx : m.Reaches x) :
    a.Reaches x ∨ b.Reaches x := by
  obtain ⟨_, hmerge⟩ | ⟨_, hmerge⟩ := (merge_eq_some h).2
  · exact (mergeSorted_reaches hmerge x hx).symm
  · exact mergeSorted_reaches hmerge x hx

/-- Merging loses no word while the sizes together do not wrap. -/
theorem reaches_merge (h : merge preMerge a b = some m) (hsum : a.size.toNat + b.size.toNat < 2 ^ 32)
    (x : Word)
    (hx : a.Reaches x ∨ b.Reaches x) : m.Reaches x := by
  obtain ⟨hle, hmerge⟩ | ⟨hle, hmerge⟩ := (merge_eq_some h).2
  · exact reaches_mergeSorted hle (by omega) hmerge x hx.symm
  · exact reaches_mergeSorted hle hsum hmerge x hx

/-- A merged region is no larger than its parts together. -/
theorem merge_size_le (h : merge preMerge a b = some m) :
    m.size.toNat ≤ a.size.toNat + b.size.toNat := by
  obtain ⟨_, hmerge⟩ | ⟨_, hmerge⟩ := (merge_eq_some h).2
  · rw [Nat.add_comm]
    exact mergeSorted_size_le hmerge
  · exact mergeSorted_size_le hmerge

section Forall

variable {preMerge : Region ρ → Region ρ → Bool} {P : Region ρ → Prop}
  (hmerge : ∀ a b m, P a → P b → merge preMerge a b = some m → P m)

include hmerge

/-- A property that merging preserves survives the second merge of an addition. -/
theorem mergeNext_forall {cur : Region ρ} {rest : List (Region ρ)} (hcur : P cur)
    (hrest : ∀ q ∈ rest, P q) : ∀ q ∈ mergeNext preMerge cur rest, P q := by
  cases rest with
  | nil => exact List.forall_mem_singleton.mpr hcur
  | cons next rest =>
    obtain ⟨hnext, hrest⟩ := List.forall_mem_cons.mp hrest
    cases heq : merge preMerge next cur with
    | some next' =>
      simp only [mergeNext, heq]
      exact List.forall_mem_cons.mpr ⟨hmerge _ _ _ hnext hcur heq, hrest⟩
    | none =>
      simp only [mergeNext, heq]
      exact List.forall_mem_cons.mpr ⟨hcur, List.forall_mem_cons.mpr ⟨hnext, hrest⟩⟩

/-- A property that merging preserves holds of every region after an addition. -/
theorem add_forall (l : List (Region ρ)) (r : Region ρ) (hl : ∀ q ∈ l, P q) (hr : P r) :
    ∀ q ∈ add preMerge l r, P q := by
  induction l with
  | nil => exact List.forall_mem_singleton.mpr hr
  | cons cur rest ih =>
    obtain ⟨hcur, hrest⟩ := List.forall_mem_cons.mp hl
    unfold add
    split
    · next cur' heq => exact mergeNext_forall hmerge (hmerge _ _ _ hcur hr heq) hrest
    · split
      · exact List.forall_mem_cons.mpr ⟨hr, hl⟩
      · exact List.forall_mem_cons.mpr ⟨hcur, ih hrest⟩

end Forall

/-- Inserting adds one member. -/
theorem mem_insert (l : List (Region ρ)) (elem q : Region ρ) :
    q ∈ insert l elem ↔ q = elem ∨ q ∈ l := by
  induction l with
  | nil => simp [insert]
  | cons cur rest ih =>
    unfold insert
    split
    · simp
    · rw [List.mem_cons, ih, List.mem_cons]
      exact or_left_comm

/-- The regions of a list after a cut: the others, and what the cut made of the region. -/
theorem cutAndStitch_forall {P : Region ρ → Prop} {pre post : List (Region ρ)} {region : Region ρ}
    {hole : Range} (hpre : ∀ q ∈ pre, P q) (hpost : ∀ q ∈ post, P q) (hregion : P region)
    (hcut : ∀ left tmp, cut region.toRange hole = some (left, tmp) →
      P { region with toRange := left } ∧ P { region with toRange := tmp }) :
    ∀ q ∈ cutAndStitch pre region post hole, P q := by
  have hdrop : ∀ r : Region ρ, P r → ∀ q ∈ dropEmpty r, P q := by
    intro r hr q hq
    unfold dropEmpty at hq
    split at hq
    · cases hq
    · rw [List.mem_singleton.mp hq]
      exact hr
  intro q hq
  cases heq : cut region.toRange hole with
  | none =>
    simp only [cutAndStitch, cutAndStitchSplit, heq, List.append_assoc, List.mem_append,
      List.mem_singleton] at hq
    obtain hq | rfl | hq := hq
    · exact hpre q hq
    · exact hregion
    · exact hpost q hq
  | some pieces =>
    obtain ⟨left, tmp⟩ := pieces
    obtain ⟨hleft, htmp⟩ := hcut left tmp heq
    have hmem : q ∈ pre ∨ q ∈ post ∨ q ∈ dropEmpty { region with toRange := left } ∨
        q = { region with toRange := tmp } := by
      simp only [cutAndStitch, cutAndStitchSplit, heq] at hq
      split at hq
      · simp only [List.mem_append] at hq
        grind
      · split at hq
        · simp only [List.mem_append, mem_insert] at hq
          grind
        · split at hq
          · simp only [List.mem_append, List.mem_cons] at hq
            grind
          · split at hq
            · simp only [List.mem_append, List.mem_singleton, List.not_mem_nil] at hq
              grind
            · split at hq
              · simp only [List.mem_append, List.mem_cons, List.not_mem_nil] at hq ⊢
                grind
              · simp only [List.mem_append, List.mem_cons, mem_insert] at hq ⊢
                grind
    obtain hq | hq | hq | rfl := hmem
    · exact hpre q hq
    · exact hpost q hq
    · exact hdrop _ hleft q hq
    · exact htmp

/-- Adding covers no word outside the images of the list and of the new region. -/
theorem add_reached (preMerge : Region ρ → Region ρ → Bool) (l : List (Region ρ)) (r : Region ρ)
    (x : Word) (hx : Reached (add preMerge l r) x) : Reached l x ∨ r.Reaches x := by
  have hinside : ∀ q ∈ add preMerge l r, ∀ y : Word, q.Reaches y → Reached l y ∨ r.Reaches y :=
    add_forall (P := fun q => ∀ y : Word, q.Reaches y → Reached l y ∨ r.Reaches y) (fun a b m ha hb hm y hy =>
        (merge_reaches hm y hy).elim (ha y) (hb y)) l r (fun q hq y hy => Or.inl ⟨q, hq, hy⟩)
      (fun y hy => Or.inr hy)
  obtain ⟨q, hq, hqx⟩ := hx
  exact hinside q hq x hqx

/-- The second merge of an addition loses no word and no size while the sizes do not wrap. -/
theorem reached_mergeNext (preMerge : Region ρ → Region ρ → Bool) (cur : Region ρ)
    (rest : List (Region ρ)) (hsum : totalSize (cur :: rest) < 2 ^ 32) :
    totalSize (mergeNext preMerge cur rest) ≤ totalSize (cur :: rest) ∧
      ∀ x, Reached (cur :: rest) x → Reached (mergeNext preMerge cur rest) x := by
  cases rest with
  | nil => exact ⟨Nat.le_refl _, fun x hx => hx⟩
  | cons next rest =>
    cases heq : merge preMerge next cur with
    | some next' =>
      simp only [mergeNext, heq, totalSize_cons] at hsum ⊢
      have hsize := merge_size_le heq
      refine ⟨by omega, fun x hx => ?_⟩
      have hkeep := reaches_merge heq (by omega) x
      rw [reached_cons, reached_cons] at hx
      rw [reached_cons]
      grind
    | none =>
      simp only [mergeNext, heq]
      exact ⟨Nat.le_refl _, fun x hx => hx⟩

/-- Adding loses no word and no size while the sizes do not wrap. -/
theorem reached_add (preMerge : Region ρ → Region ρ → Bool) (l : List (Region ρ)) (r : Region ρ)
    (hsum : totalSize (r :: l) < 2 ^ 32) :
    totalSize (add preMerge l r) ≤ totalSize (r :: l) ∧
      ∀ x, Reached (r :: l) x → Reached (add preMerge l r) x := by
  induction l with
  | nil => exact ⟨Nat.le_refl _, fun x hx => hx⟩
  | cons cur rest ih =>
    simp only [totalSize_cons] at hsum ih ⊢
    cases heq : merge preMerge cur r with
    | some cur' =>
      have hsize := merge_size_le heq
      obtain ⟨htotal, hkeep⟩ := reached_mergeNext preMerge cur' rest (by rw [totalSize_cons]; omega)
      simp only [add, heq]
      rw [totalSize_cons] at htotal
      refine ⟨by omega, fun x hx => hkeep x ?_⟩
      have hmerged := reaches_merge heq (by omega) x
      rw [reached_cons, reached_cons] at hx
      rw [reached_cons]
      grind
    | none =>
      obtain ⟨htotal, hkeep⟩ := ih (by omega)
      simp only [add, heq]
      split
      · simp only [totalSize_cons]
        exact ⟨Nat.le_refl _, fun x hx => hx⟩
      · rw [totalSize_cons]
        refine ⟨by omega, fun x hx => ?_⟩
        have hrest := hkeep x
        simp only [reached_cons] at hx hrest ⊢
        grind

end ChrisOS.Mm
