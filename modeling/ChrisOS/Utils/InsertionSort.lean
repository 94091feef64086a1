import ChrisOS.Utils.Sort

/-!
# Insertion sort

`insertion_sort` compares an item with the one before it, once, and does not compare again while it
moves the item down. The `while` loop then stops only at index 0, so an item either stays where it
is or goes to the very front of the items before it: `insertFront` says so of the cells as a list.

The result is therefore a permutation, and it is in order exactly if every item is either not below
any item before it or not above any item before it.
-/

namespace ChrisOS.Utils

variable {α : Type*} {comp : α → α → ℤ}

/-- An item that comes after others goes before all of them if it is below the last one. -/
def insertFront (comp : α → α → ℤ) (before : List α) (x : α) : List α :=
  if ∃ y ∈ before.getLast?, comp y x > 0 then x :: before else before ++ [x]

theorem insertFront_perm (comp : α → α → ℤ) (before : List α) (x : α) :
    (insertFront comp before x).Perm (x :: before) := by
  unfold insertFront
  split_ifs
  · exact List.Perm.refl _
  · exact List.perm_append_singleton x before

/-- In order, the last one is not below any other. -/
theorem le_getLast_of_pairwise (hcomp : TotalPreorder comp) {before : List α} {z : α}
    (hsorted : before.Pairwise fun a b => comp a b ≤ 0) (hz : z ∈ before.getLast?) :
    ∀ y ∈ before, comp y z ≤ 0 := by
  obtain ⟨front, rfl⟩ := List.getLast?_eq_some_iff.mp hz
  intro y hy
  rcases List.mem_append.mp hy with hfront | hlast
  · exact (List.pairwise_append.mp hsorted).2.2 y hfront z (List.mem_singleton_self z)
  · rw [List.mem_singleton.mp hlast]
    exact hcomp.refl z

/-- Inserting keeps the order if the item belongs at one of the two ends, and only then. -/
theorem insertFront_pairwise_iff (hcomp : TotalPreorder comp) (before : List α) (x : α) :
    (insertFront comp before x).Pairwise (fun a b => comp a b ≤ 0) ↔
      before.Pairwise (fun a b => comp a b ≤ 0) ∧
        ((∀ y ∈ before, comp y x ≤ 0) ∨ ∀ y ∈ before, comp x y ≤ 0) := by
  unfold insertFront
  by_cases habove : ∃ y ∈ before.getLast?, comp y x > 0
  · rw [if_pos habove, List.pairwise_cons]
    obtain ⟨z, hz, hpos⟩ := habove
    constructor
    · rintro ⟨hbelow, hsorted⟩
      exact ⟨hsorted, Or.inr hbelow⟩
    · rintro ⟨hsorted, hends⟩
      refine ⟨?_, hsorted⟩
      rcases hends with hfirst | hlast
      · have hle := hfirst z (List.mem_of_mem_getLast? hz)
        omega
      · exact hlast
  · rw [if_neg habove, List.pairwise_append]
    constructor
    · rintro ⟨hsorted, _, hbelow⟩
      exact ⟨hsorted, Or.inl fun y hy => hbelow y hy x (List.mem_singleton_self x)⟩
    · rintro ⟨hsorted, _⟩
      refine ⟨hsorted, List.pairwise_singleton _ x, ?_⟩
      intro y hy x' hx'
      rw [List.mem_singleton.mp hx']
      have hne : before ≠ [] := List.ne_nil_of_mem hy
      have hz : before.getLast hne ∈ before.getLast? := List.getLast?_eq_some_getLast hne
      have hle : comp (before.getLast hne) x ≤ 0 := by
        by_contra hpos
        exact habove ⟨_, hz, by omega⟩
      exact hcomp.trans (le_getLast_of_pairwise hcomp hsorted hz y hy) hle

/-- Without the comparison, nothing moves. -/
theorem insertionShift_of_nonpos (x : α) {compN : ℤ} (hcomp : compN ≤ 0) (j : ℕ) (items : ℕ → α) :
    insertionShift x compN j items = items := by
  cases j with
  | zero => rfl
  | succ j => exact if_neg (by omega)

/-- With it, the item goes to the front and those before it move up by one. -/
theorem insertionShift_of_pos {x : α} {compN : ℤ} (hcomp : compN > 0) {j : ℕ} {items : ℕ → α}
    (hx : items j = x) (k : ℕ) :
    insertionShift x compN j items k =
      if k = 0 then x else if k ≤ j then items (k - 1) else items k := by
  induction j generalizing items with
  | zero =>
    rw [insertionShift]
    by_cases hk : k = 0
    · rw [if_pos hk, hk, hx]
    · rw [if_neg hk, if_neg (by omega)]
  | succ j ih =>
    rw [insertionShift, if_pos hcomp, ih (Function.update_self ..)]
    by_cases hzero : k = 0
    · rw [if_pos hzero, if_pos hzero]
    · rw [if_neg hzero, if_neg hzero]
      rcases Nat.lt_trichotomy k (j + 1) with hlt | rfl | hgt
      · rw [if_pos (by omega), if_pos (by omega), Function.update_of_ne (by omega),
          Function.update_of_ne (by omega)]
      · rw [if_neg (by omega), if_pos (by omega), Function.update_of_ne (by omega),
          Function.update_self, Nat.add_sub_cancel]
      · rw [if_neg (by omega), if_neg (by omega), Function.update_of_ne (by omega),
          Function.update_of_ne (by omega)]

/-- A step leaves what comes after its item. -/
theorem insertionStep_of_lt (comp : α → α → ℤ) (items : ℕ → α) {i k : ℕ} (hk : i < k) :
    insertionStep comp items i k = items k := by
  rw [insertionStep]
  by_cases hpos : comp (items (i - 1)) (items i) > 0
  · rw [insertionShift_of_pos hpos rfl, if_neg (by omega), if_neg (by omega)]
  · rw [insertionShift_of_nonpos _ (by omega)]

/-- A step inserts its item among those before it. -/
theorem cells_insertionStep (comp : α → α → ℤ) (items : ℕ → α) (i : ℕ) :
    cells (insertionStep comp items (i + 1)) (i + 2) =
      insertFront comp (cells items (i + 1)) (items (i + 1)) := by
  have hlast : (cells items (i + 1)).getLast? = some (items i) := by
    rw [cells_succ, List.getLast?_append, List.getLast?_singleton, Option.some_or]
  rw [insertFront, hlast, insertionStep, Nat.add_sub_cancel]
  by_cases hpos : comp (items i) (items (i + 1)) > 0
  · rw [if_pos ⟨items i, rfl, hpos⟩]
    have hcells : cells (insertionShift (items (i + 1)) (comp (items i) (items (i + 1))) (i + 1)
        items) (i + 2) = items (i + 1) :: cells items (i + 1) := by
      rw [cells, List.range_succ_eq_map, List.map_cons, List.map_map,
        insertionShift_of_pos hpos rfl, if_pos rfl, cells]
      congr 1
      apply List.map_congr_left
      intro k hk
      rw [List.mem_range] at hk
      rw [Function.comp_apply, insertionShift_of_pos hpos rfl, if_neg (Nat.succ_ne_zero k),
        if_pos (by omega), Nat.succ_sub_one]
    exact hcells
  · rw [insertionShift_of_nonpos _ (by omega), cells_succ, if_neg]
    rintro ⟨y, hy, hy'⟩
    cases hy
    exact hpos hy'

/-- One item more. -/
theorem insertionSort_succ (comp : α → α → ℤ) (items : ℕ → α) (n : ℕ) :
    insertionSort comp items (n + 2) =
      insertionStep comp (insertionSort comp items (n + 1)) (n + 1) := by
  rw [insertionSort, insertionSort, show n + 2 - 1 = n + 1 by omega, List.range'_1_concat,
    List.foldl_append, Nat.add_sub_cancel, Nat.add_comm 1 n]
  rfl

/-- What lies beyond the array stays. -/
theorem insertionSort_of_le (comp : α → α → ℤ) (items : ℕ → α) {n k : ℕ} (hk : n ≤ k) :
    insertionSort comp items n k = items k := by
  induction n with
  | zero => rfl
  | succ n ih =>
    cases n with
    | zero => rfl
    | succ n => rw [insertionSort_succ, insertionStep_of_lt comp _ (by omega), ih (by omega)]

/-- The cells of the result: each item in turn is inserted among those before it. -/
theorem cells_insertionSort_succ (comp : α → α → ℤ) (items : ℕ → α) (n : ℕ) :
    cells (insertionSort comp items (n + 1)) (n + 1) =
      insertFront comp (cells (insertionSort comp items n) n) (items n) := by
  cases n with
  | zero =>
    rw [insertFront, if_neg]
    · rfl
    · rintro ⟨y, hy, _⟩
      cases hy
  | succ n =>
    rw [insertionSort_succ, cells_insertionStep, insertionSort_of_le comp items (Nat.le_refl _)]

/-- `insertion_sort` leaves a permutation of the array. -/
theorem cells_insertionSort_perm (comp : α → α → ℤ) (items : ℕ → α) (n : ℕ) :
    (cells (insertionSort comp items n) n).Perm (cells items n) := by
  induction n with
  | zero => exact List.Perm.refl _
  | succ n ih =>
    rw [cells_insertionSort_succ, cells_succ]
    exact (insertFront_perm comp _ _).trans
      ((ih.cons _).trans (List.perm_append_singleton _ _).symm)

theorem forall_mem_cells {p : α → Prop} {items : ℕ → α} {n : ℕ} :
    (∀ y ∈ cells items n, p y) ↔ ∀ j < n, p (items j) := by
  simp only [cells, List.mem_map, List.mem_range, forall_exists_index, and_imp,
    forall_apply_eq_imp_iff₂]

/-- The result is in order exactly if every item belongs at one of the two ends of those before
it. -/
theorem cells_insertionSort_pairwise_iff (hcomp : TotalPreorder comp) (items : ℕ → α) (n : ℕ) :
    (cells (insertionSort comp items n) n).Pairwise (fun a b => comp a b ≤ 0) ↔
      ∀ i < n, (∀ j < i, comp (items j) (items i) ≤ 0) ∨ ∀ j < i, comp (items i) (items j) ≤ 0 := by
  induction n with
  | zero => exact ⟨fun _ i hi => by omega, fun _ => List.Pairwise.nil⟩
  | succ n ih =>
    have hmem : ∀ p : α → Prop, (∀ y ∈ cells (insertionSort comp items n) n, p y) ↔
        ∀ j < n, p (items j) := by
      intro p
      rw [← forall_mem_cells]
      exact forall_congr' fun y => by rw [(cells_insertionSort_perm comp items n).mem_iff]
    rw [cells_insertionSort_succ, insertFront_pairwise_iff hcomp, ih, hmem, hmem,
      Nat.forall_lt_succ_right]

/-- Two items that are inserted behind one. -/
theorem cells_insertionSort_three (comp : α → α → ℤ) (items : ℕ → α) :
    cells (insertionSort comp items 3) 3 =
      if comp (items 0) (items 1) > 0 then
        if comp (items 0) (items 2) > 0 then [items 2, items 1, items 0]
        else [items 1, items 0, items 2]
      else
        if comp (items 1) (items 2) > 0 then [items 2, items 0, items 1]
        else [items 0, items 1, items 2] := by
  rw [cells_insertionSort_succ, cells_insertionSort_succ, cells_insertionSort_succ]
  by_cases h01 : comp (items 0) (items 1) > 0
  · simp [insertFront, cells, h01]
  · simp [insertFront, cells, h01]

/-- The middle one of three. -/
theorem insertionSort_three_one (comp : α → α → ℤ) (items : ℕ → α) :
    insertionSort comp items 3 1 =
      if comp (items 0) (items 1) > 0 then
        if comp (items 0) (items 2) > 0 then items 1 else items 0
      else
        if comp (items 1) (items 2) > 0 then items 0 else items 1 := by
  have hcells := cells_insertionSort_three comp items
  have hmiddle := congrArg (fun l => l[1]?) hcells
  apply Option.some.inj
  change (cells (insertionSort comp items 3) 3)[1]? = _
  rw [hmiddle]
  split_ifs <;> rfl

end ChrisOS.Utils
