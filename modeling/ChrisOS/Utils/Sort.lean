import ChrisOS.Lib.AdjacentSwaps
import ChrisOS.Lib.CountedLoop
import ChrisOS.Utils.Mem

/-!
# Sorting

The functions of `utils/sort.c`: the comparators, `swap`, `bubble_sort` and `insertion_sort`. The
array behind `void ** items` is what each index holds, so that what lies beyond `length` is there to
be left alone; the items of the array are its `cells`.

A comparator is any function to an integer. One that orders its arguments is a `TotalPreorder`, read
off as "not above": `comp a b <= 0`.
-/

namespace ChrisOS.Utils

open ChrisOS.Lib Relation

variable {α : Type*}

/-- The three comparators differ in the number that they read a pointer as. -/
def compBy (key : Word → ℤ) (a b : Word) : ℤ :=
  if key a < key b then -1 else if key a > key b then 1 else 0

/-- `comp_int`. -/
def compInt : Word → Word → ℤ := compBy BitVec.toInt

/-- `comp_uint`. -/
def compUint : Word → Word → ℤ := compBy fun a => a.toNat

/-- `comp_ulong`, where an `unsigned long` has 32 bits. -/
def compUlong : Word → Word → ℤ := compBy fun a => a.toNat

/-- `swap`. -/
def swap (items : ℕ → α) (n1 n2 : ℕ) : ℕ → α :=
  Function.update (Function.update items n1 (items n2)) n2 (items n1)

/-- The body of the `for` loop of `bubble_sort`, over `newn` and the array. The loop counts in an
`int`, so `i++` must not go beyond the largest one. -/
def bubbleStep (comp : α → α → ℤ) (i : ℕ) (s : ℕ × (ℕ → α)) : Option (ℕ × (ℕ → α)) :=
  if i + 1 < 2 ^ 31 then
    if comp (s.2 (i - 1)) (s.2 i) > 0 then some (i, swap s.2 (i - 1) i) else some s
  else none

/-- The `for` loop of `bubble_sort`, from `newn = 0` on. -/
def bubblePass (comp : α → α → ℤ) (n : ℕ) (items : ℕ → α) : Option (ℕ × (ℕ → α)) :=
  countedLoop (bubbleStep comp) 1 (n - 1) (0, items)

/-- The `do` loop of `bubble_sort`: each pass goes up to the last swap of the one before. -/
def bubbleLoop (comp : α → α → ℤ) : ℕ → ℕ → (ℕ → α) → Option (ℕ → α)
  | 0, _, _ => none
  | fuel + 1, n, items =>
    (bubblePass comp n items).bind fun s =>
      if s.1 = 0 then some s.2 else bubbleLoop comp fuel s.1 s.2

/-- `bubble_sort`. -/
def bubbleSort (comp : α → α → ℤ) (fuel : ℕ) (items : ℕ → α) (length : ℕ) : Option (ℕ → α) :=
  bubbleLoop comp fuel length items

/-- The `while` loop of `insertion_sort`, over `j` and the array. -/
def insertionShift (x : α) (compN : ℤ) : ℕ → (ℕ → α) → ℕ → α
  | 0, items => items
  | j + 1, items =>
    if compN > 0 then
      insertionShift x compN j (Function.update (Function.update items (j + 1) (items j)) j x)
    else items

/-- The body of the `for` loop of `insertion_sort`. The comparison is made once, before the
`while`. -/
def insertionStep (comp : α → α → ℤ) (items : ℕ → α) (i : ℕ) : ℕ → α :=
  insertionShift (items i) (comp (items (i - 1)) (items i)) i items

/-- `insertion_sort`. -/
def insertionSort (comp : α → α → ℤ) (items : ℕ → α) (length : ℕ) : ℕ → α :=
  (List.range' 1 (length - 1)).foldl (insertionStep comp) items

/-- The first `n` items of an array. -/
def cells (items : ℕ → α) (n : ℕ) : List α := (List.range n).map items

/-- The comparator orders its arguments, some of them perhaps alike. -/
structure TotalPreorder (comp : α → α → ℤ) : Prop where
  total : ∀ a b, comp a b ≤ 0 ∨ comp b a ≤ 0
  trans : ∀ {a b c}, comp a b ≤ 0 → comp b c ≤ 0 → comp a c ≤ 0

/-- An item that is above another is not below it. -/
theorem TotalPreorder.le_of_pos {comp : α → α → ℤ} (hcomp : TotalPreorder comp) {a b : α}
    (hab : comp a b > 0) : comp b a ≤ 0 := by
  rcases hcomp.total a b with h | h
  · omega
  · exact h

theorem TotalPreorder.refl {comp : α → α → ℤ} (hcomp : TotalPreorder comp) (a : α) :
    comp a a ≤ 0 := by
  rcases hcomp.total a a with h | h <;> exact h

variable {a b : Word}

theorem compBy_nonpos_iff {key : Word → ℤ} : compBy key a b ≤ 0 ↔ key a ≤ key b := by
  unfold compBy
  split_ifs <;> omega

/-- Comparing by a number is comparing in a total preorder. -/
theorem compBy_totalPreorder (key : Word → ℤ) : TotalPreorder (compBy key) where
  total a b := by
    rw [compBy_nonpos_iff, compBy_nonpos_iff]
    exact Int.le_total (key a) (key b)
  trans := by
    intro a b c hab hbc
    rw [compBy_nonpos_iff] at hab hbc ⊢
    exact Int.le_trans hab hbc

/-- The comparators of the file all are. -/
theorem comparators_totalPreorder :
    TotalPreorder compInt ∧ TotalPreorder compUint ∧ TotalPreorder compUlong :=
  ⟨compBy_totalPreorder _, compBy_totalPreorder _, compBy_totalPreorder _⟩

theorem compUint_nonpos_iff : compUint a b ≤ 0 ↔ a.toNat ≤ b.toNat := by
  rw [compUint, compBy_nonpos_iff]
  exact Int.ofNat_le

theorem compUint_pos_iff : compUint a b > 0 ↔ b.toNat < a.toNat := by
  rw [gt_iff_lt, ← Int.not_le, compUint_nonpos_iff, Nat.not_le]

section Cells

variable (items : ℕ → α)

theorem length_cells (n : ℕ) : (cells items n).length = n := by
  rw [cells, List.length_map, List.length_range]

theorem cells_succ (n : ℕ) : cells items (n + 1) = cells items n ++ [items n] := by
  rw [cells, List.range_succ, List.map_append, List.map_singleton, cells]

theorem cells_congr {items items' : ℕ → α} {n : ℕ} (h : ∀ k < n, items' k = items k) :
    cells items' n = cells items n :=
  List.map_congr_left fun k hk => h k (List.mem_range.mp hk)

/-- The cells before, at and after two neighbours. -/
theorem cells_eq_append {i n : ℕ} (hi : i + 1 < n) :
    cells items n =
      cells items i ++ items i :: items (i + 1) ::
        (List.range' (i + 2) (n - (i + 2))).map items := by
  obtain ⟨m, rfl⟩ := Nat.exists_eq_add_of_lt hi
  have hsplit : List.range (i + 1 + m + 1) =
      List.range i ++ i :: (i + 1) :: List.range' (i + 2) m := by
    rw [List.range_eq_range', List.range_eq_range', show i + 1 + m + 1 = i + (m + 1 + 1) by omega,
      ← List.range'_append_1, Nat.zero_add, List.range'_succ, List.range'_succ]
  rw [cells, hsplit, show i + 1 + m + 1 - (i + 2) = m by omega, List.map_append, List.map_cons,
    List.map_cons, cells]

end Cells

section Swap

variable (items : ℕ → α) {i k : ℕ}

theorem swap_left (i : ℕ) : swap items i (i + 1) i = items (i + 1) := by
  rw [swap, Function.update_of_ne (by omega), Function.update_self]

theorem swap_right (i : ℕ) : swap items i (i + 1) (i + 1) = items i := by
  rw [swap, Function.update_self]

theorem swap_of_ne (hl : k ≠ i) (hr : k ≠ i + 1) : swap items i (i + 1) k = items k := by
  rw [swap, Function.update_of_ne hr, Function.update_of_ne hl]

/-- Swapping neighbours is an exchange of the cells. -/
theorem exchange_cells_swap {r : α → α → Prop} {n : ℕ} (hi : i + 1 < n)
    (hr : r (items i) (items (i + 1))) :
    Exchange r (cells items n) (cells (swap items i (i + 1)) n) := by
  rw [cells_eq_append items hi, cells_eq_append (swap items i (i + 1)) hi, swap_left, swap_right]
  have hfront : cells (swap items i (i + 1)) i = cells items i :=
    cells_congr fun k hk => swap_of_ne items (by omega) (by omega)
  have hback : (List.range' (i + 2) (n - (i + 2))).map (swap items i (i + 1)) =
      (List.range' (i + 2) (n - (i + 2))).map items := by
    apply List.map_congr_left
    intro k hk
    rw [List.mem_range'_1] at hk
    exact swap_of_ne items (by omega) (by omega)
  rw [hfront, hback]
  exact Exchange.swap _ _ hr

end Swap

end ChrisOS.Utils
