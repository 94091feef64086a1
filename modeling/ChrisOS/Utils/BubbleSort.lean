import ChrisOS.Utils.Sort

/-!
# Bubble sort

Every swap of `bubble_sort` exchanges two neighbours of which the first is above the second. With
that alone, whatever the comparator answers, the array stays a permutation of what it was, and a
pass that swaps at all ends its last swap below where it was to end, so that the passes come to an
end.

With a total preorder the cells from the last swap on are settled: none before them is above them.
A pass that goes up to `n` finds the cells from `n` on settled and leaves those from its last swap
on settled. Equal items are never exchanged.
-/

namespace ChrisOS.Utils

open ChrisOS.Lib Relation

variable {α : Type*} {comp : α → α → ℤ}

/-- No item is above one of the cells from `n` up to `m` that comes after it. -/
def SettledFrom (comp : α → α → ℤ) (items : ℕ → α) (n m : ℕ) : Prop :=
  ∀ k, n ≤ k → k < m → ∀ j < k, comp (items j) (items k) ≤ 0

/-- The array rearranged by swaps of neighbours that are the wrong way round. -/
structure Rearranged (comp : α → α → ℤ) (length : ℕ) (items items' : ℕ → α) : Prop where
  exchanges : ReflTransGen (Exchange fun a b => comp a b > 0) (cells items length)
    (cells items' length)
  outside : ∀ k, length ≤ k → items' k = items k

theorem Rearranged.refl (comp : α → α → ℤ) (length : ℕ) (items : ℕ → α) :
    Rearranged comp length items items :=
  ⟨ReflTransGen.refl, fun _ _ => rfl⟩

variable {length : ℕ}

theorem Rearranged.trans {items₁ items₂ items₃ : ℕ → α} (h₁ : Rearranged comp length items₁ items₂)
    (h₂ : Rearranged comp length items₂ items₃) :
    Rearranged comp length items₁ items₃ where
  exchanges := h₁.exchanges.trans h₂.exchanges
  outside k hk := (h₂.outside k hk).trans (h₁.outside k hk)

/-- One swap. -/
theorem rearranged_swap {length i : ℕ} (items : ℕ → α) (hi : i + 1 < length)
    (hpos : comp (items i) (items (i + 1)) > 0) :
    Rearranged comp length items (swap items i (i + 1)) where
  exchanges := ReflTransGen.single (exchange_cells_swap items hi hpos)
  outside _ hk := swap_of_ne items (by omega) (by omega)

/-- Only items of different rank are exchanged. -/
theorem Rearranged.filter_eq {items items' : ℕ → α} (h : Rearranged comp length items items')
    (hcomp : TotalPreorder comp) (a : α) :
    (cells items' length).filter (fun b => comp a b ≤ 0 ∧ comp b a ≤ 0) =
      (cells items length).filter (fun b => comp a b ≤ 0 ∧ comp b a ≤ 0) := by
  apply filter_eq_of_exchanges h.exchanges
  intro x y hxy hclass
  simp only [decide_eq_true_eq] at hclass
  have hle : comp x y ≤ 0 := hcomp.trans hclass.1.2 hclass.2.1
  omega

section Settled

variable {items : ℕ → α} {i n m newn : ℕ}

/-- An array that is settled from its start is in order. -/
theorem pairwise_cells_of_settledFrom (h : SettledFrom comp items 0 n) :
    (cells items n).Pairwise fun a b => comp a b ≤ 0 := by
  rw [List.pairwise_iff_getElem]
  intro j k _ hk hjk
  rw [length_cells] at hk
  simp only [cells, List.getElem_map, List.getElem_range]
  exact h k (Nat.zero_le k) hk j hjk

/-- A swap among the cells before `n` does not unsettle those from `n` on. -/
theorem settledFrom_swap (hi : i + 1 < n) (h : SettledFrom comp items n m) :
    SettledFrom comp (swap items i (i + 1)) n m := by
  intro k hnk hkm j hjk
  have hk : swap items i (i + 1) k = items k := swap_of_ne items (by omega) (by omega)
  rw [hk]
  by_cases hl : j = i
  · rw [hl, swap_left]
    exact h k hnk hkm (i + 1) (by omega)
  · by_cases hr : j = i + 1
    · rw [hr, swap_right]
      exact h k hnk hkm i (by omega)
    · rw [swap_of_ne items hl hr]
      exact h k hnk hkm j hjk

/-- A cell that is not below its settled neighbour is settled. -/
theorem settledFrom_succ_of_le (hcomp : TotalPreorder comp) (hnewn : newn ≤ i)
    (h : SettledFrom comp items newn (i + 1)) (hle : comp (items i) (items (i + 1)) ≤ 0) :
    SettledFrom comp items newn (i + 2) := by
  intro k hk hki j hjk
  rcases Nat.lt_succ_iff_lt_or_eq.mp hki with hlt | rfl
  · exact h k hk hlt j hjk
  · rcases Nat.lt_succ_iff_lt_or_eq.mp hjk with hlt | rfl
    · exact hcomp.trans (h i hnewn (Nat.lt_succ_self i) j hlt) hle
    · exact hle

/-- A cell that the settled one before it is swapped into is settled. -/
theorem settledFrom_succ_of_pos (hcomp : TotalPreorder comp) (hnewn : newn ≤ i)
    (h : SettledFrom comp items newn (i + 1)) (hpos : comp (items i) (items (i + 1)) > 0) :
    SettledFrom comp (swap items i (i + 1)) (i + 1) (i + 2) := by
  intro k hk hki j hjk
  obtain rfl : k = i + 1 := by omega
  rw [swap_right]
  rcases Nat.lt_succ_iff_lt_or_eq.mp hjk with hlt | rfl
  · rw [swap_of_ne items (by omega) (by omega)]
    exact h i hnewn (Nat.lt_succ_self i) j hlt
  · rw [swap_left]
    exact hcomp.le_of_pos hpos

/-- Settled stretches that meet. -/
theorem SettledFrom.append (h : SettledFrom comp items newn i) (h' : SettledFrom comp items n m)
    (hni : n ≤ i) : SettledFrom comp items newn m := by
  intro k hk hkm
  by_cases hki : k < i
  · exact h k hk hki
  · exact h' k (by omega) hkm

end Settled

/-- A pass up to `n` that is at index `i`. -/
structure PassInv (comp : α → α → ℤ) (length n : ℕ) (items₀ : ℕ → α) (i : ℕ)
    (s : ℕ × (ℕ → α)) : Prop where
  newn_lt : s.1 < i
  rearranged : Rearranged comp length items₀ s.2
  settled : TotalPreorder comp → SettledFrom comp items₀ n length →
    SettledFrom comp s.2 s.1 i ∧ SettledFrom comp s.2 n length

/-- One comparison of a pass. -/
theorem bubbleStep_passInv {length n i : ℕ} {items₀ : ℕ → α} {s : ℕ × (ℕ → α)}
    (hlength : length < 2 ^ 31) (hn : n ≤ length) (hi : i + 1 < n)
    (h : PassInv comp length n items₀ (i + 1) s) :
    ∃ s', bubbleStep comp (i + 1) s = some s' ∧ PassInv comp length n items₀ (i + 2) s' := by
  have hnewn : s.1 ≤ i := Nat.lt_succ_iff.mp h.newn_lt
  rw [bubbleStep, if_pos (by omega), Nat.add_sub_cancel]
  by_cases hpos : comp (s.2 i) (s.2 (i + 1)) > 0
  · refine ⟨_, if_pos hpos, Nat.lt_succ_self _, ?_, ?_⟩
    · exact h.rearranged.trans (rearranged_swap s.2 (by omega) hpos)
    · intro hcomp htail
      obtain ⟨hfront, hback⟩ := h.settled hcomp htail
      exact ⟨settledFrom_succ_of_pos hcomp hnewn hfront hpos, settledFrom_swap hi hback⟩
  · refine ⟨_, if_neg hpos, Nat.lt_succ_of_lt h.newn_lt, h.rearranged, ?_⟩
    intro hcomp htail
    obtain ⟨hfront, hback⟩ := h.settled hcomp htail
    exact ⟨settledFrom_succ_of_le hcomp hnewn hfront (by omega), hback⟩

/-- A pass comes to its end. If it swapped anything, its last swap was below `n`. -/
theorem bubblePass_spec (comp : α → α → ℤ) {length n : ℕ} (items : ℕ → α)
    (hlength : length < 2 ^ 31) (hn : n ≤ length) :
    ∃ s, bubblePass comp n items = some s ∧ (s.1 = 0 ∨ s.1 < n) ∧
      Rearranged comp length items s.2 ∧
      (TotalPreorder comp → SettledFrom comp items n length →
        SettledFrom comp s.2 s.1 length) := by
  have hstart : PassInv comp length n items 1 (0, items) :=
    ⟨Nat.one_pos, Rearranged.refl comp length items,
      fun _ htail => ⟨fun k _ hk j hjk => by omega, htail⟩⟩
  have hstep : ∀ k s, 1 ≤ k → k < 1 + (n - 1) → PassInv comp length n items k s →
      ∃ s', bubbleStep comp k s = some s' ∧ PassInv comp length n items (k + 1) s' := by
    intro k s hk hkn hinv
    obtain ⟨i, rfl⟩ := Nat.exists_eq_add_of_le' hk
    exact bubbleStep_passInv hlength hn (by omega) hinv
  obtain ⟨s, hrun, hend⟩ := countedLoop_inv (PassInv comp length n items) hstart hstep
  have hlt := hend.newn_lt
  refine ⟨s, hrun, by omega, hend.rearranged, fun hcomp htail => ?_⟩
  obtain ⟨hfront, hback⟩ := hend.settled hcomp htail
  exact hfront.append hback (by omega)

/-- The passes come to an end, after at most as many as the first has cells and one. -/
theorem bubbleLoop_spec (comp : α → α → ℤ) {length n : ℕ} (items : ℕ → α)
    (hlength : length < 2 ^ 31) (hn : n ≤ length) :
    ∃ items', (∀ fuel, n < fuel → bubbleLoop comp fuel n items = some items') ∧
      Rearranged comp length items items' ∧
      (TotalPreorder comp → SettledFrom comp items n length →
        SettledFrom comp items' 0 length) := by
  -- the place of the last swap decreases from pass to pass
  induction n using Nat.strongRecOn generalizing items with
  | ind n ih =>
    obtain ⟨⟨newn, items₁⟩, hpass, hnewn, hrearranged, hsettled⟩ :=
      bubblePass_spec comp items hlength hn
    by_cases hzero : newn = 0
    · refine ⟨items₁, ?_, hrearranged, ?_⟩
      · intro fuel hfuel
        obtain ⟨fuel, rfl⟩ := Nat.exists_eq_add_of_lt hfuel
        rw [bubbleLoop, hpass, Option.bind_some, if_pos hzero]
      · rwa [hzero] at hsettled
    · have hlt : newn < n := hnewn.resolve_left hzero
      obtain ⟨items₂, hloop, hrearranged₂, hsettled₂⟩ := ih newn hlt items₁ (by omega)
      refine ⟨items₂, ?_, hrearranged.trans hrearranged₂, ?_⟩
      · intro fuel hfuel
        obtain ⟨fuel, rfl⟩ := Nat.exists_eq_add_of_lt hfuel
        rw [bubbleLoop, hpass, Option.bind_some, if_neg hzero]
        exact hloop _ (by omega)
      · exact fun hcomp htail => hsettled₂ hcomp (hsettled hcomp htail)

/-- `bubble_sort` ends with any comparator and leaves a permutation of the array. With a total
preorder it sorts, and items that compare equal stay in their order. -/
theorem bubble_sort_sorts (comp : α → α → ℤ) (items : ℕ → α) {length : ℕ}
    (hlength : length < 2 ^ 31) :
    ∃ items', (∀ fuel, length < fuel → bubbleSort comp fuel items length = some items') ∧
      (cells items' length).Perm (cells items length) ∧
      (∀ k, length ≤ k → items' k = items k) ∧
      (TotalPreorder comp →
        ((cells items' length).Pairwise fun a b => comp a b ≤ 0) ∧
        ∀ a, (cells items' length).filter (fun b => comp a b ≤ 0 ∧ comp b a ≤ 0) =
          (cells items length).filter (fun b => comp a b ≤ 0 ∧ comp b a ≤ 0)) := by
  obtain ⟨items', hloop, hrearranged, hsettled⟩ :=
    bubbleLoop_spec comp items hlength (Nat.le_refl length)
  refine ⟨items', hloop, perm_of_exchanges hrearranged.exchanges, hrearranged.outside, ?_⟩
  intro hcomp
  have htail : SettledFrom comp items length length := fun k hk hkm => by omega
  exact ⟨pairwise_cells_of_settledFrom (hsettled hcomp htail), hrearranged.filter_eq hcomp⟩

/-- Two tagged items of the same rank and one below them. -/
theorem bubble_sort_sorts_tagged :
    ∃ items', (∀ fuel, 3 < fuel → bubbleSort (fun a b : ℤ × ℕ => a.1 - b.1) fuel
        (fun k => [(2, 0), (2, 1), (1, 2)].getD k (0, k)) 3 = some items') ∧
      ((cells items' 3).Pairwise fun a b => a.1 - b.1 ≤ 0) ∧
      (cells items' 3).filter (fun b => 2 - b.1 ≤ 0 ∧ b.1 - 2 ≤ 0) = [(2, 0), (2, 1)] := by
  have hcomp : TotalPreorder fun a b : ℤ × ℕ => a.1 - b.1 := by
    constructor
    · intro a b
      omega
    · intro a b c hab hbc
      omega
  obtain ⟨items', hrun, _, _, hsorted⟩ := bubble_sort_sorts (fun a b : ℤ × ℕ => a.1 - b.1)
    (fun k => [(2, 0), (2, 1), (1, 2)].getD k (0, k)) (show 3 < 2 ^ 31 by decide)
  exact ⟨items', hrun, (hsorted hcomp).1, (hsorted hcomp).2 (2, 0)⟩

example : (bubbleSort (fun a b : ℤ × ℕ => a.1 - b.1) 4
    (fun k => [(2, 0), (2, 1), (1, 2)].getD k (0, k)) 3).map (cells · 3) =
      some [(1, 2), (2, 0), (2, 1)] := by
  decide

end ChrisOS.Utils
