import ChrisOS.Lib.LList

/-!
# Tables of linked lists

Several singly linked lists that share the next field, each with a pointer to its first node in a table.
No node is on two of them. The operations on one list leave the others alone.
-/

namespace ChrisOS.Lib

variable {τ ι : Type*}

/-- The pointers and the next fields represent a list for each entry of the table. -/
structure TableRep (next : τ → Option τ) (heads : ι → Option τ) (lists : ι → List τ) : Prop where
  rep : ∀ i, LLRep next (heads i) (lists i)
  disjoint : ∀ {i j : ι} {a : τ}, a ∈ lists i → a ∈ lists j → i = j

/-- Walk along a list to the first node with a property. -/
def llFind (next : τ → Option τ) (p : τ → Bool) : ℕ → Option τ → Option (Option τ)
  | 0, _ => none
  | _ + 1, none => some none
  | fuel + 1, some a => if p a then some (some a) else llFind next p fuel (next a)

/-- The walk finds the first node of the list that has the property. -/
theorem llFind_eq {next : τ → Option τ} {head : Option τ} {l : List τ} (h : LLRep next head l)
    (p : τ → Bool) {fuel : ℕ} (hfuel : l.length < fuel) :
    llFind next p fuel head = some (l.find? p) := by
  induction l generalizing head fuel with
  | nil =>
    obtain ⟨fuel, rfl⟩ := Nat.exists_eq_add_one.mpr (Nat.zero_lt_of_lt hfuel)
    obtain rfl : head = none := h
    rfl
  | cons a rest ih =>
    obtain ⟨fuel, rfl⟩ := Nat.exists_eq_add_one.mpr (Nat.zero_lt_of_lt hfuel)
    obtain rfl : head = some a := h.1
    rw [llFind, List.find?_cons, ih h.2 (Nat.lt_of_succ_lt_succ hfuel)]
    cases p a <;> rfl

/-- All lists are empty. -/
theorem TableRep.nil (next : τ → Option τ) :
    TableRep next (fun _ : ι => none) (fun _ => []) where
  rep _ := rfl
  disjoint h := absurd h List.not_mem_nil

variable [DecidableEq ι] {next : τ → Option τ} {heads : ι → Option τ} {lists : ι → List τ} {i : ι}

/-- A list that gets only its own nodes or ones that are on no list stays apart from the others. -/
theorem TableRep.disjoint_update (h : TableRep next heads lists) {l : List τ}
    (hl : ∀ b ∈ l, b ∈ lists i ∨ ∀ j, b ∉ lists j) {j k : ι} {a : τ}
    (hj : a ∈ Function.update lists i l j) (hk : a ∈ Function.update lists i l k) : j = k := by
  -- a node of the new list that is on another list is one of the old list's
  have hown : ∀ m, a ∈ l → m ≠ i → a ∈ lists m → False := fun m ha hm hmem =>
    (hl a ha).elim (fun hold => hm (h.disjoint hmem hold)) fun hfree => hfree m hmem
  by_cases hji : j = i <;> by_cases hki : k = i
  · rw [hji, hki]
  · subst hji
    rw [Function.update_self] at hj
    rw [Function.update_of_ne hki] at hk
    exact (hown k hj hki hk).elim
  · subst hki
    rw [Function.update_self] at hk
    rw [Function.update_of_ne hji] at hj
    exact (hown j hk hji hj).elim
  · rw [Function.update_of_ne hji] at hj
    rw [Function.update_of_ne hki] at hk
    exact h.disjoint hj hk

variable {a : τ}

/-- A node that is taken off its list is on none. -/
theorem TableRep.notMem_update (h : TableRep next heads lists) {pre post : List τ}
    (hi : lists i = pre ++ a :: post) (j : ι) : a ∉ Function.update lists i (pre ++ post) j := by
  by_cases hji : j = i
  · subst hji
    have hnodup := (h.rep j).nodup
    rw [hi, List.nodup_middle] at hnodup
    rw [Function.update_self]
    exact (List.nodup_cons.mp hnodup).1
  · rw [Function.update_of_ne hji]
    intro hmem
    apply hji
    apply h.disjoint hmem
    rw [hi]
    exact List.mem_append_right _ List.mem_cons_self

variable [DecidableEq τ]

/-- If an entry is at a node that is nowhere else in the table, filtering its node out of all lists takes it
off its own. -/
theorem filter_node_eq_update {ε : Type*} {node : ε → τ} {entries : ι → List ε} {pre post : List ε}
    {e : ε} (hi : entries i = pre ++ e :: post)
    (hnode : ∀ j, node e ∉ (Function.update entries i (pre ++ post) j).map node) :
    (fun j => (entries j).filter (node · ≠ node e)) = Function.update entries i (pre ++ post) := by
  have hkeep : ∀ j, (Function.update entries i (pre ++ post) j).filter (node · ≠ node e) =
      Function.update entries i (pre ++ post) j := by
    intro j
    rw [List.filter_eq_self]
    intro a ha
    rw [decide_eq_true_eq]
    intro heq
    exact hnode j (heq ▸ List.mem_map_of_mem ha)
  funext j
  rw [← hkeep j]
  by_cases hji : j = i
  · subst hji
    rw [Function.update_self, hi, List.filter_append, List.filter_append,
      List.filter_cons_of_neg (by simp)]
  · rw [Function.update_of_ne hji]

/-- Put a node that is on no list in front of one. -/
theorem TableRep.prepend (h : TableRep next heads lists) (ha : ∀ i, a ∉ lists i) (i : ι) :
    TableRep (llPrepend next (heads i) a).1
      (Function.update heads i (llPrepend next (heads i) a).2)
      (Function.update lists i (a :: lists i)) where
  rep j := by
    by_cases hji : j = i
    · subst hji
      rw [Function.update_self, Function.update_self]
      exact llPrepend_spec (h.rep j) (ha j)
    · rw [Function.update_of_ne hji, Function.update_of_ne hji]
      exact (h.rep j).update_of_notMem (ha j) _
  disjoint := by
    apply h.disjoint_update
    intro b hb
    rcases List.mem_cons.mp hb with rfl | hb
    · exact .inr ha
    · exact .inl hb

/-- Take a node off its list. -/
theorem TableRep.delete (h : TableRep next heads lists) {pre post : List τ}
    (hi : lists i = pre ++ a :: post) {fuel : ℕ} (hfuel : pre.length ≤ fuel) :
    ∃ next' head', llDelete next (heads i) a fuel = some (next', head') ∧
      TableRep next' (Function.update heads i head') (Function.update lists i (pre ++ post)) := by
  have hrep := h.rep i
  rw [hi] at hrep
  obtain ⟨next', head', hdelete, hlist, hframe⟩ := llDelete_spec hrep hfuel
  refine ⟨next', head', hdelete, fun j => ?_, ?_⟩
  · by_cases hji : j = i
    · subst hji
      rwa [Function.update_self, Function.update_self]
    · rw [Function.update_of_ne hji, Function.update_of_ne hji]
      apply (h.rep j).congr
      intro t ht
      apply hframe
      intro hpre
      apply hji
      apply h.disjoint ht
      rw [hi]
      exact List.mem_append_left _ hpre
  · apply h.disjoint_update
    intro b hb
    left
    rw [hi]
    rcases List.mem_append.mp hb with hb | hb
    · exact List.mem_append_left _ hb
    · exact List.mem_append_right _ (List.mem_cons_of_mem _ hb)

/-- Take the first node off its list. -/
theorem TableRep.pop (h : TableRep next heads lists) {rest : List τ} (hi : lists i = a :: rest) :
    TableRep next (Function.update heads i (next a)) (Function.update lists i rest) := by
  obtain ⟨next', head', hdelete, hrep⟩ := h.delete (show lists i = [] ++ a :: rest from hi)
    (Nat.le_refl 0)
  have hhead : heads i = some a := by
    have hlist := h.rep i
    rw [hi] at hlist
    exact hlist.1
  rw [hhead, llDelete, llRelink, if_pos rfl, Option.some.injEq, Prod.mk.injEq] at hdelete
  obtain ⟨rfl, rfl⟩ := hdelete
  exact hrep

end ChrisOS.Lib
