import ChrisOS.Mm.RegionHeap
import Mathlib.Data.List.Perm.Subperm

/-!
# Every descriptor in its place

The invariant of the descriptor heap: every list is well formed, no descriptor is on two lists, and
a descriptor that has been handed out is on a list or is held, by the function that took it
off a list or because it was lost. Every operation on one list keeps it, and the functions of
`mm/range.h` are the functions on lists of regions, on the fields of the descriptors.
-/

namespace ChrisOS.Mm

open ChrisOS.Utils ChrisOS.Lib

variable {κ ρ : Type*} {s : RegionHeap κ ρ} {lists : Option κ → List ℕ} {held : List ℕ}

/-- `lists` are the lists of the heap, and `held` the descriptors on none of them. -/
structure Linked (s : RegionHeap κ ρ) (lists : Option κ → List ℕ) (held : List ℕ) : Prop where
  rep : ∀ place, LLRep s.next (s.heads place) (lists place)
  disjoint : ∀ p q d, d ∈ lists p → d ∈ lists q → p = q
  held_nodup : held.Nodup
  held_off : ∀ d ∈ held, ∀ place, d ∉ lists place
  obtained : ∀ d, d < s.obtained ↔ d ∈ held ∨ ∃ place, d ∈ lists place

/-- Nothing is linked or held at the start. -/
theorem linked_initial (next : ℕ → Option ℕ) (region : ℕ → Region ρ) :
    Linked (RegionHeap.initial next region : RegionHeap κ ρ) (fun _ => []) [] :=
  ⟨fun _ => rfl, by simp, List.nodup_nil, by simp, by simp [RegionHeap.initial]⟩

/-- The regions of every map, in link order. -/
def RegionHeap.maps (s : RegionHeap κ ρ) (lists : Option κ → List ℕ) (map : κ) : List (Region ρ) :=
  (lists (some map)).map s.region

/-- The regions depend on the fields only. -/
theorem RegionHeap.maps_congr {s' : RegionHeap κ ρ} (h : s'.region = s.region) :
    s'.maps lists = s.maps lists := by
  funext map
  rw [maps, h, maps]

/-- There are enough descriptors for a walk over any list. -/
theorem Linked.length_le (h : Linked s lists held) (place : Option κ) :
    (lists place).length ≤ s.obtained := by
  have hsubset : lists place ⊆ List.range s.obtained := fun d hd =>
    List.mem_range.mpr ((h.obtained d).mpr (Or.inr ⟨place, hd⟩))
  have hle := (List.subperm_of_subset (h.rep place).nodup hsubset).length_le
  rwa [List.length_range] at hle

/-- The fields other than the link do not matter. -/
theorem Linked.setRegion (h : Linked s lists held) (d : ℕ) (region : Region ρ) :
    Linked (s.setRegion d region) lists held :=
  ⟨h.rep, h.disjoint, h.held_nodup, h.held_off, h.obtained⟩

variable {d : ℕ}

/-- The link of a descriptor that is on no list does not matter. -/
theorem Linked.setNext (h : Linked s lists held) (hd : d ∈ held) (value : Option ℕ) :
    Linked { s with next := Function.update s.next d value } lists held :=
  ⟨fun place => (h.rep place).update_of_notMem (h.held_off d hd place) value, h.disjoint,
    h.held_nodup, h.held_off, h.obtained⟩

/-- Writing the fields of a descriptor that is not on a list. -/
theorem map_setRegion_of_notMem {l : List ℕ} (hd : d ∉ l) (region : Region ρ) :
    l.map (s.setRegion d region).region = l.map s.region :=
  List.map_congr_left fun _ hx => Function.update_of_ne (ne_of_mem_of_not_mem hx hd) ..

/-- Writing a held descriptor's fields changes no map. -/
theorem maps_setRegion_of_held (h : Linked s lists held) (hd : d ∈ held) (region : Region ρ) :
    (s.setRegion d region).maps lists = s.maps lists := by
  funext map
  exact map_setRegion_of_notMem (h.held_off d hd (some map)) region

variable {map : κ}

/-- Writing the fields of a descriptor of one map changes no other map. -/
theorem maps_setRegion_of_ne (h : Linked s lists held) (hd : d ∈ lists (some map)) (region : Region ρ) :
    ∀ k, k ≠ map → (s.setRegion d region).maps lists k = s.maps lists k := by
  intro k hk
  refine map_setRegion_of_notMem (fun hx => ?_) region
  exact hk (Option.some.inj (h.disjoint _ _ _ hx hd))

variable {pre post : List ℕ}

/-- Writing the fields of a descriptor on a list. -/
theorem map_setRegion_of_mem (hnodup : (pre ++ d :: post).Nodup) (region : Region ρ) :
    pre.map (s.setRegion d region).region = pre.map s.region ∧
      (s.setRegion d region).region d = region ∧
      post.map (s.setRegion d region).region = post.map s.region := by
  have hpre : d ∉ pre := fun hd => (List.disjoint_of_nodup_append hnodup) hd List.mem_cons_self
  have hpost : d ∉ post := (List.nodup_cons.mp hnodup.of_append_right).1
  exact ⟨map_setRegion_of_notMem hpre region, Function.update_self ..,
    map_setRegion_of_notMem hpost region⟩

section Writes

variable [DecidableEq κ]

/-- A write to one list that moves descriptors between the list and the held ones. -/
theorem Linked.setList (h : Linked s lists held) {place : Option κ} {l' held' : List ℕ}
    {next' : ℕ → Option ℕ} {head' : Option ℕ} (hrep : LLRep next' head' l')
    (hperm : (l' ++ held').Perm (lists place ++ held))
    (hframe : ∀ x, x ∉ lists place → x ∉ held → next' x = s.next x) :
    Linked (s.setList place (next', head')) (Function.update lists place l') held' := by
  have hmem : ∀ d, d ∈ l' ∨ d ∈ held' ↔ d ∈ lists place ∨ d ∈ held := fun d => by
    simpa using hperm.mem_iff (a := d)
  have hnodup : (l' ++ held').Nodup := hperm.nodup_iff.mpr
    (List.nodup_append'.mpr ⟨(h.rep place).nodup, h.held_nodup, fun d hd hheld =>
      h.held_off d hheld place hd⟩)
  -- what the write moves is on no other list
  have hother : ∀ d q, q ≠ place → d ∈ lists q → d ∉ l' ∧ d ∉ held' := fun d q hq hd => by
    have := hmem d
    have hplace : d ∉ lists place := fun hd' => hq (h.disjoint q place d hd hd')
    have hheld : d ∉ held := fun hd' => h.held_off d hd' q hd
    tauto
  refine ⟨fun q => ?_, fun p q d hp hq => ?_, hnodup.of_append_right, fun d hd q => ?_, fun d => ?_⟩
  · by_cases hq : q = place
    · subst hq
      simpa only [RegionHeap.setList, Function.update_self] using hrep
    · simp only [RegionHeap.setList, Function.update_of_ne hq]
      refine (h.rep q).congr fun d hd => hframe d (fun hd' => hq (h.disjoint q place d hd hd')) ?_
      exact fun hheld => h.held_off d hheld q hd
  · by_cases hpp : p = place <;> by_cases hqp : q = place
    · rw [hpp, hqp]
    · subst hpp
      rw [Function.update_self] at hp
      rw [Function.update_of_ne hqp] at hq
      exact absurd hp (hother d q hqp hq).1
    · subst hqp
      rw [Function.update_self] at hq
      rw [Function.update_of_ne hpp] at hp
      exact absurd hq (hother d p hpp hp).1
    · rw [Function.update_of_ne hpp] at hp
      rw [Function.update_of_ne hqp] at hq
      exact h.disjoint p q d hp hq
  · by_cases hq : q = place
    · subst hq
      rw [Function.update_self]
      exact fun hl => (List.disjoint_of_nodup_append hnodup) hl hd
    · rw [Function.update_of_ne hq]
      exact fun hq' => (hother d q hq hq').2 hd
  · refine (h.obtained d).trans ⟨fun hd => ?_, fun hd => ?_⟩
    · by_cases hplace : d ∈ l' ∨ d ∈ held'
      · refine hplace.symm.imp id fun hl => ⟨place, ?_⟩
        rwa [Function.update_self]
      · have hnot := mt (hmem d).mpr hplace
        push Not at hnot
        obtain hheld | ⟨q, hq⟩ := hd
        · exact absurd hheld hnot.2
        · have hqp : q ≠ place := fun heq => hnot.1 (heq ▸ hq)
          exact Or.inr ⟨q, by rwa [Function.update_of_ne hqp]⟩
    · obtain hheld | ⟨q, hq⟩ := hd
      · exact ((hmem d).mp (Or.inr hheld)).symm.imp id fun hd => ⟨place, hd⟩
      · by_cases hqp : q = place
        · subst hqp
          rw [Function.update_self] at hq
          exact ((hmem d).mp (Or.inl hq)).symm.imp id fun hd => ⟨q, hd⟩
        · rw [Function.update_of_ne hqp] at hq
          exact Or.inr ⟨q, hq⟩

/-- The free list is no map. -/
theorem maps_update_none (s : RegionHeap κ ρ) (lists : Option κ → List ℕ) (free : List ℕ) :
    s.maps (Function.update lists none free) = s.maps lists := by
  funext map
  rw [RegionHeap.maps, Function.update_of_ne (Option.some_ne_none map)]
  rfl

/-- A list of descriptors is the list of one map. -/
theorem maps_update_some (s : RegionHeap κ ρ) (lists : Option κ → List ℕ) (map : κ) (l : List ℕ) :
    s.maps (Function.update lists (some map) l) =
      Function.update (s.maps lists) map (l.map s.region) := by
  funext k
  by_cases hk : k = map
  · subst hk
    rw [RegionHeap.maps, Function.update_self, Function.update_self]
  · have hne : some k ≠ some map := fun h => hk (Option.some.inj h)
    rw [RegionHeap.maps, Function.update_of_ne hne, Function.update_of_ne hk]
    rfl

/-- What differs at one map only is the same once that map is set. -/
theorem update_eq_of_frame {f g : κ → List (Region ρ)} (h : ∀ k, k ≠ map → f k = g k)
    (l : List (Region ρ)) : Function.update f map l = Function.update g map l := by
  funext k
  by_cases hk : k = map
  · subst hk
    rw [Function.update_self, Function.update_self]
  · rw [Function.update_of_ne hk, Function.update_of_ne hk, h k hk]

/-- A map has the regions of its list. -/
theorem maps_eq_update {l : List ℕ} (hlist : lists (some map) = l) :
    s.maps lists = Function.update (s.maps lists) map (l.map s.region) := by
  rw [← hlist]
  exact (Function.update_eq_self map (s.maps lists)).symm

/-- The descriptor `_alloc` gives is held, and comes from the free list if it is not new. -/
theorem regionAlloc_spec (h : Linked s lists held) :
    ∃ free, Linked (regionAlloc s).2 (Function.update lists none free)
      ((regionAlloc s).1 :: held) ∧ (regionAlloc s).2.region = s.region := by
  have hrep := h.rep none
  unfold regionAlloc
  cases hhead : s.heads none with
  | none =>
    have hnew : ∀ d, d ∈ held ∨ (∃ place, d ∈ lists place) → d ≠ s.obtained := fun d hd =>
      Nat.ne_of_lt ((h.obtained d).mpr hd)
    refine ⟨lists none, ?_, rfl⟩
    rw [Function.update_eq_self]
    refine ⟨h.rep, h.disjoint, List.nodup_cons.mpr ⟨fun hd => hnew _ (Or.inl hd) rfl, h.held_nodup⟩,
      fun d hd place hplace => ?_, fun d => ?_⟩
    · obtain rfl | hd := List.mem_cons.mp hd
      · exact hnew _ (Or.inr ⟨place, hplace⟩) rfl
      · exact h.held_off d hd place hplace
    · change d < s.obtained + 1 ↔ _
      rw [Nat.lt_succ_iff_lt_or_eq, h.obtained d, List.mem_cons]
      tauto
  | some d =>
    cases hfree : lists none with
    | nil =>
      rw [hhead, hfree] at hrep
      exact absurd hrep (Option.some_ne_none d)
    | cons first free =>
      rw [hhead, hfree] at hrep
      obtain rfl : d = first := Option.some.inj hrep.1
      refine ⟨free, h.setList hrep.2 ?_ fun _ _ _ => rfl, rfl⟩
      rw [hfree]
      exact List.perm_middle

/-- `_free` puts a held descriptor on the free list. -/
theorem regionFree_spec (h : Linked s lists (d :: held)) :
    Linked (regionFree s d) (Function.update lists none (d :: lists none)) held := by
  refine h.setList (llPrepend_spec (h.rep none) (h.held_off d List.mem_cons_self none))
    List.perm_middle.symm fun x _ hx => ?_
  exact Function.update_of_ne (List.ne_of_not_mem_cons hx) ..

/-- A held descriptor is linked behind a map's last one. -/
theorem regionAppend_spec (h : Linked s lists (d :: held)) (map : κ) :
    ∃ s', regionAppend s map d = some s' ∧ s'.region = s.region ∧
      Linked s' (Function.update lists (some map) (lists (some map) ++ [d])) held := by
  obtain ⟨next', head', heq, hrep, hframe⟩ := llAppend_spec (h.rep (some map))
    (h.held_off d List.mem_cons_self (some map)) (h.length_le (some map))
  refine ⟨s.setList (some map) (next', head'), by rw [regionAppend, heq, Option.map_some], rfl,
    h.setList hrep ?_ fun x hx hheld => ?_⟩
  · rw [List.append_assoc]
    rfl
  · exact hframe x (List.ne_of_not_mem_cons hheld) hx

/-- A held descriptor is linked in front of one of a map. -/
theorem regionPrependElem_spec {cur d : ℕ} (h : Linked s lists (d :: held))
    (hlist : lists (some map) = pre ++ cur :: post) :
    ∃ s', regionPrependElem s map cur d = some s' ∧ s'.region = s.region ∧
      Linked s' (Function.update lists (some map) (pre ++ d :: cur :: post)) held := by
  have hrep := h.rep (some map)
  have hoff := h.held_off d List.mem_cons_self (some map)
  have hlength := h.length_le (some map)
  rw [hlist] at hrep hoff hlength
  have hfuel : pre.length ≤ s.obtained := by
    rw [List.length_append] at hlength
    omega
  obtain ⟨next', head', heq, hrep', hframe⟩ := llPrependElem_spec hrep hoff hfuel
  refine ⟨s.setList (some map) (next', head'), by rw [regionPrependElem, heq, Option.map_some], rfl,
    h.setList hrep' ?_ fun x hx hheld => ?_⟩
  · rw [hlist, List.append_assoc, List.append_assoc]
    exact List.perm_middle.symm.append_left pre
  · rw [hlist] at hx
    exact hframe x (List.ne_of_not_mem_cons hheld) fun hpre => hx (List.mem_append_left _ hpre)

/-- A descriptor of a map is unlinked and freed. -/
theorem regionUnlink_spec (h : Linked s lists held) (hlist : lists (some map) = pre ++ d :: post) :
    ∃ s' free, regionUnlink s map d = some s' ∧ s'.region = s.region ∧
      Linked s' (Function.update (Function.update lists (some map) (pre ++ post)) none free) held := by
  have hrep := h.rep (some map)
  have hlength := h.length_le (some map)
  rw [hlist] at hrep hlength
  have hfuel : pre.length ≤ s.obtained := by
    rw [List.length_append] at hlength
    omega
  obtain ⟨next', head', heq, hrep', hframe⟩ := llDelete_spec hrep hfuel
  refine ⟨regionFree (s.setList (some map) (next', head')) d, _,
    by rw [regionUnlink, heq, Option.map_some], rfl, regionFree_spec (h.setList hrep' ?_ ?_)⟩
  · rw [hlist, List.append_assoc, List.append_assoc]
    exact List.perm_middle.append_left pre
  · intro x hx _
    rw [hlist] at hx
    exact hframe x fun hpre => hx (List.mem_append_left _ hpre)

end Writes

/-- `_insert` links in front of the first region that starts further on. -/
theorem insert_append {front back : List (Region ρ)} {elem : Region ρ}
    (hfront : ∀ q ∈ front, ¬ elem.address < q.address)
    (hback : ∀ q ∈ back.head?, elem.address < q.address) :
    insert (front ++ back) elem = front ++ elem :: back := by
  induction front with
  | nil =>
    cases back with
    | nil => rfl
    | cons q rest => exact if_pos (hback q rfl)
  | cons q front ih =>
    obtain ⟨hq, hfront⟩ := List.forall_mem_cons.mp hfront
    rw [List.cons_append, insert, if_neg hq, ih hfront]
    rfl

section Pieces

variable {region : Region ρ} {hole left tmp : Range}

/-- A right-hand piece that is linked before the region it was cut from, or in front of it. -/
theorem cutAndStitchSplit_before {front mid : List (Region ρ)} (post : List (Region ρ))
    (hcut : cut region.toRange hole = some (left, tmp)) (hsize : tmp.size ≠ 0)
    (hfront : ∀ q ∈ front, ¬ tmp.address < q.address)
    (hmid : ∀ q ∈ (mid ++ [{ region with toRange := left }]).head?, tmp.address < q.address) :
    cutAndStitchSplit (front ++ mid) region post hole =
      (front ++ { region with toRange := tmp } :: mid ++ dropEmpty { region with toRange := left },
        post) := by
  rw [cutAndStitchSplit, hcut]
  dsimp only
  rw [if_neg hsize]
  cases mid with
  | nil =>
    have hany : ¬ (front ++ []).any (fun cur => tmp.address < cur.address) = true := by
      simpa using hfront
    rw [if_neg hany, if_pos (hmid _ rfl), List.append_nil, List.append_assoc]
    rfl
  | cons q mid =>
    have hq : tmp.address < q.address := hmid q rfl
    have hany : (front ++ q :: mid).any (fun cur => tmp.address < cur.address) = true := by
      simp [hq]
    rw [if_pos hany, insert_append hfront fun q' hq' => hmid q' (by simpa using hq')]

/-- A right-hand piece that is linked behind the region it was cut from. -/
theorem cutAndStitchSplit_after {pre mid back : List (Region ρ)}
    (hcut : cut region.toRange hole = some (left, tmp)) (hsize : tmp.size ≠ 0)
    (hpre : ∀ q ∈ pre, ¬ tmp.address < q.address) (hregion : ¬ tmp.address < left.address)
    (hmid : ∀ q ∈ mid, ¬ tmp.address < q.address)
    (hback : ∀ q ∈ back.head?, tmp.address < q.address) :
    cutAndStitchSplit pre region (mid ++ back) hole =
      if mid = [] then
        (pre ++ dropEmpty { region with toRange := left } ++ [{ region with toRange := tmp }], back)
      else
        (pre ++ dropEmpty { region with toRange := left },
          mid ++ { region with toRange := tmp } :: back) := by
  have hany : ¬ pre.any (fun cur => tmp.address < cur.address) = true := by
    simpa using hpre
  rw [cutAndStitchSplit, hcut]
  dsimp only
  rw [if_neg hsize, if_neg hany, if_neg hregion]
  cases mid with
  | nil =>
    cases back with
    | nil => rfl
    | cons q rest => exact if_pos (hback q rfl)
  | cons q mid =>
    obtain ⟨hq, hmid⟩ := List.forall_mem_cons.mp hmid
    rw [List.cons_append, if_neg (List.cons_ne_nil q mid)]
    dsimp only
    rw [if_neg hq, insert_append hmid hback]
    rfl

end Pieces

section Functions

variable [DecidableEq κ]

/-- `_insert` from some descriptor on, and where it links. -/
theorem regionInsertFrom_spec (h : Linked s lists (d :: held)) (hlist : lists (some map) = pre ++ post)
    {fuel : ℕ}
    (hfuel : post.length ≤ fuel)
    (hpre : ∀ x ∈ pre, ¬ (s.region d).address < (s.region x).address) :
    ∃ s' front back, regionInsertFrom s map d fuel post.head? = some s' ∧
      s'.region = s.region ∧ lists (some map) = front ++ back ∧
      Linked s' (Function.update lists (some map) (front ++ d :: back)) held ∧
      (∀ x ∈ front, ¬ (s.region d).address < (s.region x).address) ∧
      ∀ x ∈ back.head?, (s.region d).address < (s.region x).address := by
  induction post generalizing pre fuel with
  | nil =>
    obtain ⟨s', heq, hregion, hlinked⟩ := regionAppend_spec h map
    rw [List.append_nil] at hlist
    refine ⟨s', pre, [], ?_, hregion, by rw [hlist, List.append_nil], ?_, hpre, by simp⟩
    · cases fuel <;> exact heq
    · rwa [hlist] at hlinked
  | cons cur rest ih =>
    obtain ⟨fuel, rfl⟩ := Nat.exists_eq_add_one.mpr (Nat.zero_lt_of_lt hfuel)
    by_cases hlt : (s.region d).address < (s.region cur).address
    · obtain ⟨s', heq, hregion, hlinked⟩ := regionPrependElem_spec h hlist
      refine ⟨s', pre, cur :: rest, ?_, hregion, hlist, hlinked, hpre, by simpa using hlt⟩
      rw [List.head?_cons, regionInsertFrom, if_pos hlt, heq]
    · have hrep := h.rep (some map)
      rw [hlist] at hrep
      have hnext : s.next cur = rest.head? := hrep.suffix.head_eq
      have hlist' : lists (some map) = (pre ++ [cur]) ++ rest := by
        rw [hlist, List.append_assoc]
        rfl
      have hpre' : ∀ x ∈ pre ++ [cur], ¬ (s.region d).address < (s.region x).address :=
        List.forall_mem_append.mpr ⟨hpre, List.forall_mem_singleton.mpr hlt⟩
      obtain ⟨s', front, back, heq, hspec⟩ := ih hlist' (Nat.le_of_succ_le_succ hfuel) hpre'
      refine ⟨s', front, back, ?_, hspec⟩
      rw [List.head?_cons, regionInsertFrom, if_neg hlt, hnext, heq]

/-- `_insert` links a held descriptor in front of the first one that starts further on. -/
theorem regionInsert_spec (h : Linked s lists (d :: held)) (map : κ) :
    ∃ s' front back, regionInsert s map d = some s' ∧
      s'.region = s.region ∧ lists (some map) = front ++ back ∧
      Linked s' (Function.update lists (some map) (front ++ d :: back)) held ∧
      (∀ x ∈ front, ¬ (s.region d).address < (s.region x).address) ∧
      ∀ x ∈ back.head?, (s.region d).address < (s.region x).address := by
  have hlist : lists (some map) = [] ++ lists (some map) := rfl
  rw [regionInsert, (h.rep (some map)).head_eq]
  exact regionInsertFrom_spec h hlist (h.length_le _) (by simp)

/-- The end of `_add` on the fields of the descriptors. -/
theorem regionMergeNext_spec (preMerge : Region ρ → Region ρ → Bool) {cur : ℕ} (h : Linked s lists held)
    (hlist : lists (some map) = pre ++ cur :: post) :
    ∃ s' lists', regionMergeNext preMerge s map cur = some s' ∧ Linked s' lists' held ∧
      s'.maps lists' = Function.update (s.maps lists) map
        (pre.map s.region ++ mergeNext preMerge (s.region cur) (post.map s.region)) := by
  have hrep := h.rep (some map)
  rw [hlist] at hrep
  have hnext : s.next cur = post.head? := hrep.suffix.head_eq
  have hmaps := maps_eq_update (s := s) hlist
  rw [List.map_append] at hmaps
  rw [regionMergeNext, hnext]
  cases post with
  | nil => exact ⟨s, lists, rfl, h, hmaps⟩
  | cons next rest =>
    rw [List.head?_cons, List.map_cons]
    dsimp only [mergeNext]
    cases hmerge : merge preMerge (s.region next) (s.region cur) with
    | none => exact ⟨s, lists, rfl, h, hmaps⟩
    | some merged =>
      obtain ⟨s', free, heq, hregion, hlinked⟩ :=
        regionUnlink_spec (h.setRegion next merged) hlist
      refine ⟨s', _, heq, hlinked, ?_⟩
      have hsublist : (pre ++ next :: rest).Sublist (pre ++ cur :: next :: rest) :=
        (List.sublist_cons_self cur _).append_left pre
      obtain ⟨hpre, hself, hrest⟩ := map_setRegion_of_mem (s := s) (hsublist.nodup hrep.nodup) merged
      have hmem : next ∈ lists (some map) := by simp [hlist]
      rw [maps_update_none, maps_update_some, RegionHeap.maps_congr hregion,
        update_eq_of_frame (maps_setRegion_of_ne h hmem merged), hregion, List.map_append, List.map_cons,
        hpre, hself, hrest]

/-- `_add` from some descriptor on is the list function from there on. -/
theorem regionAddFrom_spec (preMerge : Region ρ → Region ρ → Bool) (h : Linked s lists (d :: held))
    (hlist : lists (some map) = pre ++ post)
    {fuel : ℕ} (hfuel : post.length ≤ fuel) :
    ∃ s' lists', regionAddFrom preMerge s map d fuel post.head? = some s' ∧ Linked s' lists' held ∧
      s'.maps lists' = Function.update (s.maps lists) map
        (pre.map s.region ++ add preMerge (post.map s.region) (s.region d)) := by
  induction post generalizing pre fuel with
  | nil =>
    obtain ⟨s', heq, hregion, hlinked⟩ := regionAppend_spec h map
    refine ⟨s', _, ?_, hlinked, ?_⟩
    · cases fuel <;> exact heq
    · rw [maps_update_some, RegionHeap.maps_congr hregion, hregion, hlist, List.append_nil,
        List.map_append]
      rfl
  | cons cur rest ih =>
    obtain ⟨fuel, rfl⟩ := Nat.exists_eq_add_one.mpr (Nat.zero_lt_of_lt hfuel)
    have hrep := h.rep (some map)
    rw [hlist] at hrep
    rw [List.head?_cons, regionAddFrom, List.map_cons, add]
    cases hmerge : merge preMerge (s.region cur) (s.region d) with
    | some merged =>
      have hlist' : Function.update lists none (d :: lists none) (some map) = pre ++ cur :: rest := by
        rw [Function.update_of_ne (Option.some_ne_none map), hlist]
      obtain ⟨s', lists', heq, hlinked, hmaps⟩ :=
        regionMergeNext_spec preMerge (regionFree_spec (h.setRegion cur merged)) hlist'
      obtain ⟨hpre, hself, hrest⟩ := map_setRegion_of_mem (s := s) hrep.nodup merged
      refine ⟨s', lists', heq, hlinked, ?_⟩
      have hmem : cur ∈ lists (some map) := by simp [hlist]
      have hregion : (regionFree (s.setRegion cur merged) d).region =
          (s.setRegion cur merged).region := rfl
      rw [hmaps, maps_update_none, RegionHeap.maps_congr hregion,
        update_eq_of_frame (maps_setRegion_of_ne h hmem merged), hregion, hpre, hself, hrest]
    | none =>
      dsimp only
      split
      · obtain ⟨s', heq, hregion, hlinked⟩ := regionPrependElem_spec h hlist
        refine ⟨s', _, heq, hlinked, ?_⟩
        rw [maps_update_some, RegionHeap.maps_congr hregion, hregion, List.map_append]
        rfl
      · have hnext : s.next cur = rest.head? := hrep.suffix.head_eq
        have hlist' : lists (some map) = (pre ++ [cur]) ++ rest := by
          rw [hlist, List.append_assoc]
          rfl
        obtain ⟨s', lists', heq, hlinked, hmaps⟩ := ih hlist' (Nat.le_of_succ_le_succ hfuel)
        refine ⟨s', lists', by rw [hnext, heq], hlinked, ?_⟩
        rw [hmaps, List.map_append, List.append_assoc]
        rfl

/-- `_add` of a held descriptor is the list function on the fields. -/
theorem regionAdd_spec (preMerge : Region ρ → Region ρ → Bool) (h : Linked s lists (d :: held))
    (map : κ) :
    ∃ s' lists', regionAdd preMerge s map d = some s' ∧ Linked s' lists' held ∧
      s'.maps lists' =
        Function.update (s.maps lists) map (add preMerge (s.maps lists map) (s.region d)) := by
  have hlist : lists (some map) = [] ++ lists (some map) := rfl
  rw [regionAdd, (h.rep (some map)).head_eq]
  exact regionAddFrom_spec preMerge h hlist (h.length_le _)

/-- `_add_new` sets the fields of a descriptor that was on no map, and adds it. -/
theorem regionAddNew_eq (preMerge : Region ρ → Region ρ → Bool) (h : Linked s lists held) (map : κ)
    (fields : Region ρ) :
    ∃ d s₁ free, regionAddNew preMerge s map fields =
        regionAdd preMerge (s₁.setRegion d fields) map d ∧
      Linked s₁ (Function.update lists none free) (d :: held) ∧ s₁.region = s.region := by
  obtain ⟨free, halloc, hregion⟩ := regionAlloc_spec h
  exact ⟨(regionAlloc s).1, (regionAlloc s).2, free, rfl, halloc, hregion⟩

/-- `_add_new` is the list function on the fields and takes no descriptor off the lists. -/
theorem regionAddNew_spec (preMerge : Region ρ → Region ρ → Bool) (h : Linked s lists held) (map : κ)
    (fields : Region ρ) :
    ∃ s' lists', regionAddNew preMerge s map fields = some s' ∧ Linked s' lists' held ∧
      s'.maps lists' =
        Function.update (s.maps lists) map (add preMerge (s.maps lists map) fields) := by
  obtain ⟨d, s₁, free, hadd, halloc, hregion⟩ := regionAddNew_eq preMerge h map fields
  obtain ⟨s', lists', heq, hlinked, hmaps⟩ := regionAdd_spec preMerge (halloc.setRegion d fields) map
  refine ⟨s', lists', hadd.trans heq, hlinked, ?_⟩
  have hself : (s₁.setRegion d fields).region d = fields := Function.update_self ..
  rw [hmaps, maps_setRegion_of_held halloc List.mem_cons_self, maps_update_none,
    RegionHeap.maps_congr hregion, hself]

/-- An emptied descriptor is unlinked, any other stays. -/
theorem regionUnlink_empty (h : Linked s lists held) (hlist : lists (some map) = pre ++ d :: post) :
    ∃ s' lists' kept, (if (s.region d).size = 0 then regionUnlink s map d else some s) = some s' ∧
      Linked s' lists' held ∧ s'.region = s.region ∧ lists' (some map) = pre ++ kept ++ post ∧
      kept.map s.region = dropEmpty (s.region d) ∧
      ∀ k, k ≠ map → s'.maps lists' k = s.maps lists k := by
  split
  · next hsize =>
    obtain ⟨s', free, heq, hregion, hlinked⟩ := regionUnlink_spec h hlist
    refine ⟨s', _, [], heq, hlinked, hregion, ?_, ?_, fun k hk => ?_⟩
    · rw [Function.update_of_ne (Option.some_ne_none map), Function.update_self, List.append_nil]
    · rw [dropEmpty, if_pos hsize, List.map_nil]
    · rw [maps_update_none, maps_update_some, Function.update_of_ne hk, RegionHeap.maps_congr hregion]
  · next hsize =>
    refine ⟨s, lists, [d], rfl, h, rfl, ?_, ?_, fun _ _ => rfl⟩
    · rw [hlist, List.append_assoc]
      rfl
    · rw [dropEmpty, if_neg hsize]
      rfl

/-- A descriptor just allocated is linked by address, with its fields set; it was on no map. -/
theorem regionInsert_new {s₁ : RegionHeap κ ρ} {free : List ℕ}
    (halloc : Linked s₁ (Function.update lists none free) (d :: held)) (hregion : s₁.region = s.region)
    (map : κ) (fields : Region ρ) :
    ∃ s' lists' front back, regionInsert (s₁.setRegion d fields) map d = some s' ∧
      Linked s' lists' held ∧ lists (some map) = front ++ back ∧
      lists' (some map) = front ++ d :: back ∧
      (∀ k, k ≠ map → s'.maps lists' k = s.maps lists k) ∧ d ∉ lists (some map) ∧
      s'.region = Function.update s.region d fields ∧
      (∀ x ∈ front, ¬ fields.address < (s.region x).address) ∧
      ∀ x ∈ back.head?, fields.address < (s.region x).address := by
  have hoff : ∀ k, d ∉ lists (some k) := fun k => by
    have := halloc.held_off d List.mem_cons_self (some k)
    rwa [Function.update_of_ne (Option.some_ne_none k)] at this
  obtain ⟨s', front, back, heq, hregion', hlist, hlinked, hfront, hback⟩ :=
    regionInsert_spec (halloc.setRegion d fields) map
  have hfields : s'.region = Function.update s.region d fields := by
    rw [hregion', ← hregion]
    rfl
  rw [Function.update_of_ne (Option.some_ne_none map)] at hlist
  have hother : ∀ x ∈ front ++ back, s'.region x = s.region x := fun x hx => by
    rw [hfields, Function.update_of_ne (ne_of_mem_of_not_mem (hlist ▸ hx) (hoff map))]
  rw [← hregion', show s'.region d = fields by rw [hfields, Function.update_self]] at hfront hback
  refine ⟨s', _, front, back, heq, hlinked, hlist, Function.update_self .., fun k hk => ?_, hoff map,
    hfields, fun x hx => ?_, fun x hx => ?_⟩
  · rw [maps_update_some, Function.update_of_ne hk, maps_update_none, RegionHeap.maps, hfields]
    exact map_setRegion_of_notMem (hoff k) fields
  · rw [← hother x (List.mem_append_left _ hx)]
    exact hfront x hx
  · rw [← hother x (List.mem_append_right _ (List.mem_of_mem_head? hx))]
    exact hback x hx

/-- The new piece is a descriptor that was on no map, linked by address. -/
theorem regionStitch_spec (h : Linked s lists held) (map : κ) (d : ℕ) (tmp : Range) :
    ∃ s' lists' piece front back, regionStitch s map d tmp = some s' ∧ Linked s' lists' held ∧
      lists (some map) = front ++ back ∧ lists' (some map) = front ++ piece :: back ∧
      (∀ k, k ≠ map → s'.maps lists' k = s.maps lists k) ∧ piece ∉ lists (some map) ∧
      s'.region = Function.update s.region piece { s.region d with toRange := tmp } ∧
      (∀ x ∈ front, ¬ tmp.address < (s.region x).address) ∧
      ∀ x ∈ back.head?, tmp.address < (s.region x).address := by
  obtain ⟨free, halloc, hregion⟩ := regionAlloc_spec h
  rw [regionStitch]
  generalize regionAlloc s = alloc at halloc hregion ⊢
  obtain ⟨piece, s₁⟩ := alloc
  dsimp only at halloc hregion ⊢
  obtain ⟨s', lists', front, back, heq, hlinked, hlist, hlist', hframe, hoff, hfields, hplace⟩ :=
    regionInsert_new (halloc.setNext List.mem_cons_self (s₁.next d)) hregion map
      { s₁.region d with toRange := tmp }
  refine ⟨s', lists', piece, front, back, heq, hlinked, hlist, hlist', hframe, hoff, ?_, hplace⟩
  rw [hfields, hregion]

/-- Two ways to divide a list at the same place or at different ones. -/
theorem append_cons_eq_append_cases {pre post front back : List ℕ}
    (h : pre ++ d :: post = front ++ back) :
    (∃ mid, pre = front ++ mid ∧ back = mid ++ d :: post) ∨
      ∃ mid, front = pre ++ d :: mid ∧ post = mid ++ back := by
  obtain ⟨mid, hfront, hrest⟩ | ⟨mid, hpre, hback⟩ := List.append_eq_append_iff.mp h
  · cases mid with
    | nil => exact Or.inl ⟨[], by simpa using hfront.symm, by simpa using hrest.symm⟩
    | cons x mid =>
      obtain ⟨rfl, hpost⟩ := List.cons.inj hrest
      exact Or.inr ⟨mid, hfront, hpost⟩
  · exact Or.inl ⟨mid, hpre, hback⟩

/-- The end of `_cut_and_stitch` when there is a right-hand piece: the piece is linked, and then the
region unlinked if nothing is left of it. -/
theorem regionStitch_unlink_spec (h : Linked s lists held) (hlist : lists (some map) = pre ++ d :: post)
    {region : Region ρ} {hole left tmp : Range}
    (hcut : cut region.toRange hole = some (left, tmp)) (hsize : tmp.size ≠ 0)
    (hd : s.region d = { region with toRange := left }) :
    ∃ s' lists' front back,
      ((regionStitch s map d tmp).bind fun s =>
        if (s.region d).size = 0 then regionUnlink s map d else some s) = some s' ∧
      Linked s' lists' held ∧ lists' (some map) = front ++ back ∧ back.head? = post.head? ∧
      cutAndStitchSplit (pre.map s.region) region (post.map s.region) hole =
        (front.map s'.region, back.map s'.region) ∧
      ∀ k, k ≠ map → s'.maps lists' k = s.maps lists k := by
  obtain ⟨s₂, lists₂, piece, front, back, hstitch, h₂, hsplit, hlist₂, hframe, hoff, hregion, hfront,
    hback⟩ := regionStitch_spec h map d tmp
  rw [hstitch, Option.bind_some]
  have hpiece : s₂.region piece = { region with toRange := tmp } := by
    rw [hregion, Function.update_self, hd]
  have hsame : ∀ x ∈ lists (some map), s₂.region x = s.region x := fun x hx => by
    rw [hregion, Function.update_of_ne (ne_of_mem_of_not_mem hx hoff)]
  have hd₂ : s₂.region d = { region with toRange := left } := by
    rw [hsame d (by simp [hlist]), hd]
  -- the parts of the list have the values they had
  have hvalues : ∀ l : List ℕ, (∀ x ∈ l, x ∈ lists (some map)) →
      l.map s₂.region = l.map s.region := fun l hl =>
    List.map_congr_left fun x hx => hsame x (hl x hx)
  obtain ⟨mid, rfl, rfl⟩ | ⟨mid, rfl, rfl⟩ := append_cons_eq_append_cases (hlist.symm.trans hsplit)
  · rw [← List.cons_append, ← List.append_assoc] at hlist₂
    obtain ⟨s', lists', kept, hunlink, h', hregion', hlist', hkept, hframe'⟩ :=
      regionUnlink_empty h₂ hlist₂
    have hmid : ∀ q ∈ (mid.map s.region ++ [{ region with toRange := left }]).head?,
        tmp.address < q.address := by
      intro q hq
      cases mid with
      | nil =>
        cases hq
        simpa [hd] using hback d rfl
      | cons x mid =>
        cases hq
        exact hback x rfl
    refine ⟨s', lists', front ++ piece :: mid ++ kept, post, hunlink, h', hlist', rfl, ?_,
      fun k hk => (hframe' k hk).trans (hframe k hk)⟩
    rw [List.map_append,
      cutAndStitchSplit_before _ hcut hsize (List.forall_mem_map.mpr hfront) hmid, hregion']
    simp only [List.map_append, List.map_cons, hkept, hd₂, hpiece]
    rw [hvalues front fun x hx => by simp [hlist, hx], hvalues mid fun x hx => by simp [hlist, hx],
      hvalues post fun x hx => by simp [hlist, hx]]
  · rw [List.append_assoc, List.cons_append] at hlist₂
    obtain ⟨s', lists', kept, hunlink, h', hregion', hlist', hkept, hframe'⟩ :=
      regionUnlink_empty h₂ hlist₂
    obtain ⟨hpre, htail⟩ := List.forall_mem_append.mp hfront
    obtain ⟨hregion, hmid⟩ := List.forall_mem_cons.mp htail
    rw [hd] at hregion
    have hback' : ∀ q ∈ (back.map s.region).head?, tmp.address < q.address := by
      simpa using hback
    have hparts := cutAndStitchSplit_after hcut hsize (List.forall_mem_map.mpr hpre) hregion
      (List.forall_mem_map.mpr hmid) hback'
    have hvalues' : pre.map s₂.region = pre.map s.region ∧ mid.map s₂.region = mid.map s.region ∧
        back.map s₂.region = back.map s.region :=
      ⟨hvalues pre fun x hx => by simp [hlist, hx], hvalues mid fun x hx => by simp [hlist, hx],
        hvalues back fun x hx => by simp [hlist, hx]⟩
    rw [List.map_append, hparts]
    cases mid with
    | nil =>
      refine ⟨s', lists', pre ++ kept ++ [piece], back, hunlink, h', ?_, rfl, ?_,
        fun k hk => (hframe' k hk).trans (hframe k hk)⟩
      · rw [hlist']
        simp
      · simp only [hregion', List.map_append, List.map_cons, hkept, hd₂, hpiece, hvalues']
        rfl
    | cons x mid =>
      refine ⟨s', lists', pre ++ kept, x :: mid ++ piece :: back, hunlink, h', hlist', rfl, ?_,
        fun k hk => (hframe' k hk).trans (hframe k hk)⟩
      rw [if_neg (by simp)]
      simp only [hregion', List.map_append, hvalues', List.map_cons, hkept, hd₂, hpiece]

/-- `_cut_and_stitch` is the list function on the fields, and the pointer to the next descriptor read
beforehand is still where the list function divides the list. -/
theorem regionCutAndStitch_spec (h : Linked s lists held) (hlist : lists (some map) = pre ++ d :: post)
    (hole : Range) :
    ∃ s' lists' front back, regionCutAndStitch s map d hole = some s' ∧ Linked s' lists' held ∧
      lists' (some map) = front ++ back ∧ back.head? = post.head? ∧
      cutAndStitchSplit (pre.map s.region) (s.region d) (post.map s.region) hole =
        (front.map s'.region, back.map s'.region) ∧
      ∀ k, k ≠ map → s'.maps lists' k = s.maps lists k := by
  have hnodup : (pre ++ d :: post).Nodup := hlist ▸ (h.rep (some map)).nodup
  rw [regionCutAndStitch]
  cases hcut : cut (s.region d).toRange hole with
  | none =>
    refine ⟨s, lists, pre ++ [d], post, rfl, h, by rw [hlist, List.append_assoc]; rfl, rfl, ?_,
      fun _ _ => rfl⟩
    rw [cutAndStitchSplit, hcut, List.map_append]
    rfl
  | some pieces =>
    obtain ⟨left, tmp⟩ := pieces
    dsimp only
    have h₁ := h.setRegion d { s.region d with toRange := left }
    have hmem : d ∈ lists (some map) := by simp [hlist]
    have hframe := maps_setRegion_of_ne h hmem { s.region d with toRange := left }
    obtain ⟨hpre, hself, hpost⟩ :=
      map_setRegion_of_mem (s := s) hnodup { s.region d with toRange := left }
    generalize s.setRegion d { s.region d with toRange := left } = s₁ at *
    rw [← hpre, ← hpost]
    split
    · next hsize =>
      obtain ⟨s', lists', kept, hunlink, h', hregion', hlist', hkept, hframe'⟩ :=
        regionUnlink_empty h₁ hlist
      refine ⟨s', lists', pre ++ kept, post, hunlink, h', hlist', rfl, ?_,
        fun k hk => (hframe' k hk).trans (hframe k hk)⟩
      rw [cutAndStitchSplit, hcut]
      dsimp only
      rw [if_pos hsize, hregion', List.map_append, hkept, hself]
    · next hsize =>
      obtain ⟨s', lists', front, back, heq, h', hlist', hhead, hparts, hframe'⟩ :=
        regionStitch_unlink_spec h₁ hlist hcut hsize hself
      exact ⟨s', lists', front, back, heq, h', hlist', hhead, hparts,
        fun k hk => (hframe' k hk).trans (hframe k hk)⟩

/-- `_cut_and_stitch` of a descriptor on a map's list. -/
theorem regionCutAndStitch_maps (h : Linked s lists held) (hlist : lists (some map) = pre ++ d :: post)
    (hole : Range) :
    ∃ s' lists', regionCutAndStitch s map d hole = some s' ∧ Linked s' lists' held ∧
      s'.maps lists' = Function.update (s.maps lists) map
        (cutAndStitch (pre.map s.region) (s.region d) (post.map s.region) hole) := by
  obtain ⟨s', lists', front, back, heq, h', hlist', _, hparts, hframe⟩ :=
    regionCutAndStitch_spec h hlist hole
  refine ⟨s', lists', heq, h', ?_⟩
  rw [cutAndStitch, hparts, ← List.map_append, ← update_eq_of_frame hframe]
  exact maps_eq_update hlist'

/-- `_subtract` from some descriptor on is the list function from there on; where that does not end,
neither does the loop over the descriptors. -/
theorem regionSubtractFrom_spec (hole : Range) (h : Linked s lists held)
    (hlist : lists (some map) = pre ++ post) (fuel : ℕ) :
    (subtractFrom hole fuel (pre.map s.region) (post.map s.region) = none ∧
      regionSubtractFrom map hole fuel s post.head? = none) ∨
    ∃ l s' lists', subtractFrom hole fuel (pre.map s.region) (post.map s.region) = some l ∧
      regionSubtractFrom map hole fuel s post.head? = some s' ∧ Linked s' lists' held ∧
      s'.maps lists' = Function.update (s.maps lists) map l := by
  induction fuel generalizing s lists pre post with
  | zero =>
    cases post with
    | nil => exact Or.inr ⟨_, s, lists, rfl, rfl, h, maps_eq_update (by simpa using hlist)⟩
    | cons d post => exact Or.inl ⟨rfl, rfl⟩
  | succ fuel ih =>
    cases post with
    | nil => exact Or.inr ⟨_, s, lists, rfl, rfl, h, maps_eq_update (by simpa using hlist)⟩
    | cons d post =>
      have hrep := h.rep (some map)
      rw [hlist] at hrep
      have hnext : s.next d = post.head? := hrep.suffix.head_eq
      obtain ⟨s₁, lists₁, front, back, hcut, h₁, hlist₁, hhead, hparts, hframe⟩ :=
        regionCutAndStitch_spec h hlist hole
      rw [List.map_cons, subtractFrom, hparts, List.head?_cons, regionSubtractFrom, hnext, hcut,
        Option.bind_some, ← hhead]
      simpa only [update_eq_of_frame hframe] using ih h₁ hlist₁

end Functions

end ChrisOS.Mm
