import Mathlib.Data.List.Nodup
import Mathlib.Logic.Function.Basic

/-!
# Intrusive singly linked lists

Nodes carry a next field, and a list is a pointer to its first node; the last node's next field is
null. Several lists may share the field as long as no node is on two of them.

The operations are given as the field writes they make, with `none` for a dereferenced null pointer.
Those that walk a list are given the number of nodes they may pass, and `none` is also a walk
that does not end within it. On a well-formed list each is the corresponding operation on lists of
nodes and writes no field outside its list.
-/

namespace ChrisOS.Lib

variable {τ : Type*}

/-- The pointer `head` and the next fields represent the list of nodes `l`. -/
def LLRep (next : τ → Option τ) : Option τ → List τ → Prop
  | head, [] => head = none
  | head, a :: rest => head = some a ∧ LLRep next (next a) rest

/-- Whether the fields represent a given list can be computed. -/
instance LLRep.decidable [DecidableEq τ] (next : τ → Option τ) :
    ∀ head l, Decidable (LLRep next head l)
  | head, [] => inferInstanceAs (Decidable (head = none))
  | _, a :: rest =>
    have := LLRep.decidable next (next a) rest
    inferInstanceAs (Decidable (_ ∧ _))

section Operations

variable [DecidableEq τ]

/-- Put a node in front. -/
def llPrepend (next : τ → Option τ) (head : Option τ) (add : τ) : (τ → Option τ) × Option τ :=
  (Function.update next add head, some add)

/-- Walk from a node to the one in front of `el`, or to the last one. -/
def llSeek (next : τ → Option τ) (el : τ) : ℕ → τ → Option τ
  | 0, _ => none
  | fuel + 1, tmp =>
    match next tmp with
    | none => some tmp
    | some after => if after = el then some tmp else llSeek next el fuel after

/-- Walk from a node to the last one. -/
def llLast (next : τ → Option τ) : ℕ → τ → Option τ
  | 0, _ => none
  | fuel + 1, tmp =>
    match next tmp with
    | none => some tmp
    | some after => llLast next fuel after

/-- Make the node in front of `el` point elsewhere, if there is one. -/
def llRelink (next : τ → Option τ) (head : Option τ) (el : τ) (value : Option τ) (fuel : ℕ) :
    Option ((τ → Option τ) × Option τ) :=
  match head with
  | none => none
  | some first =>
    if first = el then some (next, value)
    else (llSeek next el fuel first).map fun tmp =>
      ((if next tmp = none then next else Function.update next tmp value), head)

/-- Unlink a node; its own field keeps its value. -/
def llDelete (next : τ → Option τ) (head : Option τ) (del : τ) (fuel : ℕ) :
    Option ((τ → Option τ) × Option τ) :=
  llRelink next head del (next del) fuel

/-- Put a node in front of another one. -/
def llPrependElem (next : τ → Option τ) (head : Option τ) (el add : τ) (fuel : ℕ) :
    Option ((τ → Option τ) × Option τ) :=
  llRelink (Function.update next add (some el)) head el (some add) fuel

/-- Put a node behind the last one. -/
def llAppend (next : τ → Option τ) (head : Option τ) (add : τ) (fuel : ℕ) :
    Option ((τ → Option τ) × Option τ) :=
  let next := Function.update next add none
  match head with
  | none => some (next, some add)
  | some first => (llLast next fuel first).map fun tmp => (Function.update next tmp (some add), head)

end Operations

variable {head : Option τ} {l : List τ}

/-- A list depends only on the fields of its nodes. -/
theorem LLRep.congr {next next' : τ → Option τ} (h : LLRep next head l)
    (hnext : ∀ t ∈ l, next' t = next t) : LLRep next' head l := by
  induction l generalizing head with
  | nil => exact h
  | cons a rest ih =>
    refine ⟨h.1, ?_⟩
    rw [hnext a List.mem_cons_self]
    exact ih h.2 fun t ht => hnext t (List.mem_cons_of_mem a ht)

variable {next : τ → Option τ}

/-- The fields determine the list. -/
theorem LLRep.unique {l l' : List τ} (h : LLRep next head l) (h' : LLRep next head l') : l = l' := by
  induction l generalizing head l' with
  | nil =>
    cases l' with
    | nil => rfl
    | cons b rest' => exact absurd (h.symm.trans h'.1) (Option.some_ne_none b).symm
  | cons a rest ih =>
    cases l' with
    | nil => exact absurd (h'.symm.trans h.1) (Option.some_ne_none a).symm
    | cons b rest' =>
      obtain rfl : a = b := Option.some.inj (h.1.symm.trans h'.1)
      rw [ih h.2 h'.2]

/-- The pointer to a list is to its first node. -/
theorem LLRep.head_eq (h : LLRep next head l) : head = l.head? := by
  cases l with
  | nil => exact h
  | cons a rest => exact h.1

/-- The end of a list is a list. -/
theorem LLRep.of_append {pre l : List τ} (h : LLRep next head (pre ++ l)) : LLRep next l.head? l := by
  induction pre generalizing head with
  | nil => exact h.head_eq ▸ h
  | cons b rest ih => exact ih h.2

variable {pre post : List τ} {a : τ}

/-- From a node of the list on, the fields represent the rest of the list. -/
theorem LLRep.suffix (h : LLRep next head (pre ++ a :: post)) : LLRep next (next a) post :=
  h.of_append.2

/-- A node is on a list once. -/
theorem LLRep.nodup (h : LLRep next head l) : l.Nodup := by
  induction l generalizing head with
  | nil => exact List.nodup_nil
  | cons a rest ih =>
    refine List.nodup_cons.mpr ⟨fun hmem => ?_, ih h.2⟩
    -- what follows the node's second occurrence is what follows its first
    obtain ⟨pre, post, rfl⟩ := List.append_of_mem hmem
    have heq := congrArg List.length (h.2.suffix.unique h.2)
    simp at heq
    omega

/-- What follows a node of the list is on the list. -/
theorem LLRep.next_mem {a b : τ} (h : LLRep next head l) (ha : a ∈ l) (hnext : next a = some b) :
    b ∈ l := by
  obtain ⟨pre, post, rfl⟩ := List.append_of_mem ha
  have hhead : some b = post.head? := hnext.symm.trans h.suffix.head_eq
  exact List.mem_append_right _ (List.mem_cons_of_mem a (List.mem_of_head? hhead.symm))

/-- Only the node in front of `c` points to it. -/
theorem LLRep.exists_pred {front pre post : List τ} {first c : τ}
    (h : LLRep next head (front ++ first :: pre ++ c :: post)) :
    ∃ a ∈ first :: pre, next a = some c ∧
      ∀ b ∈ front ++ first :: pre ++ c :: post, next b = some c → b = a := by
  have hlast := List.dropLast_append_getLast (List.cons_ne_nil first pre)
  generalize (first :: pre).getLast (List.cons_ne_nil first pre) = a at hlast
  rw [← hlast, ← List.append_assoc front, List.append_assoc _ [a]] at h ⊢
  refine ⟨a, by simp, h.suffix.1, fun b hb hnext => ?_⟩
  obtain ⟨front', rest, hsplit⟩ := List.append_of_mem hb
  have hrest : LLRep next (next b) rest := by
    rw [hsplit] at h
    exact h.suffix
  obtain rfl : rest = c :: post := by
    have hpost := h.suffix
    rw [hpost.1, ← hnext] at hpost
    exact hrest.unique hpost
  have hsame : (front' ++ [b]) ++ c :: post =
      (front ++ (first :: pre).dropLast ++ [a]) ++ c :: post := by
    simpa using hsplit.symm
  exact List.singleton_inj.mp (List.append_inj' (List.append_cancel_right hsame) rfl).2

variable {fuel : ℕ}

/-- The walk to the end stops at the last node. -/
theorem llLast_eq (h : LLRep next (some a) (a :: l)) (hfuel : l.length < fuel) :
    ∃ front b, a :: l = front ++ [b] ∧ llLast next fuel a = some b := by
  induction l generalizing a fuel with
  | nil =>
    obtain ⟨fuel, rfl⟩ := Nat.exists_eq_add_one.mpr (Nat.zero_lt_of_lt hfuel)
    refine ⟨[], a, rfl, ?_⟩
    rw [llLast, show next a = none from h.2]
  | cons c rest ih =>
    obtain ⟨fuel, rfl⟩ := Nat.exists_eq_add_one.mpr (Nat.zero_lt_of_lt hfuel)
    have hrest : LLRep next (some c) (c :: rest) := ⟨rfl, h.2.2⟩
    obtain ⟨front, b, hlast, hwalk⟩ := ih hrest (Nat.lt_of_succ_lt_succ hfuel)
    refine ⟨a :: front, b, by rw [hlast]; rfl, ?_⟩
    rw [llLast, h.2.1]
    exact hwalk

section Walks

variable [DecidableEq τ] {next : τ → Option τ} {head : Option τ}

/-- The walk stops at the node in front of `el`. -/
theorem llSeek_eq_of_mem {el : τ} (h : LLRep next (some a) (a :: pre ++ el :: post))
    (hfuel : pre.length < fuel) :
    ∃ front b, a :: pre = front ++ [b] ∧ llSeek next el fuel a = some b := by
  induction pre generalizing a fuel with
  | nil =>
    obtain ⟨fuel, rfl⟩ := Nat.exists_eq_add_one.mpr (Nat.zero_lt_of_lt hfuel)
    refine ⟨[], a, rfl, ?_⟩
    rw [llSeek, h.2.1]
    exact if_pos rfl
  | cons c rest ih =>
    obtain ⟨fuel, rfl⟩ := Nat.exists_eq_add_one.mpr (Nat.zero_lt_of_lt hfuel)
    have hne : c ≠ el := by
      have := h.2.nodup
      simp at this
      tauto
    have hrest : LLRep next (some c) (c :: rest ++ el :: post) := ⟨rfl, h.2.2⟩
    obtain ⟨front, b, hlast, hseek⟩ := ih hrest (Nat.lt_of_succ_lt_succ hfuel)
    refine ⟨a :: front, b, by rw [hlast]; rfl, ?_⟩
    rw [llSeek, h.2.1]
    exact (if_neg hne).trans hseek

/-- The walk for a node that is not on the list stops at the last node. -/
theorem llSeek_eq_of_notMem {el : τ} (h : LLRep next (some a) (a :: l)) (hel : el ∉ l)
    (hfuel : l.length < fuel) :
    ∃ b, llSeek next el fuel a = some b ∧ next b = none := by
  induction l generalizing a fuel with
  | nil =>
    obtain ⟨fuel, rfl⟩ := Nat.exists_eq_add_one.mpr (Nat.zero_lt_of_lt hfuel)
    refine ⟨a, ?_, h.2⟩
    rw [llSeek, show next a = none from h.2]
  | cons c rest ih =>
    obtain ⟨fuel, rfl⟩ := Nat.exists_eq_add_one.mpr (Nat.zero_lt_of_lt hfuel)
    obtain ⟨hne, hel⟩ := List.ne_and_not_mem_of_not_mem_cons hel
    have hrest : LLRep next (some c) (c :: rest) := ⟨rfl, h.2.2⟩
    obtain ⟨b, hseek, hlast⟩ := ih hrest hel (Nat.lt_of_succ_lt_succ hfuel)
    refine ⟨b, ?_, hlast⟩
    rw [llSeek, h.2.1]
    exact (if_neg (Ne.symm hne)).trans hseek

end Walks

section Writes

variable [DecidableEq τ] {next : τ → Option τ} {head : Option τ}

/-- Writing the field of a node off the list leaves the list alone. -/
theorem LLRep.update_of_notMem (h : LLRep next head l) (ha : a ∉ l) (value : Option τ) :
    LLRep (Function.update next a value) head l :=
  h.congr fun _ ht => Function.update_of_ne (ne_of_mem_of_not_mem ht ha) ..

/-- Writing the field of a node replaces what follows it. -/
theorem LLRep.update {front rest l : List τ} {b : τ} {value : Option τ}
    (h : LLRep next head (front ++ b :: rest)) (hl : LLRep next value l) (hb : b ∉ l) :
    LLRep (Function.update next b value) head (front ++ b :: l) := by
  induction front generalizing head with
  | nil =>
    refine ⟨h.1, ?_⟩
    rw [Function.update_self]
    exact hl.update_of_notMem hb value
  | cons a front ih =>
    have hne : a ≠ b := by
      have := h.nodup
      simp at this
      tauto
    refine ⟨h.1, ?_⟩
    rw [Function.update_of_ne hne]
    exact ih h.2

/-- Relinking in front of a node replaces the list from there on. -/
theorem llRelink_of_mem {el : τ} (h : LLRep next head (pre ++ el :: post)) (hfuel : pre.length ≤ fuel)
    (value : Option τ) :
    ∃ next' head', llRelink next head el value fuel = some (next', head') ∧
      (∀ x, x ∉ pre → next' x = next x) ∧
      ∀ l, LLRep next value l → (∀ x ∈ pre, x ∉ l) → LLRep next' head' (pre ++ l) := by
  cases pre with
  | nil =>
    obtain rfl : head = some el := h.1
    refine ⟨next, value, ?_, fun _ _ => rfl, fun l hl _ => hl⟩
    rw [llRelink, if_pos rfl]
  | cons a pre =>
    obtain rfl : head = some a := h.1
    have hne : a ≠ el := by
      have := h.nodup
      simp at this
      tauto
    obtain ⟨front, b, hfront, hseek⟩ := llSeek_eq_of_mem h hfuel
    rw [hfront] at h ⊢
    have hnext : next b ≠ none := by
      have hel : next b = some el := by
        rw [List.append_assoc] at h
        exact h.suffix.1
      rw [hel]
      exact Option.some_ne_none el
    refine ⟨Function.update next b value, some a, ?_, fun x hx => ?_, fun l hl hdisjoint => ?_⟩
    · rw [llRelink, if_neg hne, hseek, Option.map_some, if_neg hnext]
    · exact Function.update_of_ne (ne_of_mem_of_not_mem (by simp) hx).symm ..
    · rw [List.append_assoc] at h ⊢
      exact h.update hl (hdisjoint b (by simp))

/-- Relinking in front of a node that is not on the list does nothing. -/
theorem llRelink_of_notMem {el : τ} (h : LLRep next head l) (hne : l ≠ []) (hel : el ∉ l)
    (hfuel : l.length ≤ fuel) (value : Option τ) :
    llRelink next head el value fuel = some (next, head) := by
  cases l with
  | nil => exact absurd rfl hne
  | cons a rest =>
    obtain ⟨hfirst, hrest⟩ := List.ne_and_not_mem_of_not_mem_cons hel
    obtain rfl : head = some a := h.1
    obtain ⟨b, hseek, hlast⟩ := llSeek_eq_of_notMem h hrest hfuel
    rw [llRelink, if_neg (Ne.symm hfirst), hseek, Option.map_some, if_pos hlast]

/-- Unlinking a node. -/
theorem llDelete_spec {del : τ} (h : LLRep next head (pre ++ del :: post)) (hfuel : pre.length ≤ fuel) :
    ∃ next' head', llDelete next head del fuel = some (next', head') ∧
      LLRep next' head' (pre ++ post) ∧ ∀ x, x ∉ pre → next' x = next x := by
  obtain ⟨next', head', heq, hframe, hrep⟩ := llRelink_of_mem h hfuel (next del)
  refine ⟨next', head', heq, hrep post h.suffix fun x hx hpost => ?_, hframe⟩
  exact (List.disjoint_of_nodup_append h.nodup) hx (List.mem_cons_of_mem del hpost)

/-- Every field keeps its value or gets that of the unlinked node. -/
theorem llDelete_writes {next' : τ → Option τ} {head' : Option τ} {del : τ}
    (h : llDelete next head del fuel = some (next', head')) (x : τ) :
    next' x = next x ∨ next' x = next del := by
  cases head with
  | none => simp [llDelete, llRelink] at h
  | some first =>
    rw [llDelete, llRelink] at h
    split at h
    · cases h
      exact .inl rfl
    · obtain ⟨tmp, _, heq⟩ := Option.map_eq_some_iff.mp h
      cases heq
      split
      · exact .inl rfl
      · by_cases hx : x = tmp
        · exact .inr (hx ▸ Function.update_self ..)
        · exact .inl (Function.update_of_ne hx ..)

/-- Once a node other than the first is unlinked, no node of a list that holds it points to it. -/
theorem llDelete_unlinks {start : Option τ} {front pre post : List τ} {first del : τ}
    (h : LLRep next start (front ++ first :: pre ++ del :: post)) (hfuel : pre.length < fuel) :
    ∃ next' head', llDelete next (some first) del fuel = some (next', head') ∧
      ∀ x ∈ front ++ first :: pre ++ del :: post, next' x ≠ some del := by
  have hpart : LLRep next (some first) (first :: pre ++ del :: post) := by
    rw [List.append_assoc] at h
    exact h.of_append
  obtain ⟨next', head', hdelete, hrep, hframe⟩ := llDelete_spec hpart hfuel
  refine ⟨next', head', hdelete, fun x hx hpoints => ?_⟩
  by_cases hmem : x ∈ first :: pre
  · have hdel : del ∈ first :: pre ++ post :=
      hrep.next_mem (List.mem_append_left _ hmem) hpoints
    have hnodup := List.nodup_middle.mp hpart.nodup
    exact (List.nodup_cons.mp hnodup).1 hdel
  · rw [hframe x hmem] at hpoints
    obtain ⟨a, ha, -, honly⟩ := h.exists_pred
    exact hmem (honly x hx hpoints ▸ ha)

/-- Putting a new node in front of one on the list. -/
theorem llPrependElem_spec {el add : τ} (h : LLRep next head (pre ++ el :: post))
    (hadd : add ∉ pre ++ el :: post)
    (hfuel : pre.length ≤ fuel) :
    ∃ next' head', llPrependElem next head el add fuel = some (next', head') ∧
      LLRep next' head' (pre ++ add :: el :: post) ∧
      ∀ x, x ≠ add → x ∉ pre → next' x = next x := by
  have hupdated := h.update_of_notMem hadd (some el)
  obtain ⟨next', head', heq, hframe, hrep⟩ := llRelink_of_mem hupdated hfuel (some add)
  refine ⟨next', head', heq, hrep (add :: el :: post) ⟨rfl, ?_⟩ fun x hx hpost => ?_, fun x hx hpre => ?_⟩
  · rw [Function.update_self]
    exact ⟨rfl, hupdated.suffix⟩
  · obtain rfl | hpost := List.mem_cons.mp hpost
    · exact hadd (List.mem_append_left _ hx)
    · exact (List.disjoint_of_nodup_append h.nodup) hx hpost
  · rw [hframe x hpre, Function.update_of_ne hx]

/-- Putting a new node at the end. -/
theorem llAppend_spec {add : τ} (h : LLRep next head l) (hadd : add ∉ l) (hfuel : l.length ≤ fuel) :
    ∃ next' head', llAppend next head add fuel = some (next', head') ∧
      LLRep next' head' (l ++ [add]) ∧ ∀ x, x ≠ add → x ∉ l → next' x = next x := by
  have hsingle : LLRep (Function.update next add none) (some add) [add] :=
    ⟨rfl, Function.update_self ..⟩
  have hupdated := h.update_of_notMem hadd none
  cases l with
  | nil =>
    obtain rfl : head = none := h
    exact ⟨_, _, rfl, hsingle, fun x hx _ => Function.update_of_ne hx ..⟩
  | cons a rest =>
    obtain rfl : head = some a := h.1
    obtain ⟨front, b, hfront, hlast⟩ := llLast_eq hupdated hfuel
    rw [hfront] at hupdated hadd ⊢
    have hb : b ≠ add := ne_of_mem_of_not_mem (by simp) hadd
    refine ⟨Function.update (Function.update next add none) b (some add), some a, ?_, ?_, fun x hx hl => ?_⟩
    · rw [llAppend, hlast, Option.map_some]
    · rw [List.append_assoc]
      exact hupdated.update hsingle (by simpa using hb)
    · have hxb : x ≠ b := (ne_of_mem_of_not_mem (by simp) hl).symm
      rw [Function.update_of_ne hxb, Function.update_of_ne hx]

/-- Putting a new node in front. -/
theorem llPrepend_spec {add : τ} (h : LLRep next head l) (hadd : add ∉ l) :
    LLRep (llPrepend next head add).1 (llPrepend next head add).2 (add :: l) := by
  refine ⟨rfl, ?_⟩
  change LLRep (Function.update next add head) (Function.update next add head add) l
  rw [Function.update_self]
  exact h.update_of_notMem hadd head

end Writes

end ChrisOS.Lib
