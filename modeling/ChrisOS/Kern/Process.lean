import ChrisOS.Lib.LList
import ChrisOS.Utils.Mem
import Mathlib.Data.Fin.VecNotation
import Mathlib.Data.List.Perm.Subperm

/-!
# Processes

`process_exit` of `kern/process.c`, on the link fields of the processes. A process is on two kinds of
list: on `_processes` through its field `next`, and on the list of its parent's children through
its field `sibling`.

`process_exit` hands the children of a process to its parent, one after the other. It takes a child
off the list of children with `LL_DELETE`, which follows `next` and not `sibling`: the head of
the list moves to what follows the child on `_processes`, and later children are deleted from
`_processes` behind that. The children come out right exactly when the list of all processes
ends with them in a suitable way.
-/

namespace ChrisOS.Kern

open ChrisOS.Utils ChrisOS.Lib

/-- The fields of `struct process` that the functions read and write, and `_processes`. -/
structure ProcessTable (τ : Type*) where
  processes : Option τ
  next : τ → Option τ
  parent : τ → Option τ
  children : τ → Option τ
  sibling : τ → Option τ
  pid : τ → Word

section Functions

variable {τ : Type*} [DecidableEq τ]

/-- `process_add_child`. -/
def processAddChild (s : ProcessTable τ) (parent child : τ) : ProcessTable τ :=
  let result := llPrepend s.sibling (s.children parent) child
  { s with
    parent := Function.update s.parent child (some parent)
    sibling := result.1
    children := Function.update s.children parent result.2 }

/-- The loop of `process_exit`, with the child it is at. -/
def processExitFrom (p : τ) (walk : ℕ) : ℕ → Option τ → ProcessTable τ → Option (ProcessTable τ)
  | _, none, s => some s
  | 0, some _, _ => none
  | fuel + 1, some child, s =>
    let tmp := s.sibling child
    (llDelete s.next (s.children p) child walk).bind fun result =>
      let s : ProcessTable τ :=
        { s with next := result.1, children := Function.update s.children p result.2 }
      (s.parent p).bind fun parent =>
        processExitFrom p walk fuel tmp (processAddChild s parent child)

/-- `process_exit`, with the number of nodes each of its loops may pass. -/
def processExit (fuel : ℕ) (s : ProcessTable τ) (p : τ) : Option (ProcessTable τ) :=
  if s.pid p = 0 ∨ s.parent p = none then none else processExitFrom p fuel fuel (s.children p) s

end Functions

section Consistency

variable {τ : Type*}

/-- `procs` are the processes in the order of `_processes`, and `kids` gives the children of each in
the order of its list. Every process with a parent is on its parent's list, and no process is its
own ancestor. -/
structure ProcessTable.Consistent (s : ProcessTable τ) (procs : List τ) (kids : τ → List τ) :
    Prop where
  processes : LLRep s.next s.processes procs
  children : ∀ q ∈ procs, LLRep s.sibling (s.children q) (kids q)
  child_iff : ∀ q ∈ procs, ∀ c, c ∈ kids q ↔ c ∈ procs ∧ s.parent c = some q
  parent_mem : ∀ c ∈ procs, ∀ q, s.parent c = some q → q ∈ procs
  tree : ∃ rank : τ → ℕ, ∀ c ∈ procs, ∀ q, s.parent c = some q → rank q < rank c

/-- From the first child on, `_processes` holds only children, in their order on the list of children,
and ends with the last child. -/
def EndsWithChildren (procs children : List τ) : Prop :=
  ∃ front tail, procs = front ++ tail ∧ tail.Sublist children ∧ tail.head? = children.head? ∧
    tail.getLast? = children.getLast?

/-- The children after `p` has handed its own to `parent`. -/
def handedOver [DecidableEq τ] (kids : τ → List τ) (p parent : τ) : τ → List τ :=
  Function.update (Function.update kids p []) parent ((kids p).reverse ++ kids parent)

/-- What the exit of `p` is to leave: `p` has no child, every former child has the parent of `p` as
parent and is on its list together with those that were there, and the list of all processes is
what it was. -/
structure ProcessTable.Reparented [DecidableEq τ] (s : ProcessTable τ) (procs : List τ)
    (kids : τ → List τ) (p parent : τ) : Prop where
  childless : s.children p = none
  parents : ∀ c ∈ kids p, s.parent c = some parent
  linked : LLRep s.sibling (s.children parent) ((kids p).reverse ++ kids parent)
  processes : LLRep s.next s.processes procs
  consistent : s.Consistent procs (handedOver kids p parent)

variable {s : ProcessTable τ} {procs : List τ} {kids : τ → List τ}

/-- No process is its own parent. -/
theorem ProcessTable.Consistent.parent_ne (h : s.Consistent procs kids) {p : τ} (hp : p ∈ procs) :
    s.parent p ≠ some p := fun hself => by
  obtain ⟨rank, hrank⟩ := h.tree
  exact Nat.lt_irrefl _ (hrank p hp p hself)

/-- No process is the child of two. -/
theorem ProcessTable.Consistent.kids_disjoint (h : s.Consistent procs kids) {p q c : τ}
    (hp : p ∈ procs) (hq : q ∈ procs) (hpq : p ≠ q) (hc : c ∈ kids p) : c ∉ kids q := fun hc' => by
  have hcp := ((h.child_iff p hp c).mp hc).2
  have hcq := ((h.child_iff q hq c).mp hc').2
  exact hpq (Option.some.inj (hcp.symm.trans hcq))

end Consistency

section Exit

variable {τ : Type*} [DecidableEq τ]

/-- Deleting the next child from a part of `_processes` that ends with children: the first process of
the part is dropped if it is the child, and nothing happens otherwise. -/
theorem llDelete_child {next : τ → Option τ} {head : Option τ} {tail rest : List τ} {child : τ}
    {walk : ℕ} (h : LLRep next head tail) (hsub : tail.Sublist (child :: rest))
    (hlast : tail.getLast? = (child :: rest).getLast?) (hnodup : (child :: rest).Nodup)
    (hwalk : tail.length ≤ walk) :
    ∃ head' tail', llDelete next head child walk = some (next, head') ∧ LLRep next head' tail' ∧
      tail'.Sublist rest ∧ tail'.getLast? = rest.getLast? ∧ tail'.length ≤ tail.length := by
  have hchild : child ∉ rest := (List.nodup_cons.mp hnodup).1
  cases tail with
  | nil => simp [List.getLast?_cons] at hlast
  | cons first tail' =>
    by_cases hfirst : first = child
    · subst hfirst
      obtain rfl : head = some first := h.1
      have hrest : tail'.Sublist rest := List.cons_sublist_cons.mp hsub
      refine ⟨next first, tail', ?_, h.2, hrest, ?_, by simp⟩
      · rw [llDelete, llRelink, if_pos rfl]
      · cases rest with
        | nil => rw [List.sublist_nil.mp hrest]
        | cons b rest =>
          rw [List.getLast?_cons_cons] at hlast
          cases tail' with
          | nil => exact absurd (List.mem_of_getLast? hlast.symm) hchild
          | cons a tail' => rwa [List.getLast?_cons_cons] at hlast
    · have hrest : (first :: tail').Sublist rest := by
        cases hsub with
        | cons _ hrest => exact hrest
        | cons_cons _ _ => exact absurd rfl hfirst
      refine ⟨head, first :: tail', ?_, h, hrest, ?_, Nat.le_refl _⟩
      · exact llRelink_of_notMem h (List.cons_ne_nil _ _) (fun hmem => hchild (hrest.subset hmem))
          hwalk _
      · cases rest with
        | nil => cases hrest
        | cons b rest => rwa [List.getLast?_cons_cons] at hlast

/-- What `process_add_child` changes. -/
theorem processAddChild_spec {s : ProcessTable τ} {parent child : τ} {mine : List τ}
    (h : LLRep s.sibling (s.children parent) mine) (hchild : child ∉ mine) :
    LLRep (processAddChild s parent child).sibling ((processAddChild s parent child).children parent)
      (child :: mine) := by
  have hprepend := llPrepend_spec h hchild
  simp only [processAddChild, Function.update_self]
  exact hprepend

variable {walk fuel : ℕ} {el : Option τ}

/-- The loop hands every remaining child to the parent `q` and ends with no child left. -/
theorem processExitFrom_spec {p q : τ} {s : ProcessTable τ} {remaining tail mine : List τ} (hpq : p ≠ q)
    (hparent : s.parent p = some q) (hp : p ∉ remaining)
    (hcursor : LLRep s.sibling el remaining) (htail : LLRep s.next (s.children p) tail)
    (hsub : tail.Sublist remaining) (hlast : tail.getLast? = remaining.getLast?)
    (hmine : LLRep s.sibling (s.children q) mine) (hdisjoint : ∀ c ∈ remaining, c ∉ mine)
    (hfuel : remaining.length ≤ fuel) (hwalk : tail.length ≤ walk) :
    ∃ s', processExitFrom p walk fuel el s = some s' ∧ s'.children p = none ∧ s'.next = s.next ∧
      s'.processes = s.processes ∧
      LLRep s'.sibling (s'.children q) (remaining.reverse ++ mine) ∧
      (∀ c ∈ remaining, s'.parent c = some q) ∧
      (∀ c, c ∉ remaining → s'.parent c = s.parent c ∧ s'.sibling c = s.sibling c) ∧
      ∀ r, r ≠ p → r ≠ q → s'.children r = s.children r := by
  induction remaining generalizing s el tail mine fuel with
  | nil =>
    obtain rfl : el = none := hcursor
    obtain rfl : tail = [] := List.sublist_nil.mp hsub
    refine ⟨s, by cases fuel <;> rfl, htail, rfl, rfl, hmine, by simp, fun _ _ => ⟨rfl, rfl⟩,
      fun _ _ _ => rfl⟩
  | cons child rest ih =>
    obtain ⟨fuel, rfl⟩ := Nat.exists_eq_add_one.mpr (Nat.zero_lt_of_lt hfuel)
    obtain ⟨rfl, hrest⟩ := hcursor
    have hnodup : (child :: rest).Nodup :=
      (show LLRep s.sibling (some child) (child :: rest) from ⟨rfl, hrest⟩).nodup
    obtain ⟨hpchild, hprest⟩ := List.ne_and_not_mem_of_not_mem_cons hp
    have hchild : child ∉ rest := (List.nodup_cons.mp hnodup).1
    obtain ⟨head', tail', hdelete, htail', hsub', hlast', hlength⟩ :=
      llDelete_child htail hsub hlast hnodup hwalk
    let deleted : ProcessTable τ := { s with children := Function.update s.children p head' }
    let handed := processAddChild deleted q child
    have hdeletedQ : deleted.children q = s.children q := Function.update_of_ne hpq.symm ..
    have hmine' : LLRep handed.sibling (handed.children q) (child :: mine) :=
      processAddChild_spec (hdeletedQ ▸ hmine) (hdisjoint child List.mem_cons_self)
    have hrest' : LLRep handed.sibling (s.sibling child) rest := hrest.update_of_notMem hchild _
    have hhead : handed.children p = head' := by
      simp only [handed, deleted, processAddChild, Function.update_of_ne hpq, Function.update_self]
    have hhandedParent : handed.parent p = some q := (Function.update_of_ne hpchild ..).trans hparent
    have hdisjoint' : ∀ c ∈ rest, c ∉ child :: mine := fun c hc hmem => by
      obtain rfl | hmem := List.mem_cons.mp hmem
      · exact hchild hc
      · exact hdisjoint c (List.mem_cons_of_mem child hc) hmem
    obtain ⟨s', hloop, hnone, hnext, hprocesses, hlist, hparents, hframe, hothers⟩ :=
      ih hhandedParent hprest hrest' (hhead ▸ htail') hsub' hlast' hmine' hdisjoint'
        (by simpa using hfuel) (Nat.le_trans hlength hwalk)
    refine ⟨s', ?_, hnone, hnext, hprocesses, by simpa using hlist, fun c hc => ?_, fun c hc => ?_,
      fun r hrp hrq => ?_⟩
    · rw [processExitFrom, hdelete, Option.bind_some]
      dsimp only
      rw [hparent, Option.bind_some]
      exact hloop
    · obtain rfl | hc := List.mem_cons.mp hc
      · exact (hframe c hchild).1.trans (Function.update_self ..)
      · exact hparents c hc
    · obtain ⟨hne, hnotMem⟩ := List.ne_and_not_mem_of_not_mem_cons hc
      obtain ⟨hsame, hsibling⟩ := hframe c hnotMem
      exact ⟨hsame.trans (Function.update_of_ne hne ..), hsibling.trans (Function.update_of_ne hne ..)⟩
    · rw [hothers r hrp hrq]
      simp only [handed, deleted, processAddChild, Function.update_of_ne hrp, Function.update_of_ne hrq]

variable {s s' : ProcessTable τ}

/-- One round of the loop. -/
theorem processExitFrom_round {p q child : τ} {rest : List τ} (hpq : p ≠ q) (hpchild : p ≠ child)
    (hparent : s.parent p = some q) (hcursor : LLRep s.sibling el (child :: rest))
    (hloop : processExitFrom p walk fuel el s = some s') :
    ∃ next' head' fuel' handed, llDelete s.next (s.children p) child walk = some (next', head') ∧
      processExitFrom p walk fuel' (s.sibling child) handed = some s' ∧
      handed.next = next' ∧ handed.children p = head' ∧ handed.parent p = some q ∧
      handed.processes = s.processes ∧ LLRep handed.sibling (s.sibling child) rest := by
  have hchild : child ∉ rest := (List.nodup_cons.mp hcursor.nodup).1
  obtain ⟨rfl, hrest⟩ := hcursor
  cases fuel with
  | zero => exact absurd hloop (Option.some_ne_none s').symm
  | succ fuel =>
    rw [processExitFrom] at hloop
    obtain ⟨result, hdelete, hloop⟩ := Option.bind_eq_some_iff.mp hloop
    dsimp only at hloop
    rw [hparent, Option.bind_some] at hloop
    refine ⟨result.1, result.2, fuel, _, hdelete, hloop, rfl, ?_, ?_, rfl, ?_⟩
    · simp only [processAddChild, Function.update_of_ne hpq, Function.update_self]
    · exact (Function.update_of_ne hpchild ..).trans hparent
    · exact hrest.update_of_notMem hchild _

/-- A process that no process points to stays so. -/
theorem processExitFrom_lost {p q c : τ} {procs remaining : List τ} (hpq : p ≠ q)
    (hparent : s.parent p = some q) (hp : p ∉ remaining)
    (hmem : ∀ d ∈ remaining, d ∈ procs) (hcursor : LLRep s.sibling el remaining)
    (hlost : ∀ x ∈ procs, s.next x ≠ some c)
    (hloop : processExitFrom p walk fuel el s = some s') : ∀ x ∈ procs, s'.next x ≠ some c := by
  induction remaining generalizing s el fuel with
  | nil =>
    obtain rfl : el = none := hcursor
    obtain rfl : s = s' := by cases fuel <;> exact Option.some.inj hloop
    exact hlost
  | cons child rest ih =>
    obtain ⟨hpchild, hprest⟩ := List.ne_and_not_mem_of_not_mem_cons hp
    obtain ⟨next', head', fuel', handed, hdelete, hloop', hnext, -, hparent', -, hrest⟩ :=
      processExitFrom_round hpq hpchild hparent hcursor hloop
    refine ih hparent' hprest (fun d hd => hmem d (List.mem_cons_of_mem child hd)) hrest
      (fun x hx => ?_) hloop'
    rw [hnext]
    obtain hsame | hdel := llDelete_writes hdelete x
    · exact hsame ▸ hlost x hx
    · exact hdel ▸ hlost child (hmem child List.mem_cons_self)

/-- A loop that ends with no child left and every process still linked has found nothing but children
behind the head of the list. -/
theorem processExitFrom_only {p q : τ} {procs remaining front tail : List τ} (hpq : p ≠ q)
    (hparent : s.parent p = some q)
    (hp : p ∉ remaining) (hmem : ∀ d ∈ remaining, d ∈ procs) (hcursor : LLRep s.sibling el remaining)
    (hprocs : LLRep s.next s.processes procs) (hsplit : procs = front ++ tail)
    (htail : s.children p = tail.head?) (hwalk : procs.length ≤ walk)
    (hloop : processExitFrom p walk fuel el s = some s') (hnone : s'.children p = none)
    (hprocs' : LLRep s'.next s'.processes procs) :
    tail.Sublist remaining ∧ tail.getLast? = remaining.getLast? := by
  induction remaining generalizing s el fuel front tail with
  | nil =>
    obtain rfl : el = none := hcursor
    obtain rfl : s = s' := by cases fuel <;> exact Option.some.inj hloop
    obtain rfl : tail = [] := List.head?_eq_none_iff.mp (htail.symm.trans hnone)
    exact ⟨List.Sublist.refl [], rfl⟩
  | cons child rest ih =>
    obtain ⟨hpchild, hprest⟩ := List.ne_and_not_mem_of_not_mem_cons hp
    have hmem' : ∀ d ∈ rest, d ∈ procs := fun d hd => hmem d (List.mem_cons_of_mem child hd)
    obtain ⟨next', head', fuel', handed, hdelete, hloop', hnext, hhead, hparent', hprocesses, hrest⟩ :=
      processExitFrom_round hpq hpchild hparent hcursor hloop
    cases tail with
    | nil => simp [htail, llDelete, llRelink] at hdelete
    | cons first tail =>
      have hpart : LLRep s.next (some first) (first :: tail) := by
        rw [hsplit] at hprocs
        exact hprocs.of_append
      rw [htail, List.head?_cons] at hdelete
      by_cases hfirst : first = child
      · -- the head of the list moves on by one process
        subst hfirst
        rw [llDelete, llRelink, if_pos rfl] at hdelete
        cases hdelete
        have hsplit' : procs = front ++ [first] ++ tail := by simpa using hsplit
        obtain ⟨hsub, hlast⟩ := ih hparent' hprest hmem' hrest (by rwa [hnext, hprocesses]) hsplit'
          (hhead.trans hpart.2.head_eq) hloop'
        refine ⟨hsub.cons_cons first, ?_⟩
        rw [List.getLast?_cons, List.getLast?_cons, hlast]
      · by_cases hchild : child ∈ tail
        · -- the child is unlinked from `_processes` and never linked again
          exfalso
          obtain ⟨pre, post, rfl⟩ := List.append_of_mem hchild
          have hwhole : procs = front ++ first :: pre ++ child :: post := by simpa using hsplit
          have hfuel : pre.length < walk := by
            rw [hwhole] at hwalk
            simp at hwalk
            omega
          obtain ⟨next'', head'', hdelete', hlost⟩ :=
            llDelete_unlinks (hwhole ▸ hprocs) hfuel
          obtain ⟨rfl, rfl⟩ := Prod.mk.inj (Option.some.inj (hdelete.symm.trans hdelete'))
          have hgone := processExitFrom_lost hpq hparent' hprest hmem' hrest
            (hnext ▸ hwhole ▸ hlost) hloop'
          obtain ⟨a, ha, hpoints, -⟩ := (hwhole ▸ hprocs').exists_pred
          have hmem : a ∈ procs := by
            rw [hwhole]
            exact List.mem_append_left _ (List.mem_append_right front ha)
          exact hgone a hmem hpoints
        · have hnotMem : child ∉ first :: tail :=
            List.not_mem_cons_of_ne_of_not_mem (Ne.symm hfirst) hchild
          have hlength : (first :: tail).length ≤ walk := by
            rw [hsplit] at hwalk
            exact Nat.le_trans (by simp) hwalk
          have hsame : llDelete s.next (some first) child walk = some (s.next, some first) :=
            llRelink_of_notMem hpart (List.cons_ne_nil _ _) hnotMem hlength _
          obtain ⟨rfl, rfl⟩ := Prod.mk.inj (Option.some.inj (hdelete.symm.trans hsame))
          obtain ⟨hsub, hlast⟩ := ih hparent' hprest hmem' hrest
            (by rwa [hnext, hprocesses]) hsplit hhead hloop'
          refine ⟨hsub.cons child, ?_⟩
          cases rest with
          | nil => cases hsub
          | cons b rest => rw [List.getLast?_cons_cons, hlast]

variable {s s' : ProcessTable τ} {procs : List τ} {kids : τ → List τ} {p parent : τ}

/-- The lists of children after the handing over. -/
theorem ProcessTable.Consistent.handedOver_children (h : s.Consistent procs kids) (hp : p ∈ procs)
    (hnone : s'.children p = none)
    (hlist : LLRep s'.sibling (s'.children parent) ((kids p).reverse ++ kids parent))
    (hframe : ∀ c, c ∉ kids p → s'.parent c = s.parent c ∧ s'.sibling c = s.sibling c)
    (hothers : ∀ r, r ≠ p → r ≠ parent → s'.children r = s.children r) :
    ∀ r ∈ procs, LLRep s'.sibling (s'.children r) (handedOver kids p parent r) := by
  intro r hr
  unfold handedOver
  by_cases hrparent : r = parent
  · rw [hrparent, Function.update_self]
    exact hlist
  · rw [Function.update_of_ne hrparent]
    by_cases hrp : r = p
    · rw [hrp, Function.update_self, hnone]
      rfl
    · rw [Function.update_of_ne hrp, hothers r hrp hrparent]
      refine (h.children r hr).congr fun c hc => ?_
      exact (hframe c (h.kids_disjoint hr hp hrp hc)).2

/-- Who is whose child after the handing over. -/
theorem ProcessTable.Consistent.handedOver_child_iff (h : s.Consistent procs kids) (hp : p ∈ procs)
    (hparentMem : parent ∈ procs)
    (hparents : ∀ c ∈ kids p, s'.parent c = some parent)
    (hframe : ∀ c, c ∉ kids p → s'.parent c = s.parent c ∧ s'.sibling c = s.sibling c) :
    ∀ r ∈ procs, ∀ c, c ∈ handedOver kids p parent r ↔ c ∈ procs ∧ s'.parent c = some r := by
  intro r hr c
  unfold handedOver
  by_cases hmem : c ∈ kids p
  · have hc : c ∈ procs := ((h.child_iff p hp c).mp hmem).1
    rw [hparents c hmem]
    by_cases hrparent : r = parent
    · rw [hrparent, Function.update_self]
      exact iff_of_true (List.mem_append_left _ (List.mem_reverse.mpr hmem)) ⟨hc, rfl⟩
    · rw [Function.update_of_ne hrparent]
      refine iff_of_false (fun hkid => ?_) fun hr' => hrparent (Option.some.inj hr'.2).symm
      by_cases hrp : r = p
      · rw [hrp, Function.update_self] at hkid
        cases hkid
      · rw [Function.update_of_ne hrp] at hkid
        exact h.kids_disjoint hp hr (Ne.symm hrp) hmem hkid
  · rw [(hframe c hmem).1]
    by_cases hrparent : r = parent
    · rw [hrparent, Function.update_self, List.mem_append, List.mem_reverse, or_iff_right hmem]
      exact h.child_iff parent hparentMem c
    · rw [Function.update_of_ne hrparent, ← h.child_iff r hr c]
      by_cases hrp : r = p
      · rw [hrp, Function.update_self]
        exact iff_of_false List.not_mem_nil hmem
      · rw [Function.update_of_ne hrp]

/-- Where the list of all processes ends with the children, the exit hands them over. -/
theorem ProcessTable.Consistent.exit_of_ends (h : s.Consistent procs kids) (hp : p ∈ procs)
    (hpid : s.pid p ≠ 0) (hparent : s.parent p = some parent)
    (hends : EndsWithChildren procs (kids p)) {fuel : ℕ} (hfuel : procs.length ≤ fuel) :
    ∃ s', processExit fuel s p = some s' ∧ s'.Reparented procs kids p parent := by
  obtain ⟨front, tail, rfl, hsub, hhead, hlast⟩ := hends
  have hparentMem : parent ∈ front ++ tail := h.parent_mem p hp parent hparent
  have hpq : p ≠ parent := fun heq => h.parent_ne hp (heq ▸ hparent)
  have hown : LLRep s.sibling (s.children p) (kids p) := h.children p hp
  have hnotOwn : p ∉ kids p := fun hmem =>
    h.parent_ne hp ((h.child_iff p hp p).mp hmem).2
  have htail : LLRep s.next (s.children p) tail := by
    rw [hown.head_eq, ← hhead]
    exact h.processes.of_append
  have hlength : (kids p).length ≤ (front ++ tail).length :=
    (List.subperm_of_subset hown.nodup fun c hc => ((h.child_iff p hp c).mp hc).1).length_le
  obtain ⟨s', hloop, hnone, hnext, hprocesses, hlist, hparents, hframe, hothers⟩ :=
    processExitFrom_spec hpq hparent hnotOwn hown htail hsub hlast (h.children parent hparentMem)
      (fun c hc => h.kids_disjoint hp hparentMem hpq hc) (Nat.le_trans hlength hfuel)
      (Nat.le_trans (by simp) hfuel)
  have hprocs : LLRep s'.next s'.processes (front ++ tail) := by
    rw [hnext, hprocesses]
    exact h.processes
  refine ⟨s', ?_, hnone, hparents, hlist, hprocs, hprocs, ?_, ?_, ?_, ?_⟩
  · have hreturns : ¬ (s.pid p = 0 ∨ s.parent p = none) := by
      rw [hparent]
      exact fun hfails => hfails.elim hpid (Option.some_ne_none parent)
    rw [processExit, if_neg hreturns, hloop]
  · exact h.handedOver_children hp hnone hlist hframe hothers
  · exact h.handedOver_child_iff hp hparentMem hparents hframe
  · intro c hc q hq
    by_cases hmem : c ∈ kids p
    · obtain rfl : parent = q := Option.some.inj ((hparents c hmem).symm.trans hq)
      exact hparentMem
    · exact h.parent_mem c hc q ((hframe c hmem).1.symm.trans hq)
  · obtain ⟨rank, hrank⟩ := h.tree
    refine ⟨rank, fun c hc q hq => ?_⟩
    by_cases hmem : c ∈ kids p
    · obtain rfl : parent = q := Option.some.inj ((hparents c hmem).symm.trans hq)
      have hchild := hrank c hc p ((h.child_iff p hp c).mp hmem).2
      have hself := hrank p hp parent hparent
      omega
    · exact hrank c hc q ((hframe c hmem).1.symm.trans hq)

/-- An exit that hands the children over and keeps the list of all processes has found that list to
end with the children. -/
theorem ProcessTable.Consistent.ends_of_exit (h : s.Consistent procs kids) (hp : p ∈ procs)
    (hparent : s.parent p = some parent) {fuel : ℕ} (hfuel : procs.length ≤ fuel)
    (hexit : processExit fuel s p = some s') (hnone : s'.children p = none)
    (hprocs : LLRep s'.next s'.processes procs) : EndsWithChildren procs (kids p) := by
  have hpq : p ≠ parent := fun heq => h.parent_ne hp (heq ▸ hparent)
  have hown : LLRep s.sibling (s.children p) (kids p) := h.children p hp
  have hnotOwn : p ∉ kids p := fun hmem => h.parent_ne hp ((h.child_iff p hp p).mp hmem).2
  have hmem : ∀ c ∈ kids p, c ∈ procs := fun c hc => ((h.child_iff p hp c).mp hc).1
  have hloop : processExitFrom p fuel fuel (s.children p) s = some s' := by
    rw [processExit] at hexit
    split at hexit
    · cases hexit
    · exact hexit
  obtain ⟨front, tail, hsplit, hhead⟩ : ∃ front tail, procs = front ++ tail ∧
      tail.head? = (kids p).head? := by
    cases hkids : kids p with
    | nil => exact ⟨procs, [], (List.append_nil procs).symm, rfl⟩
    | cons c rest =>
      obtain ⟨front, post, hsplit⟩ := List.append_of_mem (hmem c (by rw [hkids]; simp))
      exact ⟨front, c :: post, hsplit, rfl⟩
  obtain ⟨hsub, hlast⟩ := processExitFrom_only hpq hparent hnotOwn hmem hown h.processes hsplit
    (hown.head_eq.trans hhead.symm) hfuel hloop hnone hprocs
  exact ⟨front, tail, hsplit, hsub, hhead, hlast⟩

end Exit

/-- In every consistent table, a process other than the kernel's that has a parent hands its children
over when it exits, and keeps the list of all processes, exactly when that list ends with them. -/
theorem processExit_reparents_iff {τ : Type*} [DecidableEq τ] {s : ProcessTable τ} {procs : List τ}
    {kids : τ → List τ} (h : s.Consistent procs kids) {p parent : τ} (hp : p ∈ procs)
    (hpid : s.pid p ≠ 0) (hparent : s.parent p = some parent) {fuel : ℕ}
    (hfuel : procs.length ≤ fuel) :
    (∃ s', processExit fuel s p = some s' ∧ s'.Reparented procs kids p parent) ↔
      EndsWithChildren procs (kids p) :=
  ⟨fun ⟨_, hexit, hafter⟩ =>
      h.ends_of_exit hp hparent hfuel hexit hafter.childless hafter.processes,
    fun hends => h.exit_of_ends hp hpid hparent hends hfuel⟩

/-- The parents of the kernel's process, a child of it and a grandchild. -/
def generationParent : Fin 3 → Option (Fin 3) := ![none, some 0, some 1]

/-- Their children. -/
def generationKids : Fin 3 → List (Fin 3) := ![[1], [2], []]

/-- Their table, with the list of all processes in some order. -/
def threeGenerations (processes : Option (Fin 3)) (next : Fin 3 → Option (Fin 3)) :
    ProcessTable (Fin 3) where
  processes := processes
  next := next
  parent := generationParent
  children := fun t => (generationKids t).head?
  sibling := fun _ => none
  pid := ![0, 1, 2]

theorem threeGenerations_consistent {processes : Option (Fin 3)} {next : Fin 3 → Option (Fin 3)}
    {procs : List (Fin 3)} (h : LLRep next processes procs) (hall : ∀ t, t ∈ procs) :
    (threeGenerations processes next).Consistent procs generationKids := by
  have hchildren : ∀ q, LLRep (fun _ => none) (generationKids q).head? (generationKids q) := by
    decide
  have hkids : ∀ q c, c ∈ generationKids q ↔ generationParent c = some q := by decide
  have htree : ∀ c q, generationParent c = some q → q.val < c.val := by decide
  refine ⟨h, fun q _ => hchildren q, fun q _ c => ?_, fun _ _ q _ => hall q,
    Fin.val, fun c _ q hq => htree c q hq⟩
  rw [hkids, and_iff_right (hall c)]
  rfl

/-- With the grandchild last on the list of all processes, the exit of the child hands it to the
kernel's process. -/
theorem processExit_reparents_iff_last :
    ∃ s', processExit 3 (threeGenerations (some 0) ![some 1, some 2, none]) 1 = some s' ∧
      s'.Reparented [0, 1, 2] generationKids 1 0 :=
  (processExit_reparents_iff
    (threeGenerations_consistent
      (show LLRep ![some 1, some 2, none] (some (0 : Fin 3)) [0, 1, 2] by decide) (by decide))
    (by decide) (by decide) (by decide) (Nat.le_refl 3)).mpr
    ⟨[0, 1], [2], rfl, by decide, rfl, rfl⟩

/-- With the newest process first, as forking leaves the list, the grandchild is followed by its
parent: after the exit the list of the parent's children starts with the parent itself. -/
theorem processExit_keeps_children :
    (threeGenerations (some 2) ![none, some 0, some 1]).Consistent [2, 1, 0] generationKids ∧
      ∃ s', processExit 3 (threeGenerations (some 2) ![none, some 0, some 1]) 1 = some s' ∧
        s'.children 1 = some 1 :=
  ⟨threeGenerations_consistent (by decide) (by decide), _, rfl, by decide⟩

end ChrisOS.Kern
