import Mathlib.Data.List.Nodup
import Mathlib.Logic.Function.Basic

/-!
# Intrusive doubly linked lists

Nodes carry a next and a previous field, and a list is a pointer to its first node. The first
node's previous field holds the last node, the last node's next field is null. Several lists
may share the two fields as long as no node is on two of them.

Appending and deleting are given as sequences of field writes, with `none` for a failed
assertion or a dereferenced null pointer. On well-formed lists neither happens, and each is
the corresponding operation on lists of nodes that touches no other node.
-/

namespace ChrisOS.Lib

variable {τ : Type*}

/-- The link fields of every node. -/
structure Links (τ : Type*) where
  next : τ → Option τ
  prev : τ → Option τ

section Writes

variable [DecidableEq τ]

/-- Write one next field. -/
def Links.setNext (links : Links τ) (t : τ) (value : Option τ) : Links τ :=
  { links with next := Function.update links.next t value }

/-- Write one previous field. -/
def Links.setPrev (links : Links τ) (t : τ) (value : Option τ) : Links τ :=
  { links with prev := Function.update links.prev t value }

/-- Append a node: the new links and head. -/
def dlAppend (links : Links τ) (head : Option τ) (add : τ) : Option (Links τ × Option τ) :=
  match head with
  | some first =>
    let links := links.setPrev add (links.prev first)
    match links.prev first with
    | some last =>
      let links := links.setNext last (some add)
      let links := links.setPrev first (some add)
      some (links.setNext add none, some first)
    | none => none
  | none => some ((links.setPrev add (some add)).setNext add none, some add)

/-- Unlink a node; its own fields keep their values. -/
def dlDelete (links : Links τ) (head : Option τ) (del : τ) : Option (Links τ × Option τ) :=
  match links.prev del with
  | none => none
  | some before =>
    if before = del then some (links, none)
    else if head = some del then
      match links.next del with
      | some after => some (links.setPrev after (some before), some after)
      | none => none
    else
      let links := links.setNext before (links.next del)
      match links.next del with
      | some after => some (links.setPrev after (links.prev del), head)
      | none =>
        match head with
        | some first => some (links.setPrev first (links.prev del), head)
        | none => none

end Writes

/-- The nodes are linked in order, with `p` in front of the first and `e` after the last. -/
def Seg (links : Links τ) : Option τ → List τ → Option τ → Prop
  | _, [], _ => True
  | p, a :: rest, e => links.prev a = p ∧ links.next a = rest.head?.or e ∧ Seg links (some a) rest e

/-- The pointer `head` and the fields of the nodes represent the list of nodes `l`. -/
structure DLRep (links : Links τ) (head : Option τ) (l : List τ) : Prop where
  head_eq : head = l.head?
  nodup : l.Nodup
  seg : Seg links l.getLast? l none

variable {l : List τ} {p e : Option τ}

/-- A segment depends only on the fields of its nodes. -/
theorem Seg.congr {links links' : Links τ} (h : Seg links p l e)
    (hnext : ∀ t ∈ l, links'.next t = links.next t)
    (hprev : ∀ t ∈ l, links'.prev t = links.prev t) : Seg links' p l e := by
  induction l generalizing p with
  | nil => trivial
  | cons a rest ih =>
    obtain ⟨hp, hn, hrest⟩ := h
    refine ⟨?_, ?_, ih hrest (fun t ht => hnext t (List.mem_cons_of_mem _ ht))
      (fun t ht => hprev t (List.mem_cons_of_mem _ ht))⟩
    · rw [hprev a List.mem_cons_self, hp]
    · rw [hnext a List.mem_cons_self, hn]

/-- A segment of two parts is two segments that point at each other. -/
theorem seg_append (links : Links τ) (p e : Option τ) (l l' : List τ) :
    Seg links p (l ++ l') e ↔
      Seg links p l (l'.head?.or e) ∧ Seg links (l.getLast?.or p) l' e := by
  induction l generalizing p with
  | nil => simp [Seg]
  | cons a rest ih =>
    have hhead : (rest ++ l').head?.or e = rest.head?.or (l'.head?.or e) := by
      cases rest <;> simp
    have hlast : (a :: rest).getLast?.or p = rest.getLast?.or (some a) := by
      cases rest <;> simp [List.getLast?_cons]
    rw [List.cons_append, Seg, Seg, ih, hhead, hlast, and_assoc, and_assoc]

section Relink

variable [DecidableEq τ] {links : Links τ}

/-- Writing the next field of the last node changes what follows the segment. -/
theorem Seg.setNext_last {x : τ} (h : Seg links p (l ++ [x]) e) (hx : x ∉ l) (value : Option τ) :
    Seg (links.setNext x value) p (l ++ [x]) value := by
  obtain ⟨hfront, hlast⟩ := (seg_append links p e l [x]).mp h
  refine (seg_append _ p value l [x]).mpr ⟨?_, hlast.1, ?_, trivial⟩
  · refine Seg.congr hfront (fun t ht => ?_) fun _ _ => rfl
    exact Function.update_of_ne (ne_of_mem_of_not_mem ht hx) _ _
  · exact Function.update_self ..

/-- Writing the previous field of the first node changes what precedes the segment. -/
theorem Seg.setPrev_first {x : τ} (h : Seg links p (x :: l) e) (hx : x ∉ l) (value : Option τ) :
    Seg (links.setPrev x value) value (x :: l) e := by
  refine ⟨Function.update_self .., h.2.1, Seg.congr h.2.2 (fun _ _ => rfl) fun t ht => ?_⟩
  exact Function.update_of_ne (ne_of_mem_of_not_mem ht hx) _ _

/-- Writing the next field of another node leaves a segment alone. -/
theorem Seg.setNext_of_notMem {x : τ} (h : Seg links p l e) (hx : x ∉ l) (value : Option τ) :
    Seg (links.setNext x value) p l e :=
  h.congr (fun _ ht => Function.update_of_ne (ne_of_mem_of_not_mem ht hx) _ _) fun _ _ => rfl

/-- Writing the previous field of another node leaves a segment alone. -/
theorem Seg.setPrev_of_notMem {x : τ} (h : Seg links p l e) (hx : x ∉ l) (value : Option τ) :
    Seg (links.setPrev x value) p l e :=
  h.congr (fun _ _ => rfl) fun _ ht => Function.update_of_ne (ne_of_mem_of_not_mem ht hx) _ _

end Relink

variable {head : Option τ}

/-- Another list's writes leave a represented list alone. -/
theorem DLRep.congr {links links' : Links τ} (h : DLRep links head l)
    (hnext : ∀ t ∈ l, links'.next t = links.next t)
    (hprev : ∀ t ∈ l, links'.prev t = links.prev t) : DLRep links' head l :=
  ⟨h.head_eq, h.nodup, h.seg.congr hnext hprev⟩

/-- The links agree except at the nodes of `l`. -/
def SameOutside (links links' : Links τ) (l : List τ) : Prop :=
  ∀ t, t ∉ l → links'.next t = links.next t ∧ links'.prev t = links.prev t

/-- The empty list. -/
theorem DLRep.nil (links : Links τ) : DLRep links none ([] : List τ) :=
  ⟨rfl, List.nodup_nil, trivial⟩

variable {links : Links τ}

/-- The next fields determine a segment from its first node on. -/
theorem Seg.unique {p p' : Option τ} {l l' : List τ} (h : Seg links p l none) (h' : Seg links p' l' none)
    (hhead : l.head? = l'.head?) : l = l' := by
  induction l generalizing p p' l' with
  | nil => exact (List.head?_eq_none_iff.mp hhead.symm).symm
  | cons a rest ih =>
    cases l' with
    | nil => cases hhead
    | cons b rest' =>
      obtain rfl : a = b := Option.some.inj hhead
      have hnext : rest.head?.or none = rest'.head?.or none := h.2.1.symm.trans h'.2.1
      rw [Option.or_none, Option.or_none] at hnext
      rw [ih h.2.2 h'.2.2 hnext]

/-- A head represents one list only. -/
theorem DLRep.unique {l l' : List τ} (h : DLRep links head l) (h' : DLRep links head l') : l = l' :=
  h.seg.unique h'.seg (h.head_eq.symm.trans h'.head_eq)

section Operations

variable [DecidableEq τ]

theorem Links.setNext_next_of_ne (links : Links τ) {t x : τ} (h : x ≠ t) (value : Option τ) :
    (links.setNext t value).next x = links.next x := Function.update_of_ne h _ _

theorem Links.setPrev_prev_of_ne (links : Links τ) {t x : τ} (h : x ≠ t) (value : Option τ) :
    (links.setPrev t value).prev x = links.prev x := Function.update_of_ne h _ _

/-- Appending a node that is on no list appends it to the represented list. -/
theorem dlAppend_spec {add : τ} (h : DLRep links head l) (hadd : add ∉ l) :
    ∃ links', dlAppend links head add = some (links', (l ++ [add]).head?) ∧
      DLRep links' (l ++ [add]).head? (l ++ [add]) ∧ SameOutside links links' (add :: l) := by
  have hnodup : (l ++ [add]).Nodup :=
    List.nodup_append.mpr ⟨h.nodup, List.nodup_singleton add, fun a ha b hb =>
      List.mem_singleton.mp hb ▸ ne_of_mem_of_not_mem ha hadd⟩
  cases l with
  | nil =>
    have hhead : head = none := h.head_eq
    subst hhead
    refine ⟨_, rfl, ⟨rfl, hnodup, ?_⟩, fun t ht => ?_⟩
    · exact ⟨Function.update_self .., Function.update_self .., trivial⟩
    · have hne : t ≠ add := List.ne_of_not_mem_cons ht
      exact ⟨Links.setNext_next_of_ne _ hne _, Links.setPrev_prev_of_ne _ hne _⟩
  | cons first rest =>
    have hhead : head = some first := h.head_eq
    subst hhead
    obtain ⟨init, last, hl⟩ : ∃ init last, first :: rest = init ++ [last] :=
      ⟨_, _, (List.dropLast_append_getLast (List.cons_ne_nil first rest)).symm⟩
    have hlast : (first :: rest).getLast? = some last := by rw [hl, List.getLast?_concat]
    have hprev : links.prev first = some last := h.seg.1.trans hlast
    have hfirst : first ≠ add := fun heq => hadd (heq ▸ List.mem_cons_self)
    have hfirstRest : first ∉ rest := (List.nodup_cons.mp h.nodup).1
    have hinit : last ∉ init := by
      have hnd := h.nodup
      rw [hl, List.nodup_append] at hnd
      exact fun hmem => hnd.2.2 last hmem last (List.mem_singleton_self last) rfl
    let links₁ := links.setPrev add (some last)
    let links₂ := links₁.setNext last (some add)
    let links₃ := links₂.setPrev first (some add)
    have hprev₁ : links₁.prev first = some last := (links.setPrev_prev_of_ne hfirst _).trans hprev
    refine ⟨links₃.setNext add none, ?_, ⟨rfl, hnodup, ?_⟩, fun t ht => ?_⟩
    · change (match (links.setPrev add (links.prev first)).prev first with
        | some last => _
        | none => none) = _
      rw [hprev, show (links.setPrev add (some last)).prev first = some last from hprev₁]
      rfl
    · have hseg₁ : Seg links₁ (some last) (first :: rest) none :=
        (hlast ▸ h.seg).setPrev_of_notMem hadd _
      have hseg₂ : Seg links₂ (some last) (first :: rest) (some add) := by
        rw [hl] at hseg₁ ⊢
        exact hseg₁.setNext_last hinit _
      have hseg₃ : Seg links₃ (some add) (first :: rest) (some add) :=
        hseg₂.setPrev_first hfirstRest _
      have hseg₄ : Seg (links₃.setNext add none) (some add) (first :: rest) (some add) :=
        hseg₃.setNext_of_notMem hadd _
      have hnewPrev : links₃.prev add = some last :=
        (links₂.setPrev_prev_of_ne hfirst.symm _).trans (Function.update_self ..)
      rw [List.getLast?_concat, seg_append, hlast]
      exact ⟨hseg₄, hnewPrev, Function.update_self .., trivial⟩
    · have hlastMem : last ∈ add :: first :: rest := by simp [hl]
      have hfirstMem : first ∈ add :: first :: rest := by simp
      have hneLast : t ≠ last := (ne_of_mem_of_not_mem hlastMem ht).symm
      have hneFirst : t ≠ first := (ne_of_mem_of_not_mem hfirstMem ht).symm
      have hneAdd : t ≠ add := List.ne_of_not_mem_cons ht
      exact ⟨(links₃.setNext_next_of_ne hneAdd _).trans (links₁.setNext_next_of_ne hneLast _),
        (links₂.setPrev_prev_of_ne hneFirst _).trans (links.setPrev_prev_of_ne hneAdd _)⟩

/-- Unlinking the first node of a longer list. -/
theorem dlDelete_first {del after : τ} {rest : List τ}
    (h : DLRep links (some del) (del :: after :: rest)) :
    ∃ links', dlDelete links (some del) del = some (links', some after) ∧
      DLRep links' (some after) (after :: rest) ∧
      SameOutside links links' (del :: after :: rest) := by
  obtain ⟨hprev, hnext, hseg⟩ := h.seg
  obtain ⟨hdel, hnodup⟩ := List.nodup_cons.mp h.nodup
  obtain ⟨last, hlast⟩ : ∃ last, (after :: rest).getLast? = some last :=
    ⟨_, List.getLast?_eq_some_getLast (List.cons_ne_nil after rest)⟩
  have hprevDel : links.prev del = some last := by rw [hprev, List.getLast?_cons_cons, hlast]
  have hne : last ≠ del := ne_of_mem_of_not_mem (List.mem_of_getLast? hlast) hdel
  have hnextDel : links.next del = some after := hnext
  refine ⟨links.setPrev after (some last), ?_, ⟨rfl, hnodup, ?_⟩, fun t ht => ⟨rfl, ?_⟩⟩
  · simp only [dlDelete, hprevDel, if_neg hne, hnextDel, if_true]
  · rw [hlast]
    exact hseg.setPrev_first (List.nodup_cons.mp hnodup).1 _
  · have hafter : after ∈ del :: after :: rest := by simp
    exact links.setPrev_prev_of_ne (ne_of_mem_of_not_mem hafter ht).symm _

/-- Unlinking a node behind others. -/
theorem dlDelete_later {init post : List τ} {before del : τ}
    (h : DLRep links head (init ++ [before] ++ del :: post)) :
    ∃ links', dlDelete links head del = some (links', head) ∧
      DLRep links' head (init ++ [before] ++ post) ∧
      SameOutside links links' (init ++ [before] ++ del :: post) := by
  obtain ⟨hfront, hback⟩ := (seg_append _ _ _ _ _).mp h.seg
  rw [List.getLast?_concat] at hback
  obtain ⟨hprevDel, hnextDel, hpost⟩ := hback
  obtain ⟨hnodupFront, hnodupBack, hcross⟩ := List.nodup_append.mp h.nodup
  obtain ⟨hdelPost, hnodupPost⟩ := List.nodup_cons.mp hnodupBack
  have hbeforeMem : before ∈ init ++ [before] := by simp
  have hne : before ≠ del := hcross before hbeforeMem del List.mem_cons_self
  have hinit : before ∉ init := by
    rw [List.nodup_append] at hnodupFront
    exact fun hmem => hnodupFront.2.2 before hmem before (List.mem_singleton_self before) rfl
  have hbeforePost : before ∉ post := fun hmem =>
    hcross before hbeforeMem before (List.mem_cons_of_mem _ hmem) rfl
  have hdisjoint : ∀ t ∈ post, t ∉ init ++ [before] := fun t ht hmem =>
    hcross t hmem t (List.mem_cons_of_mem _ ht) rfl
  have hnodup : (init ++ [before] ++ post).Nodup :=
    List.nodup_append.mpr ⟨hnodupFront, hnodupPost, fun a ha b hb =>
      hcross a ha b (List.mem_cons_of_mem _ hb)⟩
  obtain ⟨first, hfirst⟩ : ∃ first, (init ++ [before]).head? = some first := by
    cases init <;> simp
  have hhead : head = some first := by rw [h.head_eq, List.head?_append, hfirst, Option.some_or]
  have hneHead : head ≠ some del := by
    rw [hhead]
    intro heq
    exact hcross first (List.mem_of_head? hfirst) del List.mem_cons_self (Option.some.inj heq)
  have hheadPost : head = (init ++ [before] ++ post).head? := by
    rw [List.head?_append, hfirst, hhead, Option.some_or]
  have hprev : links.prev del = some before := hprevDel
  have houtside : ∀ t, t ∉ init ++ [before] ++ del :: post → t ≠ before ∧ t ∉ post ∧ t ≠ first := by
    intro t ht
    refine ⟨fun heq => ht (by simp [heq]), fun hmem => ht (by simp [hmem]), fun heq => ht ?_⟩
    exact List.mem_append_left _ (heq ▸ List.mem_of_head? hfirst)
  cases post with
  | cons after rest =>
    have hnext : links.next del = some after := hnextDel
    refine ⟨(links.setNext before (some after)).setPrev after (some before), ?_,
      ⟨hheadPost, hnodup, ?_⟩, fun t ht => ?_⟩
    · have hnext' : (links.setNext before (some after)).next del = some after :=
        (links.setNext_next_of_ne hne.symm _).trans hnext
      have hprev' : (links.setNext before (some after)).prev del = some before := hprev
      simp only [dlDelete, hprev, if_neg hne, if_neg hneHead, hnext, hnext', hprev']
    · rw [List.getLast?_append, List.getLast?_cons_cons] at hfront
      rw [seg_append, List.getLast?_append, List.getLast?_concat]
      constructor
      · exact (hfront.setNext_last hinit _).setPrev_of_notMem (hdisjoint after List.mem_cons_self) _
      · exact (hpost.setNext_of_notMem hbeforePost _).setPrev_first
          (List.nodup_cons.mp hnodupPost).1 _
    · obtain ⟨hneBefore, hnotPost, _⟩ := houtside t ht
      exact ⟨links.setNext_next_of_ne hneBefore _,
        Links.setPrev_prev_of_ne _ (List.ne_of_not_mem_cons hnotPost) _⟩
  | nil =>
    have hnext : links.next del = none := hnextDel
    refine ⟨(links.setNext before none).setPrev first (some before), ?_,
      ⟨hheadPost, hnodup, ?_⟩, fun t ht => ?_⟩
    · have hnext' : (links.setNext before none).next del = none :=
        (links.setNext_next_of_ne hne.symm _).trans hnext
      have hprev' : (links.setNext before none).prev del = some before := hprev
      rw [hhead] at hneHead ⊢
      simp only [dlDelete, hprev, if_neg hne, if_neg hneHead, hnext, hnext', hprev']
    · rw [List.append_nil, List.getLast?_concat]
      have hended := hfront.setNext_last hinit none
      cases hcons : init ++ [before] with
      | nil => exact absurd hcons (by simp)
      | cons first' rest =>
        rw [hcons] at hfirst hended hnodupFront
        obtain rfl : first' = first := by simpa using hfirst
        exact hended.setPrev_first (List.nodup_cons.mp hnodupFront).1 _
    · obtain ⟨hneBefore, _, hneFirst⟩ := houtside t ht
      exact ⟨links.setNext_next_of_ne hneBefore _, Links.setPrev_prev_of_ne _ hneFirst _⟩

/-- Unlinking a node of a represented list removes it. -/
theorem dlDelete_spec {del : τ} (h : DLRep links head l) (hdel : del ∈ l) :
    ∃ links', dlDelete links head del = some (links', (l.erase del).head?) ∧
      DLRep links' (l.erase del).head? (l.erase del) ∧ SameOutside links links' l := by
  obtain ⟨pre, post, rfl⟩ := List.append_of_mem hdel
  have hpre : del ∉ pre := fun hmem =>
    (List.nodup_append.mp h.nodup).2.2 del hmem del List.mem_cons_self rfl
  have herase : (pre ++ del :: post).erase del = pre ++ post := by
    rw [List.erase_append_right _ hpre, List.erase_cons_head]
  rw [herase]
  obtain rfl | ⟨init, before, rfl⟩ := pre.eq_nil_or_concat
  · have hhead : head = some del := h.head_eq
    subst hhead
    cases post with
    | nil =>
      have hprev : links.prev del = some del := h.seg.1
      refine ⟨links, ?_, DLRep.nil links, fun t _ => ⟨rfl, rfl⟩⟩
      simp only [dlDelete, hprev, if_true]
      rfl
    | cons after rest => exact dlDelete_first h
  · rw [List.concat_eq_append] at h ⊢
    obtain ⟨links', hdelete, hrep, hsame⟩ := dlDelete_later h
    exact ⟨links', hrep.head_eq ▸ hdelete, hrep.head_eq ▸ hrep, hsame⟩

/-- Several lists that share the link fields, no node on two of them. -/
structure DLists {ι : Type*} (links : Links τ) (head : ι → Option τ) (l : ι → List τ) : Prop where
  rep : ∀ i, DLRep links (head i) (l i)
  disjoint : ∀ i j, i ≠ j → ∀ t ∈ l i, t ∉ l j

variable {ι : Type*} [DecidableEq ι]

/-- Appending a node that is on none of the lists to one of them. -/
theorem DLists.append {head : ι → Option τ} {l : ι → List τ} (h : DLists links head l) (i : ι) {add : τ}
    (hadd : ∀ j, add ∉ l j) :
    ∃ links' head', dlAppend links (head i) add = some (links', head') ∧
      DLists links' (Function.update head i head') (Function.update l i (l i ++ [add])) := by
  obtain ⟨links', happend, hrep, hsame⟩ := dlAppend_spec (h.rep i) (hadd i)
  refine ⟨links', _, happend, fun j => ?_, fun j k hjk t ht => ?_⟩
  · by_cases hj : j = i
    · subst hj
      rw [Function.update_self, Function.update_self]
      exact hrep
    · rw [Function.update_of_ne hj, Function.update_of_ne hj]
      have hout : ∀ t ∈ l j, t ∉ add :: l i := fun t ht hmem => by
        obtain rfl | hmem := List.mem_cons.mp hmem
        · exact hadd j ht
        · exact h.disjoint j i hj t ht hmem
      exact (h.rep j).congr (fun t ht => (hsame t (hout t ht)).1)
        fun t ht => (hsame t (hout t ht)).2
  · by_cases hj : j = i
    · subst hj
      rw [Function.update_self] at ht
      rw [Function.update_of_ne (Ne.symm hjk)]
      obtain ht | ht := List.mem_append.mp ht
      · exact h.disjoint j k hjk t ht
      · rw [List.mem_singleton.mp ht]
        exact hadd k
    · rw [Function.update_of_ne hj] at ht
      by_cases hk : k = i
      · subst hk
        rw [Function.update_self, List.mem_append, List.mem_singleton]
        intro hmem
        obtain hmem | rfl := hmem
        · exact h.disjoint j k hj t ht hmem
        · exact hadd j ht
      · rw [Function.update_of_ne hk]
        exact h.disjoint j k hjk t ht

/-- Unlinking a node from the list it is on, and clearing its fields. -/
theorem DLists.delete {head : ι → Option τ} {l : ι → List τ} (h : DLists links head l) (i : ι) {del : τ}
    (hdel : del ∈ l i) :
    ∃ links' head', dlDelete links (head i) del = some (links', head') ∧
      DLists ((links'.setNext del none).setPrev del none) (Function.update head i head')
        (Function.update l i ((l i).erase del)) := by
  obtain ⟨links', hdelete, hrep, hsame⟩ := dlDelete_spec (h.rep i) hdel
  have hgone : del ∉ (l i).erase del := fun hmem => ((h.rep i).nodup.mem_erase_iff.mp hmem).1 rfl
  refine ⟨links', _, hdelete, fun j => ?_, fun j k hjk t ht => ?_⟩
  · by_cases hj : j = i
    · subst hj
      rw [Function.update_self, Function.update_self]
      exact hrep.congr
        (fun t ht => Function.update_of_ne (ne_of_mem_of_not_mem ht hgone) _ _)
        fun t ht => Function.update_of_ne (ne_of_mem_of_not_mem ht hgone) _ _
    · rw [Function.update_of_ne hj, Function.update_of_ne hj]
      have hne : ∀ t ∈ l j, t ≠ del := fun t ht heq => h.disjoint j i hj t ht (heq ▸ hdel)
      have hout : ∀ t ∈ l j, t ∉ l i := h.disjoint j i hj
      exact (h.rep j).congr
        (fun t ht => (Function.update_of_ne (hne t ht) _ _).trans (hsame t (hout t ht)).1)
        fun t ht => (Function.update_of_ne (hne t ht) _ _).trans (hsame t (hout t ht)).2
  · have hsub : ∀ m, Function.update l i ((l i).erase del) m ⊆ l m := by
      intro m
      by_cases hm : m = i
      · subst hm
        rw [Function.update_self]
        exact List.erase_subset
      · rw [Function.update_of_ne hm]
        exact List.Subset.refl _
    exact fun hmem => h.disjoint j k hjk t (hsub j ht) (hsub k hmem)

end Operations

end ChrisOS.Lib
