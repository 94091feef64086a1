import ChrisOS.Lib.Span
import Mathlib.Data.List.SplitBy

/-!
# Maximal runs of touching spans

An increasing list of disjoint non-empty spans splits into maximal runs of spans that
touch and carry one label. Replacing each run by the span from its start to its end gives
a canonical list with the same labelled coverage.
-/

namespace ChrisOS.Lib

variable {ρ : Type*}

/-- The next span carries the same label and starts where this one ends. -/
def Span.continues [DecidableEq ρ] (a b : Span ρ) : Bool := a.label = b.label && a.hi = b.lo

theorem Span.continues_iff [DecidableEq ρ] (a b : Span ρ) :
    a.continues b = true ↔ a.label = b.label ∧ a.hi = b.lo := by
  simp [Span.continues]

/-- The span from the start of a run to its end; an empty run has none. -/
def hull : List (Span ρ) → Option (Span ρ)
  | [] => none
  | s :: rest => some ⟨s.lo, ((s :: rest).getLast (List.cons_ne_nil s rest)).hi, s.label⟩

/-- Each maximal run of touching spans with one label, as a single span. -/
def runs [DecidableEq ρ] (l : List (Span ρ)) : List (Span ρ) :=
  (l.splitBy Span.continues).filterMap hull

/-- The last span of a run carries the label of the first, and ends no earlier. -/
theorem getLast_of_isChain [DecidableEq ρ] (s : Span ρ) (rest : List (Span ρ))
    (hne : ∀ t ∈ s :: rest, t.lo < t.hi)
    (hchain : (s :: rest).IsChain fun a b => a.continues b) :
    ((s :: rest).getLast (List.cons_ne_nil s rest)).label = s.label ∧
      s.hi ≤ ((s :: rest).getLast (List.cons_ne_nil s rest)).hi := by
  induction rest generalizing s with
  | nil => exact ⟨rfl, Nat.le_refl _⟩
  | cons t rest ih =>
    obtain ⟨hcont, hchain⟩ := List.isChain_cons_cons.mp hchain
    rw [Span.continues_iff] at hcont
    obtain ⟨hlabel, hhi⟩ := ih t (fun u hu => hne u (List.mem_cons_of_mem _ hu)) hchain
    have ht := hne t (by simp)
    rw [List.getLast_cons_cons]
    exact ⟨hlabel.trans hcont.1.symm, by omega⟩

/-- A run covers exactly the stretch of its hull, with its one label. -/
theorem coversWith_of_isChain [DecidableEq ρ] (s : Span ρ) (rest : List (Span ρ))
    (hne : ∀ t ∈ s :: rest, t.lo < t.hi)
    (hchain : (s :: rest).IsChain fun a b => a.continues b) (x : ℕ) (c : ρ) :
    CoversWith (s :: rest) x c ↔
      s.label = c ∧ s.lo ≤ x ∧ x < ((s :: rest).getLast (List.cons_ne_nil s rest)).hi := by
  induction rest generalizing s with
  | nil => simp [coversWith_cons, Span.Covers]
  | cons t rest ih =>
    have hlast := getLast_of_isChain s (t :: rest) hne hchain
    obtain ⟨hcont, hchain⟩ := List.isChain_cons_cons.mp hchain
    rw [Span.continues_iff] at hcont
    have hs := hne s (by simp)
    have htail := ih t (fun u hu => hne u (List.mem_cons_of_mem _ hu)) hchain
    rw [coversWith_cons, htail, List.getLast_cons_cons, hcont.1]
    rw [List.getLast_cons_cons] at hlast
    unfold Span.Covers
    grind

/-- After a run that the next run does not continue, no later span with the run's label starts
where the run ends: such a span could only be the first one of the next run. -/
theorem lt_of_breaks [DecidableEq ρ] {s : Span ρ} {rest : List (Span ρ)}
    {groups : List (List (Span ρ))} (hnil : [] ∉ (s :: rest) :: groups)
    (hbreaks : ((s :: rest) :: groups).IsChain
      fun a b => ∃ ha hb, (a.getLast ha).continues (b.head hb) = false)
    (hne : ∀ t ∈ groups.flatten, t.lo < t.hi)
    (hordered : (s :: rest ++ groups.flatten).Pairwise fun a b => a.hi ≤ b.lo)
    (hlabel : ((s :: rest).getLast (List.cons_ne_nil s rest)).label = s.label)
    {t : Span ρ} (ht : t ∈ groups.flatten) (hjoin : s.label = t.label) :
    ((s :: rest).getLast (List.cons_ne_nil s rest)).hi < t.lo := by
  obtain ⟨_, hrest, hcross⟩ := List.pairwise_append.mp hordered
  have hlastMem := List.getLast_mem (List.cons_ne_nil s rest)
  match groups with
  | [] => cases ht
  | [] :: _ => exact absurd (by simp) hnil
  | (u :: rest') :: more =>
    have hu := hcross _ hlastMem u (by simp)
    have hune := hne u (by simp)
    have hfirst : u = t ∨ u.hi ≤ t.lo := by
      rw [List.flatten_cons, List.cons_append] at ht hrest
      obtain rfl | ht := List.mem_cons.mp ht
      · exact Or.inl rfl
      · exact Or.inr ((List.pairwise_cons.mp hrest).1 t ht)
    obtain rfl | hlater := hfirst
    · obtain ⟨_, _, hstop⟩ := (List.isChain_cons_cons.mp hbreaks).1
      have htouch : ((s :: rest).getLast (List.cons_ne_nil s rest)).hi ≠ u.lo := fun heq =>
        absurd ((Span.continues_iff _ _).mpr ⟨hlabel.trans hjoin, heq⟩) (by simpa using hstop)
      omega
    · omega

/-- Joining runs that do not continue one another is canonical and keeps the coverage. -/
theorem filterMap_hull_canonical [DecidableEq ρ] (groups : List (List (Span ρ)))
    (hnil : [] ∉ groups) (hchains : ∀ g ∈ groups, g.IsChain fun a b => a.continues b)
    (hbreaks : groups.IsChain fun a b => ∃ ha hb, (a.getLast ha).continues (b.head hb) = false)
    (hne : ∀ t ∈ groups.flatten, t.lo < t.hi)
    (hordered : groups.flatten.Pairwise fun a b => a.hi ≤ b.lo) :
    Canonical (· = ·) (groups.filterMap hull) ∧
      ∀ x c, CoversWith (groups.filterMap hull) x c ↔ CoversWith groups.flatten x c := by
  induction groups with
  | nil => exact ⟨Canonical.nil, fun x c => Iff.rfl⟩
  | cons g groups ih =>
    cases g with
    | nil => exact absurd List.mem_cons_self hnil
    | cons s rest =>
      have hcons : ((s :: rest) :: groups).filterMap hull =
          ⟨s.lo, ((s :: rest).getLast (List.cons_ne_nil s rest)).hi, s.label⟩ ::
            groups.filterMap hull := rfl
      rw [List.flatten_cons] at hne hordered
      obtain ⟨_, hrest, hcross⟩ := List.pairwise_append.mp hordered
      have hneRun : ∀ t ∈ s :: rest, t.lo < t.hi := fun t ht => hne t (List.mem_append_left _ ht)
      have hneRest : ∀ t ∈ groups.flatten, t.lo < t.hi :=
        fun t ht => hne t (List.mem_append_right _ ht)
      have hchain := hchains (s :: rest) List.mem_cons_self
      obtain ⟨hcanon, hcover⟩ := ih (fun h => hnil (List.mem_cons_of_mem _ h))
        (fun g hg => hchains g (List.mem_cons_of_mem _ hg)) hbreaks.tail hneRest hrest
      obtain ⟨hlabel, hhi⟩ := getLast_of_isChain s rest hneRun hchain
      have hs := hneRun s List.mem_cons_self
      have hlastMem := List.getLast_mem (List.cons_ne_nil s rest)
      rw [hcons]
      refine ⟨hcanon.cons (Nat.lt_of_lt_of_le hs hhi) fun x c hx => ?_, fun x c => ?_⟩
      · rw [hcover] at hx
        obtain ⟨t, ht, rfl, hlo, _⟩ := hx
        have hle := hcross _ hlastMem t ht
        refine ⟨Nat.le_trans hle hlo, fun hjoin => Nat.lt_of_lt_of_le ?_ hlo⟩
        exact lt_of_breaks hnil hbreaks hneRest hordered hlabel ht hjoin
      · rw [coversWith_cons, hcover, List.flatten_cons, coversWith_append,
          coversWith_of_isChain s rest hneRun hchain]
        rfl

/-- The maximal runs of an increasing list are canonical and cover what the list covers. -/
theorem runs_canonical [DecidableEq ρ] (l : List (Span ρ)) (hne : ∀ t ∈ l, t.lo < t.hi)
    (hordered : l.Pairwise fun a b => a.hi ≤ b.lo) :
    Canonical (· = ·) (runs l) ∧ ∀ x c, CoversWith (runs l) x c ↔ CoversWith l x c := by
  have hflatten : (l.splitBy Span.continues).flatten = l := List.flatten_splitBy _ l
  have h := filterMap_hull_canonical (l.splitBy Span.continues) (List.nil_notMem_splitBy _ l)
    (fun g hg => List.isChain_of_mem_splitBy hg) (List.isChain_getLast_head_splitBy _ l)
    (hflatten.symm ▸ hne) (hflatten.symm ▸ hordered)
  rwa [hflatten] at h

end ChrisOS.Lib
