import Mathlib.Data.List.Pairwise

/-!
# Lists of labelled spans

A span is a half-open stretch of the natural numbers with a label. A list of spans is
canonical when its members are non-empty, stand in increasing order without overlap, and
two of them touch only if their labels may not be joined. `join` says which labels may be.

The labelled coverage of a canonical list determines it when joining is label equality,
which makes canonicity a normal form. Cutting a hole out of one member keeps canonicity.
-/

namespace ChrisOS.Lib

variable {ρ : Type*}

/-- Moving a block from one part to another keeps the whole. -/
theorem moved_iff {source target block : Prop} (h : block → source) :
    (source ∧ ¬ block) ∨ (block ∨ target) ↔ source ∨ target := by
  by_cases hblock : block
  · simp [hblock, h hblock]
  · simp [hblock]

/-- A labelled half-open interval of natural numbers. -/
@[ext] structure Span (ρ : Type*) where
  lo : ℕ
  hi : ℕ
  label : ρ

/-- The numbers of a span. -/
def Span.Covers (s : Span ρ) (x : ℕ) : Prop := s.lo ≤ x ∧ x < s.hi

/-- `x` lies in a member with label `c`. -/
def CoversWith (l : List (Span ρ)) (x : ℕ) (c : ρ) : Prop := ∃ s ∈ l, s.label = c ∧ s.Covers x

/-- `a` ends before `b` starts, with a gap between them if the labels may be joined. -/
def Span.Before (join : ρ → ρ → Prop) (a b : Span ρ) : Prop :=
  a.hi ≤ b.lo ∧ (join a.label b.label → a.hi < b.lo)

/-- Non-empty spans in increasing order, joined wherever the labels allow it. -/
structure Canonical (join : ρ → ρ → Prop) (l : List (Span ρ)) : Prop where
  nonempty : ∀ s ∈ l, s.lo < s.hi
  ordered : l.Pairwise (Span.Before join)

/-- The span from `a` to `b`, or nothing when it would be empty. -/
def piece (a b : ℕ) (c : ρ) : List (Span ρ) := if a < b then [⟨a, b, c⟩] else []

variable {a b : ℕ}

theorem piece_of_le (h : b ≤ a) (c : ρ) : piece a b c = [] := if_neg (by omega)

/-- Pieces are equal when their ends are, or when both are empty. -/
theorem piece_congr {a b a' b' : ℕ} (c : ρ) (h : (a = a' ∧ b = b') ∨ (b ≤ a ∧ b' ≤ a')) :
    piece a b c = piece a' b' c := by
  obtain ⟨rfl, rfl⟩ | ⟨h, h'⟩ := h
  · rfl
  · rw [piece_of_le h, piece_of_le h']

@[simp] theorem coversWith_nil (x : ℕ) (c : ρ) : ¬ CoversWith [] x c := by
  simp [CoversWith]

theorem coversWith_cons (s : Span ρ) (l : List (Span ρ)) (x : ℕ) (c : ρ) :
    CoversWith (s :: l) x c ↔ (s.label = c ∧ s.Covers x) ∨ CoversWith l x c := by
  simp [CoversWith]

theorem coversWith_append (l l' : List (Span ρ)) (x : ℕ) (c : ρ) :
    CoversWith (l ++ l') x c ↔ CoversWith l x c ∨ CoversWith l' x c := by
  simp [CoversWith, or_and_right, exists_or]

/-- A piece covers exactly its own stretch. -/
theorem coversWith_piece (a b x : ℕ) (c d : ρ) :
    CoversWith (piece a b c) x d ↔ c = d ∧ a ≤ x ∧ x < b := by
  unfold piece
  split
  · simp [CoversWith, Span.Covers]
  · simp only [coversWith_nil, false_iff]
    omega

variable {join : ρ → ρ → Prop}

/-- Canonicity of a list, read off its head and its tail. -/
theorem Canonical.cons_iff (s : Span ρ) (l : List (Span ρ)) :
    Canonical join (s :: l) ↔ s.lo < s.hi ∧ (∀ t ∈ l, s.Before join t) ∧ Canonical join l := by
  constructor
  · intro h
    exact ⟨h.nonempty s List.mem_cons_self, (List.pairwise_cons.mp h.ordered).1,
      fun t ht => h.nonempty t (List.mem_cons_of_mem _ ht), (List.pairwise_cons.mp h.ordered).2⟩
  · rintro ⟨hs, hbefore, h⟩
    refine ⟨fun t ht => ?_, List.pairwise_cons.mpr ⟨hbefore, h.ordered⟩⟩
    rcases List.mem_cons.mp ht with rfl | ht
    · exact hs
    · exact h.nonempty t ht

/-- The empty list is canonical. -/
theorem Canonical.nil : Canonical join ([] : List (Span ρ)) :=
  ⟨by simp, List.Pairwise.nil⟩

variable {l : List (Span ρ)} {s t : Span ρ}

/-- A member's first number is covered with the member's label. -/
theorem Canonical.coversWith_lo (h : Canonical join l) (hs : s ∈ l) : CoversWith l s.lo s.label :=
  ⟨s, hs, rfl, Nat.le_refl _, h.nonempty s hs⟩

/-- Everything covered by the tail lies at or after the end of the head. -/
theorem Canonical.le_of_coversWith_tail (h : Canonical join (s :: l)) {x : ℕ} {c : ρ}
    (hx : CoversWith l x c) : s.hi ≤ x := by
  obtain ⟨t, ht, _, hlo, _⟩ := hx
  exact Nat.le_trans (((Canonical.cons_iff s l).mp h).2.1 t ht).1 hlo

/-- What the tail covers with a label the head may join lies strictly past the head. -/
theorem Canonical.lt_of_coversWith_tail (h : Canonical join (s :: l)) {x : ℕ} {c : ρ}
    (hx : CoversWith l x c)
    (hj : join s.label c) : s.hi < x := by
  obtain ⟨t, ht, rfl, hlo, _⟩ := hx
  exact Nat.lt_of_lt_of_le ((((Canonical.cons_iff s l).mp h).2.1 t ht).2 hj) hlo

/-- A span in front of a canonical list, judged by what the list covers. -/
theorem Canonical.cons (h : Canonical join l) (hs : s.lo < s.hi)
    (hafter : ∀ x c, CoversWith l x c → s.hi ≤ x ∧ (join s.label c → s.hi < x)) :
    Canonical join (s :: l) :=
  (Canonical.cons_iff s l).mpr ⟨hs, fun t ht => hafter t.lo t.label (h.coversWith_lo ht), h⟩

/-- The tail of a canonical list is canonical. -/
theorem Canonical.tail (h : Canonical join (s :: l)) : Canonical join l :=
  ((Canonical.cons_iff s l).mp h).2.2

/-- The tail covers what the whole list covers past the end of the head. -/
theorem Canonical.coversWith_tail_iff (h : Canonical join (s :: l)) (x : ℕ) (c : ρ) :
    CoversWith l x c ↔ CoversWith (s :: l) x c ∧ s.hi ≤ x := by
  rw [coversWith_cons]
  constructor
  · intro hx
    exact ⟨Or.inr hx, h.le_of_coversWith_tail hx⟩
  · rintro ⟨⟨_, _, hlt⟩ | hx, hle⟩
    · omega
    · exact hx

/-- Of two members one is before the other. -/
theorem Canonical.before_or_after (h : Canonical join l) (hs : s ∈ l) (ht : t ∈ l) :
    t = s ∨ t.Before join s ∨ s.Before join t := by
  by_cases heq : t = s
  · exact Or.inl heq
  · have hsymm : Std.Symm fun a b : Span ρ => a.Before join b ∨ b.Before join a :=
      ⟨fun _ _ hab => hab.symm⟩
    have hpairs : l.Pairwise fun a b => a.Before join b ∨ b.Before join a :=
      h.ordered.imp fun hab => Or.inl hab
    exact Or.inr (hpairs.forall ht hs heq)

/-- When equal labels are joined, what is covered with the label of a member, in it or next to it, is in
the member. -/
theorem Canonical.mem_of_coversWith (h : Canonical (· = ·) l) (hs : s ∈ l) {x : ℕ}
    (hcovered : CoversWith l x s.label) (hlo : s.lo ≤ x + 1) (hhi : x ≤ s.hi) :
    s.lo ≤ x ∧ x < s.hi := by
  obtain ⟨t, ht, hlabel, htlo, hthi⟩ := hcovered
  obtain rfl | hbefore | hafter := h.before_or_after hs ht
  · exact ⟨htlo, hthi⟩
  · have := hbefore.2 hlabel
    omega
  · have := hafter.2 hlabel.symm
    omega

/-- The end of a member is not covered with the member's label. -/
theorem Canonical.not_coversWith_hi (h : Canonical (· = ·) l) (hs : s ∈ l) :
    ¬ CoversWith l s.hi s.label := by
  intro hcovered
  have hne := h.nonempty s hs
  have hmem := h.mem_of_coversWith hs hcovered (by omega) (Nat.le_refl _)
  omega

/-- The number before a member is not covered with the member's label either. -/
theorem Canonical.not_coversWith_pred_lo (h : Canonical (· = ·) l) (hs : s ∈ l) (hpos : 0 < s.lo) :
    ¬ CoversWith l (s.lo - 1) s.label := by
  intro hcovered
  have hne := h.nonempty s hs
  have hmem := h.mem_of_coversWith hs hcovered (by omega) (by omega)
  omega

/-- A stretch covered throughout with one label lies in a single member. -/
theorem Canonical.exists_of_coversWith (h : Canonical (· = ·) l) {c : ρ} (hab : a < b)
    (hcovers : ∀ x, a ≤ x → x < b → CoversWith l x c) :
    ∃ s ∈ l, s.label = c ∧ s.lo ≤ a ∧ b ≤ s.hi := by
  obtain ⟨s, hs, hlabel, hlo, hhi⟩ := hcovers a (Nat.le_refl a) hab
  refine ⟨s, hs, hlabel, hlo, Nat.le_of_not_lt fun hlt => ?_⟩
  apply h.not_coversWith_hi hs
  rw [hlabel]
  exact hcovers s.hi (Nat.le_of_lt hhi) hlt

/-- Two canonical lists with one labelled coverage start with the same span. -/
theorem Canonical.head_eq {l m : List (Span ρ)} (hl : Canonical (· = ·) (s :: l))
    (hm : Canonical (· = ·) (t :: m))
    (hcover : ∀ x c, CoversWith (s :: l) x c ↔ CoversWith (t :: m) x c) : s = t := by
  have first_le {a b : Span ρ} {k k' : List (Span ρ)} (ha : Canonical (· = ·) (a :: k))
      (hb : Canonical (· = ·) (b :: k'))
      (h : ∀ x c, CoversWith (a :: k) x c → CoversWith (b :: k') x c) : b.lo ≤ a.lo := by
    have hb' := (Canonical.cons_iff b k').mp hb
    rcases (coversWith_cons b k' _ _).mp (h _ _ (ha.coversWith_lo List.mem_cons_self)) with hx | hx
    · exact hx.2.1
    · exact Nat.le_trans (Nat.le_of_lt hb'.1) (hb.le_of_coversWith_tail hx)
  have hlo : s.lo = t.lo := Nat.le_antisymm (first_le hm hl fun x c => (hcover x c).mpr)
    (first_le hl hm fun x c => (hcover x c).mp)
  have hs := ((Canonical.cons_iff s l).mp hl).1
  have ht := ((Canonical.cons_iff t m).mp hm).1
  have hlabel : t.label = s.label := by
    have hx := (hcover _ _).mp (hl.coversWith_lo List.mem_cons_self)
    rcases (coversWith_cons t m _ _).mp hx with hx | hx
    · exact hx.1
    · have := hm.le_of_coversWith_tail hx
      omega
  have hhi : s.hi = t.hi := by
    rcases Nat.lt_trichotomy s.hi t.hi with hlt | heq | hlt
    · refine absurd ((hcover _ _).mpr ?_) (hl.not_coversWith_hi List.mem_cons_self)
      exact ⟨t, List.mem_cons_self, hlabel, by omega, hlt⟩
    · exact heq
    · refine absurd ((hcover _ _).mp ?_) (hm.not_coversWith_hi List.mem_cons_self)
      exact ⟨s, List.mem_cons_self, hlabel.symm, by omega, hlt⟩
  exact Span.ext hlo hhi hlabel.symm

/-- Labelled coverage determines a canonical list. -/
theorem Canonical.eq_of_coversWith {l m : List (Span ρ)} (hl : Canonical (· = ·) l)
    (hm : Canonical (· = ·) m) (hcover : ∀ x c, CoversWith l x c ↔ CoversWith m x c) : l = m := by
  induction l generalizing m with
  | nil =>
    cases m with
    | nil => rfl
    | cons t m =>
      have := (hcover _ _).mpr (hm.coversWith_lo List.mem_cons_self)
      exact absurd this (coversWith_nil _ _)
  | cons s l ih =>
    cases m with
    | nil =>
      have := (hcover _ _).mp (hl.coversWith_lo List.mem_cons_self)
      exact absurd this (coversWith_nil _ _)
    | cons t m =>
      have hst := hl.head_eq hm hcover
      subst hst
      rw [ih ((Canonical.cons_iff s l).mp hl).2.2 ((Canonical.cons_iff s m).mp hm).2.2]
      intro x c
      rw [hl.coversWith_tail_iff, hm.coversWith_tail_iff, hcover]

/-- Standing before a span carries over to a later-starting span with the same label. -/
theorem Span.Before.mono {s t u : Span ρ} (h : s.Before join t) (hlabel : u.label = t.label)
    (hlo : t.lo ≤ u.lo) : s.Before join u :=
  ⟨Nat.le_trans h.1 hlo, fun hj => Nat.lt_of_lt_of_le (h.2 (hlabel ▸ hj)) hlo⟩

/-- A piece in front of spans that follow it stays canonical. -/
theorem Canonical.piece_append (h : Canonical join l) (a b : ℕ) (c : ρ)
    (hbefore : ∀ t ∈ l, (⟨a, b, c⟩ : Span ρ).Before join t) :
    Canonical join (piece a b c ++ l) := by
  unfold piece
  split
  · next hab => exact (Canonical.cons_iff _ _).mpr ⟨hab, hbefore, h⟩
  · exact h

/-- The members of a piece, if any, run from its start to its end. -/
theorem mem_piece {c : ρ} (h : s ∈ piece a b c) : s = ⟨a, b, c⟩ := by
  unfold piece at h
  split at h
  · exact List.mem_singleton.mp h
  · cases h

variable {l₁ l₂ : List (Span ρ)}

/-- Cutting a non-empty hole out of one member keeps the list canonical. -/
theorem Canonical.carve (h : Canonical join (l₁ ++ s :: l₂)) (a b : ℕ) (hab : a < b) (hlo : s.lo ≤ a)
    (hhi : b ≤ s.hi) :
    Canonical join (l₁ ++ (piece s.lo a s.label ++ (piece b s.hi s.label ++ l₂))) := by
  induction l₁ with
  | nil =>
    obtain ⟨_, hbefore, hrest⟩ := (Canonical.cons_iff s l₂).mp h
    have hright : Canonical join (piece b s.hi s.label ++ l₂) :=
      hrest.piece_append b s.hi s.label fun t ht => hbefore t ht
    refine hright.piece_append s.lo a s.label fun t ht => ?_
    rcases List.mem_append.mp ht with ht | ht
    · rw [mem_piece ht]
      exact ⟨Nat.le_of_lt hab, fun _ => hab⟩
    · have hend : a ≤ s.hi := by omega
      exact ⟨Nat.le_trans hend (hbefore t ht).1,
        fun hj => Nat.lt_of_le_of_lt hend ((hbefore t ht).2 hj)⟩
  | cons u l₁ ih =>
    obtain ⟨hu, hbefore, hrest⟩ := (Canonical.cons_iff u (l₁ ++ s :: l₂)).mp h
    refine (Canonical.cons_iff _ _).mpr ⟨hu, fun t ht => ?_, ih hrest⟩
    have hs : u.Before join s := hbefore s (by simp)
    rcases List.mem_append.mp ht with ht | ht
    · exact hbefore t (by simp [ht])
    rcases List.mem_append.mp ht with ht | ht
    · rw [mem_piece ht]
      exact hs.mono rfl (Nat.le_refl _)
    rcases List.mem_append.mp ht with ht | ht
    · rw [mem_piece ht]
      exact hs.mono rfl (by change s.lo ≤ b; omega)
    · exact hbefore t (by simp [ht])

/-- Distinct positions of a canonical list cover disjoint numbers. -/
theorem Canonical.disjoint_middle (h : Canonical join (l₁ ++ s :: l₂)) {x : ℕ} (hx : s.Covers x)
    {t : Span ρ}
    (ht : t ∈ l₁ ++ l₂) : ¬ t.Covers x := by
  obtain ⟨_, htail, hcross⟩ := List.pairwise_append.mp h.ordered
  rintro ⟨hlo, hlt⟩
  rcases List.mem_append.mp ht with ht | ht
  · have := (hcross t ht s List.mem_cons_self).1
    exact absurd hx.1 (by omega)
  · have := ((List.pairwise_cons.mp htail).1 t ht).1
    exact absurd hx.2 (by omega)

/-- Cutting a hole removes exactly the hole from the coverage. -/
theorem coversWith_carve (h : Canonical join (l₁ ++ s :: l₂)) (a b : ℕ) (hab : a < b) (hlo : s.lo ≤ a)
    (hhi : b ≤ s.hi)
    (x : ℕ) (c : ρ) :
    CoversWith (l₁ ++ (piece s.lo a s.label ++ (piece b s.hi s.label ++ l₂))) x c ↔
      CoversWith (l₁ ++ s :: l₂) x c ∧ ¬ (a ≤ x ∧ x < b) := by
  have hother : (CoversWith l₁ x c ∨ CoversWith l₂ x c) → ¬ (a ≤ x ∧ x < b) := by
    rintro hx hhole
    have hs : s.Covers x := ⟨by omega, by omega⟩
    rcases hx with ⟨t, ht, _, hcov⟩ | ⟨t, ht, _, hcov⟩
    · exact h.disjoint_middle hs (List.mem_append_left _ ht) hcov
    · exact h.disjoint_middle hs (List.mem_append_right _ ht) hcov
  simp only [coversWith_append, coversWith_cons, coversWith_piece, Span.Covers]
  constructor
  · rintro (hx | ⟨hc, hx⟩ | ⟨hc, hx⟩ | hx)
    · exact ⟨Or.inl hx, hother (Or.inl hx)⟩
    · exact ⟨Or.inr (Or.inl ⟨hc, by omega⟩), by omega⟩
    · exact ⟨Or.inr (Or.inl ⟨hc, by omega⟩), by omega⟩
    · exact ⟨Or.inr (Or.inr hx), hother (Or.inr hx)⟩
  · rintro ⟨hx | ⟨hc, hx⟩ | hx, hhole⟩
    · exact Or.inl hx
    · by_cases hxa : x < a
      · exact Or.inr (Or.inl ⟨hc, by omega⟩)
      · exact Or.inr (Or.inr (Or.inl ⟨hc, by omega⟩))
    · exact Or.inr (Or.inr (Or.inr hx))

/-- What is left of a span without the numbers from `a` to `b`. -/
def Span.without (a b : ℕ) (s : Span ρ) : List (Span ρ) :=
  piece s.lo (min s.hi a) s.label ++ piece (max s.lo b) s.hi s.label

/-- The rest of a span covers what the span covers outside the hole. -/
theorem coversWith_without (a b : ℕ) (s : Span ρ) (x : ℕ) (c : ρ) :
    CoversWith (s.without a b) x c ↔ (s.label = c ∧ s.Covers x) ∧ ¬ (a ≤ x ∧ x < b) := by
  rw [Span.without, coversWith_append, coversWith_piece, coversWith_piece, ← and_or_left, and_assoc]
  refine and_congr_right fun _ => ?_
  unfold Span.Covers
  omega

/-- A hole beside a span takes nothing from it. -/
theorem Span.without_of_disjoint (hab : a ≤ b) (hs : s.lo < s.hi) (h : s.hi ≤ a ∨ b ≤ s.lo) :
    s.without a b = [s] := by
  have hself : piece s.lo s.hi s.label = [s] := if_pos hs
  rw [Span.without, ← hself]
  obtain h | h := h
  · rw [Nat.min_eq_left h, piece_of_le (show s.hi ≤ max s.lo b by omega), List.append_nil]
  · rw [Nat.max_eq_left h, piece_of_le (show min s.hi a ≤ s.lo by omega), List.nil_append]

/-- A hole taken out of every member is taken out of the coverage. -/
theorem coversWith_flatMap_without (a b : ℕ) (l : List (Span ρ)) (x : ℕ) (c : ρ) :
    CoversWith (l.flatMap (Span.without a b)) x c ↔ CoversWith l x c ∧ ¬ (a ≤ x ∧ x < b) := by
  induction l with
  | nil => simp
  | cons s l ih =>
    rw [List.flatMap_cons, coversWith_append, coversWith_without, ih, coversWith_cons, or_and_right]

/-- What is left of a span is inside it and has its label. -/
theorem mem_without (h : t ∈ s.without a b) : s.lo ≤ t.lo ∧ t.hi ≤ s.hi ∧ t.label = s.label := by
  rcases List.mem_append.mp h with h | h
  · rw [mem_piece h]
    exact ⟨Nat.le_refl _, Nat.min_le_left _ _, rfl⟩
  · rw [mem_piece h]
    exact ⟨Nat.le_max_left _ _, Nat.le_refl _, rfl⟩

/-- Taking a hole out of every member keeps the list canonical; an empty hole can make two members
of one, which must not be joined then. -/
theorem Canonical.flatMap_without (hab : a ≤ b) (hgap : ∀ c, join c c → a < b) (h : Canonical join l) :
    Canonical join (l.flatMap (Span.without a b)) := by
  induction l with
  | nil => exact h
  | cons s l ih =>
    obtain ⟨_, hbefore, hrest⟩ := (Canonical.cons_iff s l).mp h
    have hpast : ∀ t ∈ l.flatMap (Span.without a b), s.Before join t := by
      intro t ht
      obtain ⟨u, hu, ht⟩ := List.mem_flatMap.mp ht
      obtain ⟨hlo, _, hlabel⟩ := mem_without ht
      exact (hbefore u hu).mono hlabel hlo
    rw [List.flatMap_cons, Span.without, List.append_assoc]
    have hright := (ih hrest).piece_append (max s.lo b) s.hi s.label fun t ht => hpast t ht
    refine hright.piece_append s.lo (min s.hi a) s.label fun t ht => ?_
    rcases List.mem_append.mp ht with ht | ht
    · rw [mem_piece ht]
      refine ⟨by change min s.hi a ≤ max s.lo b; omega, fun hj => ?_⟩
      have := hgap _ hj
      change min s.hi a < max s.lo b
      omega
    · obtain ⟨hle, hlt⟩ := hpast t ht
      exact ⟨Nat.le_trans (Nat.min_le_left _ _) hle,
        fun hj => Nat.lt_of_le_of_lt (Nat.min_le_left _ _) (hlt hj)⟩

end ChrisOS.Lib
