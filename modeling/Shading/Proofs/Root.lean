import Shading.Statement.SplitTree

/-!
# Which cut becomes the root

`Cut.cuts` lists every place at which a flat statement could be cut, in reading order.
`find?_spec` says which of them is chosen, and splits the list there: the root has the
highest rank of all, no cut of a later fragment reaches its rank, and within its own
fragment no cut before it reaches its weight.

The comparison runs twice in the definition, within a fragment by weight and between
fragments by rank, and the two agree because weight refines rank
(`level_le_of_weight_le`).
-/

namespace Shading

/-! ## Within a fragment -/

namespace Occurrence

theorem level_le_of_weight_le {o p : Occurrence} (h : o.weight ≤ p.weight) :
    o.symbol.rank.level ≤ p.symbol.rank.level := by
  unfold weight at h
  split at h <;> split at h <;> omega

theorem heaviest?_eq_none {occurrences : List Occurrence} :
    heaviest? occurrences = none ↔ occurrences = [] := by
  cases occurrences with
  | nil => simp [heaviest?]
  | cons o rest =>
      simp only [heaviest?, reduceCtorEq, iff_false]
      split
      · simp
      · split <;> simp

/-- The chosen occurrence is heavier than all before it, and no lighter than those after it. -/
theorem heaviest?_spec {occurrences : List Occurrence} {o : Occurrence}
    (h : heaviest? occurrences = some o) :
    ∃ earlier later, occurrences = earlier ++ o :: later ∧
      (∀ p ∈ earlier, p.weight < o.weight) ∧ ∀ p ∈ later, p.weight ≤ o.weight := by
  induction occurrences generalizing o with
  | nil => simp [heaviest?] at h
  | cons first rest ih =>
      simp only [heaviest?] at h
      split at h
      next hnone =>
        obtain rfl : first = o := by simpa using h
        rw [heaviest?_eq_none.mp hnone]
        exact ⟨[], [], rfl, by simp, by simp⟩
      next best hbest =>
        obtain ⟨earlier, later, hrest, hearlier, hlater⟩ := ih hbest
        split at h
        next hlt =>
          obtain rfl : best = o := by simpa using h
          refine ⟨first :: earlier, later, by rw [hrest]; rfl, ?_, hlater⟩
          intro p hp
          rcases List.mem_cons.mp hp with rfl | hp
          · exact hlt
          · exact hearlier p hp
        next hge =>
          obtain rfl : first = o := by simpa using h
          refine ⟨[], rest, rfl, by simp, ?_⟩
          intro p hp
          rw [hrest] at hp
          have hbestLe : best.weight ≤ first.weight := Nat.le_of_not_lt hge
          rcases List.mem_append.mp hp with hp | hp
          · exact Nat.le_trans (Nat.le_of_lt (hearlier p hp)) hbestLe
          rcases List.mem_cons.mp hp with rfl | hp
          · exact hbestLe
          · exact Nat.le_trans (hlater p hp) hbestLe

theorem weight_lt_of_level_lt {o p : Occurrence}
    (h : o.symbol.rank.level < p.symbol.rank.level) : o.weight < p.weight := by
  rcases Nat.lt_or_ge o.weight p.weight with hlt | hge
  · exact hlt
  · exact absurd (level_le_of_weight_le hge) (Nat.not_le.mpr h)

/-- The first occurrence is chosen if no other is heavier. -/
theorem heaviest?_cons {o : Occurrence} {rest : List Occurrence}
    (h : ∀ p ∈ rest, p.weight ≤ o.weight) : heaviest? (o :: rest) = some o := by
  rw [heaviest?]
  split
  next => rfl
  next p hp =>
    obtain ⟨earlier, later, hrest, -, -⟩ := heaviest?_spec hp
    have hle := h p (by rw [hrest]; simp)
    rw [if_neg (Nat.not_lt.mpr hle)]

/-- A lighter occurrence in front is passed over. -/
theorem heaviest?_cons_of_lt {o p : Occurrence} {rest : List Occurrence}
    (h : heaviest? rest = some p) (hlt : o.weight < p.weight) :
    heaviest? (o :: rest) = some p := by
  rw [heaviest?, h]
  exact if_pos hlt

end Occurrence

/-! ## Across fragments -/

namespace Cut

variable {α : Type}

/-- Every cut of a flat statement, in reading order. -/
def cuts : List (Item α) → List (Cut α)
  | [] => []
  | .text fragment :: rest =>
      (Occurrence.splitPoints fragment).map (fun point => ⟨[], point, rest⟩) ++
        (cuts rest).map (cons (.text fragment))
  | .value a :: rest => (cuts rest).map (cons (.value a))

/-- A cut among all cuts of a flat statement: those before it and those after it yield. -/
structure IsRoot (earlier : List (Cut α)) (cut : Cut α) (later : List (Cut α)) : Prop where
  earlier_le : ∀ c ∈ earlier, c.level ≤ cut.level
  earlier_lt : ∀ c ∈ earlier, c.left = cut.left → c.point.weight < cut.point.weight
  later_le : ∀ c ∈ later, c.level ≤ cut.level
  later_lt : ∀ c ∈ later, c.left ≠ cut.left → c.level < cut.level

@[simp] theorem left_cons (item : Item α) (cut : Cut α) :
    (cut.cons item).left = item :: cut.left := rfl

/-- One more item in front changes nothing between the cuts behind it. -/
theorem IsRoot.cons {earlier later : List (Cut α)} {cut : Cut α} (h : IsRoot earlier cut later)
    (item : Item α) :
    IsRoot (earlier.map (Cut.cons item)) (cut.cons item) (later.map (Cut.cons item)) := by
  constructor
  · intro c hc
    obtain ⟨d, hd, rfl⟩ := List.mem_map.mp hc
    exact h.earlier_le d hd
  · intro c hc hsame
    obtain ⟨d, hd, rfl⟩ := List.mem_map.mp hc
    exact h.earlier_lt d hd (by simpa using hsame)
  · intro c hc
    obtain ⟨d, hd, rfl⟩ := List.mem_map.mp hc
    exact h.later_le d hd
  · intro c hc hother
    obtain ⟨d, hd, rfl⟩ := List.mem_map.mp hc
    exact h.later_lt d hd (by simpa using hother)

theorem IsRoot.level_le {earlier later : List (Cut α)} {cut c : Cut α}
    (h : IsRoot earlier cut later) (hc : c ∈ earlier ++ cut :: later) : c.level ≤ cut.level := by
  rcases List.mem_append.mp hc with hc | hc
  · exact h.earlier_le c hc
  rcases List.mem_cons.mp hc with rfl | hc
  · exact Nat.le_refl _
  · exact h.later_le c hc

theorem find?_eq_none {items : List (Item α)} : find? items = none ↔ cuts items = [] := by
  induction items with
  | nil => simp [find?, cuts]
  | cons item rest ih =>
      cases item with
      | value a => simp [find?, inFirst?, cuts, ih]
      | text fragment =>
          cases hroot : Occurrence.root? fragment with
          | none =>
              have hpoints : Occurrence.splitPoints fragment = [] :=
                Occurrence.heaviest?_eq_none.mp hroot
              simp [find?, inFirst?, hroot, cuts, hpoints, ih]
          | some point =>
              have hpoints : Occurrence.splitPoints fragment ≠ [] := by
                intro hnil
                rw [Occurrence.root?, hnil] at hroot
                simp [Occurrence.heaviest?] at hroot
              simp only [find?, inFirst?, hroot, Option.map_some, cuts]
              split
              · simp_all
              · simp_all
              · split <;> simp [hpoints]

/-- Every split point of every fragment is a cut. -/
theorem mem_cuts {fragment : Text} {point : Occurrence}
    (h : point ∈ Occurrence.splitPoints fragment) (left right : List (Item α)) :
    ⟨left, point, right⟩ ∈ cuts (left ++ .text fragment :: right) := by
  induction left with
  | nil => exact List.mem_append_left _ (List.mem_map_of_mem h)
  | cons item rest ih =>
      have hmem := List.mem_map_of_mem (f := cons item) ih
      cases item with
      | value a => exact hmem
      | text other => exact List.mem_append_right _ hmem

/-- A flat statement without a cut has no split point in any of its fragments. -/
theorem splitPoints_of_find?_eq_none {items : List (Item α)} (h : find? items = none)
    {fragment : Text} (hmem : .text fragment ∈ items) : Occurrence.splitPoints fragment = [] := by
  obtain ⟨left, right, rfl⟩ := List.append_of_mem hmem
  apply List.eq_nil_iff_forall_not_mem.mpr
  intro point hpoint
  have hcut := mem_cuts hpoint left right
  rw [find?_eq_none.mp h] at hcut
  cases hcut

/-- Without a cut in its first item, a flat statement has the cuts behind it. -/
theorem cuts_cons {item : Item α} {rest : List (Item α)} (h : inFirst? item rest = none) :
    cuts (item :: rest) = (cuts rest).map (cons item) := by
  cases item with
  | value a => rfl
  | text fragment =>
      have hpoints : Occurrence.splitPoints fragment = [] := by
        simpa [inFirst?, Occurrence.root?, Occurrence.heaviest?_eq_none] using h
      simp [cuts, hpoints]

/-- A cut among the cuts of the first item. -/
structure IsFirst (earlier : List (Cut α)) (cut : Cut α) (later : List (Cut α)) : Prop where
  earlier : ∀ c ∈ earlier, c.left = [] ∧ c.point.weight < cut.point.weight
  later : ∀ c ∈ later, c.left = [] ∧ c.point.weight ≤ cut.point.weight
  left : cut.left = []

/-- The root found in the first item, among all cuts. -/
theorem cuts_cons_of_inFirst? {item : Item α} {rest : List (Item α)} {first : Cut α}
    (h : inFirst? item rest = some first) :
    ∃ earlier later,
      cuts (item :: rest) = earlier ++ first :: (later ++ (cuts rest).map (cons item)) ∧
      IsFirst earlier first later := by
  cases item with
  | value a => simp [inFirst?] at h
  | text fragment =>
      simp only [inFirst?, Option.map_eq_some_iff] at h
      obtain ⟨point, hroot, rfl⟩ := h
      obtain ⟨earlier, later, hpoints, hearlier, hlater⟩ := Occurrence.heaviest?_spec hroot
      refine ⟨earlier.map fun p => ⟨[], p, rest⟩, later.map fun p => ⟨[], p, rest⟩, ?_, ?_, ?_, rfl⟩
      · simp [cuts, hpoints]
      · intro c hc
        obtain ⟨p, hp, rfl⟩ := List.mem_map.mp hc
        exact ⟨rfl, hearlier p hp⟩
      · intro c hc
        obtain ⟨p, hp, rfl⟩ := List.mem_map.mp hc
        exact ⟨rfl, hlater p hp⟩

theorem level_le_of_weight_le {c d : Cut α} (h : c.point.weight ≤ d.point.weight) :
    c.level ≤ d.level :=
  Occurrence.level_le_of_weight_le h

/-- The first item wins, if everything behind it ranks lower. -/
theorem IsFirst.isRoot {earlier later behind : List (Cut α)} {first : Cut α}
    (h : IsFirst earlier first later) (hbehind : ∀ c ∈ behind, c.level < first.level) :
    IsRoot earlier first (later ++ behind) := by
  constructor
  · exact fun c hc => level_le_of_weight_le (Nat.le_of_lt (h.earlier c hc).2)
  · exact fun c hc _ => (h.earlier c hc).2
  · intro c hc
    rcases List.mem_append.mp hc with hc | hc
    · exact level_le_of_weight_le (h.later c hc).2
    · exact Nat.le_of_lt (hbehind c hc)
  · intro c hc hother
    rcases List.mem_append.mp hc with hc | hc
    · exact absurd ((h.later c hc).1.trans h.left.symm) hother
    · exact hbehind c hc

/-- A later fragment wins, also against an equal rank in the first item. -/
theorem IsRoot.of_behind {earlier later before after : List (Cut α)} {first best : Cut α}
    (hroot : IsRoot before best after) (h : IsFirst earlier first later)
    (hle : first.level ≤ best.level) (item : Item α) :
    IsRoot (earlier ++ first :: (later ++ before.map (Cut.cons item))) (best.cons item)
      (after.map (Cut.cons item)) := by
  have hcons := hroot.cons item
  refine ⟨?_, ?_, hcons.later_le, hcons.later_lt⟩
  · intro c hc
    simp only [List.mem_append, List.mem_cons] at hc
    rcases hc with hc | rfl | hc | hc
    · exact Nat.le_trans (level_le_of_weight_le (Nat.le_of_lt (h.earlier c hc).2)) hle
    · exact hle
    · exact Nat.le_trans (level_le_of_weight_le (h.later c hc).2) hle
    · exact hcons.earlier_le c hc
  · -- The cuts of the first item have nothing on their left, and this one has that item.
    intro c hc hsame
    simp only [List.mem_append, List.mem_cons] at hc
    rcases hc with hc | rfl | hc | hc
    · rw [(h.earlier c hc).1] at hsame
      cases hsame
    · rw [h.left] at hsame
      cases hsame
    · rw [(h.later c hc).1] at hsame
      cases hsame
    · exact hcons.earlier_lt c hc hsame

/-- Where a flat statement splits. -/
theorem find?_spec {items : List (Item α)} {cut : Cut α} (h : find? items = some cut) :
    ∃ earlier later, cuts items = earlier ++ cut :: later ∧ IsRoot earlier cut later := by
  induction items generalizing cut with
  | nil => simp [find?] at h
  | cons item rest ih =>
      simp only [find?] at h
      split at h
      next hfirst =>
        obtain ⟨best, hbest, rfl⟩ := Option.map_eq_some_iff.mp h
        obtain ⟨before, after, hcuts, hroot⟩ := ih hbest
        refine ⟨before.map (cons item), after.map (cons item), ?_, hroot.cons item⟩
        rw [cuts_cons hfirst, hcuts, List.map_append, List.map_cons]
      next first hfirst hrest =>
        obtain rfl : first = cut := by simpa using h
        obtain ⟨earlier, later, hcuts, hisFirst⟩ := cuts_cons_of_inFirst? hfirst
        rw [find?_eq_none.mp hrest, List.map_nil] at hcuts
        exact ⟨earlier, later ++ [], hcuts, hisFirst.isRoot (by simp)⟩
      next first best hfirst hbest =>
        obtain ⟨earlier, later, hcuts, hisFirst⟩ := cuts_cons_of_inFirst? hfirst
        obtain ⟨before, after, hrest, hroot⟩ := ih hbest
        split at h
        next hlt =>
          -- The cut in the first item leads, and wins over the best of the others and so over all.
          obtain rfl : first = cut := by simpa using h
          have hbehind : ∀ c ∈ (cuts rest).map (cons item), c.level < first.level := by
            intro c hc
            obtain ⟨d, hd, rfl⟩ := List.mem_map.mp hc
            rw [hrest] at hd
            have hle : d.level ≤ best.level := hroot.level_le hd
            exact Nat.lt_of_le_of_lt hle hlt
          exact ⟨earlier, later ++ (cuts rest).map (cons item), hcuts, hisFirst.isRoot hbehind⟩
        next hge =>
          obtain rfl : best.cons item = cut := by simpa using h
          have hle : first.level ≤ best.level := Nat.le_of_not_lt hge
          refine ⟨_, _, ?_, hroot.of_behind hisFirst hle item⟩
          rw [hcuts, hrest]
          simp

theorem find?_of_cuts_eq_singleton {items : List (Item α)} {cut : Cut α} (h : cuts items = [cut]) :
    find? items = some cut := by
  cases hfind : find? items with
  | none =>
      rw [find?_eq_none.mp hfind] at h
      cases h
  | some best =>
      obtain ⟨earlier, later, hcuts, -⟩ := find?_spec hfind
      have hmem : best ∈ [cut] := by
        rw [← h, hcuts]
        simp
      rw [List.mem_singleton.mp hmem]

end Cut

end Shading
