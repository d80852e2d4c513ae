import Shading.Proofs.Text

/-!
# Replacing in a text

Replacing works from left to right and looks at the text only as far as what it looks for
is long.  So it can be done line by line as long as a line break is not looked for, and
taking something out leaves a text alone exactly if it does not occur there.

* `replaceAll_append_cons`, `splitOn_replaceAll`: replacing in parts of a text.
* `replaceAll_nil_eq_self_iff`: when taking something out changes nothing.
-/

namespace Shading.Text

variable {find value : Text} {c d : Char}

/-! ## One step -/

theorem replaceFrom_of_found {rest : Text} (h : find <+: c :: rest) (value : Text) :
    replaceFrom find value 0 (c :: rest) =
      value ++ replaceFrom find value (find.length - 1) rest := by
  rw [replaceFrom, if_pos (List.isPrefixOf_iff_prefix.mpr h)]

theorem replaceFrom_of_not_found {rest : Text} (h : ¬ find <+: c :: rest) (value : Text) :
    replaceFrom find value 0 (c :: rest) = c :: replaceFrom find value 0 rest := by
  rw [replaceFrom, if_neg (by rwa [List.isPrefixOf_iff_prefix])]

/-- What does not occur is not replaced. -/
theorem replaceAll_of_not_infix {text : Text} (h : ¬ find <:+: text) (value : Text) :
    replaceAll find value text = text := by
  unfold replaceAll
  induction text with
  | nil => rfl
  | cons c rest ih =>
      rw [List.infix_cons_iff, not_or] at h
      rw [replaceFrom_of_not_found h.1, ih h.2]

theorem mem_of_mem_replaceFrom {text : Text} {skip : Nat}
    (h : c ∈ replaceFrom find value skip text) : c ∈ text ∨ c ∈ value := by
  fun_induction replaceFrom find value skip text with
  | case1 => simp at h
  | case2 skip first rest ih =>
      rcases ih h with hrest | hvalue
      · exact Or.inl (List.mem_cons_of_mem _ hrest)
      · exact Or.inr hvalue
  | case3 first rest _ ih =>
      rcases List.mem_append.mp h with hvalue | h
      · exact Or.inr hvalue
      rcases ih h with hrest | hvalue
      · exact Or.inl (List.mem_cons_of_mem _ hrest)
      · exact Or.inr hvalue
  | case4 first rest _ ih =>
      rcases List.mem_cons.mp h with rfl | h
      · exact Or.inl (List.mem_cons_self ..)
      rcases ih h with hrest | hvalue
      · exact Or.inl (List.mem_cons_of_mem _ hrest)
      · exact Or.inr hvalue

/-! ## Parts of a text -/

theorem prefix_append_cons_iff (h : d ∉ find) (first second : Text) :
    find <+: first ++ d :: second ↔ find <+: first := by
  refine ⟨fun hfound => ?_, fun hfound => hfound.trans (List.prefix_append _ _)⟩
  rcases Nat.lt_or_ge first.length find.length with hlong | hshort
  · have hseam : first ++ [d] <+: first ++ d :: second := by simp
    have hlength : (first ++ [d]).length ≤ find.length := by
      rw [List.length_append, List.length_singleton]
      omega
    have hfind : first ++ [d] <+: find := List.prefix_of_prefix_length_le hseam hfound hlength
    exact absurd (hfind.subset (by simp)) h
  · exact List.prefix_of_prefix_length_le hfound (List.prefix_append _ _) hshort

theorem replaceFrom_append_cons (hne : find ≠ []) (h : d ∉ find) (value : Text) {skip : Nat}
    {first : Text} (hskip : skip ≤ first.length) (second : Text) :
    replaceFrom find value skip (first ++ d :: second) =
      replaceFrom find value skip first ++ d :: replaceAll find value second := by
  induction first generalizing skip with
  | nil =>
      obtain rfl : skip = 0 := by simpa using hskip
      have hnot : ¬ find <+: d :: second := by
        intro hfound
        exact hne (List.prefix_nil.mp ((prefix_append_cons_iff h [] second).mp hfound))
      exact replaceFrom_of_not_found hnot value
  | cons c rest ih =>
      cases skip with
      | succ skip => exact ih (by simpa using hskip)
      | zero =>
          have hiff : find <+: c :: (rest ++ d :: second) ↔ find <+: c :: rest :=
            prefix_append_cons_iff h (c :: rest) second
          rw [List.cons_append]
          by_cases hfound : find <+: c :: rest
          · have hlength : find.length - 1 ≤ rest.length := by
              have hle := hfound.length_le
              rw [List.length_cons] at hle
              omega
            rw [replaceFrom_of_found (hiff.mpr hfound), replaceFrom_of_found hfound,
              ih hlength, List.append_assoc]
          · rw [replaceFrom_of_not_found (mt hiff.mp hfound),
              replaceFrom_of_not_found hfound, ih (Nat.zero_le _), List.cons_append]

/-- Replacing does not reach across a character that is not looked for. -/
theorem replaceAll_append_cons (hne : find ≠ []) (h : d ∉ find) (value first second : Text) :
    replaceAll find value (first ++ d :: second) =
      replaceAll find value first ++ d :: replaceAll find value second :=
  replaceFrom_append_cons hne h value (Nat.zero_le _) second

theorem replaceAll_intercalate (hne : find ≠ []) (h : d ∉ find) (value : Text)
    (parts : List Text) :
    replaceAll find value ([d].intercalate parts) =
      [d].intercalate (parts.map (replaceAll find value)) := by
  induction parts with
  | nil => rfl
  | cons first rest ih =>
      cases rest with
      | nil => simp
      | cons second more =>
          rw [List.intercalate_cons_cons, List.append_assoc, List.singleton_append,
            replaceAll_append_cons hne h, ih]
          simp

/-- Replacing in a whole text is replacing in each of its parts, if the character between them is
neither looked for nor put in. -/
theorem splitOn_replaceAll (hne : find ≠ []) (hfind : d ∉ find) (hvalue : d ∉ value)
    (text : Text) :
    (replaceAll find value text).splitOn d = (text.splitOn d).map (replaceAll find value) := by
  have hparts : ∀ part ∈ (text.splitOn d).map (replaceAll find value), d ∉ part := by
    intro part hpart hd
    obtain ⟨raw, hraw, rfl⟩ := List.mem_map.mp hpart
    rcases mem_of_mem_replaceFrom hd with hmem | hmem
    · exact not_mem_of_mem_splitOn hraw hmem
    · exact hvalue hmem
  have hsome : (text.splitOn d).map (replaceAll find value) ≠ [] := by
    simp
  rw [← List.splitOn_intercalate d hparts hsome, ← replaceAll_intercalate hne hfind,
    List.intercalate_splitOn]

/-! ## Taking something out -/

theorem replaceFrom_nil_sublist (find : Text) (skip : Nat) (text : Text) :
    (replaceFrom find [] skip text).Sublist text := by
  fun_induction replaceFrom find [] skip text with
  | case1 => exact List.Sublist.slnil
  | case2 skip c rest ih => exact ih.cons c
  | case3 c rest _ ih => exact ih.cons c
  | case4 c rest _ ih => exact ih.cons_cons c

theorem length_replaceAll_nil_lt {text : Text} (hne : find ≠ []) (h : find <:+: text) :
    (replaceAll find [] text).length < text.length := by
  unfold replaceAll
  induction text with
  | nil => exact absurd (List.infix_nil.mp h) hne
  | cons c rest ih =>
      by_cases hfound : find <+: c :: rest
      · have hle := (replaceFrom_nil_sublist find (find.length - 1) rest).length_le
        rw [replaceFrom_of_found hfound, List.nil_append, List.length_cons]
        omega
      · have hrest : find <:+: rest := (List.infix_cons_iff.mp h).resolve_left hfound
        have hlt := ih hrest
        rw [replaceFrom_of_not_found hfound, List.length_cons, List.length_cons]
        omega

/-- Taking something out leaves a text as it is exactly if it does not occur. -/
theorem replaceAll_nil_eq_self_iff {text : Text} (hne : find ≠ []) :
    replaceAll find [] text = text ↔ ¬ find <:+: text := by
  refine ⟨fun hsame hinfix => ?_, fun hnot => replaceAll_of_not_infix hnot []⟩
  have hlt := length_replaceAll_nil_lt hne hinfix
  rw [hsame] at hlt
  exact Nat.lt_irrefl _ hlt

end Shading.Text
