import ModAtlas.Text.Piece

/-!
# Pieces and sorted texts

The pieces of two texts after one another are the pieces of both, and the pieces of a text begin
with those of another one exactly where it goes on at a separator. Sorting texts and leaving out
repetitions keeps the texts that there are, and texts that differ are sorted strictly.
-/

namespace ModAtlas.Text

/-! ## Pieces -/

section Pieces
variable {sep c d : Char} {s t : List Char}

theorem splitOn_append {front rest : List Char} :
    splitOn sep (front ++ sep :: rest) = splitOn sep front ++ splitOn sep rest := by
  induction front with
  | nil =>
      have hne := splitOn_ne_nil sep rest
      cases h : splitOn sep rest with
      | nil => exact absurd h hne
      | cons piece pieces => simp [splitOn, h]
  | cons c front ih =>
      have hne := splitOn_ne_nil sep front
      rw [List.cons_append, splitOn, splitOn, ih]
      cases h : splitOn sep front with
      | nil => exact absurd h hne
      | cons piece pieces =>
          simp only [List.cons_append]
          split <;> rfl

theorem splitOn_of_not_mem (h : sep ∉ s) : splitOn sep s = [s] := by
  induction s with
  | nil => rfl
  | cons c s ih =>
      obtain ⟨hc, hs⟩ : ¬ sep = c ∧ sep ∉ s := by simpa using h
      rw [splitOn, ih hs]
      simp [Ne.symm hc]

theorem splitOn_cons_self : splitOn sep (sep :: s) = [] :: splitOn sep s := by
  have h : splitOn sep ([] ++ sep :: s) = _ := splitOn_append
  simpa [splitOn] using h

theorem splitOn_cons_of_ne (hc : c ≠ sep) : ∃ piece pieces, splitOn sep s = piece :: pieces ∧
    splitOn sep (c :: s) = (c :: piece) :: pieces := by
  cases h : splitOn sep s with
  | nil => exact absurd h (splitOn_ne_nil sep s)
  | cons piece pieces => exact ⟨piece, pieces, rfl, by simp [splitOn, h, hc]⟩

/-- The separator stands in none of the pieces. -/
theorem notMem_of_mem_splitOn {piece : List Char} (h : piece ∈ splitOn sep s) : sep ∉ piece := by
  induction s generalizing piece with
  | nil =>
      obtain rfl := List.mem_singleton.mp h
      exact List.not_mem_nil
  | cons c s ih =>
      by_cases hc : c = sep
      · subst hc
        rw [splitOn_cons_self] at h
        rcases List.mem_cons.mp h with rfl | h
        · exact List.not_mem_nil
        · exact ih h
      · obtain ⟨first, rest, hs, hcons⟩ := splitOn_cons_of_ne (s := s) hc
        rw [hs] at ih
        rw [hcons] at h
        rcases List.mem_cons.mp h with rfl | h
        · simpa [Ne.symm hc] using ih List.mem_cons_self
        · exact ih (List.mem_cons_of_mem _ h)

/-- The last piece ends as the text does. -/
theorem splitOn_append_of_not_mem (h : sep ∉ t) :
    ∃ pieces piece, splitOn sep (s ++ t) = pieces ++ [piece ++ t] := by
  induction s with
  | nil => exact ⟨[], [], splitOn_of_not_mem h⟩
  | cons c s ih =>
      obtain ⟨pieces, piece, hpieces⟩ := ih
      rw [List.cons_append]
      by_cases hc : c = sep
      · subst hc
        exact ⟨[] :: pieces, piece, by rw [splitOn_cons_self, hpieces, List.cons_append]⟩
      · obtain ⟨first, rest, hrest, hcons⟩ := splitOn_cons_of_ne (s := s ++ t) hc
        rw [hcons]
        cases pieces with
        | nil =>
            obtain ⟨rfl, rfl⟩ := List.cons.inj (hrest.symm.trans hpieces)
            exact ⟨[], c :: piece, rfl⟩
        | cons p pieces =>
            obtain ⟨rfl, rfl⟩ := List.cons.inj (hrest.symm.trans hpieces)
            exact ⟨(c :: first) :: pieces, piece, rfl⟩

theorem splitOn_cons_prefix_cons :
    splitOn sep (c :: s) <+: splitOn sep (d :: t) ↔ c = d ∧ splitOn sep s <+: splitOn sep t := by
  by_cases hc : c = sep <;> by_cases hd : d = sep
  · subst hc hd
    simp [splitOn_cons_self]
  · obtain ⟨piece, pieces, -, ht⟩ := splitOn_cons_of_ne (s := t) hd
    subst hc
    simp [splitOn_cons_self, ht, Ne.symm hd]
  · obtain ⟨piece, pieces, -, hs⟩ := splitOn_cons_of_ne (s := s) hc
    subst hd
    simp [splitOn_cons_self, hs, hc]
  · obtain ⟨piece, pieces, hs, hs'⟩ := splitOn_cons_of_ne (s := s) hc
    obtain ⟨piece', pieces', ht, ht'⟩ := splitOn_cons_of_ne (s := t) hd
    simp [hs, hs', ht, ht', and_assoc]

/-- The pieces of a text begin with those of another one where the separator comes next. -/
theorem splitOn_prefix_iff : splitOn sep s <+: splitOn sep t ↔ s = t ∨ s ++ [sep] <+: t := by
  have hnil : splitOn sep [] = [[]] := rfl
  induction s generalizing t with
  | nil =>
      cases t with
      | nil => simp
      | cons d t =>
          by_cases hd : d = sep
          · subst hd
            simp [hnil, splitOn_cons_self]
          · obtain ⟨piece, pieces, -, ht⟩ := splitOn_cons_of_ne (s := t) hd
            simp [hnil, ht, Ne.symm hd]
  | cons c s ih =>
      cases t with
      | nil =>
          have hlong : ¬ splitOn sep (c :: s) <+: [[]] := by
            by_cases hc : c = sep
            · subst hc
              simp [splitOn_cons_self, splitOn_ne_nil]
            · obtain ⟨piece, pieces, -, hs⟩ := splitOn_cons_of_ne (s := s) hc
              simp [hs]
          simpa [hnil] using hlong
      | cons d t => simp [splitOn_cons_prefix_cons, ih, ← and_or_left]

end Pieces

theorem endsWith_iff {s tail : List Char} : endsWith s tail = true ↔ tail <:+ s := by
  rw [endsWith, List.isSuffixOf_iff_suffix]

/-! ## Sorted texts -/

theorem mem_eraseRepsBy_loop {α : Type} [BEq α] [LawfulBEq α] {x a : α} {l acc : List α} :
    x ∈ List.eraseRepsBy.loop (· == ·) a l acc ↔ x ∈ acc ∨ x = a ∨ x ∈ l := by
  induction l generalizing a acc with
  | nil => simp [List.eraseRepsBy.loop, or_comm]
  | cons b rest ih =>
      rw [List.eraseRepsBy.loop]
      split
      · rename_i hab
        rw [ih, eq_of_beq hab]
        simp
      · rw [ih]
        simp [or_assoc, or_left_comm]

@[simp] theorem mem_sortedDistinct {x : String} {xs : List String} :
    x ∈ sortedDistinct xs ↔ x ∈ xs := by
  have hmem (l : List String) : x ∈ l.eraseReps ↔ x ∈ l := by
    cases l with
    | nil => rfl
    | cons a rest =>
        rw [List.eraseReps, List.eraseRepsBy, mem_eraseRepsBy_loop]
        simp
  rw [sortedDistinct, hmem, sorted, List.mem_mergeSort]

theorem le_eq_true_iff {a b : String} : le a b = true ↔ a ≤ b := by
  rw [le, Bool.not_eq_true', decide_eq_false_iff_not, String.not_lt]

/-- Different texts are sorted strictly. -/
theorem sorted_pairwise_lt {xs : List String} (h : xs.Nodup) : (sorted xs).Pairwise (· < ·) := by
  have hle : (sorted xs).Pairwise fun a b => le a b = true := by
    apply List.pairwise_mergeSort
    · intro a b c hab hbc
      rw [le_eq_true_iff] at hab hbc ⊢
      exact String.le_trans hab hbc
    · intro a b
      rw [Bool.or_eq_true, le_eq_true_iff, le_eq_true_iff]
      exact String.le_total a b
  have hnodup : (sorted xs).Nodup := (List.mergeSort_perm xs le).nodup_iff.mpr h
  refine (hle.and hnodup).imp fun {a b} hab => ?_
  rw [le_eq_true_iff] at hab
  exact String.not_le.mp fun hba => hab.2 (String.le_antisymm hab.1 hba)

end ModAtlas.Text
