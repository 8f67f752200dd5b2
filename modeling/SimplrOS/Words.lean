import Mathlib.Data.List.TakeWhile

/-!
# Words of a line

The words of a list are its maximal runs without a separator, in order: the
nonempty pieces that are left when it is split at every separator.  The lemmas
follow a scanner, which skips separators, takes a run, and goes on behind the
separator that ended it.
-/

namespace Words

variable {α : Type} [DecidableEq α] {sep : α}

/-- The maximal runs without `sep`. -/
def words (sep : α) (l : List α) : List (List α) := (l.splitOn sep).filter (· ≠ [])

theorem words_nil : words sep [] = [] := by
  simp [words, List.splitOn_eq_singleton]

/-- A separator at the front belongs to no word. -/
theorem words_sep (l : List α) : words sep (sep :: l) = words sep l := by
  have hsplit := List.splitOn_append_cons_self (a := sep) [] l
  rw [List.nil_append, List.splitOn_eq_singleton List.not_mem_nil] at hsplit
  rw [words, hsplit]
  simp [words]

theorem words_dropWhile (l : List α) : words sep (l.dropWhile (· == sep)) = words sep l := by
  induction l with
  | nil => rfl
  | cons c l ih =>
      by_cases hc : c = sep
      · rw [hc, words_sep, List.dropWhile_cons_of_pos (by simp), ih]
      · rw [List.dropWhile_cons_of_neg (by simpa using hc)]

/-- A run that ends the line is one word. -/
theorem words_run {w : List α} (hne : w ≠ []) (hw : sep ∉ w) : words sep w = [w] := by
  simp [words, List.splitOn_eq_singleton hw, hne]

/-- A run that ends at a separator is the first word. -/
theorem words_append {w : List α} (hne : w ≠ []) (hw : sep ∉ w) (rest : List α) :
    words sep (w ++ sep :: rest) = w :: words sep rest := by
  rw [words, List.splitOn_append_cons_self_of_not_mem hw]
  simp [words, hne]

/-- The words on both sides of a separator. -/
theorem words_join (l rest : List α) :
    words sep (l ++ sep :: rest) = words sep l ++ words sep rest := by
  rw [words, List.splitOn_append_cons_self, List.filter_append]
  rfl

/-- Separators in front of a line belong to no word. -/
theorem words_leading (k : Nat) (l : List α) :
    words sep (List.replicate k sep ++ l) = words sep l := by
  induction k with
  | zero => rfl
  | succ k ih => rw [List.replicate_succ, List.cons_append, words_sep, ih]

/-- Nor do separators behind it. -/
theorem words_trailing (k : Nat) (l : List α) :
    words sep (l ++ List.replicate k sep) = words sep l := by
  cases k with
  | zero => rw [List.replicate_zero, List.append_nil]
  | succ k =>
      have hblank := @words_leading α _ sep k []
      rw [List.append_nil, words_nil] at hblank
      rw [List.replicate_succ, words_join, hblank, List.append_nil]

theorem not_mem_takeWhile (l : List α) : sep ∉ l.takeWhile (· != sep) := by
  intro hmem
  simpa using List.mem_takeWhile_imp hmem

/-- What is skipped in front of a run ends before its first character. -/
theorem ne_of_dropWhile {c : α} {l tail : List α} (h : l.dropWhile (· == sep) = c :: tail) :
    c ≠ sep := by
  have hhead := List.head_dropWhile_not (· == sep) (l := l) (by simp [h])
  simpa [h] using hhead

/-- A run ends at a separator or with the line. -/
theorem dropWhile_run (sep : α) (l : List α) :
    l.dropWhile (· != sep) = [] ∨ ∃ rest, l.dropWhile (· != sep) = sep :: rest := by
  cases hrest : l.dropWhile (· != sep) with
  | nil => exact Or.inl rfl
  | cons d rest =>
      have hhead := List.head_dropWhile_not (· != sep) (l := l) (by simp [hrest])
      have hd : d = sep := by simpa [hrest] using hhead
      exact Or.inr ⟨rest, by rw [hd]⟩

/-- **One round of a scanner.**  The first run is the first word, and the others
are those behind the separator that ended it. -/
theorem words_cons {c : α} {l : List α} (hc : c ≠ sep) :
    words sep (c :: l) = (c :: l).takeWhile (· != sep) ::
      words sep (((c :: l).dropWhile (· != sep)).drop 1) := by
  have hne : (c :: l).takeWhile (· != sep) ≠ [] := by simp [hc]
  have hw : sep ∉ (c :: l).takeWhile (· != sep) := not_mem_takeWhile _
  have hsplit := List.takeWhile_append_dropWhile (p := (· != sep)) (l := c :: l)
  rcases dropWhile_run sep (c :: l) with hrest | ⟨rest, hrest⟩
  · rw [hrest, List.append_nil] at hsplit
    rw [hrest, List.drop_nil, words_nil, hsplit]
    rw [hsplit] at hw hne
    exact words_run hne hw
  · rw [hrest] at hsplit
    rw [hrest, List.drop_succ_cons, List.drop_zero, ← words_append hne hw, hsplit]

/-- A word has no separator, and it is part of the line. -/
theorem of_mem_words {l : List α} : ∀ w ∈ words sep l, sep ∉ w ∧ w.Sublist l := by
  induction hsize : l.length using Nat.strong_induction_on generalizing l with
  | h size ih =>
    cases l with
    | nil =>
        rw [words_nil]
        exact fun w hw => absurd hw List.not_mem_nil
    | cons c l =>
        intro w hw
        by_cases hc : c = sep
        · rw [hc, words_sep] at hw
          obtain ⟨hclean, hsub⟩ := ih l.length (by rw [← hsize]; exact Nat.lt_succ_self _) rfl w hw
          exact ⟨hclean, hsub.cons c⟩
        · rw [words_cons hc] at hw
          rcases List.mem_cons.mp hw with hfirst | hlater
          · rw [hfirst]
            exact ⟨not_mem_takeWhile _, List.takeWhile_sublist _⟩
          · have hshort : (((c :: l).dropWhile (· != sep)).drop 1).length < size := by
              have hle := (List.dropWhile_sublist (· != sep) (l := l)).length_le
              rw [← hsize, List.dropWhile_cons_of_pos (by simpa using hc), List.length_drop,
                List.length_cons]
              omega
            obtain ⟨hclean, hsub⟩ := ih _ hshort rfl w hlater
            exact ⟨hclean, hsub.trans ((List.drop_sublist 1 _).trans (List.dropWhile_sublist _))⟩

end Words
