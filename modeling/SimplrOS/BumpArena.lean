import Mathlib

/-!
# Bump allocation

A bump allocator hands out the bytes of a fixed arena in order: a request is
rounded up to the alignment and served from the first byte not yet handed out,
or refused when what is left is too small.  Nothing is ever taken back.

The arena here counts in natural numbers, so nothing wraps.  `Packed` is the
invariant of its runs: every block is aligned and inside the used part, no two
blocks share a byte, and the used part is exactly what was handed out.
-/

namespace BumpArena

/-- A block: where it starts and how many bytes were asked for. -/
structure Block where
  start : Nat
  len : Nat

/-- Byte `x` belongs to the block. -/
def Block.Covers (b : Block) (x : Nat) : Prop := b.start ≤ x ∧ x < b.start + b.len

/-- The two blocks share no byte. -/
def Block.Apart (b c : Block) : Prop := ∀ x, b.Covers x → ¬ c.Covers x

/-- The least multiple of `align` that is at least `n`. -/
def roundUp (align n : Nat) : Nat := (n + (align - 1)) / align * align

/-- How much has been handed out, and to which blocks, latest first. -/
structure Arena where
  used : Nat
  blocks : List Block

/-- The bytes handed out for a list of blocks. -/
def handedOut (align : Nat) (blocks : List Block) : Nat :=
  (blocks.map fun b => roundUp align b.len).sum

/-- Serve a request from an arena of `capacity` bytes. -/
def alloc (capacity align : Nat) (a : Arena) (n : Nat) : Option Nat × Arena :=
  if a.used + roundUp align n ≤ capacity then
    (some a.used, ⟨a.used + roundUp align n, ⟨a.used, n⟩ :: a.blocks⟩)
  else (none, a)

/-- The invariant of the runs. -/
structure Packed (capacity align : Nat) (a : Arena) : Prop where
  used_le : a.used ≤ capacity
  used_eq : a.used = handedOut align a.blocks
  inside : ∀ b ∈ a.blocks, b.start + b.len ≤ a.used
  aligned : ∀ b ∈ a.blocks, align ∣ b.start
  apart : a.blocks.Pairwise Block.Apart

/-- The rounded size is aligned. -/
theorem roundUp_dvd (align n : Nat) : align ∣ roundUp align n := Dvd.intro_left _ rfl

theorem le_roundUp {align : Nat} (halign : 0 < align) (n : Nat) : n ≤ roundUp align n := by
  have hdiv := Nat.div_add_mod (n + (align - 1)) align
  have hmod := Nat.mod_lt (n + (align - 1)) halign
  rw [roundUp, Nat.mul_comm]
  omega

/-- What has been handed out is aligned. -/
theorem handedOut_dvd (align : Nat) (blocks : List Block) : align ∣ handedOut align blocks := by
  induction blocks with
  | nil => exact Nat.dvd_zero align
  | cons b rest ih =>
      rw [handedOut, List.map_cons, List.sum_cons]
      exact Nat.dvd_add (roundUp_dvd align b.len) ih

section Packed

variable {capacity align : Nat} {a : Arena}

/-- An empty arena is packed. -/
theorem Packed.empty : Packed capacity align ⟨0, []⟩ where
  used_le := Nat.zero_le capacity
  used_eq := rfl
  inside := fun _ hb => absurd hb List.not_mem_nil
  aligned := fun _ hb => absurd hb List.not_mem_nil
  apart := List.Pairwise.nil

theorem Packed.used_dvd (h : Packed capacity align a) : align ∣ a.used := by
  rw [h.used_eq]
  exact handedOut_dvd align a.blocks

/-- A new block starts after all earlier ones. -/
theorem Packed.apart_next (h : Packed capacity align a) (n : Nat) :
    ∀ b ∈ a.blocks, Block.Apart ⟨a.used, n⟩ b := by
  intro b hb x hnew hold
  have hend := h.inside b hb
  have hstart : a.used ≤ x := hnew.1
  have hlast := hold.2
  omega

/-- A block that fits is handed out at the end of the used part. -/
theorem alloc_of_fits {n : Nat} (h : a.used + roundUp align n ≤ capacity) :
    alloc capacity align a n =
      (some a.used, ⟨a.used + roundUp align n, ⟨a.used, n⟩ :: a.blocks⟩) := if_pos h

/-- A block that does not fit changes nothing. -/
theorem alloc_of_full {n : Nat} (h : capacity < a.used + roundUp align n) :
    alloc capacity align a n = (none, a) := if_neg (Nat.not_le.mpr h)

/-- **Step lemma.** -/
theorem Packed.alloc (h : Packed capacity align a) (halign : 0 < align) (n : Nat) :
    Packed capacity align (alloc capacity align a n).2 := by
  by_cases hfits : a.used + roundUp align n ≤ capacity
  · have hle := le_roundUp halign n
    rw [alloc_of_fits hfits]
    refine ⟨hfits, ?_, ?_, ?_, ?_⟩
    · rw [handedOut, List.map_cons, List.sum_cons, Nat.add_comm, h.used_eq]
      rfl
    · intro b hb
      rcases List.mem_cons.mp hb with rfl | hb
      · exact Nat.add_le_add_left hle a.used
      · exact Nat.le_trans (h.inside b hb) (Nat.le_add_right _ _)
    · intro b hb
      rcases List.mem_cons.mp hb with rfl | hb
      · exact h.used_dvd
      · exact h.aligned b hb
    · exact List.Pairwise.cons (h.apart_next n) h.apart
  · rw [alloc_of_full (Nat.not_le.mp hfits)]
    exact h

/-- A request is refused exactly when it exceeds what is left. -/
theorem alloc_eq_none_iff (a : Arena) (n : Nat) :
    (alloc capacity align a n).1 = none ↔ capacity < a.used + roundUp align n := by
  by_cases hfits : a.used + roundUp align n ≤ capacity
  · rw [alloc_of_fits hfits]
    simpa using hfits
  · rw [alloc_of_full (Nat.not_le.mp hfits)]
    simpa using hfits

/-- A block that is returned starts at the first unused byte and fits. -/
theorem alloc_eq_some {a : Arena} {n p : Nat} (halign : 0 < align)
    (h : (alloc capacity align a n).1 = some p) : p = a.used ∧ p + n ≤ capacity := by
  by_cases hfits : a.used + roundUp align n ≤ capacity
  · have hle := le_roundUp halign n
    rw [alloc_of_fits hfits] at h
    cases h
    exact ⟨rfl, by omega⟩
  · rw [alloc_of_full (Nat.not_le.mp hfits)] at h
    cases h

/-- The used part only grows. -/
theorem used_le_alloc (a : Arena) (n : Nat) : a.used ≤ (alloc capacity align a n).2.used := by
  by_cases hfits : a.used + roundUp align n ≤ capacity
  · rw [alloc_of_fits hfits]
    exact Nat.le_add_right _ _
  · rw [alloc_of_full (Nat.not_le.mp hfits)]

end Packed

end BumpArena
