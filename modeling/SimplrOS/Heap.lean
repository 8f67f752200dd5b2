import SimplrOS.BumpArena

/-!
# The kernel heap

`kmalloc` is a bump allocator over 16 MiB whose rounding and bounds check are
done in `uint32_t`.  As long as the heap offset plus the rounded size stays below
`2^32`, a call does what the arena of natural numbers does.  From there on the
sum wraps, the check passes, and a block is returned that is not there.
-/

namespace Heap

open BumpArena

/-- `HEAP_SIZE`: 16 MiB. -/
abbrev heapSize : Nat := 16 * 1024 * 1024

/-- `kmalloc`: the heap offset of the block, `none` for a null pointer, and the
new `heap_offset`. -/
def kmalloc (heapOffset size : UInt32) : Option Nat × UInt32 :=
  let size := (size + 7) &&& ~~~(7 : UInt32)
  if heapOffset + size > 16 * 1024 * 1024 then (none, heapOffset)
  else (some heapOffset.toNat, heapOffset + size)

/-- `kfree` ignores its argument. -/
def kfree (heapOffset : UInt32) (_ptr : Option Nat) : UInt32 := heapOffset

/-- A call of the allocator. -/
inductive Op
  | kmalloc (size : UInt32)
  | kfree (ptr : Option Nat)

/-- `heap_offset` and the non-null blocks returned so far, latest first. -/
structure State where
  heapOffset : UInt32
  blocks : List Block

/-- The state `memory_init` leaves. -/
def memoryInit : State := ⟨0, []⟩

/-- What one call does to the bump offset, and the block it hands out, if it does. -/
def step (s : State) : Op → State
  | .kmalloc size =>
      match kmalloc s.heapOffset size with
      | (some p, heapOffset) => ⟨heapOffset, ⟨p, size.toNat⟩ :: s.blocks⟩
      | (none, heapOffset) => ⟨heapOffset, s.blocks⟩
  | .kfree ptr => ⟨kfree s.heapOffset ptr, s.blocks⟩

/-- The state after the calls, in order. -/
def run (ops : List Op) : State := ops.foldl step memoryInit

/-! ## The law -/

/-- What a call of `kmalloc` in state `s` has to do. -/
structure CallLaw (s : State) (size : UInt32) : Prop where
  aligned : ∀ p, (kmalloc s.heapOffset size).1 = some p → 8 ∣ p
  inside : ∀ p, (kmalloc s.heapOffset size).1 = some p → p + size.toNat ≤ heapSize
  apart : ∀ p, (kmalloc s.heapOffset size).1 = some p →
    ∀ b ∈ s.blocks, 0 < b.len → Block.Apart ⟨p, size.toNat⟩ b
  null_iff : (kmalloc s.heapOffset size).1 = none ↔
    (heapSize : Int) - handedOut 8 s.blocks < roundUp 8 size.toNat
  null_keeps : (kmalloc s.heapOffset size).1 = none → (kmalloc s.heapOffset size).2 = s.heapOffset

/-- Every call of the run obeys the law, and `heap_offset` never decreases. -/
structure RunLaw (ops : List Op) : Prop where
  calls : ∀ before size after, ops = before ++ Op.kmalloc size :: after →
    CallLaw (run before) size
  grows : ∀ before op after, ops = before ++ op :: after →
    (run before).heapOffset ≤ (run (before ++ [op])).heapOffset

/-- The heap offset plus the rounded size of the request does not wrap. -/
def NoWrap (s : State) (size : UInt32) : Prop :=
  s.heapOffset.toNat + roundUp 8 size.toNat < 2 ^ 32

instance (s : State) (size : UInt32) : Decidable (NoWrap s size) :=
  inferInstanceAs (Decidable (_ < _))

/-! ## The code and the arena -/

/-- Masking the low three bits rounds down to a multiple of 8. -/
theorem mask_toNat (n : UInt32) : (n &&& ~~~(7 : UInt32)).toNat = n.toNat / 8 * 8 := by
  have hmask : (~~~(7 : UInt32)).toNat = (2 ^ 29 - 1) <<< 3 := rfl
  have hround : n.toNat / 8 * 8 = (n.toNat >>> 3) <<< 3 := by
    rw [Nat.shiftLeft_eq, Nat.shiftRight_eq_div_pow]
  rw [UInt32.toNat_and, hmask, hround]
  apply Nat.eq_of_testBit_eq
  intro i
  rw [Nat.testBit_and, Nat.testBit_shiftLeft, Nat.testBit_shiftLeft, Nat.testBit_shiftRight,
    Nat.testBit_two_pow_sub_one]
  by_cases hlow : 3 ≤ i
  · have hi : 3 + (i - 3) = i := by omega
    by_cases hhigh : i < 32
    · simp [hlow, hi, show i - 3 < 29 by omega]
    · have hsmall : n.toNat < 2 ^ i :=
        Nat.lt_of_lt_of_le n.toNat_lt (Nat.pow_le_pow_right (by decide) (by omega))
      simp [hi, Nat.testBit_lt_two_pow hsmall]
  · simp [hlow]

/-- The rounded size, in `uint32_t` and in natural numbers. -/
theorem rounded_toNat (size : UInt32) :
    ((size + 7) &&& ~~~(7 : UInt32)).toNat = roundUp 8 size.toNat % 2 ^ 32 := by
  have hseven : (7 : UInt32).toNat = 7 := rfl
  rw [mask_toNat, UInt32.toNat_add, hseven, roundUp]
  omega

/-- The sum that is compared with the heap size. -/
theorem sum_toNat (heapOffset size : UInt32) :
    (heapOffset + ((size + 7) &&& ~~~(7 : UInt32))).toNat =
      (heapOffset.toNat + roundUp 8 size.toNat) % 2 ^ 32 := by
  rw [UInt32.toNat_add, rounded_toNat, Nat.add_mod_mod]

/-- Whatever is asked for, the offset stays inside the heap. -/
theorem kmalloc_offset_le {heapOffset : UInt32} (h : heapOffset.toNat ≤ heapSize)
    (size : UInt32) : (kmalloc heapOffset size).2.toNat ≤ heapSize := by
  unfold kmalloc
  dsimp only
  split
  · exact h
  · rename_i hfits
    exact UInt32.le_iff_toNat_le.mp (UInt32.not_lt.mp hfits)

/-- The arena of a state. -/
def State.arena (s : State) : Arena := ⟨s.heapOffset.toNat, s.blocks⟩

/-- **The code is the arena** as long as the sum does not wrap. -/
theorem kmalloc_eq_alloc {s : State} {size : UInt32} (h : NoWrap s size) :
    (kmalloc s.heapOffset size).1 = (alloc heapSize 8 s.arena size.toNat).1 ∧
      (step s (.kmalloc size)).arena = (alloc heapSize 8 s.arena size.toNat).2 := by
  have hsum : (s.heapOffset + ((size + 7) &&& ~~~(7 : UInt32))).toNat =
      s.heapOffset.toNat + roundUp 8 size.toNat := by
    rw [sum_toNat]
    exact Nat.mod_eq_of_lt h
  by_cases hfits : s.heapOffset.toNat + roundUp 8 size.toNat ≤ heapSize
  · have hpass : ¬ s.heapOffset + ((size + 7) &&& ~~~(7 : UInt32)) > 16 * 1024 * 1024 := by
      rw [gt_iff_lt, UInt32.lt_iff_toNat_lt, hsum]
      exact Nat.not_lt.mpr hfits
    have halloc : alloc heapSize 8 s.arena size.toNat = _ := alloc_of_fits hfits
    rw [halloc]
    simp only [step, kmalloc, State.arena, if_neg hpass, hsum, and_self]
  · have hfail : s.heapOffset + ((size + 7) &&& ~~~(7 : UInt32)) > 16 * 1024 * 1024 := by
      rw [gt_iff_lt, UInt32.lt_iff_toNat_lt, hsum]
      exact Nat.not_le.mp hfits
    have halloc : alloc heapSize 8 s.arena size.toNat = _ := alloc_of_full (Nat.not_le.mp hfits)
    rw [halloc]
    simp only [step, kmalloc, State.arena, if_pos hfail, and_self]

/-- A call whose sum wraps returns a block, however large the request. -/
theorem kmalloc_of_wrap {s : State} {size : UInt32} (hs : s.heapOffset.toNat ≤ heapSize)
    (h : ¬ NoWrap s size) : (kmalloc s.heapOffset size).1 ≠ none := by
  have hsize := size.toNat_lt
  have hround : roundUp 8 size.toNat = (size.toNat + 7) / 8 * 8 := rfl
  have hpass : ¬ s.heapOffset + ((size + 7) &&& ~~~(7 : UInt32)) > 16 * 1024 * 1024 := by
    have hlimit : (16 * 1024 * 1024 : UInt32).toNat = 16777216 := rfl
    have hcap : heapSize = 16777216 := rfl
    unfold NoWrap at h
    rw [gt_iff_lt, UInt32.lt_iff_toNat_lt, sum_toNat, hlimit]
    omega
  simp only [kmalloc, if_neg hpass, ne_eq, reduceCtorEq, not_false_eq_true]

/-! ## Runs -/

theorem run_append (before : List Op) (op : Op) : run (before ++ [op]) = step (run before) op := by
  rw [run, List.foldl_append]
  rfl

/-- No run leaves the heap. -/
theorem run_offset_le (ops : List Op) : (run ops).heapOffset.toNat ≤ heapSize := by
  induction ops using List.reverseRecOn with
  | nil => exact Nat.zero_le _
  | append_singleton before op ih =>
      rw [run_append]
      cases op with
      | kfree ptr => exact ih
      | kmalloc size =>
          have hle := kmalloc_offset_le ih size
          unfold step
          dsimp only
          split
          · rename_i hcall
            rwa [hcall] at hle
          · rename_i hcall
            rwa [hcall] at hle

/-- Every `kmalloc` of the run meets a state in which its sum does not wrap. -/
def NeverWraps (ops : List Op) : Prop :=
  ∀ before size after, ops = before ++ Op.kmalloc size :: after → NoWrap (run before) size

theorem NeverWraps.prefix {before after : List Op} (h : NeverWraps (before ++ after)) :
    NeverWraps before := by
  intro first size rest hsplit
  exact h first size (rest ++ after) (by rw [hsplit, List.append_assoc, List.cons_append])

/-- **Run lemma.**  Without wrapping, the arena of the run is packed. -/
theorem NeverWraps.packed {ops : List Op} (h : NeverWraps ops) :
    Packed heapSize 8 (run ops).arena := by
  induction ops using List.reverseRecOn with
  | nil => exact Packed.empty
  | append_singleton before op ih =>
      have hbefore := ih h.prefix
      rw [run_append]
      cases op with
      | kfree ptr => exact hbefore
      | kmalloc size =>
          rw [(kmalloc_eq_alloc (h before size [] rfl)).2]
          exact hbefore.alloc (by decide) size.toNat

/-- Without wrapping, a call obeys the law. -/
theorem callLaw_of_noWrap {s : State} {size : UInt32} (hs : Packed heapSize 8 s.arena)
    (h : NoWrap s size) : CallLaw s size := by
  have hcode := (kmalloc_eq_alloc h).1
  have hused : s.arena.used = handedOut 8 s.blocks := hs.used_eq
  refine ⟨?_, ?_, ?_, ?_, ?_⟩
  · intro p hp
    rw [hcode] at hp
    rw [(alloc_eq_some (by decide) hp).1]
    exact hs.used_dvd
  · intro p hp
    rw [hcode] at hp
    exact (alloc_eq_some (by decide) hp).2
  · intro p hp b hb _
    rw [hcode] at hp
    rw [(alloc_eq_some (by decide) hp).1]
    exact hs.apart_next size.toNat b hb
  · rw [hcode, alloc_eq_none_iff, hused]
    omega
  · intro hnull
    unfold kmalloc at hnull ⊢
    dsimp only at hnull ⊢
    split
    · rfl
    · rename_i hpass
      rw [if_neg hpass] at hnull
      cases hnull

/-- A call whose sum wraps breaks it. -/
theorem not_callLaw_of_wrap {s : State} {size : UInt32} (hs : s.heapOffset.toNat ≤ heapSize)
    (h : ¬ NoWrap s size) : ¬ CallLaw s size := by
  intro hlaw
  have hnull : ¬ (heapSize : Int) - handedOut 8 s.blocks < roundUp 8 size.toNat :=
    fun hfull => kmalloc_of_wrap hs h (hlaw.null_iff.mpr hfull)
  have hcap : heapSize = 16777216 := rfl
  unfold NoWrap at h
  omega

/-- **Heap safety.**  The calls of a run obey the law, and the heap offset never
decreases, exactly when no call of the run meets a state in which the heap offset
plus its rounded size reaches `2^32`. -/
theorem runLaw_iff (ops : List Op) : RunLaw ops ↔ NeverWraps ops := by
  constructor
  · intro hlaw before size after hsplit
    apply Classical.byContradiction
    intro hwrap
    exact not_callLaw_of_wrap (run_offset_le before) hwrap (hlaw.calls before size after hsplit)
  · intro h
    constructor
    · intro before size after hsplit
      have hbefore : NeverWraps before := NeverWraps.prefix (hsplit ▸ h)
      exact callLaw_of_noWrap hbefore.packed (h before size after hsplit)
    · intro before op after hsplit
      rw [run_append, UInt32.le_iff_toNat_le]
      cases op with
      | kfree ptr => exact Nat.le_refl _
      | kmalloc size =>
          have hnext := (kmalloc_eq_alloc (h before size after hsplit)).2
          have hgrows : _ ≤ (alloc heapSize 8 (run before).arena size.toNat).2.used :=
            used_le_alloc (run before).arena size.toNat
          rwa [← hnext] at hgrows

/-- Asking for `2^32 - 1` bytes returns a block of the empty heap. -/
theorem kmalloc_max : (kmalloc memoryInit.heapOffset 0xFFFFFFFF).1 = some 0 ∧
    ¬ RunLaw [Op.kmalloc 0xFFFFFFFF] := by
  refine ⟨by decide, fun hlaw => ?_⟩
  have hcall := hlaw.calls [] 0xFFFFFFFF [] rfl
  exact not_callLaw_of_wrap (run_offset_le []) (by decide) hcall

end Heap
