import SimplrOS.ByteStore

/-!
# Bitmaps inside a byte store

Bit `i` of the bitmap at `base` is bit `i % 8` of the byte `base + i / 8`.
Setting a bit is a read-modify-write of one byte, so it changes no other bit of
the same bitmap and no byte outside it.

`firstClear` is the first-fit scan of an allocator and `clearFrom` lists what
repeated first-fit scans would return.  `clearCount` is what a free counter kept
beside the bitmap is supposed to equal: setting clear bits lowers it by exactly
the number of bits set.
-/

namespace ByteStore

/-- Bit `i` of the bitmap at `base`. -/
def bit (s : Bytes) (base i : Nat) : Bool :=
  (s (base + i / 8)).toNat.testBit (i % 8)

/-- Set bit `i` of the bitmap at `base`. -/
def setBit (s : Bytes) (base i : Nat) : Bytes :=
  put s (base + i / 8) (UInt8.ofNat ((s (base + i / 8)).toNat ||| (1 <<< (i % 8))))

/-- Set every bit of a list. -/
def setBits (s : Bytes) (base : Nat) : List Nat → Bytes
  | [] => s
  | i :: is => setBits (setBit s base i) base is

/-- The first clear bit among `i, …, i + fuel - 1`. -/
def firstClear (s : Bytes) (base : Nat) : Nat → Nat → Option Nat
  | _, 0 => none
  | i, fuel+1 => if bit s base i then firstClear s base (i + 1) fuel else some i

/-- The clear bits among `i, …, i + fuel - 1`, in increasing order. -/
def clearFrom (s : Bytes) (base i fuel : Nat) : List Nat :=
  (List.range' i fuel).filter (fun j => !bit s base j)

/-- The clear bits below `n`. -/
def clearBits (s : Bytes) (base n : Nat) : Finset Nat :=
  (Finset.range n).filter (fun i => bit s base i = false)

/-- How many of the first `n` bits are clear. -/
def clearCount (s : Bytes) (base n : Nat) : Nat := (clearBits s base n).card

/-- A bit depends on its byte only. -/
theorem bit_congr {s t : Bytes} {base i : Nat}
    (h : s (base + i / 8) = t (base + i / 8)) : bit s base i = bit t base i := by
  rw [bit, bit, h]

/-- Setting a bit leaves the other bytes alone. -/
theorem setBit_of_out (s : Bytes) {base i x : Nat} (h : x ≠ base + i / 8) :
    setBit s base i x = s x :=
  put_ne s _ h

/-- **One bit.**  Setting bit `i` sets it and changes no other bit. -/
theorem bit_setBit (s : Bytes) (base i j : Nat) :
    bit (setBit s base i) base j = (bit s base j || decide (j = i)) := by
  by_cases hbyte : base + j / 8 = base + i / 8
  · have hi : i % 8 < 8 := Nat.mod_lt _ (by decide)
    have hpow : 2 ^ (i % 8) < 2 ^ 8 := Nat.pow_lt_pow_right (by decide) hi
    have hmask : 2 ^ (i % 8) % 256 = 2 ^ (i % 8) := Nat.mod_eq_of_lt hpow
    have heq : (i % 8 = j % 8) ↔ j = i := by omega
    simp [bit, setBit, hbyte, hmask, Nat.shiftLeft_eq, Nat.testBit_two_pow, heq]
  · have hne : j ≠ i := by
      intro heq
      rw [heq] at hbyte
      exact hbyte rfl
    rw [bit_congr (setBit_of_out s hbyte)]
    simp [hne]

/-- Setting bits leaves the other bytes alone. -/
theorem setBits_of_out (s : Bytes) {base x : Nat} {is : List Nat}
    (h : ∀ i ∈ is, x ≠ base + i / 8) : setBits s base is x = s x := by
  induction is generalizing s with
  | nil => rfl
  | cons i is ih =>
      rw [setBits, ih _ (fun j hj => h j (List.mem_cons_of_mem _ hj)),
        setBit_of_out _ (h i List.mem_cons_self)]

/-- The bits set are the old ones and the new ones. -/
theorem bit_setBits (s : Bytes) (base : Nat) (is : List Nat) (j : Nat) :
    bit (setBits s base is) base j = (bit s base j || decide (j ∈ is)) := by
  induction is generalizing s with
  | nil => simp [setBits]
  | cons i is ih => simp [setBits, ih, bit_setBit, Bool.or_assoc]

/-- Setting a bit clears none, of this bitmap or of another. -/
theorem testBit_setBit (s : Bytes) (base i : Nat) {x k : Nat} (h : (s x).toNat.testBit k = true) :
    ((setBit s base i) x).toNat.testBit k = true := by
  by_cases hx : x = base + i / 8
  · subst hx
    have hk : k < 8 := by
      apply Classical.byContradiction
      intro hge
      have hpow : 2 ^ 8 ≤ 2 ^ k := Nat.pow_le_pow_right (by decide) (by omega)
      have hbyte := (s (base + i / 8)).toNat_lt
      rw [Nat.testBit_lt_two_pow (by omega)] at h
      cases h
    rw [setBit, put_same, UInt8.toNat_ofNat', Nat.testBit_mod_two_pow, Nat.testBit_or, h]
    simpa using hk
  · rw [setBit_of_out s hx]
    exact h

/-- A bit that is set stays set. -/
theorem bit_setBits_of_set (s : Bytes) (base base' : Nat) (is : List Nat) {j : Nat}
    (h : bit s base j = true) : bit (setBits s base' is) base j = true := by
  induction is generalizing s with
  | nil => exact h
  | cons i is ih => exact ih _ (testBit_setBit s base' i h)

/-- A first-fit scan returns the lowest clear bit of its range. -/
theorem firstClear_eq_some {s : Bytes} {base i fuel n : Nat}
    (h : firstClear s base i fuel = some n) :
    i ≤ n ∧ n < i + fuel ∧ bit s base n = false ∧
      ∀ j, i ≤ j → j < n → bit s base j = true := by
  induction fuel generalizing i with
  | zero => simp [firstClear] at h
  | succ fuel ih =>
      rw [firstClear] at h
      split at h
      · rename_i hset
        obtain ⟨hlo, hhi, hclear, hbelow⟩ := ih h
        refine ⟨by omega, by omega, hclear, ?_⟩
        intro j hj hjn
        by_cases hji : j = i
        · exact hji ▸ hset
        · exact hbelow j (by omega) hjn
      · rename_i hclear
        cases h
        exact ⟨Nat.le_refl _, by omega, by simpa using hclear, fun j _ _ => by omega⟩

/-- No clear bit is found only if there is none. -/
theorem firstClear_eq_none {s : Bytes} {base i fuel : Nat}
    (h : firstClear s base i fuel = none) :
    ∀ j, i ≤ j → j < i + fuel → bit s base j = true := by
  induction fuel generalizing i with
  | zero => intro j _ _; omega
  | succ fuel ih =>
      rw [firstClear] at h
      split at h
      · rename_i hset
        intro j hj hji
        by_cases heq : j = i
        · exact heq ▸ hset
        · exact ih h j (by omega) (by omega)
      · cases h

/-- A bit with only set bits before it in the range is the one the scan
returns. -/
theorem firstClear_of_lowest {s : Bytes} {base i fuel n : Nat}
    (hlo : i ≤ n) (hhi : n < i + fuel) (hclear : bit s base n = false)
    (hbelow : ∀ j, i ≤ j → j < n → bit s base j = true) :
    firstClear s base i fuel = some n := by
  cases h : firstClear s base i fuel with
  | none => simp [firstClear_eq_none h n hlo hhi] at hclear
  | some m =>
      obtain ⟨hm, _, hmclear, hmbelow⟩ := firstClear_eq_some h
      have hnm : ¬ n < m := fun hlt => by simp [hmbelow n hlo hlt] at hclear
      have hmn : ¬ m < n := fun hlt => by simp [hbelow m hm hlt] at hmclear
      rw [show m = n by omega]

theorem mem_clearFrom {s : Bytes} {base i fuel j : Nat} :
    j ∈ clearFrom s base i fuel ↔ i ≤ j ∧ j < i + fuel ∧ bit s base j = false := by
  simp [clearFrom, List.mem_range'_1, and_assoc]

theorem clearFrom_nodup (s : Bytes) (base i fuel : Nat) :
    (clearFrom s base i fuel).Nodup :=
  List.Nodup.filter _ List.nodup_range'

/-- The scan of one more bit. -/
theorem clearFrom_succ (s : Bytes) (base i fuel : Nat) :
    clearFrom s base i (fuel + 1) =
      if bit s base i then clearFrom s base (i + 1) fuel
      else i :: clearFrom s base (i + 1) fuel := by
  rw [clearFrom, List.range'_succ, List.filter_cons]
  cases bit s base i <;> simp [clearFrom]

theorem mem_clearBits {s : Bytes} {base n i : Nat} :
    i ∈ clearBits s base n ↔ i < n ∧ bit s base i = false := by
  simp [clearBits]

/-- The count depends on the bits only. -/
theorem clearCount_congr {s t : Bytes} {base n : Nat}
    (h : ∀ i, i < n → bit s base i = bit t base i) :
    clearCount s base n = clearCount t base n := by
  unfold clearCount
  congr 1
  ext i
  simp only [mem_clearBits]
  exact and_congr_right fun hi => by rw [h i hi]

/-- **Free-count law.**  Setting distinct clear bits lowers the number of clear
bits by exactly their number. -/
theorem clearCount_setBits {s : Bytes} {base n : Nat} {is : List Nat}
    (hnd : is.Nodup) (hmem : ∀ i ∈ is, i < n ∧ bit s base i = false) :
    clearCount (setBits s base is) base n + is.length = clearCount s base n := by
  have hset : clearBits (setBits s base is) base n = clearBits s base n \ is.toFinset := by
    ext i
    simp only [mem_clearBits, bit_setBits, Finset.mem_sdiff, List.mem_toFinset]
    simp [and_assoc]
  have hsub : is.toFinset ⊆ clearBits s base n := by
    intro i hi
    exact mem_clearBits.mpr (hmem i (List.mem_toFinset.mp hi))
  have hcard : is.toFinset.card = is.length := List.toFinset_card_of_nodup hnd
  have hle := Finset.card_le_card hsub
  rw [clearCount, clearCount, hset, Finset.card_sdiff_of_subset hsub]
  omega

/-- Setting a clear bit lowers the count by one. -/
theorem clearCount_setBit {s : Bytes} {base n i : Nat}
    (hi : i < n) (hclear : bit s base i = false) :
    clearCount (setBit s base i) base n + 1 = clearCount s base n := by
  have hmem : ∀ j ∈ [i], j < n ∧ bit s base j = false := by
    intro j hj
    rw [List.mem_singleton.mp hj]
    exact ⟨hi, hclear⟩
  have hcount := clearCount_setBits (List.nodup_singleton i) hmem
  simpa only [setBits, List.length_singleton] using hcount

/-- With the bits below `i` set, the scan list from `i` holds all clear bits. -/
theorem clearFrom_length {s : Bytes} {base i n : Nat} (hin : i ≤ n)
    (hset : ∀ j, j < i → bit s base j = true) :
    (clearFrom s base i (n - i)).length = clearCount s base n := by
  rw [← List.toFinset_card_of_nodup (clearFrom_nodup s base i (n - i)), clearCount]
  congr 1
  ext j
  simp only [List.mem_toFinset, mem_clearFrom, mem_clearBits]
  constructor
  · intro hboth
    obtain ⟨_, hhi, hclear⟩ := hboth
    exact ⟨by omega, hclear⟩
  · intro hboth
    obtain ⟨hjn, hclear⟩ := hboth
    have hij : i ≤ j := by
      apply Classical.byContradiction
      intro hlt
      simp [hset j (by omega)] at hclear
    exact ⟨hij, by omega, hclear⟩

end ByteStore
