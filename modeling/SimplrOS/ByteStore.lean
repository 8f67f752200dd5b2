import Mathlib

/-!
# Byte-addressed stores

A store maps every address to one byte.  Little-endian words are read and
written at any address, whether aligned or not, exactly as packed C structures
lay them out.

Three kinds of facts are proved about every operation: what a read returns
after the matching write, what it returns after a write elsewhere, and that it
depends only on the bytes it covers.  The last one, `leNat_ext`, compares reads
at two different addresses, so it also moves a record between a buffer and the
place the buffer was filled from.
-/

namespace ByteStore

/-- A byte-addressed store. -/
abbrev Bytes := Nat → UInt8

/-- Store one byte. -/
def put (s : Bytes) (a : Nat) (v : UInt8) : Bytes :=
  fun x => if x = a then v else s x

/-- Copy the first `n` bytes of `src` to the addresses from `a` on, in
increasing order. -/
def copyBytes (s : Bytes) (a : Nat) (src : Nat → UInt8) : Nat → Bytes
  | 0 => s
  | n+1 => put (copyBytes s a src n) (a + n) (src n)

/-- The little-endian number held in the `k` bytes at `a`. -/
def leNat (s : Bytes) (a : Nat) : Nat → Nat
  | 0 => 0
  | k+1 => (s a).toNat + 256 * leNat s (a + 1) k

/-- Store the low `k` bytes of `v` at `a`, least significant byte first. -/
def putLe (s : Bytes) (a v : Nat) : Nat → Bytes
  | 0 => s
  | k+1 => put (putLe s (a + 1) (v / 256) k) a (UInt8.ofNat v)

/-- The 16-bit word at `a`. -/
def word16 (s : Bytes) (a : Nat) : UInt16 := UInt16.ofNat (leNat s a 2)

/-- The 32-bit word at `a`. -/
def word32 (s : Bytes) (a : Nat) : UInt32 := UInt32.ofNat (leNat s a 4)

/-- The 64-bit word at `a`. -/
def word64 (s : Bytes) (a : Nat) : UInt64 := UInt64.ofNat (leNat s a 8)

/-- Store a 32-bit word at `a`. -/
def putWord32 (s : Bytes) (a : Nat) (v : UInt32) : Bytes := putLe s a v.toNat 4

/-- Store a 64-bit word at `a`. -/
def putWord64 (s : Bytes) (a : Nat) (v : UInt64) : Bytes := putLe s a v.toNat 8

/-- The two stores hold the same bytes at the `n` addresses from `a` on. -/
def SameOn (s t : Bytes) (a n : Nat) : Prop :=
  ∀ x, a ≤ x → x < a + n → s x = t x

@[simp] theorem put_same (s : Bytes) (a : Nat) (v : UInt8) : put s a v a = v := by
  simp [put]

/-- A write leaves all other bytes alone. -/
theorem put_ne (s : Bytes) {a x : Nat} (v : UInt8) (h : x ≠ a) : put s a v x = s x := by
  simp [put, h]

/-- A copy reads back as the source inside its range and changes nothing
outside it. -/
theorem copyBytes_apply (s : Bytes) (a : Nat) (src : Nat → UInt8) (n x : Nat) :
    copyBytes s a src n x = if a ≤ x ∧ x < a + n then src (x - a) else s x := by
  induction n with
  | zero => rw [copyBytes, if_neg (by omega)]
  | succ n ih =>
      by_cases hx : x = a + n
      · subst hx
        simp [copyBytes]
      · rw [copyBytes, put_ne _ _ hx, ih]
        have : (a ≤ x ∧ x < a + n) ↔ (a ≤ x ∧ x < a + (n + 1)) := by omega
        simp only [this]

/-- A copy leaves the bytes outside its range alone. -/
theorem copyBytes_of_out (s : Bytes) {a : Nat} (src : Nat → UInt8) {n x : Nat}
    (h : x < a ∨ a + n ≤ x) : copyBytes s a src n x = s x := by
  rw [copyBytes_apply, if_neg (by omega)]

/-- A number is stored in its own bytes only. -/
theorem putLe_of_out (s : Bytes) {a k x : Nat} (v : Nat)
    (h : x < a ∨ a + k ≤ x) : putLe s a v k x = s x := by
  induction k generalizing a v with
  | zero => rfl
  | succ k ih =>
      rw [putLe, put_ne _ _ (by omega)]
      exact ih _ (by omega)

/-- Equal bytes stay equal under the same write. -/
theorem put_congr_at {s t : Bytes} {x : Nat} (a : Nat) (v : UInt8) (h : s x = t x) :
    put s a v x = put t a v x := by
  simp [put, h]

/-- Equal bytes stay equal under the same number. -/
theorem putLe_congr_at {s t : Bytes} {x : Nat} (a v k : Nat) (h : s x = t x) :
    putLe s a v k x = putLe t a v k x := by
  induction k generalizing a v with
  | zero => exact h
  | succ k ih => exact put_congr_at a _ (ih (a + 1) (v / 256))

/-- Equal bytes stay equal under the same copy. -/
theorem copyBytes_congr_at {s t : Bytes} {x : Nat} (a : Nat) (src : Nat → UInt8) (n : Nat)
    (h : s x = t x) : copyBytes s a src n x = copyBytes t a src n x := by
  rw [copyBytes_apply, copyBytes_apply, h]

/-- A little-endian read depends only on the bytes it covers. -/
theorem leNat_ext {s t : Bytes} {a b k : Nat} (h : ∀ i, i < k → s (a + i) = t (b + i)) :
    leNat s a k = leNat t b k := by
  induction k generalizing a b with
  | zero => rfl
  | succ k ih =>
      have hhead : s a = t b := h 0 (by omega)
      have htail : leNat s (a + 1) k = leNat t (b + 1) k := by
        apply ih
        intro i hi
        have := h (1 + i) (by omega)
        simpa only [← Nat.add_assoc] using this
      rw [leNat, leNat, hhead, htail]

theorem leNat_congr {s t : Bytes} {a k : Nat} (h : SameOn s t a k) :
    leNat s a k = leNat t a k :=
  leNat_ext (fun i hi => h (a + i) (by omega) (by omega))

/-- **Little-endian round trip.**  Reading back `k` stored bytes gives the
stored number modulo `256 ^ k`. -/
theorem leNat_putLe (s : Bytes) (a v k : Nat) :
    leNat (putLe s a v k) a k = v % 256 ^ k := by
  induction k generalizing s a v with
  | zero => simp [leNat, Nat.mod_one]
  | succ k ih =>
      have htail : leNat (putLe s a v (k + 1)) (a + 1) k = v / 256 % 256 ^ k := by
        rw [← ih s (a + 1) (v / 256)]
        apply leNat_congr
        intro x hlo _
        rw [putLe, put_ne _ _ (by omega)]
      have hhead : (putLe s a v (k + 1) a).toNat = v % 256 := by
        simp [putLe]
      rw [leNat, hhead, htail, Nat.pow_succ', Nat.mod_mul]

/-- A word depends on its four bytes only, wherever they are. -/
theorem word32_ext {s t : Bytes} {a b : Nat} (h : ∀ i, i < 4 → s (a + i) = t (b + i)) :
    word32 s a = word32 t b := by
  rw [word32, word32, leNat_ext h]

theorem word32_congr {s t : Bytes} {a : Nat} (h : SameOn s t a 4) :
    word32 s a = word32 t a := by
  rw [word32, word32, leNat_congr h]

/-- A positive number that fits a word is not stored as zero. -/
theorem ofNat_ne_zero {n : Nat} (hpos : 0 < n) (hlt : n < 2 ^ 32) : UInt32.ofNat n ≠ 0 := by
  intro hzero
  have hnat := congrArg UInt32.toNat hzero
  simp only [UInt32.toNat_ofNat', UInt32.reduceToNat] at hnat
  omega

theorem word64_congr {s t : Bytes} {a : Nat} (h : SameOn s t a 8) :
    word64 s a = word64 t a := by
  rw [word64, word64, leNat_congr h]

/-- A word that has been stored is read back. -/
@[simp] theorem word32_putWord32 (s : Bytes) (a : Nat) (v : UInt32) :
    word32 (putWord32 s a v) a = v := by
  have := v.toNat_lt
  rw [word32, putWord32, leNat_putLe, Nat.mod_eq_of_lt (by omega), UInt32.ofNat_toNat]

/-- A word is stored in its four bytes only. -/
theorem putWord32_of_out (s : Bytes) {a x : Nat} (v : UInt32)
    (h : x < a ∨ a + 4 ≤ x) : putWord32 s a v x = s x :=
  putLe_of_out s _ h

/-- A double word is stored in its eight bytes only. -/
theorem putWord64_of_out (s : Bytes) {a x : Nat} (v : UInt64)
    (h : x < a ∨ a + 8 ≤ x) : putWord64 s a v x = s x :=
  putLe_of_out s _ h

/-- A 32-bit read is not affected by a 32-bit write beside it. -/
theorem word32_putWord32_of_out (s : Bytes) {a b : Nat} (v : UInt32)
    (h : b + 4 ≤ a ∨ a + 4 ≤ b) : word32 (putWord32 s a v) b = word32 s b :=
  word32_congr (fun _ _ _ => putWord32_of_out s v (by omega))

/-- A word is not changed by a write beside it. -/
theorem word32_put_of_out (s : Bytes) {a b : Nat} (v : UInt8)
    (h : b + 4 ≤ a ∨ a < b) : word32 (put s a v) b = word32 s b :=
  word32_congr (fun _ _ _ => put_ne s v (by omega))

/-- A word is not changed by a copy beside it. -/
theorem word32_copyBytes_of_out (s : Bytes) {a b n : Nat} (src : Nat → UInt8)
    (h : b + 4 ≤ a ∨ a + n ≤ b) : word32 (copyBytes s a src n) b = word32 s b :=
  word32_congr (fun _ _ _ => copyBytes_of_out s src (by omega))

/-- Store the words of a list one after the other from `a` on. -/
def putWords (s : Bytes) (a : Nat) : List UInt32 → Bytes
  | [] => s
  | w :: ws => putWords (putWord32 s a w) (a + 4) ws

/-- Words are stored in their own bytes only. -/
theorem putWords_of_out (s : Bytes) {a x : Nat} {ws : List UInt32}
    (h : x < a ∨ a + 4 * ws.length ≤ x) : putWords s a ws x = s x := by
  induction ws generalizing s a with
  | nil => rfl
  | cons w ws ih =>
      simp only [List.length_cons] at h
      rw [putWords, ih _ (by omega), putWord32_of_out _ _ (by omega)]

theorem putWords_congr_at {s t : Bytes} {x : Nat} (a : Nat) (ws : List UInt32) (h : s x = t x) :
    putWords s a ws x = putWords t a ws x := by
  induction ws generalizing s t a with
  | nil => exact h
  | cons w ws ih => exact ih (a + 4) (putLe_congr_at a w.toNat 4 h)

theorem word32_putWords_of_out (s : Bytes) {a b : Nat} {ws : List UInt32}
    (h : b + 4 ≤ a ∨ a + 4 * ws.length ≤ b) : word32 (putWords s a ws) b = word32 s b :=
  word32_congr (fun _ _ _ => putWords_of_out s (by omega))

/-- Every word of a stored list reads back at its place. -/
theorem word32_putWords (s : Bytes) (a : Nat) (ws : List UInt32) {i : Nat}
    (hi : i < ws.length) : word32 (putWords s a ws) (a + 4 * i) = ws[i] := by
  induction ws generalizing s a i with
  | nil => simp at hi
  | cons w ws ih =>
      cases i with
      | zero =>
          have hkept : word32 (putWords (putWord32 s a w) (a + 4) ws) a =
              word32 (putWord32 s a w) a :=
            word32_congr (fun x _ _ => putWords_of_out _ (by omega))
          simpa [putWords] using hkept
      | succ i =>
          have hi' : i < ws.length := by simpa using hi
          have htail := ih (putWord32 s a w) (a + 4) hi'
          have hplace : a + 4 * (i + 1) = a + 4 + 4 * i := by omega
          rw [putWords, hplace, htail, List.getElem_cons_succ]

/-! ## Strings -/

/-- The bytes from `a` on are those of `str` and a NUL. -/
structure HoldsString (s : Bytes) (a : Nat) (str : List UInt8) : Prop where
  chars : ∀ i, (hi : i < str.length) → s (a + i) = str[i]
  nul : s (a + str.length) = 0

/-- A string depends on its own bytes and its terminator. -/
theorem HoldsString.congr {s t : Bytes} {a b : Nat} {str : List UInt8} (h : HoldsString s a str)
    (hsame : ∀ i, i ≤ str.length → t (b + i) = s (a + i)) : HoldsString t b str where
  chars := fun i hi => (hsame i (by omega)).trans (h.chars i hi)
  nul := (hsame _ (Nat.le_refl _)).trans h.nul

/-- A NUL alone is the empty string. -/
theorem put_nul (s : Bytes) (a : Nat) : HoldsString (put s a 0) a [] ∧
    ∀ x, x < a ∨ a + ([] : List UInt8).length < x → put s a 0 x = s x := by
  refine ⟨⟨fun i hi => absurd hi (by simp), put_same s a 0⟩, ?_⟩
  intro x hx
  rw [List.length_nil] at hx
  exact put_ne s 0 (by omega)

/-- The first character of a string. -/
theorem HoldsString.head {s : Bytes} {a : Nat} {c : UInt8} {str : List UInt8}
    (h : HoldsString s a (c :: str)) : s a = c :=
  h.chars 0 (Nat.succ_pos _)

/-- A string without its first character. -/
theorem HoldsString.tail {s : Bytes} {a : Nat} {c : UInt8} {str : List UInt8}
    (h : HoldsString s a (c :: str)) : HoldsString s (a + 1) str where
  chars := by
    intro i hi
    have hplace : a + 1 + i = a + (i + 1) := by omega
    rw [hplace, h.chars (i + 1) (by simpa using hi), List.getElem_cons_succ]
  nul := by
    have hplace : a + 1 + str.length = a + (c :: str).length := by
      rw [List.length_cons]
      omega
    rw [hplace]
    exact h.nul

/-- The characters of the front part of a string. -/
theorem HoldsString.front {s : Bytes} {a : Nat} {str more : List UInt8}
    (h : HoldsString s a (str ++ more)) {i : Nat} (hi : i < str.length) : s (a + i) = str[i] := by
  rw [h.chars i (by rw [List.length_append]; omega), List.getElem_append_left hi]

/-- What is behind the front part is a string as well. -/
theorem HoldsString.behind {s : Bytes} {a : Nat} {str more : List UInt8}
    (h : HoldsString s a (str ++ more)) : HoldsString s (a + str.length) more where
  chars := by
    intro i hi
    rw [Nat.add_assoc, h.chars (str.length + i) (by rw [List.length_append]; omega),
      List.getElem_append_right (by omega)]
    congr 1
    omega
  nul := by
    have hnul := h.nul
    rwa [List.length_append, ← Nat.add_assoc] at hnul

/-- The characters of the string at `a`: all bytes before the first NUL, and the
first `k` if there is none among them. -/
def charsAt (s : Bytes) (a : Nat) : Nat → List UInt8
  | 0 => []
  | k+1 => if s a = 0 then [] else s a :: charsAt s (a + 1) k

/-- The characters depend on their bytes only, wherever they are. -/
theorem charsAt_ext {s t : Bytes} {a b k : Nat} (h : ∀ i, i < k → s (a + i) = t (b + i)) :
    charsAt s a k = charsAt t b k := by
  induction k generalizing a b with
  | zero => rfl
  | succ k ih =>
      have hhead : s a = t b := h 0 (by omega)
      have htail : charsAt s (a + 1) k = charsAt t (b + 1) k := by
        apply ih
        intro i hi
        have := h (1 + i) (by omega)
        simpa only [← Nat.add_assoc] using this
      rw [charsAt, charsAt, hhead, htail]

/-- A NUL among the first bytes ends the string. -/
theorem length_charsAt_lt {s : Bytes} {a k i : Nat} (hi : i < k) (hnul : s (a + i) = 0) :
    (charsAt s a k).length < k := by
  induction k generalizing a i with
  | zero => omega
  | succ k ih =>
      rw [charsAt]
      split
      · exact Nat.succ_pos k
      · rename_i hne
        cases i with
        | zero => exact absurd hnul hne
        | succ i =>
            have hplace : a + (i + 1) = a + 1 + i := by omega
            rw [hplace] at hnul
            rw [List.length_cons]
            exact Nat.succ_lt_succ (ih (Nat.lt_of_succ_lt_succ hi) hnul)

/-- Reading fewer characters. -/
theorem take_charsAt (s : Bytes) (a : Nat) {j k : Nat} (h : j ≤ k) :
    (charsAt s a k).take j = charsAt s a j := by
  induction j generalizing a k with
  | zero => rfl
  | succ j ih =>
      obtain ⟨k, rfl⟩ : ∃ k', k = k' + 1 := ⟨k - 1, by omega⟩
      rw [charsAt, charsAt]
      split
      · rfl
      · rw [List.take_succ_cons, ih (a + 1) (by omega)]

/-- The characters of a stored string. -/
theorem HoldsString.charsAt_eq {s : Bytes} {a k : Nat} {str : List UInt8} (h : HoldsString s a str)
    (hstr : ∀ c ∈ str, c ≠ 0) (hk : str.length < k) : charsAt s a k = str := by
  induction k generalizing a str with
  | zero => omega
  | succ k ih =>
      cases str with
      | nil =>
          have hnul : s a = 0 := h.nul
          rw [charsAt, if_pos hnul]
      | cons c rest =>
          have hne : s a ≠ 0 := h.head ▸ hstr c List.mem_cons_self
          rw [List.length_cons] at hk
          rw [charsAt, if_neg hne, h.head,
            ih h.tail (fun d hd => hstr d (List.mem_cons_of_mem c hd)) (by omega)]

end ByteStore
