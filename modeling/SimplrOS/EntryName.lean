import SimplrOS.AddStages
import SimplrOS.FssoReader

/-!
# Names in directory entries

The writer stores a C string cut to 255 characters, with a NUL behind it; the
reader compares an entry with a whole C string.  So an entry matches exactly the
name it holds, and a longer name than it can hold never matches its own entry.
-/

namespace Fsso

open ByteStore

/-- The characters of a C string, up to its NUL. -/
def cName (name : List UInt8) : List UInt8 := name.takeWhile (· ≠ 0)

/-- What an entry keeps of a name. -/
def storedName (name : List UInt8) : List UInt8 := (cName name).take fssoMaxFilename

/-- At most 255 characters are stored. -/
theorem length_storedName_le (name : List UInt8) : (storedName name).length ≤ 255 :=
  List.length_take_le _ _

theorem cName_cons {c : UInt8} (hc : c ≠ 0) (rest : List UInt8) :
    cName (c :: rest) = c :: cName rest := by
  simp [cName, hc]

theorem cName_nul (rest : List UInt8) : cName (0 :: rest) = [] := by
  simp [cName]

/-- A string has no NUL in it. -/
theorem ne_zero_of_mem_cName {name : List UInt8} : ∀ c ∈ cName name, c ≠ 0 := by
  intro c hc
  simpa using List.mem_takeWhile_imp hc

/-- Without a NUL the whole list is the string. -/
theorem cName_of_nulFree {name : List UInt8} (h : ∀ c ∈ name, c ≠ 0) : cName name = name :=
  List.takeWhile_eq_self_iff.mpr fun c hc => by simpa using h c hc

/-- A stored name has no NUL in it. -/
theorem ne_zero_of_mem_storedName {name : List UInt8} : ∀ c ∈ storedName name, c ≠ 0 :=
  fun c hc => ne_zero_of_mem_cName c (List.mem_of_mem_take hc)

/-! ## The writer -/

/-- What the name loop stores, for any room. -/
theorem copyName_apply (disk : Bytes) (pos room : Nat) (name : List UInt8) :
    HoldsString (copyName disk pos room name) pos ((cName name).take room) ∧
      ∀ x, x < pos ∨ pos + ((cName name).take room).length < x →
        copyName disk pos room name x = disk x := by
  induction room generalizing disk pos name with
  | zero => exact put_nul disk pos
  | succ room ih =>
      cases name with
      | nil => exact put_nul disk pos
      | cons c rest =>
          rw [copyName]
          by_cases hc : c = 0
          · rw [if_pos hc, hc, cName_nul]
            exact put_nul disk pos
          · rw [if_neg hc, cName_cons hc, List.take_succ_cons]
            obtain ⟨⟨hchars, hnul⟩, hout⟩ := ih (put disk pos c) (pos + 1) rest
            rw [List.length_cons]
            refine ⟨⟨?_, ?_⟩, ?_⟩
            · intro i hi
              cases i with
              | zero =>
                  change copyName (put disk pos c) (pos + 1) room rest pos = c
                  rw [hout pos (by omega), put_same]
              | succ i =>
                  have hi' : i < ((cName rest).take room).length := by simpa using hi
                  have hplace : pos + (i + 1) = pos + 1 + i := by omega
                  rw [hplace, hchars i hi', List.getElem_cons_succ]
            · have hplace : pos + (((cName rest).take room).length + 1) =
                  pos + 1 + ((cName rest).take room).length := by omega
              rw [List.length_cons, hplace, hnul]
            · intro x hx
              rw [hout x (by omega), put_ne _ _ (by omega)]

/-- The entry written by a call holds its name. -/
theorem linkEntry_name (disk : Bytes) (n slot found : Nat) (name : List UInt8)
    (hroot : 28 ≤ rootBase disk) :
    HoldsString (linkEntry disk n slot name found) (entryAddr (rootBase disk) slot + 4)
      (storedName name) := by
  have haddr := entryAddr_eq (rootBase disk) slot
  obtain ⟨hname, _⟩ := copyName_apply
    (putWord32 disk (entryAddr (rootBase disk) slot) (UInt32.ofNat n))
    (entryAddr (rootBase disk) slot + 4) fssoMaxFilename name
  refine hname.congr fun i _ => ?_
  simp only [linkEntry]
  rw [putWord32_of_out _ _ (by omega), putWord32_of_out _ _ (by omega)]

/-- The bytes a call writes into an entry are the inode number, the name and
its NUL; the rest of the entry keeps its bytes. -/
theorem linkEntry_of_unwritten (disk : Bytes) {n slot found x : Nat} (name : List UInt8)
    (hcount : x < 20 ∨ 28 ≤ x)
    (hentry : x < entryAddr (rootBase disk) slot ∨
      entryAddr (rootBase disk) slot + 4 + (storedName name).length < x) :
    linkEntry disk n slot name found x = disk x := by
  obtain ⟨_, hout⟩ := copyName_apply
    (putWord32 disk (entryAddr (rootBase disk) slot) (UInt32.ofNat n))
    (entryAddr (rootBase disk) slot + 4) fssoMaxFilename name
  rw [storedName] at hentry
  simp only [linkEntry]
  rw [putWord32_of_out _ _ (by omega), putWord32_of_out _ _ (by omega), hout x (by omega),
    putWord32_of_out _ _ (by omega)]

/-! ## The reader -/

/-- **Name comparison.**  An entry that holds `s` matches exactly the C string
`s`. -/
theorem nameMatches_iff {buffer : Bytes} {pos : Nat} {s : List UInt8} (hs : ∀ c ∈ s, c ≠ 0)
    (h : HoldsString buffer pos s) (name : List UInt8) :
    nameMatches buffer pos name = true ↔ s = cName name := by
  induction name generalizing pos s with
  | nil =>
      cases s with
      | nil => simpa [nameMatches, cName] using h.nul
      | cons c s =>
          have hne := hs c List.mem_cons_self
          simp [nameMatches, cName, h.head, hne]
  | cons d rest ih =>
      cases s with
      | nil =>
          have hnul := h.nul
          simp only [List.length_nil, Nat.add_zero] at hnul
          by_cases hd : d = 0
          · simp [nameMatches, hnul, hd, cName]
          · simp [nameMatches, hnul, hd, cName, Ne.symm hd]
      | cons c s =>
          have hc := hs c List.mem_cons_self
          have hrec := ih (fun e he => hs e (List.mem_cons_of_mem _ he)) h.tail
          rw [nameMatches, h.head, if_neg (fun hboth => hc hboth.1)]
          by_cases hcd : c = d
          · subst hcd
            rw [if_neg (fun hne => hne rfl), hrec, cName_cons hc]
            simp
          · rw [if_pos hcd]
            by_cases hd : d = 0
            · simp [hd, cName]
            · rw [cName_cons hd]
              simp [hcd]

end Fsso
