import Mathlib

/-!
# Finding the disk controller on the PCI bus

`pci_find_ahci` asks function 0 of every slot of every bus for its class and returns
the base of the first disk controller it meets, zero or not.  So a controller at
another function of its device is never seen, and one without an address hides those
behind it.  The search finds the first controller with an address, in the order of
bus, slot and function, exactly if the first one it looks at has the same base.
-/

namespace Pci

/-- The place of a function on the bus. -/
structure Location where
  bus : Fin 256
  slot : Fin 32
  func : Fin 8

/-- What the 64 configuration registers of each function hold; they read as all ones
where no function is present. -/
abbrev ConfigSpace := Location → Fin 64 → UInt32

/-- The first function comes before the second one. -/
def Location.before (l l' : Location) : Prop :=
  l.bus < l'.bus ∨ (l.bus = l'.bus ∧ (l.slot < l'.slot ∨ (l.slot = l'.slot ∧ l.func < l'.func)))

/-! ## Reading configuration registers -/

/-- The value written to `PCI_CONFIG_ADDRESS`. -/
def pciAddress (bus slot func offset : UInt8) : UInt32 :=
  bus.toUInt32 <<< 16 ||| slot.toUInt32 <<< 11 ||| func.toUInt32 <<< 8 |||
    offset.toUInt32 &&& 0xFC ||| 0x80000000

/-- What the host bridge delivers at `PCI_CONFIG_DATA` for an address; without the
enable bit nothing answers. -/
def configData (space : ConfigSpace) (address : UInt32) : UInt32 :=
  if address.toNat / 2 ^ 31 = 0 then 0xFFFFFFFF
  else space ⟨Fin.ofNat 256 (address.toNat / 2 ^ 16),
    ⟨address.toNat / 2 ^ 11 % 32, Nat.mod_lt _ (by decide)⟩,
    Fin.ofNat 8 (address.toNat / 2 ^ 8)⟩ (Fin.ofNat 64 (address.toNat / 4))

/-- `pci_read`: the register at the address that the four bytes encode. -/
def pciRead (space : ConfigSpace) (bus slot func offset : UInt8) : UInt32 :=
  configData space (pciAddress bus slot func offset)

/-! ## The search -/

/-- A counting loop that returns from its body: the first result on the numbers from `i`
on. -/
def firstResult {β : Type} (f : Nat → Option β) : Nat → Nat → Option β
  | _, 0 => none
  | i, fuel+1 =>
      match f i with
      | some b => some b
      | none => firstResult f (i + 1) fuel

/-- The body of the slot loop. -/
def probe (space : ConfigSpace) (bus slot : Nat) : Option UInt64 :=
  let vendor := pciRead space (UInt8.ofNat bus) (UInt8.ofNat slot) 0 0
  if vendor &&& 0xFFFF = 0xFFFF then none
  else
    let cls := pciRead space (UInt8.ofNat bus) (UInt8.ofNat slot) 0 8
    let classCode := (cls >>> 24 &&& 0xFF).toUInt8
    let subclass := (cls >>> 16 &&& 0xFF).toUInt8
    if classCode = 0x01 ∧ subclass = 0x06 then
      let bar5 := pciRead space (UInt8.ofNat bus) (UInt8.ofNat slot) 0 0x24
      some (bar5 &&& 0xFFFFFFF0).toUInt64
    else none

/-- `pci_find_ahci`: the first AHCI controller's memory address, or 0. -/
def pciFindAhci (space : ConfigSpace) : UInt64 :=
  (firstResult (fun bus => firstResult (probe space bus) 0 32) 0 256).getD 0

/-! ## What there is to find -/

/-- The vendor field of the function is not all ones. -/
def Present (space : ConfigSpace) (l : Location) : Prop := (space l 0).toNat % 2 ^ 16 ≠ 0xFFFF

/-- A function of class 01, subclass 06. -/
def Controller (space : ConfigSpace) (l : Location) : Prop :=
  Present space l ∧ (space l 2).toNat / 2 ^ 24 = 0x01 ∧ (space l 2).toNat / 2 ^ 16 % 256 = 0x06

/-- The masked BAR5 of a function. -/
def base (space : ConfigSpace) (l : Location) : UInt64 := (space l 9 &&& 0xFFFFFFF0).toUInt64

/-- A controller with an address. -/
def Usable (space : ConfigSpace) (l : Location) : Prop := Controller space l ∧ base space l ≠ 0

instance (space : ConfigSpace) (l : Location) : Decidable (Present space l) :=
  inferInstanceAs (Decidable (_ ≠ _))

instance (space : ConfigSpace) (l : Location) : Decidable (Controller space l) :=
  inferInstanceAs (Decidable (_ ∧ _))

instance (space : ConfigSpace) (l : Location) : Decidable (Usable space l) :=
  inferInstanceAs (Decidable (_ ∧ _))

/-- `l` is the first function with property `P`. -/
def First (P : Location → Prop) (l : Location) : Prop := P l ∧ ∀ l', l'.before l → ¬ P l'

/-- The address is nonzero exactly if there is a controller with an address, and then
it is that of the first one. -/
structure Discovers (space : ConfigSpace) (address : UInt64) : Prop where
  nonzero : address ≠ 0 ↔ ∃ l, Usable space l
  first : address ≠ 0 → ∃ l, First (Usable space) l ∧ address = base space l

/-- A controller that the search looks at. -/
def Seen (space : ConfigSpace) (l : Location) : Prop := l.func = 0 ∧ Controller space l

/-! ## Loops that return -/

/-- A scan that returns stopped at the first number with a result. -/
theorem firstResult_some {β : Type} {f : Nat → Option β} {i fuel : Nat} {b : β}
    (h : firstResult f i fuel = some b) :
    ∃ k, i ≤ k ∧ k < i + fuel ∧ f k = some b ∧ ∀ j, i ≤ j → j < k → f j = none := by
  induction fuel generalizing i with
  | zero => cases h
  | succ fuel ih =>
      rw [firstResult] at h
      cases hf : f i with
      | some c =>
          rw [hf] at h
          exact ⟨i, Nat.le_refl i, by omega, hf.trans h, fun j hlo hhi => by omega⟩
      | none =>
          rw [hf] at h
          obtain ⟨k, hlo, hhi, hk, hbefore⟩ := ih h
          refine ⟨k, by omega, by omega, hk, fun j hj hjk => ?_⟩
          by_cases hji : j = i
          · exact hji ▸ hf
          · exact hbefore j (by omega) hjk

/-- A scan that does not return found no result at any number. -/
theorem firstResult_none {β : Type} {f : Nat → Option β} {i fuel : Nat}
    (h : firstResult f i fuel = none) : ∀ k, i ≤ k → k < i + fuel → f k = none := by
  induction fuel generalizing i with
  | zero => exact fun k hlo hhi => by omega
  | succ fuel ih =>
      intro k hlo hhi
      rw [firstResult] at h
      cases hf : f i with
      | some c =>
          rw [hf] at h
          cases h
      | none =>
          rw [hf] at h
          by_cases hki : k = i
          · exact hki ▸ hf
          · exact ih h k (by omega) (by omega)

/-! ## What the search reads -/

/-- A field below another one is added to it. -/
theorem or_field {k lo : Nat} (hi : Nat) (h : lo < 2 ^ k) : 2 ^ k * hi ||| lo = 2 ^ k * hi + lo :=
  (Nat.two_pow_add_eq_or_of_lt h hi).symm

/-- The two low bits of the offset are dropped. -/
theorem and_offset : ∀ o, o < 256 → o &&& 252 = 4 * (o / 4) := by
  decide +kernel

/-- The fields of the address do not overlap. -/
theorem toNat_pciAddress {bus slot func : UInt8} (hslot : slot.toNat < 32)
    (hfunc : func.toNat < 8) (offset : UInt8) :
    (pciAddress bus slot func offset).toNat =
      2 ^ 31 + 2 ^ 16 * bus.toNat + 2 ^ 11 * slot.toNat + 2 ^ 8 * func.toNat +
        4 * (offset.toNat / 4) := by
  have hbus := bus.toNat_lt
  have hoffset := offset.toNat_lt
  have hfields : (pciAddress bus slot func offset).toNat =
      2 ^ 16 * bus.toNat ||| 2 ^ 11 * slot.toNat ||| 2 ^ 8 * func.toNat |||
        4 * (offset.toNat / 4) ||| 2 ^ 31 := by
    rw [← and_offset offset.toNat hoffset]
    simp only [pciAddress, UInt32.toNat_or, UInt32.toNat_and, UInt32.toNat_shiftLeft,
      UInt8.toNat_toUInt32, UInt32.reduceToNat, Nat.shiftLeft_eq, Nat.reduceMod, Nat.reducePow]
    congr 4 <;> omega
  have hbusSlot : 2 ^ 16 * bus.toNat + 2 ^ 11 * slot.toNat =
      2 ^ 11 * (32 * bus.toNat + slot.toNat) := by omega
  have hbusFunc : 2 ^ 11 * (32 * bus.toNat + slot.toNat) + 2 ^ 8 * func.toNat =
      2 ^ 8 * (256 * bus.toNat + 8 * slot.toNat + func.toNat) := by omega
  have henable : (2 : Nat) ^ 31 = 2 ^ 31 * 1 := rfl
  rw [hfields, or_field _ (by omega), hbusSlot, or_field _ (by omega), hbusFunc,
    or_field _ (by omega), Nat.lor_comm]
  nth_rewrite 1 [henable]
  rw [or_field _ (by omega)]
  omega

/-- The register of function `func` that a read delivers. -/
theorem pciRead_eq (space : ConfigSpace) {bus slot func : Nat} (hbus : bus < 256)
    (hslot : slot < 32) (hfunc : func < 8) (offset : UInt8) :
    pciRead space (UInt8.ofNat bus) (UInt8.ofNat slot) (UInt8.ofNat func) offset =
      space ⟨⟨bus, hbus⟩, ⟨slot, hslot⟩, ⟨func, hfunc⟩⟩ (Fin.ofNat 64 (offset.toNat / 4)) := by
  have hoffset := offset.toNat_lt
  have hb : (UInt8.ofNat bus).toNat = bus := by rw [UInt8.toNat_ofNat']; omega
  have hs : (UInt8.ofNat slot).toNat = slot := by rw [UInt8.toNat_ofNat']; omega
  have hf : (UInt8.ofNat func).toNat = func := by rw [UInt8.toNat_ofNat']; omega
  have haddr := @toNat_pciAddress (UInt8.ofNat bus) _ _ (hs ▸ hslot) (hf ▸ hfunc) offset
  rw [hb, hs, hf] at haddr
  have hbusField : Fin.ofNat 256 ((pciAddress (UInt8.ofNat bus) (UInt8.ofNat slot)
      (UInt8.ofNat func) offset).toNat / 2 ^ 16) = ⟨bus, hbus⟩ := by
    apply Fin.ext
    simp only [Fin.ofNat, haddr]
    omega
  have hslotField : (pciAddress (UInt8.ofNat bus) (UInt8.ofNat slot)
      (UInt8.ofNat func) offset).toNat / 2 ^ 11 % 32 = slot := by
    rw [haddr]
    omega
  have hfuncField : Fin.ofNat 8 ((pciAddress (UInt8.ofNat bus) (UInt8.ofNat slot)
      (UInt8.ofNat func) offset).toNat / 2 ^ 8) = ⟨func, hfunc⟩ := by
    apply Fin.ext
    simp only [Fin.ofNat, haddr]
    omega
  have hregister : Fin.ofNat 64 ((pciAddress (UInt8.ofNat bus) (UInt8.ofNat slot)
      (UInt8.ofNat func) offset).toNat / 4) = Fin.ofNat 64 (offset.toNat / 4) := by
    apply Fin.ext
    simp only [Fin.ofNat, haddr]
    omega
  rw [pciRead, configData, if_neg (by rw [haddr]; omega), hbusField, hfuncField, hregister]
  simp only [hslotField]

/-- The code's tests of the class register. -/
theorem classFields_iff (cls : UInt32) :
    ((cls >>> 24 &&& 0xFF).toUInt8 = 0x01 ∧ (cls >>> 16 &&& 0xFF).toUInt8 = 0x06) ↔
      (cls.toNat / 2 ^ 24 = 0x01 ∧ cls.toNat / 2 ^ 16 % 256 = 0x06) := by
  have hcls := cls.toNat_lt
  have hmask : ∀ x : Nat, x &&& 255 = x % 256 := fun x => Nat.and_two_pow_sub_one_eq_mod x 8
  rw [← UInt8.toNat_inj, ← UInt8.toNat_inj]
  simp only [UInt32.toNat_toUInt8, UInt32.toNat_and, UInt32.toNat_shiftRight, UInt32.reduceToNat,
    UInt8.reduceToNat, Nat.shiftRight_eq_div_pow, Nat.reduceMod, hmask]
  omega

/-- The code's test of the vendor register. -/
theorem vendor_iff (vendor : UInt32) :
    vendor &&& 0xFFFF = 0xFFFF ↔ vendor.toNat % 2 ^ 16 = 0xFFFF := by
  rw [← UInt32.toNat_inj, UInt32.toNat_and]
  simp only [UInt32.reduceToNat]
  rw [show vendor.toNat &&& 65535 = vendor.toNat % 2 ^ 16 from
    Nat.and_two_pow_sub_one_eq_mod _ 16]

/-- Function 0 of a slot. -/
def firstFunction (bus : Fin 256) (slot : Fin 32) : Location := ⟨bus, slot, 0⟩

/-- The loop body returns the base of function 0 if that is a controller. -/
theorem probe_eq (space : ConfigSpace) (bus : Fin 256) (slot : Fin 32) :
    probe space bus slot =
      if Controller space (firstFunction bus slot) then
        some (base space (firstFunction bus slot))
      else none := by
  have hread : ∀ offset : UInt8, pciRead space (UInt8.ofNat bus) (UInt8.ofNat slot) 0 offset =
      space (firstFunction bus slot) (Fin.ofNat 64 (offset.toNat / 4)) :=
    pciRead_eq space bus.isLt slot.isLt (by decide)
  unfold probe
  simp only [hread, vendor_iff, classFields_iff]
  by_cases hvendor : (space (firstFunction bus slot) 0).toNat % 2 ^ 16 = 0xFFFF
  · have habsent : ¬ Controller space (firstFunction bus slot) := fun hc => hc.1 hvendor
    rw [if_neg habsent]
    exact if_pos hvendor
  · by_cases hclass : (space (firstFunction bus slot) 2).toNat / 2 ^ 24 = 0x01 ∧
        (space (firstFunction bus slot) 2).toNat / 2 ^ 16 % 256 = 0x06
    · rw [if_pos (show Controller space (firstFunction bus slot) from ⟨hvendor, hclass⟩)]
      exact (if_neg hvendor).trans (if_pos hclass)
    · rw [if_neg (fun hc : Controller space (firstFunction bus slot) => hclass hc.2)]
      exact (if_neg hvendor).trans (if_neg hclass)

/-! ## The search as a whole -/

theorem First.unique {P : Location → Prop} {l l' : Location} (h : First P l) (h' : First P l') :
    l = l' := by
  have hnot : ¬ l'.before l := fun hb => h.2 l' hb h'.1
  have hnot' : ¬ l.before l' := fun hb => h'.2 l hb h.1
  unfold Location.before at hnot hnot'
  obtain ⟨bus, slot, func⟩ := l
  obtain ⟨bus', slot', func'⟩ := l'
  simp only [Location.mk.injEq]
  simp only [Fin.lt_def, Fin.ext_iff] at hnot hnot' ⊢
  omega

/-- A property that holds somewhere holds at a first place. -/
theorem exists_first {P : Location → Prop} {l : Location} (h : P l) : ∃ l, First P l := by
  induction hnum : 256 * l.bus.val + 8 * l.slot.val + l.func.val using Nat.strong_induction_on
    generalizing l with
  | h num ih =>
    by_cases hfirst : ∃ l', l'.before l ∧ P l'
    · obtain ⟨l', hbefore, hP⟩ := hfirst
      refine ih _ ?_ hP rfl
      have hslot := l'.slot.isLt
      have hfunc := l'.func.isLt
      simp only [Location.before, Fin.lt_def, Fin.ext_iff] at hbefore
      omega
    · exact ⟨l, h, fun l' hbefore hP => hfirst ⟨l', hbefore, hP⟩⟩

/-- **What the search returns**: the base of the first controller it looks at, and zero
if there is none. -/
theorem pciFindAhci_cases (space : ConfigSpace) :
    (∃ c, First (Seen space) c ∧ pciFindAhci space = base space c) ∨
      ((∀ c, ¬ Seen space c) ∧ pciFindAhci space = 0) := by
  have hprobe_none : ∀ l : Location, l.func = 0 → probe space l.bus l.slot = none →
      ¬ Controller space l := by
    intro l hfunc hnone hc
    rw [probe_eq, if_pos (by rw [firstFunction, ← hfunc]; exact hc)] at hnone
    cases hnone
  unfold pciFindAhci
  cases hbuses : firstResult (fun bus => firstResult (probe space bus) 0 32) 0 256 with
  | none =>
      refine Or.inr ⟨fun c hseen => ?_, rfl⟩
      have hslots := firstResult_none hbuses c.bus (Nat.zero_le _) (by have := c.bus.isLt; omega)
      have hnone := firstResult_none hslots c.slot (Nat.zero_le _) (by have := c.slot.isLt; omega)
      exact hprobe_none c hseen.1 hnone hseen.2
  | some address =>
      obtain ⟨bus, _, hbus, hslots, hbuses⟩ := firstResult_some hbuses
      obtain ⟨slot, _, hslot, hhit, hbefore⟩ := firstResult_some hslots
      have hprobe := probe_eq space ⟨bus, by omega⟩ ⟨slot, by omega⟩
      rw [hhit] at hprobe
      by_cases hc : Controller space (firstFunction ⟨bus, by omega⟩ ⟨slot, by omega⟩)
      · rw [if_pos hc] at hprobe
        refine Or.inl ⟨_, ⟨⟨rfl, hc⟩, fun l hl hseen => ?_⟩, Option.some.inj hprobe⟩
        have hnone : probe space l.bus l.slot = none := by
          rcases hl with hl | ⟨heq, hl | ⟨_, hl⟩⟩
          · exact firstResult_none (hbuses l.bus (Nat.zero_le _) hl) l.slot (Nat.zero_le _)
              (by have := l.slot.isLt; omega)
          · rw [heq]
            exact hbefore l.slot (Nat.zero_le _) hl
          · exact absurd hl (Fin.not_lt_zero _)
        exact hprobe_none l hseen.1 hnone hseen.2
      · rw [if_neg hc] at hprobe
        cases hprobe

/-- **PCI discovery.**  The search finds the first controller with an address exactly if,
where there is one, the first controller at a function 0 has the same base. -/
theorem pciFindAhci_discovers_iff (space : ConfigSpace) :
    Discovers space (pciFindAhci space) ↔
      ∀ u, First (Usable space) u → ∃ c, First (Seen space) c ∧ base space c = base space u := by
  constructor
  · intro h u hu
    have hne : pciFindAhci space ≠ 0 := h.nonzero.mpr ⟨u, hu.1⟩
    obtain ⟨l, hl, hbase⟩ := h.first hne
    rcases pciFindAhci_cases space with ⟨c, hc, haddr⟩ | ⟨_, hzero⟩
    · exact ⟨c, hc, by rw [← haddr, hbase, hl.unique hu]⟩
    · exact absurd hzero hne
  · intro h
    have hfound : ∀ u, First (Usable space) u → pciFindAhci space = base space u := by
      intro u hu
      obtain ⟨c, hc, hbase⟩ := h u hu
      rcases pciFindAhci_cases space with ⟨c', hc', haddr⟩ | ⟨hnone, _⟩
      · rw [haddr, hc'.unique hc, hbase]
      · exact absurd hc.1 (hnone c)
    have hexists : pciFindAhci space ≠ 0 → ∃ u, First (Usable space) u := by
      intro hne
      rcases pciFindAhci_cases space with ⟨c, hc, haddr⟩ | ⟨_, hzero⟩
      · exact exists_first (l := c) ⟨hc.1.2, haddr ▸ hne⟩
      · exact absurd hzero hne
    constructor
    case nonzero =>
      constructor
      · intro hne
        obtain ⟨u, hu⟩ := hexists hne
        exact ⟨u, hu.1⟩
      · intro husable
        obtain ⟨l, hl⟩ := husable
        obtain ⟨u, hu⟩ := exists_first hl
        rw [hfound u hu]
        exact hu.1.2
    case first =>
      intro hne
      obtain ⟨u, hu⟩ := hexists hne
      exact ⟨u, hu, hfound u hu⟩

/-- A bus whose only controller is function 2 of slot 31, behind a bridge at function 0
of the same device. -/
def chipsetSpace : ConfigSpace := fun l register =>
  if l.bus = 0 ∧ l.slot.val = 31 ∧ l.func = 0 then
    if register = 0 then 0x29188086 else if register = 2 then 0x06010002 else 0
  else if l.bus = 0 ∧ l.slot.val = 31 ∧ l.func = 2 then
    if register = 0 then 0x29228086 else if register = 2 then 0x01060102
    else if register = 9 then 0xFEBF1000 else 0
  else 0xFFFFFFFF

/-- That controller is not found. -/
theorem chipset_not_found :
    Usable chipsetSpace ⟨0, 31, 2⟩ ∧ base chipsetSpace ⟨0, 31, 2⟩ = 0xFEBF1000 ∧
      pciFindAhci chipsetSpace = 0 := by
  refine ⟨by decide, by decide, ?_⟩
  rcases pciFindAhci_cases chipsetSpace with ⟨c, hc, _⟩ | ⟨_, hzero⟩
  · obtain ⟨⟨hfunc, _, hclass, _⟩, _⟩ := hc
    have hbridge : chipsetSpace c 2 = 0x06010002 ∨ chipsetSpace c 2 = 0xFFFFFFFF := by
      unfold chipsetSpace
      by_cases hslot : c.bus = 0 ∧ c.slot.val = 31
      · exact Or.inl (if_pos ⟨hslot.1, hslot.2, hfunc⟩)
      · rw [if_neg (fun hall => hslot ⟨hall.1, hall.2.1⟩),
          if_neg (fun hall => hslot ⟨hall.1, hall.2.1⟩)]
        exact Or.inr rfl
    rcases hbridge with hcls | hcls
    · rw [hcls] at hclass
      exact absurd hclass (by decide)
    · rw [hcls] at hclass
      exact absurd hclass (by decide)
  · exact hzero

end Pci
