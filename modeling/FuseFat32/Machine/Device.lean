import FuseFat32.Machine.Word

/-!
# The device the file system sees

The file system holds a `device::Device` and reaches its bytes only through sector objects. The model keeps two views of it: `value` is what a client reads through the sector cache, `stored` is what the backing file holds. `Sector::write_ptr` changes the first one, `Sector::sync` carries a sector over to the second. The array of sectors stands for the cached driver where `LinuxFileDriver` tells the sector numbers apart, which is below 4 GiB.
-/

namespace FuseFat32

/-- `SECTOR_SIZE`. -/
def sectorSize : Nat := 512

structure Device where
  secCnt : Nat
  /-- The byte at an offset of a sector, as clients see it. -/
  value : Nat → Nat → UInt8
  /-- The same byte in the backing file. -/
  stored : Nat → Nat → UInt8

/-- `readSector(sec_num)`: the bytes of the sector, or nothing past the end of the device. -/
def Device.readSector (d : Device) (sec_num : Nat) : Option (Nat → UInt8) :=
  if sec_num < d.secCnt then some (d.value sec_num) else none

/-- Bytes `buf` copied to offset `off` of a sector through `write_ptr`. -/
def Device.write (d : Device) (sec off : Nat) (buf : List UInt8) : Device :=
  { d with value := fun s i =>
      if s = sec ∧ off ≤ i ∧ i < off + buf.length then buf.getD (i - off) 0 else d.value s i }

/-- `Sector::sync`. -/
def Device.sync (d : Device) (sec : Nat) : Device :=
  { d with stored := fun s i => if s = sec then d.value s i else d.stored s i }

/-- `len` bytes from offset `off` of a sector. -/
def Device.bytes (d : Device) (sec off len : Nat) : List UInt8 :=
  (List.range len).map fun i => d.value sec (off + i)

section lemmas

variable (d : Device) (sec off : Nat) (buf : List UInt8)

theorem Device.readSector_eq_some {v : Nat → UInt8} :
    d.readSector sec = some v ↔ sec < d.secCnt ∧ v = d.value sec := by
  simp only [Device.readSector]
  split <;> simp [*, eq_comm]

theorem Device.readSector_of_lt (h : sec < d.secCnt) : d.readSector sec = some (d.value sec) :=
  if_pos h

theorem Device.readSector_of_ge (h : d.secCnt ≤ sec) : d.readSector sec = none :=
  if_neg (by omega)

@[simp] theorem Device.secCnt_write : (d.write sec off buf).secCnt = d.secCnt := rfl

@[simp] theorem Device.stored_write : (d.write sec off buf).stored = d.stored := rfl

@[simp] theorem Device.secCnt_sync : (d.sync sec).secCnt = d.secCnt := rfl

@[simp] theorem Device.value_sync : (d.sync sec).value = d.value := rfl

theorem Device.value_write_of_ne {s : Nat} (h : s ≠ sec) (i : Nat) :
    (d.write sec off buf).value s i = d.value s i := by
  simp [Device.write, h]

theorem Device.value_write_outside {i : Nat} (h : i < off ∨ off + buf.length ≤ i) (s : Nat) :
    (d.write sec off buf).value s i = d.value s i := by
  have hout : ¬ (s = sec ∧ off ≤ i ∧ i < off + buf.length) := by omega
  simp only [Device.write, if_neg hout]

theorem Device.value_write_inside {i : Nat} (hlo : off ≤ i) (hhi : i < off + buf.length) :
    (d.write sec off buf).value sec i = buf.getD (i - off) 0 := by
  simp [Device.write, hlo, hhi]

@[simp] theorem Device.length_bytes (len : Nat) : (d.bytes sec off len).length = len := by
  simp [Device.bytes]

/-! ### Words written to a sector -/

theorem Device.read32_write (w : Nat) :
    read32 ((d.write sec off (le32 w)).value sec) off = w % 2 ^ 32 := by
  have h0 : (d.write sec off (le32 w)).value sec off = UInt8.ofNat w := by
    rw [Device.value_write_inside _ _ _ _ (by omega) (by simp)]
    simp [le32]
  have h1 : (d.write sec off (le32 w)).value sec (off + 1) = UInt8.ofNat (w / 2 ^ 8) := by
    rw [Device.value_write_inside _ _ _ _ (by omega) (by simp)]
    simp [le32]
  have h2 : (d.write sec off (le32 w)).value sec (off + 2) = UInt8.ofNat (w / 2 ^ 16) := by
    rw [Device.value_write_inside _ _ _ _ (by omega) (by simp)]
    simp [le32]
  have h3 : (d.write sec off (le32 w)).value sec (off + 3) = UInt8.ofNat (w / 2 ^ 24) := by
    rw [Device.value_write_inside _ _ _ _ (by omega) (by simp)]
    simp [le32]
  simp only [read32, h0, h1, h2, h3, UInt8.toNat_ofNat']
  omega

end lemmas

end FuseFat32
