import FuseFat32.Machine.Word

/-!
# The Linux file driver

`LinuxFileDriver` serves sectors from a file or a block device with `lseek`, `read` and `write`. Its bounds check and its seek offset are products of `u32`s, while the size it compares with has 64 bits. The model keeps the system calls: a transfer records the file position a call starts at together with the bytes it moves.
-/

namespace FuseFat32

/-- The file or block device behind the driver. -/
structure BackingFile where
  len : Nat
  byte : Nat → UInt8

/-- One `read` or `write` system call: the position it starts at and the bytes it moves. -/
structure Transfer where
  offset : Nat
  bytes : List UInt8

/-- `read(fd, buf, n)` at position `offset`: it stops at the end of the file. -/
def BackingFile.read (f : BackingFile) (offset n : Nat) : Transfer :=
  ⟨offset, (List.range (min n (f.len - offset))).map fun i => f.byte (offset + i)⟩

/-- `write(fd, buf, n)` at position `offset`: a file that ends before the last byte grows. -/
def BackingFile.write (f : BackingFile) (offset : Nat) (buf : List UInt8) : BackingFile where
  len := max f.len (offset + buf.length)
  byte i := if offset ≤ i ∧ i < offset + buf.length then buf.getD (i - offset) 0 else f.byte i

structure LinuxFileDriver where
  file : BackingFile
  /-- The size found when the driver was made. -/
  deviceSz : Nat
  secSz : Nat

/-- The constructor: the size of the file is recorded once. -/
def LinuxFileDriver.new (file : BackingFile) (sec_sz : Nat) : LinuxFileDriver :=
  ⟨file, file.len, sec_sz⟩

@[simp] theorem LinuxFileDriver.new_file (file : BackingFile) (sec_sz : Nat) :
    (LinuxFileDriver.new file sec_sz).file = file := rfl

@[simp] theorem LinuxFileDriver.new_deviceSz (file : BackingFile) (sec_sz : Nat) :
    (LinuxFileDriver.new file sec_sz).deviceSz = file.len := rfl

@[simp] theorem LinuxFileDriver.new_secSz (file : BackingFile) (sec_sz : Nat) :
    (LinuxFileDriver.new file sec_sz).secSz = sec_sz := rfl

/-- `readSector`: the transfer that fills the new sector. -/
def LinuxFileDriver.readSector (d : LinuxFileDriver) (sec_num : Nat) : Exec (Option Transfer) :=
  if u32 (u32 (sec_num + 1) * d.secSz) > d.deviceSz then some none
  else do
    let offset := u32 (sec_num * d.secSz)
    -- `sector->read_ptr(0)`
    assert (0 < d.secSz)
    let sector := d.file.read offset d.secSz
    assert (sector.bytes.length = d.secSz)
    return some sector

/-- `writeSectorValue`: the transfer that stores the sector, and the driver after it. -/
def LinuxFileDriver.writeSectorValue (d : LinuxFileDriver) (sec_num : Nat) (buf : List UInt8) :
    Exec (Option Transfer × LinuxFileDriver) :=
  if u32 (u32 (sec_num + 1) * d.secSz) > d.deviceSz then some (none, d)
  else do
    let offset := u32 (sec_num * d.secSz)
    let sector := buf.take d.secSz
    assert (sector.length = d.secSz)
    return (some ⟨offset, sector⟩, { d with file := d.file.write offset sector })

/-! ### What a sector number has to mean -/

/-- A transfer that serves the sector: a successful read, or a successful write of a full buffer. -/
def LinuxFileDriver.Serves (d : LinuxFileDriver) (sec_num : Nat) (t : Transfer) : Prop :=
  d.readSector sec_num = some (some t) ∨
    ∃ buf d', buf.length = d.secSz ∧ d.writeSectorValue sec_num buf = some (some t, d')

/-- The calls for a sector succeed exactly when the sector lies inside the device, they move exactly its bytes, and none of them stops the process. -/
structure LinuxFileDriver.SectorExact (d : LinuxFileDriver) (sec_num : Nat) : Prop where
  read_returns : d.readSector sec_num ≠ none
  read_iff : (∃ t, d.readSector sec_num = some (some t)) ↔ (sec_num + 1) * d.secSz ≤ d.deviceSz
  write_returns : ∀ buf, buf.length = d.secSz → d.writeSectorValue sec_num buf ≠ none
  write_iff : ∀ buf, buf.length = d.secSz →
    ((∃ t d', d.writeSectorValue sec_num buf = some (some t, d')) ↔
      (sec_num + 1) * d.secSz ≤ d.deviceSz)
  range : ∀ t, d.Serves sec_num t → t.offset = sec_num * d.secSz ∧ t.bytes.length = d.secSz

/-- The sector numbers whose 32-bit arithmetic does no harm: the end of the sector does not reach 4 GiB, or its truncated end already fails the bounds check, or only the end wraps and the device really is that large. -/
def SectorInReach (device_sz sec_sz sec_num : Nat) : Prop :=
  (sec_num + 1) * sec_sz < 2 ^ 32 ∨ device_sz < u32 ((sec_num + 1) * sec_sz) ∨
    ((sec_num + 1) * sec_sz ≤ device_sz ∧ sec_num * sec_sz < 2 ^ 32)

instance (device_sz sec_sz sec_num : Nat) : Decidable (SectorInReach device_sz sec_sz sec_num) :=
  inferInstanceAs (Decidable (_ ∨ _ ∨ _))

/-- In reach the bounds check decides: what it turns down lies outside, and what it accepts lies inside and starts below 4 GiB. -/
theorem SectorInReach.rejected_or_served {device_sz sec_sz sec_num : Nat}
    (h : SectorInReach device_sz sec_sz sec_num) : device_sz < u32 ((sec_num + 1) * sec_sz) ∨
      (u32 ((sec_num + 1) * sec_sz) ≤ device_sz ∧ (sec_num + 1) * sec_sz ≤ device_sz ∧
        sec_num * sec_sz < 2 ^ 32) := by
  by_cases hchk : u32 ((sec_num + 1) * sec_sz) ≤ device_sz
  · have hmul : (sec_num + 1) * sec_sz = sec_num * sec_sz + sec_sz := by ring
    rcases h with hsmall | hrej | ⟨hin, hoff⟩
    · exact .inr ⟨hchk, by rwa [u32_of_lt hsmall] at hchk, by omega⟩
    · omega
    · exact .inr ⟨hchk, hin, hoff⟩
  · exact .inl (by omega)

/-- The bounds check truncates the mathematical end of the sector. -/
theorem u32_end (sec_num sec_sz : Nat) :
    u32 (u32 (sec_num + 1) * sec_sz) = u32 ((sec_num + 1) * sec_sz) := by
  simp only [u32, Nat.mod_mul_mod]

theorem BackingFile.length_read (f : BackingFile) (offset n : Nat) :
    (f.read offset n).bytes.length = min n (f.len - offset) := by
  simp [BackingFile.read]

section calls

variable (file : BackingFile) {sec_sz sec_num : Nat}

theorem LinuxFileDriver.readSector_reject (h : file.len < u32 ((sec_num + 1) * sec_sz)) :
    (LinuxFileDriver.new file sec_sz).readSector sec_num = some none := by
  rw [LinuxFileDriver.readSector, u32_end, if_pos (by simpa using h)]

theorem LinuxFileDriver.readSector_accept (hsz : 0 < sec_sz)
    (h : u32 ((sec_num + 1) * sec_sz) ≤ file.len) :
    (LinuxFileDriver.new file sec_sz).readSector sec_num =
      if u32 (sec_num * sec_sz) + sec_sz ≤ file.len then
        some (some (file.read (u32 (sec_num * sec_sz)) sec_sz))
      else none := by
  rw [LinuxFileDriver.readSector, u32_end, if_neg (by simpa using h)]
  have hfull : min sec_sz (file.len - u32 (sec_num * sec_sz)) = sec_sz ↔
      u32 (sec_num * sec_sz) + sec_sz ≤ file.len := by omega
  by_cases hend : u32 (sec_num * sec_sz) + sec_sz ≤ file.len
  · simp [hsz, BackingFile.length_read, hfull.mpr hend, hend]
  · simp [hsz, BackingFile.length_read, hfull, hend]

theorem LinuxFileDriver.writeSectorValue_reject (buf : List UInt8)
    (h : file.len < u32 ((sec_num + 1) * sec_sz)) :
    (LinuxFileDriver.new file sec_sz).writeSectorValue sec_num buf =
      some (none, LinuxFileDriver.new file sec_sz) := by
  rw [LinuxFileDriver.writeSectorValue, u32_end, if_pos (by simpa using h)]

theorem LinuxFileDriver.writeSectorValue_accept {buf : List UInt8} (hbuf : buf.length = sec_sz)
    (h : u32 ((sec_num + 1) * sec_sz) ≤ file.len) :
    (LinuxFileDriver.new file sec_sz).writeSectorValue sec_num buf =
      some (some ⟨u32 (sec_num * sec_sz), buf⟩,
        { LinuxFileDriver.new file sec_sz with file := file.write (u32 (sec_num * sec_sz)) buf }) := by
  rw [LinuxFileDriver.writeSectorValue, u32_end, if_neg (by simpa using h)]
  simp [← hbuf]

theorem LinuxFileDriver.Serves.offset_eq (hsz : 0 < sec_sz) {t : Transfer}
    (ht : (LinuxFileDriver.new file sec_sz).Serves sec_num t) :
    u32 ((sec_num + 1) * sec_sz) ≤ file.len ∧ t.offset = u32 (sec_num * sec_sz) ∧
      t.bytes.length = sec_sz := by
  by_cases hchk : u32 ((sec_num + 1) * sec_sz) ≤ file.len
  · refine ⟨hchk, ?_⟩
    rcases ht with hread | ⟨buf, d', hfull, hwrite⟩
    · rw [LinuxFileDriver.readSector_accept file hsz hchk] at hread
      split at hread
      · next hend =>
        obtain rfl : file.read (u32 (sec_num * sec_sz)) sec_sz = t := by simpa using hread
        refine ⟨rfl, ?_⟩
        rw [BackingFile.length_read]
        omega
      · simp at hread
    · have hbuf : buf.length = sec_sz := hfull
      rw [LinuxFileDriver.writeSectorValue_accept file hbuf hchk] at hwrite
      simp only [Option.some.injEq, Prod.mk.injEq] at hwrite
      obtain ⟨rfl, -⟩ := hwrite
      exact ⟨rfl, hbuf⟩
  · rcases ht with hread | ⟨buf, d', -, hwrite⟩
    · rw [LinuxFileDriver.readSector_reject file (by omega)] at hread
      simp at hread
    · rw [LinuxFileDriver.writeSectorValue_reject file buf (by omega)] at hwrite
      simp at hwrite

end calls

private theorem LinuxFileDriver.sectorExact_of_reject (file : BackingFile) {sec_sz sec_num : Nat}
    (hsz : 0 < sec_sz) (h : file.len < u32 ((sec_num + 1) * sec_sz)) :
    (LinuxFileDriver.new file sec_sz).SectorExact sec_num := by
  have hle : u32 ((sec_num + 1) * sec_sz) ≤ (sec_num + 1) * sec_sz := Nat.mod_le _ _
  have hout : ¬ (sec_num + 1) * sec_sz ≤ file.len := by omega
  constructor
  · simp [LinuxFileDriver.readSector_reject file h]
  · simp [LinuxFileDriver.readSector_reject file h, hout]
  · intro buf _
    simp [LinuxFileDriver.writeSectorValue_reject file buf h]
  · intro buf _
    simp [LinuxFileDriver.writeSectorValue_reject file buf h, hout]
  · intro t ht
    exact absurd (ht.offset_eq file hsz).1 (by omega)

private theorem LinuxFileDriver.sectorExact_of_exact (file : BackingFile) {sec_sz sec_num : Nat}
    (hsz : 0 < sec_sz) (hchk : u32 ((sec_num + 1) * sec_sz) ≤ file.len)
    (hin : (sec_num + 1) * sec_sz ≤ file.len) (hoff : sec_num * sec_sz < 2 ^ 32) :
    (LinuxFileDriver.new file sec_sz).SectorExact sec_num := by
  have hoff' : u32 (sec_num * sec_sz) = sec_num * sec_sz := u32_of_lt hoff
  have hend : u32 (sec_num * sec_sz) + sec_sz ≤ file.len := by
    rw [hoff']
    simpa [Nat.add_mul] using hin
  constructor
  · rw [LinuxFileDriver.readSector_accept file hsz hchk, if_pos hend]
    simp
  · rw [LinuxFileDriver.readSector_accept file hsz hchk, if_pos hend]
    simp [hin]
  · intro buf (hbuf : buf.length = sec_sz)
    rw [LinuxFileDriver.writeSectorValue_accept file hbuf hchk]
    simp
  · intro buf (hbuf : buf.length = sec_sz)
    rw [LinuxFileDriver.writeSectorValue_accept file hbuf hchk]
    simp [hin]
  · intro t ht
    obtain ⟨-, hpos, hlen⟩ := ht.offset_eq file hsz
    exact ⟨hpos.trans hoff', hlen⟩

/-- A sector number is served as it should be exactly when it is in reach, and two different numbers in reach never touch the same byte. -/
theorem LinuxFileDriver.sectorExact_iff (file : BackingFile) (sec_sz sec_num : Nat)
    (hsz : 0 < sec_sz) :
    ((LinuxFileDriver.new file sec_sz).SectorExact sec_num ↔
        SectorInReach file.len sec_sz sec_num) ∧
      ∀ other t t', other ≠ sec_num → SectorInReach file.len sec_sz sec_num →
        SectorInReach file.len sec_sz other →
        (LinuxFileDriver.new file sec_sz).Serves sec_num t →
        (LinuxFileDriver.new file sec_sz).Serves other t' →
        t.offset + t.bytes.length ≤ t'.offset ∨ t'.offset + t'.bytes.length ≤ t.offset := by
  have exact_of_reach : ∀ s, SectorInReach file.len sec_sz s →
      (LinuxFileDriver.new file sec_sz).SectorExact s := by
    intro s hreach
    rcases hreach.rejected_or_served with hrej | ⟨hchk, hin, hoff⟩
    · exact LinuxFileDriver.sectorExact_of_reject file hsz hrej
    · exact LinuxFileDriver.sectorExact_of_exact file hsz hchk hin hoff
  refine ⟨⟨fun hexact => ?_, exact_of_reach sec_num⟩, ?_⟩
  · by_contra hreach
    simp only [SectorInReach, not_or, not_and, not_lt] at hreach
    obtain ⟨hbig, hchk, hwrap⟩ := hreach
    -- a full buffer passes the check, so the sector has to lie inside the device and start below 4 GiB
    have hbuf : (List.replicate sec_sz (0 : UInt8)).length = sec_sz := List.length_replicate
    have hwrite := LinuxFileDriver.writeSectorValue_accept file hbuf hchk
    have hin := (hexact.write_iff _ hbuf).mp ⟨_, _, hwrite⟩
    have hoff := (hexact.range _ (.inr ⟨_, _, hbuf, hwrite⟩)).1
    have hlt : sec_num * sec_sz < 2 ^ 32 := by
      change u32 (sec_num * sec_sz) = sec_num * sec_sz at hoff
      rw [← hoff]
      exact u32_lt _
    exact absurd (hwrap hin) (by omega)
  · intro other t t' hne hreach hreach' ht ht'
    obtain ⟨hpos, hlen⟩ := (exact_of_reach sec_num hreach).range t ht
    obtain ⟨hpos', hlen'⟩ := (exact_of_reach other hreach').range t' ht'
    change t.offset = sec_num * sec_sz at hpos
    change t.bytes.length = sec_sz at hlen
    change t'.offset = other * sec_sz at hpos'
    change t'.bytes.length = sec_sz at hlen'
    rw [hpos, hlen, hpos', hlen']
    have hstep : ∀ a b : Nat, a < b → a * sec_sz + sec_sz ≤ b * sec_sz := fun a b hab => by
      calc a * sec_sz + sec_sz = (a + 1) * sec_sz := by ring
        _ ≤ b * sec_sz := Nat.mul_le_mul_right _ hab
    rcases Nat.lt_or_gt_of_ne hne with hlt | hgt
    · exact .inr (hstep other sec_num hlt)
    · exact .inl (hstep sec_num other hgt)

theorem LinuxFileDriver.sectorExact_iff_first_mebibyte :
    (LinuxFileDriver.new ⟨2 ^ 20, fun _ => 0⟩ 512).SectorExact 7 :=
  ((LinuxFileDriver.sectorExact_iff ⟨2 ^ 20, fun _ => 0⟩ 512 7 (by decide)).1).mpr (by decide)

/-- On a device of 4 GiB and one sector, sector `2 ^ 23` starts inside the device but is read at offset 0. -/
theorem LinuxFileDriver.not_sectorExact_past_4GiB :
    ¬ (LinuxFileDriver.new ⟨2 ^ 32 + 512, fun _ => 0⟩ 512).SectorExact (2 ^ 23) := by
  intro hexact
  have hread := LinuxFileDriver.readSector_accept ⟨2 ^ 32 + 512, fun _ => 0⟩
    (show 0 < 512 by decide) (show u32 ((2 ^ 23 + 1) * 512) ≤ 2 ^ 32 + 512 by decide)
  rw [if_pos (by decide)] at hread
  have hoff := (hexact.range _ (.inl hread)).1
  revert hoff
  decide

end FuseFat32
