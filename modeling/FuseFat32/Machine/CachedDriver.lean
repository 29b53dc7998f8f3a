import FuseFat32.Machine.SectorCache

/-!
# The cached file driver

`CacheManager` over `LinuxFileDriver` is the device the file system is mounted on. For the sector numbers its 32-bit arithmetic can tell apart the driver is an array of sectors, so the cache over it is one as well.
-/

namespace FuseFat32

/-- The driver below a cache. For a sector in reach no system call of its comes back short. -/
def LinuxFileDriver.inner : InnerDevice LinuxFileDriver where
  readSector d sec_num := (d.readSector sec_num).join.map Transfer.bytes
  writeSectorValue d sec_num buf := ((d.writeSectorValue sec_num buf).map Prod.snd).getD d

/-- The sector numbers the driver can tell apart. -/
def BackingFile.sectors (file : BackingFile) (sec_sz : Nat) : Set Nat :=
  {n | SectorInReach file.len sec_sz n}

namespace BackingFile

variable {file : BackingFile} {off off' n : Nat} {buf : List UInt8}

theorem len_write (hend : off + buf.length ≤ file.len) : (file.write off buf).len = file.len := by
  simp only [write]
  omega

private theorem read_write_self (hn : buf.length = n) : ((file.write off buf).read off n).bytes = buf := by
  subst hn
  have hlen : min buf.length (max file.len (off + buf.length) - off) = buf.length := by omega
  simp only [read, write, hlen]
  apply List.ext_getElem (by simp)
  intro i hi hi'
  simp [hi']

private theorem read_write_other (hend : off + buf.length ≤ file.len)
    (hsep : off + buf.length ≤ off' ∨ off' + n ≤ off) :
    ((file.write off buf).read off' n).bytes = (file.read off' n).bytes := by
  have hlen : max file.len (off + buf.length) = file.len := by omega
  simp only [read, write, hlen]
  apply List.map_congr_left
  intro i hi
  have := List.mem_range.mp hi
  exact if_neg (by omega)

end BackingFile

namespace LinuxFileDriver

variable {file : BackingFile} {sec_sz n m : Nat} {buf : List UInt8}

theorem inner_readSector (hsz : 0 < sec_sz) (hn : n ∈ file.sectors sec_sz) :
    inner.readSector (.new file sec_sz) n =
      if (n + 1) * sec_sz ≤ file.len then some (file.read (n * sec_sz) sec_sz).bytes else none := by
  have hn : SectorInReach file.len sec_sz n := hn
  have hle : u32 ((n + 1) * sec_sz) ≤ (n + 1) * sec_sz := Nat.mod_le _ _
  have hmul : (n + 1) * sec_sz = n * sec_sz + sec_sz := by ring
  rcases hn.rejected_or_served with hrej | ⟨hchk, hin, hoff⟩
  · rw [if_neg (by omega), inner]
    dsimp only
    rw [readSector_reject file hrej]
    rfl
  · rw [if_pos hin, inner]
    dsimp only
    rw [readSector_accept file hsz hchk, u32_of_lt hoff, if_pos (by omega)]
    rfl

theorem inner_writeSectorValue (hn : n ∈ file.sectors sec_sz) (hin : (n + 1) * sec_sz ≤ file.len)
    (hbuf : buf.length = sec_sz) :
    inner.writeSectorValue (.new file sec_sz) n buf = .new (file.write (n * sec_sz) buf) sec_sz := by
  have hn : SectorInReach file.len sec_sz n := hn
  have hle : u32 ((n + 1) * sec_sz) ≤ (n + 1) * sec_sz := Nat.mod_le _ _
  have hmul : (n + 1) * sec_sz = n * sec_sz + sec_sz := by ring
  rcases hn.rejected_or_served with hrej | ⟨hchk, -, hoff⟩
  · omega
  · rw [inner]
    dsimp only
    rw [writeSectorValue_accept file hbuf hchk, u32_of_lt hoff, Option.map_some, Option.getD_some, new, new]
    rw [BackingFile.len_write (by omega)]

/-- The driver stores an array of sectors. -/
theorem inner_lawful (hsz : 0 < sec_sz) :
    inner.Lawful sec_sz (file.sectors sec_sz) fun d => ∃ f, f.len = file.len ∧ d = .new f sec_sz := by
  have hsome : ∀ {f : BackingFile} {n}, f.len = file.len → n ∈ file.sectors sec_sz →
      (inner.readSector (.new f sec_sz) n).isSome → n ∈ f.sectors sec_sz ∧ (n + 1) * sec_sz ≤ f.len := by
    intro f n hlen hn hsome
    have hn' : n ∈ f.sectors sec_sz := by
      rw [BackingFile.sectors, hlen]
      exact hn
    refine ⟨hn', ?_⟩
    rw [inner_readSector hsz hn'] at hsome
    split at hsome
    · assumption
    · exact absurd hsome (by simp)
  have hread : ∀ {f : BackingFile} {n}, f.len = file.len → n ∈ file.sectors sec_sz →
      inner.readSector (.new f sec_sz) n =
        if (n + 1) * sec_sz ≤ f.len then some (f.read (n * sec_sz) sec_sz).bytes else none := by
    intro f n hlen hn
    refine inner_readSector hsz ?_
    rw [BackingFile.sectors, hlen]
    exact hn
  constructor
  · rintro _ n b ⟨f, hlen, rfl⟩ hn hb
    rw [hread hlen hn] at hb
    split at hb
    · next hin =>
      obtain rfl := Option.some.inj hb
      rw [BackingFile.length_read]
      have hmul : (n + 1) * sec_sz = n * sec_sz + sec_sz := by ring
      omega
    · exact absurd hb (by simp)
  · rintro _ n b ⟨f, hlen, rfl⟩ hn hsm hb
    obtain ⟨hn', hin⟩ := hsome hlen hn hsm
    have hmul : (n + 1) * sec_sz = n * sec_sz + sec_sz := by ring
    exact ⟨_, (BackingFile.len_write (by omega)).trans hlen, inner_writeSectorValue hn' hin hb⟩
  · rintro _ n b ⟨f, hlen, rfl⟩ hn hsm hb
    obtain ⟨hn', hin⟩ := hsome hlen hn hsm
    have hmul : (n + 1) * sec_sz = n * sec_sz + sec_sz := by ring
    have hlen' : (f.write (n * sec_sz) b).len = f.len := BackingFile.len_write (by omega)
    rw [inner_writeSectorValue hn' hin hb, hread (hlen'.trans hlen) hn, if_pos (by omega),
      BackingFile.read_write_self hb]
  · rintro _ n m b ⟨f, hlen, rfl⟩ hn hm hne hsm hb
    obtain ⟨hn', hin⟩ := hsome hlen hn hsm
    have hmul : (n + 1) * sec_sz = n * sec_sz + sec_sz := by ring
    have hlen' : (f.write (n * sec_sz) b).len = f.len := BackingFile.len_write (by omega)
    rw [inner_writeSectorValue hn' hin hb, hread (hlen'.trans hlen) hm, hread hlen hm, hlen',
      BackingFile.read_write_other (by omega)]
    have hstep : ∀ {a c : Nat}, a < c → a * sec_sz + sec_sz ≤ c * sec_sz := fun {a c} hac => by
      calc a * sec_sz + sec_sz = (a + 1) * sec_sz := by ring
        _ ≤ c * sec_sz := Nat.mul_le_mul_right _ hac
    rcases Nat.lt_or_gt_of_ne hne with hlt | hgt
    · exact .inr (hstep hlt)
    · exact .inl (hb.symm ▸ hstep hgt)

end LinuxFileDriver

theorem CacheManager.Run.next {δ : Type} {dev : InnerDevice δ} {reach : Set Nat} {s₀ s : CacheManager δ}
    {events : List SectorEvent} {call : SectorCall} (hrun : Run dev reach s₀ events s)
    (hcons : call.Considerate reach s) (hcall : (call.run dev s).isSome) :
    Run dev reach s₀ (events ++ ((call.run dev s).get hcall).1.toList) ((call.run dev s).get hcall).2 :=
  .call hrun hcons (Option.some_get hcall).symm

/-- Clients of the cached driver that ask for sectors in reach and drop their handles before a sector is read again see a plain array, and `clear` leaves its sectors on the file, those aside that are still held with bytes to write. -/
theorem LinuxFileDriver.cached_actsAsArray (file : BackingFile) (sec_sz : Nat) (hsz : 0 < sec_sz)
    (cache_sz : Nat) (events : List SectorEvent) (s : CacheManager LinuxFileDriver)
    (hrun : CacheManager.Run inner (file.sectors sec_sz) (.new (.new file sec_sz) cache_sz) events s) :
    s.ActsAsArray inner (file.sectors sec_sz) (.new file sec_sz) events s.heldSectors :=
  CacheManager.run_plain_array inner sec_sz _ _ (inner_lawful hsz) _ ⟨file, rfl, rfl⟩ cache_sz events s hrun

/-- A cache of one sector: sector 0 is written and let go, sector 1 takes its place. -/
theorem LinuxFileDriver.cached_actsAsArray_one_sector :
    ∃ (events : List SectorEvent) (s : CacheManager LinuxFileDriver), events.length = 3 ∧
      s.ActsAsArray inner (BackingFile.sectors ⟨1024, fun _ => 0⟩ 512) (.new ⟨1024, fun _ => 0⟩ 512) events
        s.heldSectors := by
  let file : BackingFile := ⟨1024, fun _ => 0⟩
  have hin : ∀ n < 2, n ∈ file.sectors 512 := by
    change ∀ n < 2, SectorInReach 1024 512 n
    decide
  have h₀ : CacheManager.Run inner (file.sectors 512) (.new (.new file 512) 1) [] _ := .nil
  have h₁ := h₀.next (show (SectorCall.readSector 0).Considerate _ _ from
    ⟨hin 0 (by decide), fun _ id hid => absurd hid List.not_mem_nil⟩) (by decide +kernel)
  have h₂ := h₁.next (show (SectorCall.writePtr 0 0 [7]).Considerate _ _ from trivial) (by decide +kernel)
  have h₃ := h₂.next (show (SectorCall.drop 0).Considerate _ _ from trivial) (by decide +kernel)
  have h₄ := h₃.next (show (SectorCall.readSector 1).Considerate _ _ from
    ⟨hin 1 (by decide), fun _ => by decide +kernel⟩) (by decide +kernel)
  exact ⟨_, _, by decide +kernel, cached_actsAsArray file 512 (by decide) 1 _ _ h₄⟩

/-- Both limits are needed. A sector whose handle outlives `clear` is not on the file yet, and a sector that starts at 4 GiB shows what was written to sector 0. -/
theorem LinuxFileDriver.cached_not_actsAsArray :
    (∃ (file : BackingFile) (events : List SectorEvent) (s : CacheManager LinuxFileDriver),
      CacheManager.Run inner (file.sectors 512) (.new (.new file 512) 1) events s ∧
        ¬ s.ActsAsArray inner (file.sectors 512) (.new file 512) events ∅) ∧
    ∃ (file : BackingFile) (events : List SectorEvent) (s : CacheManager LinuxFileDriver),
      CacheManager.Run inner {n | (n + 1) * 512 ≤ file.len} (.new (.new file 512) 1) events s ∧
        ¬ s.ActsAsArray inner {n | (n + 1) * 512 ≤ file.len} (.new file 512) events s.heldSectors := by
  constructor
  · let file : BackingFile := ⟨1024, fun _ => 0⟩
    have hin : 0 ∈ file.sectors 512 := by
      change SectorInReach 1024 512 0
      decide
    have h₀ : CacheManager.Run inner (file.sectors 512) (.new (.new file 512) 1) [] _ := .nil
    have h₁ := h₀.next (show (SectorCall.readSector 0).Considerate _ _ from
      ⟨hin, fun _ id hid => absurd hid List.not_mem_nil⟩) (by decide +kernel)
    have h₂ := h₁.next (show (SectorCall.writePtr 0 0 [7]).Considerate _ _ from trivial) (by decide +kernel)
    refine ⟨file, _, _, h₂, ?_⟩
    rintro ⟨a, ha, hdev⟩
    have hb := congrArg (Option.bind · (fun a => a 0)) ha
    simp only [Option.bind_some] at hb
    rw [← hdev 0 hin (Set.notMem_empty 0)] at hb
    revert hb
    decide +kernel
  · let file : BackingFile := ⟨2 ^ 32 + 512, fun _ => 0⟩
    have h₀ : CacheManager.Run inner {n | (n + 1) * 512 ≤ file.len} (.new (.new file 512) 1) [] _ := .nil
    have h₁ := h₀.next (show (SectorCall.readSector 0).Considerate _ _ from
      ⟨by decide, fun _ id hid => absurd hid List.not_mem_nil⟩) (by decide +kernel)
    have h₂ := h₁.next (show (SectorCall.writePtr 0 0 [7]).Considerate _ _ from trivial) (by decide +kernel)
    have h₃ := h₂.next (show (SectorCall.sync 0).Considerate _ _ from trivial) (by decide +kernel)
    have h₄ := h₃.next (show (SectorCall.readSector (2 ^ 23)).Considerate _ _ from
      ⟨by decide, fun _ => by decide +kernel⟩) (by decide +kernel)
    refine ⟨file, _, _, h₄, ?_⟩
    rintro ⟨a, ha, -⟩
    have hb := congrArg Option.isSome ha
    rw [Option.isSome_some] at hb
    revert hb
    decide +kernel

end FuseFat32
