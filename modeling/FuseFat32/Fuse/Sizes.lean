import FuseFat32.Fat.Time
import FuseFat32.Fs.Write

/-!
# Offsets and sizes at the FUSE boundary

A write request carries a 64-bit offset and size, a `setattr` request a 64-bit length. The handlers hand them to functions that take `u32`, and `File::write` adds offset and size in `u32` again. What follows says for which requests this does no harm. A request is served when it has the effect its numbers ask for, or reports failure and leaves the file as it was.
-/

namespace FuseFat32

open LinkedTable Layout

/-! ### The handlers, from the file object on -/

/-- `fat32_write`: the number of bytes it replies. -/
def fat32Write (fs : FAT32fs) (file : File) (buf : List UInt8) (off : Nat) (now : FatTimeStamp) :
    Exec (Nat × FAT32fs × File) :=
  file.write fs (buf.take (u32 buf.length)) (u32 off) now

/-- The part of `struct stat` that `readFileStat` fills from the file; the times are those of the entry. -/
structure FileStat where
  stIno : Nat
  isDir : Bool
  stSize : Nat
  stAtim : FatTimeStamp
  stMtim : FatTimeStamp
  stCtim : FatTimeStamp2

def readFileStat (fs : FAT32fs) (file : File) : Exec (FileStat × File) := do
  let (file_sz, file) ← file.fileSz fs
  -- `dos2UnixTs_2`
  assert (file.crtTime.tt.toNat ≤ 199)
  return (⟨file.ino, file.isDir, file_sz, ⟨0, file.accDate⟩, file.wrtTime, file.crtTime⟩, file)

inductive Errno where
  | eperm | efbig | enoent | eisdir | enotdir | enotempty | einval
  deriving DecidableEq

/-- `valid` with the flags `fat32_setattr` looks at, and `attr`. -/
structure SetAttr where
  uid : Bool
  gid : Bool
  size : Bool
  ctime : Bool
  atime : Bool
  atimeNow : Bool
  mtime : Bool
  mtimeNow : Bool
  stSize : Nat
  stCtim : Timespec
  stAtim : Timespec
  stMtim : Timespec

inductive SetAttrReply where
  | err (errno : Errno)
  | attr (stat : FileStat)

/-- The time stamps `fat32_setattr` sets. -/
def setTimes (unix2DosTs : Timespec → FatTimeStamp) (file : File) (attr : SetAttr)
    (now : FatTimeStamp) : File :=
  let file := if attr.ctime then file.setCrtTime (unix2DosTs2 unix2DosTs attr.stCtim) else file
  let file :=
    if attr.atime then file.setAccTime (if attr.atimeNow then now else unix2DosTs attr.stAtim) else file
  if attr.mtime then file.setWrtTime (if attr.mtimeNow then now else unix2DosTs attr.stMtim) else file

/-- The truncation `fat32_setattr` asks for, if any. -/
def setSize (fs : FAT32fs) (file : File) (attr : SetAttr) : Exec (Bool × FAT32fs × File) :=
  if attr.size then file.truncate fs (u32 attr.stSize) else some (true, fs, file)

/-- `fat32_setattr`. -/
def fat32Setattr (unix2DosTs : Timespec → FatTimeStamp) (fs : FAT32fs) (file : File) (attr : SetAttr)
    (now : FatTimeStamp) : Exec (SetAttrReply × FAT32fs × File) := do
  if attr.uid || attr.gid then
    return (.err .eperm, fs, file)
  let (ok, fs, file) ← setSize fs file attr
  if !ok then
    return (.err .efbig, fs, file)
  let (new_stat, file) ← readFileStat fs (setTimes unix2DosTs file attr now)
  return (.attr new_stat, fs, file)

/-! ### What the numbers ask for -/

/-- The file is as it was: size, contents, and all other chains. -/
structure FAT32fs.Unchanged (fs : FAT32fs) (heads : Set Nat) (f : File) (l : List Nat) (fs' : FAT32fs)
    (f' : File) : Prop where
  size : f'.fileSz_ = f.fileSz_
  shows : f'.Shows fs' f.fileSz_ (fs.content l)
  others : fs.OthersKept fs' heads f.fstClus

/-- The size is `length`, what lies below both sizes is kept, and so are all other chains. -/
structure FAT32fs.Resized (fs : FAT32fs) (heads : Set Nat) (f : File) (l : List Nat) (length : Nat)
    (fs' : FAT32fs) (f' : File) (new : Nat → UInt8) : Prop where
  size : f'.fileSz_ = length
  shows : f'.Shows fs' length new
  keeps : ∀ p < f.fileSz_, p < length → new p = fs.content l p
  others : fs.OthersKept fs' heads f.fstClus

/-- A write request is served. -/
def WriteServed (fs : FAT32fs) (heads : Set Nat) (f : File) (l : List Nat) (buf : List UInt8)
    (off : Nat) (outcome : Exec (Nat × FAT32fs × File)) : Prop :=
  ∃ n fs' f', outcome = some (n, fs', f') ∧
    ((n = buf.length ∧ ∃ new, fs.Written heads f l buf off fs' f' new) ∨
      (n = 0 ∧ fs.Unchanged heads f l fs' f'))

/-- A `setattr` request for a size is served. -/
def SetattrServed (fs : FAT32fs) (heads : Set Nat) (f : File) (l : List Nat) (st_size : Nat)
    (outcome : Exec (SetAttrReply × FAT32fs × File)) : Prop :=
  ∃ reply fs' f', outcome = some (reply, fs', f') ∧
    ((∃ stat new, reply = .attr stat ∧ stat.stSize = st_size ∧
        fs.Resized heads f l st_size fs' f' new) ∨
      (∃ e, reply = .err e ∧ fs.Unchanged heads f l fs' f'))

/-- The write requests whose narrowed numbers do no harm. Within 32 bits only the empty write that grows the file to a cluster boundary is excluded; past 32 bits the wrapped request has to fail for lack of room or to come to nothing. -/
def WriteInRange (fs : FAT32fs) (f : File) (l : List Nat) (size off : Nat) : Prop :=
  if off + size < 2 ^ 32 then
    size ≠ 0 ∨ off < f.fileSz_ ∨ fs.NoRoom l off ∨ off % bytesPerClus fs.bpb ≠ 0
  else
    (f.fileSz_ ≤ u32 (off + size) ∧ fs.NoRoom l (u32 (off + size))) ∨
      (u32 size = 0 ∧ (u32 off < f.fileSz_ ∨ (u32 off = f.fileSz_ ∧ u32 off % bytesPerClus fs.bpb ≠ 0)))

/-- The `setattr` requests whose narrowed size does no harm. -/
def SetattrInRange (fs : FAT32fs) (l : List Nat) (attr : SetAttr) : Prop :=
  attr.uid = true ∨ attr.gid = true ∨ attr.stSize < 2 ^ 32 ∨ fs.NoRoom l (u32 attr.stSize)

instance (fs : FAT32fs) (f : File) (l : List Nat) (size off : Nat) :
    Decidable (WriteInRange fs f l size off) := by
  unfold WriteInRange
  infer_instance

instance (fs : FAT32fs) (l : List Nat) (attr : SetAttr) : Decidable (SetattrInRange fs l attr) :=
  inferInstanceAs (Decidable (_ ∨ _))

/-! ### What any write that comes back has done -/

theorem File.readSector_fileSz {fs : FAT32fs} {f g : File} {n : Nat} {r : Option Nat}
    (hrun : f.readSector fs n = some (r, g)) : g.fileSz_ = f.fileSz_ := by
  simp only [File.readSector, File.sectorNo, Option.bind_eq_bind, Option.bind_eq_some_iff] at hrun
  obtain ⟨⟨_, g₁⟩, ⟨⟨chain, g₂⟩, hchain, hno⟩, hrun⟩ := hrun
  obtain rfl : g₂ = g₁ := (Prod.mk.inj (Option.some.inj hno)).2
  obtain rfl : g₂ = g := (Prod.mk.inj (Option.some.inj hrun)).2
  rw [File.readClusChain] at hchain
  split at hchain
  · obtain rfl := (Prod.mk.inj (Option.some.inj hchain)).2
    rfl
  · obtain ⟨_, -, hchain⟩ := Option.bind_eq_some_iff.mp hchain
    obtain rfl := (Prod.mk.inj (Option.some.inj hchain)).2
    rfl

private theorem File.writeLoop_some {fuel : Nat} : ∀ {fs fs' : FAT32fs} {f f' : File} {n : Nat}
    {buf rest : List UInt8}, File.writeLoop fuel fs f n buf = some (rest, fs', f') →
    rest.length ≤ buf.length ∧ f'.fileSz_ = f.fileSz_ := by
  induction fuel with
  | zero => exact fun hrun => absurd hrun (by simp [File.writeLoop])
  | succ fuel ih =>
    intro fs fs' f f' n buf rest hrun
    rw [File.writeLoop] at hrun
    split at hrun
    · next hnil =>
      obtain ⟨rfl, -, rfl⟩ : [] = rest ∧ fs = fs' ∧ f = f' := by simpa using hrun
      exact ⟨Nat.zero_le _, rfl⟩
    · obtain ⟨⟨r, g⟩, hread, hrun⟩ := Option.bind_eq_some_iff.mp hrun
      have hsz := File.readSector_fileSz hread
      cases r with
      | none =>
        obtain ⟨rfl, -, rfl⟩ : buf = rest ∧ fs = fs' ∧ g = f' := by simpa using hrun
        exact ⟨le_rfl, hsz⟩
      | some sector =>
        obtain ⟨hle, hsame⟩ := ih hrun
        exact ⟨hle.trans (by rw [List.length_drop]; omega), hsame.trans hsz⟩

/-- A write of a non-empty buffer that comes back has written something, and the size is the one it started with. -/
theorem File.overwrite_some {fs fs' : FAT32fs} {f f' : File} {n offset : Nat} {buf : List UInt8}
    (hs : fs.bpb.Sound) (hbuf : buf ≠ []) (hrun : f.overwrite fs buf offset = some (n, fs', f')) :
    0 < n ∧ f'.fileSz_ = f.fileSz_ := by
  simp only [File.overwrite, hs.bytesPerSec, Option.bind_eq_bind, Option.bind_eq_some_iff] at hrun
  obtain ⟨⟨r, g⟩, hread, sector, hsector, ⟨rest, fs₁, f₁⟩, hloop, hrun⟩ := hrun
  obtain ⟨rfl, rfl, rfl⟩ : buf.length - rest.length = n ∧ fs₁ = fs' ∧ f₁ = f' := by simpa using hrun
  obtain ⟨hle, hsz⟩ := File.writeLoop_some hloop
  have hpos : 0 < buf.length := List.length_pos_iff.mpr hbuf
  have hmod := Nat.mod_lt offset sectorSize_pos
  rw [List.length_drop] at hle
  exact ⟨by omega, hsz.trans (File.readSector_fileSz hread)⟩

/-! ### Writes -/

theorem File.Shows.congr {fs : FAT32fs} {f : File} {sz : Nat} {c c' : Nat → UInt8}
    (h : f.Shows fs sz c) (hc : ∀ p < sz, c p = c' p) : f.Shows fs sz c' := by
  intro g hlater len off now
  obtain ⟨g', hrun⟩ := h g hlater len off now
  refine ⟨g', hrun.trans ?_⟩
  have hmap : (List.range (min len (sz - off))).map (fun k => c (off + k)) =
      (List.range (min len (sz - off))).map fun k => c' (off + k) :=
    List.map_congr_left fun k hk => hc _ (by have := List.mem_range.mp hk; omega)
  rw [hmap]

private theorem BPB.Sound.lt_clusFor_iff {bpb : BPB} (hs : bpb.Sound) (length : Nat) :
    length < bpb.clusFor length * bytesPerClus bpb ↔ length % bytesPerClus bpb ≠ 0 := by
  have hpos := hs.bytesPerClus_pos
  set b := bytesPerClus bpb with hb
  have hle := hs.le_clusFor length
  rw [← hb] at hle
  have hdm := Nat.div_add_mod length b
  constructor
  · intro hlt hzero
    have hmul : length / b * b = length := by rw [Nat.mul_comm]; omega
    have hup : bpb.clusFor length ≤ length / b := BPB.clusFor_le (by rw [← hb]; omega)
    have := Nat.mul_le_mul_right b hup
    omega
  · intro hne
    rcases Nat.lt_or_ge length (bpb.clusFor length * b) with hlt | hge
    · exact hlt
    · have heq : length = bpb.clusFor length * b := by omega
      rw [heq, Nat.mul_mod_left] at hne
      exact absurd rfl hne

section served

variable {fs : FAT32fs} {heads : Set Nat} {f : File} {l : List Nat}

theorem FAT32fs.Healthy.counted (hh : fs.Healthy heads) :
    FAT32fs.Healthy { fs with fat := fs.fat.counted fs.table } heads :=
  ⟨⟨(FAT.represents_counted.mpr hh.represents).wellFormed, hh.owned.hint, hh.owned.owners⟩, hh.bpb⟩

theorem FAT32fs.Healthy.unchanged_counted (hh : fs.Healthy heads) (hf : f.Placed fs l)
    (hdir : f.isDir = false) (hfits : f.fileSz_ ≤ l.length * bytesPerClus fs.bpb) :
    fs.Unchanged heads f l { fs with fat := fs.fat.counted fs.table } f := by
  have hf' : f.Placed { fs with fat := fs.fat.counted fs.table } l := ⟨hf.chain, hf.cache⟩
  exact ⟨rfl, hf'.shows hh.counted.mounted hdir hfits,
    fun head _ _ l hw => ⟨hw, fun x _ => ⟨rfl, fun j _ => rfl⟩⟩⟩

/-- The chain a write starts from reaches past the end of its run unless that ends the file at a cluster boundary. -/
theorem FAT32fs.Ready.lt_capacity_iff (hs : fs.bpb.Sound) {fs₁ : FAT32fs} {heads₁ : Set Nat}
    {f₁ : File} {l₁ : List Nat} {end_ : Nat} (hr : fs.Ready heads f l end_ fs₁ heads₁ f₁ l₁)
    (hgrown : f.fileSz_ ≤ end_ → l₁.length = fs.bpb.clusFor end_) :
    end_ < l₁.length * bytesPerClus fs.bpb ↔ end_ < f.fileSz_ ∨ end_ % bytesPerClus fs.bpb ≠ 0 := by
  have hfits := hr.fits
  have hsize := hr.size
  by_cases hend : f.fileSz_ ≤ end_
  · rw [hgrown hend, hs.lt_clusFor_iff]
    exact ⟨.inr, fun h => h.resolve_left (by omega)⟩
  · exact iff_of_true (by omega) (.inl (by omega))

/-- Within 32 bits only an empty write can stop the process. -/
theorem WriteServed.small_iff (hh : fs.Healthy heads) (hf : f.Placed fs l)
    (hhead : f.fstClus = 0 ∨ f.fstClus ∈ heads) (hfits : f.fileSz_ ≤ l.length * bytesPerClus fs.bpb)
    {buf : List UInt8} {off : Nat} (hsmall : off + buf.length < 2 ^ 32)
    (hno : ¬ (f.fileSz_ ≤ off + buf.length ∧ fs.NoRoom l (off + buf.length)))
    {fs₁ : FAT32fs} {heads₁ : Set Nat} {f₁ : File} {l₁ : List Nat}
    (hr : fs.Ready heads f l (off + buf.length) fs₁ heads₁ f₁ l₁)
    (hgrown : f.fileSz_ ≤ off + buf.length → l₁.length = fs.bpb.clusFor (off + buf.length))
    (now : FatTimeStamp) :
    WriteServed fs heads f l buf off
        ((f₁.overwrite fs₁ buf off).map fun r => (r.1, r.2.1, r.2.2.setWrtTime now)) ↔
      WriteInRange fs f l buf.length off := by
  have hin := hr.lt_capacity_iff hh.sound hgrown
  have hcap := hr.fits
  have hsize := hr.size
  rw [WriteInRange, if_pos hsmall]
  by_cases hoff : off < l₁.length * bytesPerClus fs.bpb
  · obtain ⟨fs', f', hrun, hwritten⟩ := hr.written hh hf.chain hhead hfits hoff now
    refine iff_of_true ⟨_, fs', f', hrun, .inl ⟨rfl, _, hwritten⟩⟩ ?_
    by_cases hzero : buf.length = 0
    · rw [hzero, Nat.add_zero] at hin
      exact (hin.mp hoff).elim (fun h => .inr (.inl h)) fun h => .inr (.inr (.inr h))
    · exact .inl hzero
  · have hstop : f₁.overwrite fs₁ buf off = none :=
      hr.placed.overwrite_stops hr.healthy.mounted (by rw [hr.bpb]; omega)
    have hzero : buf.length = 0 := by omega
    rw [hzero, Nat.add_zero] at hin hno
    rw [hstop]
    refine iff_of_false (fun hserved => ?_) ?_
    · obtain ⟨n, fs', f', hrun, -⟩ := hserved
      exact absurd hrun (by simp)
    · rintro (hne | hlt | hroom | hmod)
      · exact hne hzero
      · omega
      · exact hno ⟨by omega, hroom⟩
      · exact hoff (hin.mpr (.inr hmod))

/-- Past 32 bits a write that finds room is served only when nothing is left of it. -/
theorem WriteServed.large_iff (hh : fs.Healthy heads) (hf : f.Placed fs l)
    (hhead : f.fstClus = 0 ∨ f.fstClus ∈ heads) (hfits : f.fileSz_ ≤ l.length * bytesPerClus fs.bpb)
    (hsz : f.fileSz_ < 2 ^ 32) {buf part : List UInt8} {off : Nat}
    (hlarge : 2 ^ 32 ≤ off + buf.length) (hpart : part.length = u32 buf.length)
    (hno : ¬ (f.fileSz_ ≤ u32 (off + buf.length) ∧ fs.NoRoom l (u32 (off + buf.length))))
    {fs₁ : FAT32fs} {heads₁ : Set Nat} {f₁ : File} {l₁ : List Nat}
    (hr : fs.Ready heads f l (u32 (off + buf.length)) fs₁ heads₁ f₁ l₁)
    (hgrown : f.fileSz_ ≤ u32 (off + buf.length) →
      l₁.length = fs.bpb.clusFor (u32 (off + buf.length))) (now : FatTimeStamp) :
    WriteServed fs heads f l buf off
        ((f₁.overwrite fs₁ part (u32 off)).map fun r => (r.1, r.2.1, r.2.2.setWrtTime now)) ↔
      WriteInRange fs f l buf.length off := by
  have hin := hr.lt_capacity_iff hh.sound hgrown
  have hcap := hr.fits
  have hsize := hr.size
  have hlt := u32_lt (off + buf.length)
  rw [WriteInRange, if_neg (by omega)]
  by_cases hzero : u32 buf.length = 0
  · have hend : u32 (off + buf.length) = u32 off := by
      simp only [u32] at hzero ⊢
      omega
    have hnil : part = [] := List.length_eq_zero_iff.mp (by omega)
    subst hnil
    rw [hend] at hin hr hno hgrown hsize hlt ⊢
    by_cases hoff : u32 off < l₁.length * bytesPerClus fs.bpb
    · have hr' : fs.Ready heads f l (u32 off + ([] : List UInt8).length) fs₁ heads₁ f₁ l₁ := hr
      obtain ⟨fs', f', hrun, hwritten⟩ := hr'.written hh hf.chain hhead hfits hoff now
      rw [hrun]
      have hsize' : f'.fileSz_ = max f.fileSz_ (u32 off) := hwritten.size
      by_cases hle : u32 off ≤ f.fileSz_
      · have hsame : f'.fileSz_ = f.fileSz_ := by omega
        refine iff_of_true ⟨0, fs', f', rfl, .inr ⟨rfl, hsame, ?_, hwritten.others⟩⟩ (.inr ⟨hzero, ?_⟩)
        · have hshows := hwritten.shows
          rw [hsame] at hshows
          exact hshows.congr fun p hp => hwritten.outside p hp
            (by simp only [List.length_nil]; omega)
        · rcases Nat.lt_or_eq_of_le hle with hlt' | heq
          · exact .inl hlt'
          · exact .inr ⟨heq, (hin.mp hoff).resolve_left (by omega)⟩
      · refine iff_of_false (fun hserved => ?_) ?_
        · obtain ⟨n, fs'', f'', heq, hcase⟩ := hserved
          obtain ⟨-, -, rfl⟩ : 0 = n ∧ fs' = fs'' ∧ f' = f'' := by simpa using heq
          rcases hcase with ⟨-, new, hexact⟩ | ⟨-, hunch⟩
          · have := hexact.size
            omega
          · have := hunch.size
            omega
        · rintro (hfull | ⟨-, hlow | ⟨heq, -⟩⟩)
          · exact hno hfull
          · omega
          · omega
    · have hstop : f₁.overwrite fs₁ [] (u32 off) = none :=
        hr.placed.overwrite_stops hr.healthy.mounted (by rw [hr.bpb]; omega)
      rw [hstop]
      refine iff_of_false (fun hserved => ?_) ?_
      · obtain ⟨n, fs', f', hrun, -⟩ := hserved
        exact absurd hrun (by simp)
      · rintro (hfull | ⟨-, hlow | ⟨-, hmod⟩⟩)
        · exact hno hfull
        · omega
        · exact hoff (hin.mpr (.inr hmod))
  · have hne : part ≠ [] := fun hnil => hzero (by rw [← hpart, hnil]; rfl)
    refine iff_of_false (fun hserved => ?_) ?_
    · obtain ⟨n, fs', f', hrun, hcase⟩ := hserved
      rw [Option.map_eq_some_iff] at hrun
      obtain ⟨⟨n', fs'', f''⟩, hover, heq⟩ := hrun
      obtain ⟨rfl, rfl, rfl⟩ : n' = n ∧ fs'' = fs' ∧ f''.setWrtTime now = f' := by simpa using heq
      obtain ⟨hpos, hsame⟩ := File.overwrite_some (hr.bpb ▸ hh.sound) hne hover
      have hsize' : (f''.setWrtTime now).fileSz_ = f₁.fileSz_ := hsame
      rcases hcase with ⟨-, new, hexact⟩ | ⟨hzero', -⟩
      · have := hexact.size
        omega
      · omega
    · rintro (hfull | ⟨hzero', -⟩)
      · exact hno hfull
      · exact hzero hzero'

/-- A write request is served exactly when its narrowed numbers do no harm. -/
theorem fat32Write_served_iff (hh : fs.Healthy heads) (hacc : (fs.run heads).Accurate)
    (hf : f.Placed fs l) (hdir : f.isDir = false) (hhead : f.fstClus = 0 ∨ f.fstClus ∈ heads)
    (hfits : f.fileSz_ ≤ l.length * bytesPerClus fs.bpb) (hsz : f.fileSz_ < 2 ^ 32)
    (buf : List UInt8) (off : Nat) (now : FatTimeStamp) :
    WriteServed fs heads f l buf off (fat32Write fs f buf off now) ↔
      WriteInRange fs f l buf.length off := by
  have hs := hh.sound
  have hlen : (buf.take (u32 buf.length)).length = u32 buf.length :=
    List.length_take_of_le (Nat.mod_le _ _)
  have hend : u32 (u32 off + (buf.take (u32 buf.length)).length) = u32 (off + buf.length) := by
    rw [hlen]
    simp only [u32]
    omega
  by_cases hno : f.fileSz_ ≤ u32 (off + buf.length) ∧ fs.NoRoom l (u32 (off + buf.length))
  · refine iff_of_true ⟨0, _, f, File.write_noRoom hh hacc hf hdir (by rw [hend]; exact hno.1)
      (by rw [hend]; exact hno.2) now, .inr ⟨rfl, hh.unchanged_counted hf hdir hfits⟩⟩ ?_
    by_cases hsmall : off + buf.length < 2 ^ 32
    · rw [u32_of_lt hsmall] at hno
      rw [WriteInRange, if_pos hsmall]
      by_cases hzero : buf.length = 0
      · rw [hzero, Nat.add_zero] at hno
        exact .inr (.inr (.inl hno.2))
      · exact .inl hzero
    · rw [WriteInRange, if_neg hsmall]
      exact .inl hno
  · obtain ⟨fs₁, heads₁, f₁, l₁, hr, hgrown, -, hrun⟩ := File.write_ready hh hacc hf hdir hhead
      hfits (buf.take (u32 buf.length)) (u32 off) (by rw [hend]; tauto) now
    rw [hend] at hr hgrown
    rw [fat32Write, hrun]
    by_cases hsmall : off + buf.length < 2 ^ 32
    · have hoff : u32 off = off := u32_of_lt (by omega)
      have hall : buf.take (u32 buf.length) = buf := by
        rw [u32_of_lt (show buf.length < 2 ^ 32 by omega), List.take_length]
      rw [u32_of_lt hsmall] at hr hgrown hno
      rw [hoff, hall]
      exact WriteServed.small_iff hh hf hhead hfits hsmall hno hr hgrown now
    · exact WriteServed.large_iff hh hf hhead hfits hsz (by omega) hlen hno hr hgrown now

/-! ### `setattr` -/

theorem setTimes_eq (unix2DosTs : Timespec → FatTimeStamp) (f : File) (attr : SetAttr)
    (now : FatTimeStamp) : setTimes unix2DosTs f attr now = { f with
      crtTime := (setTimes unix2DosTs f attr now).crtTime
      accDate := (setTimes unix2DosTs f attr now).accDate
      wrtTime := (setTimes unix2DosTs f attr now).wrtTime } := by
  rcases attr with ⟨_, _, _, ctime, atime, _, mtime, _⟩
  cases ctime <;> cases atime <;> cases mtime <;> rfl

/-- The tenths that `unix2DosTs_2` computes are those `dos2UnixTs_2` accepts. -/
theorem setTimes_tt (unix2DosTs : Timespec → FatTimeStamp) {f : File} {attr : SetAttr}
    (htt : f.crtTime.tt.toNat ≤ 199) (hns : attr.stCtim.tvNsec < 10 ^ 9) (now : FatTimeStamp) :
    (setTimes unix2DosTs f attr now).crtTime.tt.toNat ≤ 199 := by
  have hnew : (unix2DosTs2 unix2DosTs attr.stCtim).tt.toNat ≤ 199 := by
    simp only [unix2DosTs2]
    split
    · rw [UInt8.toNat_add, UInt8.toNat_ofNat']
      simp only [UInt8.toNat_ofNat]
      omega
    · rw [UInt8.toNat_ofNat']
      omega
  rcases attr with ⟨_, _, _, ctime, atime, _, mtime, _⟩
  cases ctime <;> cases atime <;> cases mtime <;> first | exact htt | exact hnew

theorem FAT32fs.Truncated.resized (hh : fs.Healthy heads) (hf : f.Placed fs l) (hdir : f.isDir = false)
    (hfits : f.fileSz_ ≤ l.length * bytesPerClus fs.bpb) {length : Nat} {fs' : FAT32fs} {f' : File}
    {l' : List Nat} (ht : fs.Truncated heads f l length fs' f' l')
    (unix2DosTs : Timespec → FatTimeStamp) (attr : SetAttr) (now : FatTimeStamp) :
    fs.Resized heads f l length fs' (setTimes unix2DosTs f' attr now) (fs'.content l') := by
  have hs := hh.sound
  have hcap : length ≤ l'.length * bytesPerClus fs.bpb := ht.length ▸ hs.le_clusFor length
  set g := setTimes unix2DosTs f' attr now with hg
  have hg' := setTimes_eq unix2DosTs f' attr now
  rw [← hg] at hg'
  have hsz : g.fileSz_ = length := by rw [hg', ht.file]
  have hgdir : g.isDir = false := by rw [hg', ht.file]; exact hdir
  have hplaced : g.Placed fs' l' := by
    rw [hg']
    exact ⟨ht.placed.chain, ht.placed.cache⟩
  refine ⟨hsz, ?_, fun p hp hlt => ?_, fun head hother hne l₂ hw => ?_⟩
  · have hshows := hplaced.shows ht.healthy.mounted hgdir (by rw [hsz, ht.bpb]; exact hcap)
    rwa [hsz] at hshows
  · have hloc := ht.chainLoc_eq hs (show p < _ by omega) (show p < _ by omega)
    have hbound := BPB.chainSector_bounds hs hf.chain.data
      (hs.sector_lt_of_pos (show p < l.length * bytesPerClus fs.bpb by omega))
    rw [FAT32fs.content, FAT32fs.content, ht.bpb, hloc]
    exact congrFun (ht.device.value _ (.inr hbound.1)) _
  · have hentry : ∀ x ∈ l₂, fs'.table x = fs.table x := fun x hx =>
      ht.kept.unnamed head hother (fun heq => hne (Option.some.inj heq).symm) l₂ hw x hx
    refine ⟨hw.frame hentry, fun x hx => ⟨hentry x hx, fun j hj => ?_⟩⟩
    have hgood : fs.bpb.DataClus x := by
      rw [← hh.bpb]
      exact hh.owned.owners.good_of_mem hother hw hx
    exact ht.device.value _ (.inr (hs.sector_bounds hgood hj).1)

/-- A `setattr` request for a size is served exactly when its narrowed size does no harm. -/
theorem fat32Setattr_served_iff (unix2DosTs : Timespec → FatTimeStamp) (hh : fs.Healthy heads)
    (hacc : (fs.run heads).Accurate) (hf : f.Placed fs l) (hdir : f.isDir = false)
    (hhead : f.fstClus = 0 ∨ f.fstClus ∈ heads)
    (hfits : f.fileSz_ ≤ l.length * bytesPerClus fs.bpb) (attr : SetAttr) (hsize : attr.size = true)
    (htt : f.crtTime.tt.toNat ≤ 199) (hns : attr.stCtim.tvNsec < 10 ^ 9) (now : FatTimeStamp) :
    SetattrServed fs heads f l attr.stSize (fat32Setattr unix2DosTs fs f attr now) ↔
      SetattrInRange fs l attr := by
  have hsame : fs.Unchanged heads f l fs f :=
    ⟨rfl, hf.shows hh.mounted hdir hfits, fun head _ _ l hw => ⟨hw, fun x _ => ⟨rfl, fun j _ => rfl⟩⟩⟩
  by_cases hperm : (attr.uid || attr.gid) = true
  · refine iff_of_true ⟨.err .eperm, fs, f, ?_, .inr ⟨_, rfl, hsame⟩⟩ ?_
    · rw [fat32Setattr, if_pos hperm]
      rfl
    · rw [Bool.or_eq_true] at hperm
      exact hperm.elim .inl fun h => .inr (.inl h)
  have hrun : fat32Setattr unix2DosTs fs f attr now =
      (f.truncate fs (u32 attr.stSize)).bind fun r =>
        if !r.1 then some (.err .efbig, r.2.1, r.2.2)
        else (readFileStat r.2.1 (setTimes unix2DosTs r.2.2 attr now)).bind fun s =>
          some (.attr s.1, r.2.1, s.2) := by
    rw [fat32Setattr, if_neg hperm, setSize, if_pos hsize]
    rfl
  rw [hrun]
  by_cases hno : fs.NoRoom l (u32 attr.stSize)
  · rw [File.truncate_noRoom hh hacc hf.chain hno]
    exact iff_of_true ⟨.err .efbig, _, f, rfl, .inr ⟨_, rfl, hh.unchanged_counted hf hdir hfits⟩⟩
      (.inr (.inr (.inr hno)))
  obtain ⟨fs', f', l', htrunc, ht⟩ := File.truncate_room hh hacc hdir hhead hf.chain hno
  have hresized := ht.resized hh hf hdir hfits unix2DosTs attr now
  have htt' : (setTimes unix2DosTs f' attr now).crtTime.tt.toNat ≤ 199 :=
    setTimes_tt unix2DosTs (by rw [ht.file]; exact htt) hns now
  have hdir' : (setTimes unix2DosTs f' attr now).isDir = false := by
    rw [setTimes_eq, ht.file]
    exact hdir
  obtain ⟨stat, hstat, hstsize⟩ : ∃ stat, readFileStat fs' (setTimes unix2DosTs f' attr now) =
      some (stat, setTimes unix2DosTs f' attr now) ∧ stat.stSize = u32 attr.stSize := by
    generalize setTimes unix2DosTs f' attr now = g at hresized htt' hdir'
    refine ⟨⟨g.ino, g.isDir, g.fileSz_, ⟨0, g.accDate⟩, g.wrtTime, g.crtTime⟩, ?_, hresized.size⟩
    simp [readFileStat, File.fileSz, hdir', htt']
  rw [htrunc, Option.bind_some, if_neg (by simp), hstat]
  by_cases hsmall : attr.stSize < 2 ^ 32
  · rw [u32_of_lt hsmall] at hresized hstsize
    exact iff_of_true ⟨.attr stat, fs', _, rfl, .inl ⟨stat, _, rfl, hstsize, hresized⟩⟩
      (.inr (.inr (.inl hsmall)))
  · refine iff_of_false (fun hserved => ?_) ?_
    · obtain ⟨reply, fs'', f'', heq, hcase⟩ := hserved
      obtain ⟨rfl, -, -⟩ : SetAttrReply.attr stat = reply ∧ fs' = fs'' ∧ _ := by simpa using heq
      rcases hcase with ⟨stat', new, hreply, hst, -⟩ | ⟨e, hreply, -⟩
      · obtain rfl := SetAttrReply.attr.inj hreply
        have := u32_lt attr.stSize
        omega
      · exact absurd hreply (by simp)
    · rintro (huid | hgid | hlt | hroom)
      · exact hperm (by simp [huid])
      · exact hperm (by simp [hgid])
      · exact hsmall hlt
      · exact hno hroom

end served

/-- The requests of any offset and size that are served. -/
theorem sizes_served_iff (unix2DosTs : Timespec → FatTimeStamp) (fs : FAT32fs) (heads : Set Nat)
    (f : File) (l : List Nat) (hh : fs.Healthy heads) (hacc : (fs.run heads).Accurate)
    (hf : f.Placed fs l) (hdir : f.isDir = false) (hhead : f.fstClus = 0 ∨ f.fstClus ∈ heads)
    (hfits : f.fileSz_ ≤ l.length * bytesPerClus fs.bpb) (hsz : f.fileSz_ < 2 ^ 32)
    (htt : f.crtTime.tt.toNat ≤ 199) (now : FatTimeStamp) :
    (∀ buf off, WriteServed fs heads f l buf off (fat32Write fs f buf off now) ↔
      WriteInRange fs f l buf.length off) ∧
    (∀ attr : SetAttr, attr.size = true → attr.stCtim.tvNsec < 10 ^ 9 →
      (SetattrServed fs heads f l attr.stSize (fat32Setattr unix2DosTs fs f attr now) ↔
        SetattrInRange fs l attr)) :=
  ⟨fun buf off => fat32Write_served_iff hh hacc hf hdir hhead hfits hsz buf off now,
    fun attr hsize hns =>
      fat32Setattr_served_iff unix2DosTs hh hacc hf hdir hhead hfits attr hsize htt hns now⟩

/-- A request for the size `st_size` alone. -/
def SetAttr.ofSize (st_size : Nat) : SetAttr :=
  ⟨false, false, true, false, false, false, false, false, st_size, ⟨0, 0⟩, ⟨0, 0⟩, ⟨0, 0⟩⟩

theorem sizes_served_iff_empty :
    (WriteServed smallFs {2} emptyFile [] [1, 2, 3] 600 (fat32Write smallFs emptyFile [1, 2, 3] 600 ⟨0, 0⟩) ↔
      WriteInRange smallFs emptyFile [] 3 600) ∧
    (SetattrServed smallFs {2} emptyFile [] 600
        (fat32Setattr (fun _ => ⟨0, 0⟩) smallFs emptyFile (.ofSize 600) ⟨0, 0⟩) ↔
      SetattrInRange smallFs [] (.ofSize 600)) :=
  have h := sizes_served_iff (fun _ => ⟨0, 0⟩) smallFs {2} emptyFile [] smallFs_healthy.1
    smallFs_healthy.2 emptyFile_placed rfl (.inl rfl) (by decide) (by decide) (by decide) ⟨0, 0⟩
  ⟨h.1 [1, 2, 3] 600, h.2 (.ofSize 600) rfl (by decide)⟩

/-- One byte written at 4 GiB goes to offset 0, and a truncation to 4 GiB empties the file; both report success. -/
theorem not_sizes_served_at_4GiB :
    ¬ WriteServed smallFs {2} emptyFile [] [7] (2 ^ 32) (fat32Write smallFs emptyFile [7] (2 ^ 32) ⟨0, 0⟩) ∧
    ¬ SetattrServed smallFs {2} emptyFile [] (2 ^ 32)
        (fat32Setattr (fun _ => ⟨0, 0⟩) smallFs emptyFile (.ofSize (2 ^ 32)) ⟨0, 0⟩) := by
  have hwrite := fat32Write_served_iff smallFs_healthy.1 smallFs_healthy.2 emptyFile_placed rfl
    (.inl rfl) (by decide) (by decide) [7] (2 ^ 32) ⟨0, 0⟩
  have hsetattr := fat32Setattr_served_iff (fun _ => ⟨0, 0⟩) smallFs_healthy.1 smallFs_healthy.2
    emptyFile_placed rfl (.inl rfl) (by decide) (.ofSize (2 ^ 32)) rfl (by decide) (by decide) ⟨0, 0⟩
  exact ⟨fun h => absurd (hwrite.mp h) (by decide), fun h => absurd (hsetattr.mp h) (by decide)⟩

end FuseFat32
