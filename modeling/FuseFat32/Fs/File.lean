import FuseFat32.Fat.DirEntry
import FuseFat32.Fs.Mount

/-!
# Files

The members of `class File` and the operations on its data. A file object caches its cluster chain, and a position of the file is reached through that chain: its sector by division through the sectors of a cluster, the byte within the sector by the remainder. `Directory` differs only in where its size comes from. The clock is read by the caller.
-/

namespace FuseFat32

/-- The members of `class File`. A directory is a file with `isDir`. -/
structure File where
  parentClus : Nat
  fstEntryNum : Nat
  fstClus : Nat
  name : List UInt8
  crtTime : FatTimeStamp2
  accDate : UInt16
  wrtTime : FatTimeStamp
  /-- `file_sz_`. -/
  fileSz_ : Nat
  isDeleted : Bool
  /-- `clus_chain_`. -/
  clusChain_ : Option (List Nat)
  isDir : Bool

def kRootDirIno : Nat := 0

def File.ino (f : File) : Nat := f.parentClus * 2 ^ 32 + f.fstEntryNum

/-- `readClusChain`: the chain, and the object that now caches it. -/
def File.readClusChain (fs : FAT32fs) (f : File) : Exec (List Nat × File) :=
  match f.clusChain_ with
  | some clus_chain => some (clus_chain, f)
  | none => do
    let clus_chain ← fs.fat.readClusChains fs.device f.fstClus
    return (clus_chain, { f with clusChain_ := some clus_chain })

/-- The number of the `n`th sector of a chain. -/
def sectorOfChain (bpb : BPB) (clus_chain : List Nat) (n : Nat) : Option Nat :=
  let sec_cnt := u32 (clus_chain.length * bpb.secPerClus.toNat)
  if n ≥ sec_cnt then none
  else
    let clus_off := n / bpb.secPerClus.toNat
    let sec_off := n % bpb.secPerClus.toNat
    some (u32 (getFirstSectorOfCluster bpb (clus_chain.getD clus_off 0) + sec_off))

def File.sectorNo (fs : FAT32fs) (f : File) (n : Nat) : Exec (Option Nat × File) := do
  let (clus_chain, f) ← f.readClusChain fs
  return (sectorOfChain fs.bpb clus_chain n, f)

/-- `readSector(n)`: the number of the sector on the device, when the device has it. -/
def File.readSector (fs : FAT32fs) (f : File) (n : Nat) : Exec (Option Nat × File) := do
  let (result, f) ← f.sectorNo fs n
  return (result.filter (· < fs.device.secCnt), f)

/-- The virtual member `file_sz()`. -/
def File.fileSz (fs : FAT32fs) (f : File) : Exec (Nat × File) :=
  if f.isDir then do
    let (clus_chain, f) ← f.readClusChain fs
    return (u32 (clus_chain.length * bytesPerClus fs.bpb), f)
  else some (f.fileSz_, f)

def File.setCrtTime (f : File) (ts : FatTimeStamp2) : File := { f with crtTime := ts }

def File.setAccTime (f : File) (ts : FatTimeStamp) : File := { f with accDate := ts.date }

def File.setWrtTime (f : File) (ts : FatTimeStamp) : File := { f with wrtTime := ts }

/-! ### Reading -/

/-- The loop of `read` over the sectors after the first. -/
def File.readLoop (fs : FAT32fs) :
    Nat → File → (sec_no remained_sz : Nat) → List UInt8 → Exec (List UInt8 × File)
  | 0, _, _, _, _ => none
  | fuel + 1, f, sec_no, remained_sz, buf =>
    if remained_sz = 0 then some (buf, f)
    else do
      let (result, f) ← f.readSector fs sec_no
      match result with
      | none => return (buf, f)
      | some sector =>
        let wrt_sz := min fs.bpb.bytesPerSec.toNat remained_sz
        File.readLoop fs fuel f (sec_no + 1) (remained_sz - wrt_sz)
          (buf ++ fs.device.bytes sector 0 wrt_sz)

/-- `read`: the bytes copied to the buffer. -/
def File.read (fs : FAT32fs) (f : File) (size offset : Nat) (now : FatTimeStamp) :
    Exec (List UInt8 × File) := do
  assert (fs.bpb.bytesPerSec.toNat ≠ 0)
  let off_in_sec := offset / fs.bpb.bytesPerSec.toNat
  let off_in_bytes := offset % fs.bpb.bytesPerSec.toNat
  let (file_sz, f) ← f.fileSz fs
  if offset ≥ file_sz then
    return ([], f)
  let remained_sz := min size (file_sz - offset)
  let (result, f) ← f.readSector fs off_in_sec
  let sector ← result
  let wrt_sz := min remained_sz (fs.bpb.bytesPerSec.toNat - off_in_bytes)
  let (buf, f) ← File.readLoop fs (remained_sz + 1) f (off_in_sec + 1) (remained_sz - wrt_sz)
    (fs.device.bytes sector off_in_bytes wrt_sz)
  return (buf, f.setAccTime now)

/-! ### Truncating and writing -/

/-- `truncate(length)`: on success the chain has just the clusters needed. -/
def File.truncate (fs : FAT32fs) (f : File) (length : Nat) : Exec (Bool × FAT32fs × File) := do
  assert (bytesPerClus fs.bpb ≠ 0 ∨ length = 0)
  let clus_num := if length = 0 then 0 else (length - 1) / bytesPerClus fs.bpb + 1
  let (ok, fst_clus, fat, d) ← fs.fat.resize fs.device f.fstClus clus_num f.isDir
  let fs := { fs with fat := fat, device := d }
  if ok then
    return (true, fs,
      { f with fstClus := fst_clus, clusChain_ := none, fileSz_ := if f.isDir then f.fileSz_ else length })
  return (false, fs, { f with fstClus := fst_clus })

/-- The loop of `write` over the sectors after the first. It gives back what it has not written. -/
def File.writeLoop : Nat → FAT32fs → File → (sec_no : Nat) → List UInt8 →
    Exec (List UInt8 × FAT32fs × File)
  | 0, _, _, _, _ => none
  | fuel + 1, fs, f, sec_no, buf =>
    if buf = [] then some ([], fs, f)
    else do
      let (result, f) ← f.readSector fs sec_no
      match result with
      | none => return (buf, fs, f)
      | some sector =>
        let read_sz := min fs.bpb.bytesPerSec.toNat buf.length
        File.writeLoop fuel { fs with device := fs.device.write sector 0 (buf.take read_sz) } f
          (sec_no + 1) (buf.drop read_sz)

/-- The first half of `write`: `offset + size >= file_sz() && !truncate(offset + size)`. -/
def File.expand (fs : FAT32fs) (f : File) (end_ : Nat) : Exec (Bool × FAT32fs × File) := do
  let (file_sz, f) ← f.fileSz fs
  if end_ ≥ file_sz then f.truncate fs end_ else some (true, fs, f)

/-- The second half of `write`: the sectors that hold `[offset, offset + size)`. -/
def File.overwrite (fs : FAT32fs) (f : File) (buf : List UInt8) (offset : Nat) :
    Exec (Nat × FAT32fs × File) := do
  let off_in_sec := offset / fs.bpb.bytesPerSec.toNat
  let off_in_bytes := offset % fs.bpb.bytesPerSec.toNat
  let (result, f) ← f.readSector fs off_in_sec
  let sector ← result
  let read_sz := min buf.length (fs.bpb.bytesPerSec.toNat - off_in_bytes)
  let fs := { fs with device := fs.device.write sector off_in_bytes (buf.take read_sz) }
  let (rest, fs, f) ← File.writeLoop (buf.length + 1) fs f (off_in_sec + 1) (buf.drop read_sz)
  return (buf.length - rest.length, fs, f)

/-- `write`: the number of bytes taken from the buffer. -/
def File.write (fs : FAT32fs) (f : File) (buf : List UInt8) (offset : Nat) (now : FatTimeStamp) :
    Exec (Nat × FAT32fs × File) := do
  assert (fs.bpb.bytesPerSec.toNat ≠ 0)
  let (ok, fs, f) ← f.expand fs (u32 (offset + buf.length))
  if !ok then
    return (0, fs, f)
  let (cnt, fs, f) ← f.overwrite fs buf offset
  return (cnt, fs, f.setWrtTime now)

end FuseFat32
