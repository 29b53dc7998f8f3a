import FuseFat32.Machine.LinuxFile
import FuseFat32.Machine.LruCache
import Mathlib.Data.List.Nodup
import Mathlib.Logic.Function.Basic

/-!
# The sector cache

`CacheManager` hands out shared sector objects. A sector keeps its bytes and a dirty flag, and it writes a dirty value to the device below when it is synced and when its last owner lets it go: the LRU map, or a client that holds a handle. `modify_device` assigns to what a reference refers to, so sectors go on writing to the inner device. A client that drops its handles before a sector is read again sees a plain array of sectors.
-/

namespace FuseFat32

/-- The members of `class Sector` but the reference to its device. -/
structure Sector where
  secNum : Nat
  value : List UInt8
  dirty : Bool

/-- The device below has the value. -/
def Sector.clean (x : Sector) : Sector := { x with dirty := false }

/-- The virtual functions of the device below the cache. -/
structure InnerDevice (δ : Type) where
  readSector : δ → Nat → Option (List UInt8)
  writeSectorValue : δ → Nat → List UInt8 → δ

/-- The cache over a device, the sector objects there are, and the handles that clients hold. Objects are numbered, and a handle is the number of its object. -/
structure CacheManager (δ : Type) where
  innerDevice : δ
  sectorCache : LRUCacheMap Nat Nat
  object : Nat → Sector
  next : Nat
  handles : List Nat

/-- Bytes copied over a value from an offset on. -/
def splice (value : List UInt8) (off : Nat) (buf : List UInt8) : List UInt8 :=
  value.take off ++ buf ++ value.drop (off + buf.length)

/-- `write_ptr(off)`, and bytes copied there. -/
def Sector.write (x : Sector) (off : Nat) (buf : List UInt8) : Sector :=
  { x with value := splice x.value off buf, dirty := true }

@[simp] theorem Sector.secNum_clean (x : Sector) : x.clean.secNum = x.secNum := rfl

@[simp] theorem Sector.value_clean (x : Sector) : x.clean.value = x.value := rfl

@[simp] theorem Sector.dirty_clean (x : Sector) : x.clean.dirty = false := rfl

@[simp] theorem Sector.secNum_write (x : Sector) (off : Nat) (buf : List UInt8) :
    (x.write off buf).secNum = x.secNum := rfl

@[simp] theorem Sector.value_write (x : Sector) (off : Nat) (buf : List UInt8) :
    (x.write off buf).value = splice x.value off buf := rfl

@[simp] theorem Sector.dirty_write (x : Sector) (off : Nat) (buf : List UInt8) :
    (x.write off buf).dirty = true := rfl

private theorem length_splice {value buf : List UInt8} {off : Nat} (h : off + buf.length ≤ value.length) :
    (splice value off buf).length = value.length := by
  simp only [splice, List.length_append, List.length_take, List.length_drop]
  omega

namespace CacheManager

variable {δ : Type}

def new (inner_device : δ) (cache_sz : Nat) : CacheManager δ :=
  ⟨inner_device, ⟨cache_sz, []⟩, fun _ => ⟨0, [], false⟩, 0, []⟩

/-- The objects that somebody owns. -/
def owned (s : CacheManager δ) : Set Nat := {id | id ∈ s.sectorCache.values ∨ id ∈ s.handles}

instance (s : CacheManager δ) (id : Nat) : Decidable (id ∈ s.owned) :=
  inferInstanceAs (Decidable (_ ∨ _))

variable (dev : InnerDevice δ)

/-- `Sector::sync`. -/
def sync (s : CacheManager δ) (id : Nat) : CacheManager δ :=
  if (s.object id).dirty then
    { s with
      innerDevice := dev.writeSectorValue s.innerDevice (s.object id).secNum (s.object id).value
      object := Function.update s.object id (s.object id).clean }
  else s

/-- An owner lets the object go; `~Sector` syncs it when it was the last one. -/
def release (s : CacheManager δ) (id : Nat) : CacheManager δ :=
  if id ∈ s.owned then s else s.sync dev id

/-- `readSector(sec_num)`, with the handle the client gets. -/
def readSector (s : CacheManager δ) (sec_num : Nat) : Option Nat × CacheManager δ :=
  match s.sectorCache.get sec_num with
  | (some id, cache) => (some id, { s with sectorCache := cache, handles := id :: s.handles })
  | (none, _) =>
    match dev.readSector s.innerDevice sec_num with
    | none => (none, s)
    | some value =>
      let (cache, dropped) := s.sectorCache.put sec_num s.next
      (some s.next, dropped.foldl (release dev)
        { s with
          sectorCache := cache
          object := Function.update s.object s.next ⟨sec_num, value, false⟩
          next := s.next + 1
          handles := s.next :: s.handles })

def clear (s : CacheManager δ) : CacheManager δ :=
  let (cache, dropped) := s.sectorCache.clear
  dropped.foldl (release dev) { s with sectorCache := cache }

end CacheManager

/-! ### Clients -/

/-- What a client does: it reads a sector and keeps the handle, reads or writes through a handle, syncs or drops one, or clears the cache. -/
inductive SectorCall where
  | readSector (sec_num : Nat)
  | readPtr (id : Nat)
  | writePtr (id off : Nat) (buf : List UInt8)
  | sync (id : Nat)
  | drop (id : Nat)
  | clear

/-- What a call shows: the bytes of a sector that were read, nothing when there is no such sector, or the bytes that were written. -/
inductive SectorEvent where
  | read (sec_num : Nat) (value : Option (List UInt8))
  | write (sec_num off : Nat) (buf : List UInt8)

def SectorCall.run {δ : Type} (dev : InnerDevice δ) (s : CacheManager δ) :
    SectorCall → Exec (Option SectorEvent × CacheManager δ)
  | .readSector sec_num =>
    let (handle, s) := s.readSector dev sec_num
    some (some (.read sec_num (handle.map fun id => (s.object id).value)), s)
  | .readPtr id => do
    assert (id ∈ s.handles)
    return (some (.read (s.object id).secNum (some (s.object id).value)), s)
  | .writePtr id off buf => do
    assert (id ∈ s.handles ∧ off < (s.object id).value.length ∧
      off + buf.length ≤ (s.object id).value.length)
    return (some (.write (s.object id).secNum off buf),
      { s with object := Function.update s.object id ((s.object id).write off buf) })
  | .sync id => do
    assert (id ∈ s.handles)
    return (none, s.sync dev id)
  | .drop id => do
    assert (id ∈ s.handles)
    return (none, CacheManager.release dev { s with handles := s.handles.erase id } id)
  | .clear => some (none, s.clear dev)

/-- The call asks for sectors in `reach` only, and a sector that has left the cache is not read again while a handle to it is held. -/
def SectorCall.Considerate {δ : Type} (reach : Set Nat) (s : CacheManager δ) : SectorCall → Prop
  | .readSector sec_num => sec_num ∈ reach ∧
      ((s.sectorCache.get sec_num).1 = none → ∀ id ∈ s.handles, (s.object id).secNum ≠ sec_num)
  | _ => True

/-- A run of considerate calls, with what they have shown. -/
inductive CacheManager.Run {δ : Type} (dev : InnerDevice δ) (reach : Set Nat) (s₀ : CacheManager δ) :
    List SectorEvent → CacheManager δ → Prop where
  | nil : Run dev reach s₀ [] s₀
  | call {events s s' event} {call : SectorCall} (hrun : Run dev reach s₀ events s)
      (hcons : call.Considerate reach s) (hcall : call.run dev s = some (event, s')) :
      Run dev reach s₀ (events ++ event.toList) s'

/-! ### A plain array -/

/-- An array of sectors; nothing past its end. -/
abbrev SectorArray := Nat → Option (List UInt8)

/-- What the array does when a client reads or writes; nothing when it would have shown other bytes. -/
def SectorArray.next (a : SectorArray) : SectorEvent → Option SectorArray
  | .read sec_num value => if a sec_num = value then some a else none
  | .write sec_num off buf => (a sec_num).map fun value => Function.update a sec_num (some (splice value off buf))

theorem SectorArray.foldlM_event {a a' : SectorArray} {event : SectorEvent} (h : a.next event = some a') :
    (some event).toList.foldlM SectorArray.next a = some a' := by
  rw [Option.toList_some, List.foldlM_cons, h]
  rfl

/-- What the cache relies on of the device below, for the sector numbers that device can tell apart. -/
structure InnerDevice.Lawful {δ : Type} (dev : InnerDevice δ) (sec_sz : Nat) (reach : Set Nat)
    (inv : δ → Prop) : Prop where
  length : ∀ d n b, inv d → n ∈ reach → dev.readSector d n = some b → b.length = sec_sz
  inv_write : ∀ d n b, inv d → n ∈ reach → (dev.readSector d n).isSome → b.length = sec_sz →
    inv (dev.writeSectorValue d n b)
  read_self : ∀ d n b, inv d → n ∈ reach → (dev.readSector d n).isSome → b.length = sec_sz →
    dev.readSector (dev.writeSectorValue d n b) n = some b
  read_other : ∀ d n m b, inv d → n ∈ reach → m ∈ reach → m ≠ n → (dev.readSector d n).isSome →
    b.length = sec_sz → dev.readSector (dev.writeSectorValue d n b) m = dev.readSector d m

/-! ### The invariant -/

/-- The objects `live` and the inner device together hold the array `a`: one object at most for a sector, each with the bytes of its sector, and the inner device has the bytes of the sectors without a dirty object. -/
structure CacheManager.Holds {δ : Type} (dev : InnerDevice δ) (sec_sz : Nat) (reach : Set Nat)
    (inv : δ → Prop) (a : SectorArray) (live : Set Nat) (s : CacheManager δ) : Prop where
  inner_inv : inv s.innerDevice
  reached : ∀ id ∈ live, (s.object id).secNum ∈ reach
  value : ∀ id ∈ live, a (s.object id).secNum = some (s.object id).value
  unique : ∀ id ∈ live, ∀ id' ∈ live, (s.object id).secNum = (s.object id').secNum → id = id'
  inner : ∀ n ∈ reach, (∀ id ∈ live, (s.object id).secNum = n → (s.object id).dirty = false) →
    dev.readSector s.innerDevice n = a n
  range : ∀ n ∈ reach, (dev.readSector s.innerDevice n).isSome = (a n).isSome
  length : ∀ n ∈ reach, ∀ b, a n = some b → b.length = sec_sz

/-- The cache knows its sectors by their numbers, and objects not made yet belong to nobody. -/
structure CacheManager.Linked {δ : Type} (s : CacheManager δ) : Prop where
  keys : ∀ p ∈ s.sectorCache.list, (s.object p.2).secNum = p.1
  nodup : s.sectorCache.KeysNodup
  fresh : ∀ id ∈ s.owned, id < s.next

namespace CacheManager

variable {δ : Type} {dev : InnerDevice δ} {sec_sz : Nat} {reach : Set Nat} {inv : δ → Prop}
  {a : SectorArray} {live : Set Nat} {s s' : CacheManager δ} {id n : Nat}

theorem Holds.sync (hlaw : dev.Lawful sec_sz reach inv) (h : s.Holds dev sec_sz reach inv a live)
    (hid : id ∈ live) :
    (s.sync dev id).Holds dev sec_sz reach inv a live ∧ ((s.sync dev id).object id).dirty = false := by
  rw [CacheManager.sync]
  split
  · next hdirty =>
    have hreach := h.reached id hid
    have hvalue := h.value id hid
    have hlen := h.length _ hreach _ hvalue
    have hsome : (dev.readSector s.innerDevice (s.object id).secNum).isSome := by
      rw [h.range _ hreach, hvalue]
      rfl
    have hobj : ∀ id', (Function.update s.object id (s.object id).clean id').secNum =
        (s.object id').secNum ∧ (Function.update s.object id (s.object id).clean id').value =
        (s.object id').value := by
      intro id'
      by_cases heq : id' = id
      · rw [heq, Function.update_self]
        exact ⟨rfl, rfl⟩
      · rw [Function.update_of_ne heq]
        exact ⟨rfl, rfl⟩
    refine ⟨⟨hlaw.inv_write _ _ _ h.inner_inv hreach hsome hlen, fun id' hid' => ?_, fun id' hid' => ?_,
      fun id' hid' id'' hid'' heq => ?_, fun n hn hclean => ?_, fun n hn => ?_, h.length⟩, ?_⟩
    · simp only [hobj]
      exact h.reached id' hid'
    · simp only [hobj]
      exact h.value id' hid'
    · simp only [hobj] at heq
      exact h.unique id' hid' id'' hid'' heq
    · by_cases heq : n = (s.object id).secNum
      · rw [heq, hvalue]
        exact hlaw.read_self _ _ _ h.inner_inv hreach hsome hlen
      · dsimp only
        rw [hlaw.read_other _ _ _ _ h.inner_inv hreach hn heq hsome hlen]
        refine h.inner n hn fun id' hid' hnum => ?_
        have hne : id' ≠ id := fun hsame => heq (hsame ▸ hnum.symm)
        simpa only [Function.update_of_ne hne] using hclean id' hid' (by simp only [hobj]; exact hnum)
    · by_cases heq : n = (s.object id).secNum
      · rw [heq, hvalue]
        dsimp only
        rw [hlaw.read_self _ _ _ h.inner_inv hreach hsome hlen]
      · dsimp only
        rw [hlaw.read_other _ _ _ _ h.inner_inv hreach hn heq hsome hlen]
        exact h.range n hn
    · dsimp only
      rw [Function.update_self, Sector.dirty_clean]
  · next hclean => exact ⟨h, by simpa using hclean⟩

theorem Holds.forget (h : s.Holds dev sec_sz reach inv a live) {live' : Set Nat} (hsub : live' ⊆ live)
    (hclean : ∀ id ∈ live, id ∉ live' → (s.object id).dirty = false) :
    s.Holds dev sec_sz reach inv a live' := by
  refine ⟨h.inner_inv, fun id hid => h.reached id (hsub hid), fun id hid => h.value id (hsub hid),
    fun id hid id' hid' => h.unique id (hsub hid) id' (hsub hid'), fun n hn hnone => ?_, h.range, h.length⟩
  refine h.inner n hn fun id hid hnum => ?_
  by_cases hmem : id ∈ live'
  · exact hnone id hmem hnum
  · exact hclean id hid hmem

theorem release_same (dev : InnerDevice δ) (s : CacheManager δ) (id : Nat) :
    (s.release dev id).sectorCache = s.sectorCache ∧ (s.release dev id).handles = s.handles ∧
      (s.release dev id).next = s.next ∧
      ∀ id', ((s.release dev id).object id').secNum = (s.object id').secNum ∧
        ((s.release dev id).object id').value = (s.object id').value := by
  rw [release, CacheManager.sync]
  split
  · exact ⟨rfl, rfl, rfl, fun _ => ⟨rfl, rfl⟩⟩
  · split
    · refine ⟨rfl, rfl, rfl, fun id' => ?_⟩
      by_cases heq : id' = id
      · subst heq
        simp
      · simp [heq]
    · exact ⟨rfl, rfl, rfl, fun _ => ⟨rfl, rfl⟩⟩

theorem release_owned (dev : InnerDevice δ) (s : CacheManager δ) (id : Nat) : (s.release dev id).owned = s.owned := by
  obtain ⟨hcache, hhandles, -, -⟩ := s.release_same dev id
  rw [owned, owned, hcache, hhandles]

/-- Letting some objects go keeps the array, and only owned objects are left of them. -/
theorem Holds.releases (hlaw : dev.Lawful sec_sz reach inv) {ids : List Nat} :
    ∀ {s : CacheManager δ} {live : Set Nat}, s.Holds dev sec_sz reach inv a live → ids.Nodup →
    (∀ id ∈ ids, id ∈ live) → s.owned ⊆ live → (∀ id ∈ live, id ∈ s.owned ∨ id ∈ ids) →
    (ids.foldl (release dev) s).Holds dev sec_sz reach inv a s.owned := by
  induction ids with
  | nil =>
    intro s live h _ _ hsup hsub
    have hlive : live = s.owned := Set.Subset.antisymm (fun id hid => by simpa using hsub id hid) hsup
    exact hlive ▸ h
  | cons id ids ih =>
    intro s live h hnodup hids hsup hsub
    have hid := hids id List.mem_cons_self
    obtain ⟨hnotin, hnodup⟩ := List.nodup_cons.mp hnodup
    have hone : (s.release dev id).Holds dev sec_sz reach inv a (s.owned ∪ (live \ {id})) := by
      have hlive' : s.owned ∪ (live \ {id}) ⊆ live := Set.union_subset hsup Set.sdiff_subset
      have hrest : ∀ id' ∈ live, id' ∉ s.owned ∪ (live \ {id}) → id' = id := fun id' hid' hout => by
        by_contra hne
        exact hout (.inr ⟨hid', hne⟩)
      rw [release]
      split
      · next hown => exact h.forget hlive' fun id' hid' hout => absurd (.inl (hrest id' hid' hout ▸ hown)) hout
      · obtain ⟨hsync, hclean⟩ := h.sync hlaw hid
        exact hsync.forget hlive' fun id' hid' hout => hrest id' hid' hout ▸ hclean
    rw [List.foldl_cons, ← s.release_owned dev id]
    refine ih hone hnodup (fun id' hid' => ?_) ?_ fun id' hid' => ?_
    · exact .inr ⟨hids id' (List.mem_cons_of_mem _ hid'), fun heq => hnotin (heq ▸ hid')⟩
    · rw [release_owned]
      exact Set.subset_union_left
    · rw [release_owned]
      rcases hid' with hown | ⟨hid', hne⟩
      · exact .inl hown
      · exact (hsub id' hid').imp_right fun hmem => (List.mem_cons.mp hmem).resolve_left hne

theorem foldl_release_same (dev : InnerDevice δ) (ids : List Nat) : ∀ s : CacheManager δ,
    (ids.foldl (release dev) s).sectorCache = s.sectorCache ∧
      (ids.foldl (release dev) s).handles = s.handles ∧ (ids.foldl (release dev) s).next = s.next ∧
      ∀ id, ((ids.foldl (release dev) s).object id).secNum = (s.object id).secNum ∧
        ((ids.foldl (release dev) s).object id).value = (s.object id).value := by
  induction ids with
  | nil => exact fun s => ⟨rfl, rfl, rfl, fun _ => ⟨rfl, rfl⟩⟩
  | cons id ids ih =>
    intro s
    obtain ⟨hcache, hhandles, hnext, hobj⟩ := ih (s.release dev id)
    obtain ⟨hcache', hhandles', hnext', hobj'⟩ := s.release_same dev id
    rw [List.foldl_cons]
    exact ⟨hcache.trans hcache', hhandles.trans hhandles', hnext.trans hnext',
      fun id' => ⟨(hobj id').1.trans (hobj' id').1, (hobj id').2.trans (hobj' id').2⟩⟩

private theorem foldl_release_clean (dev : InnerDevice δ) (ids : List Nat) : ∀ s : CacheManager δ,
    (s.object id).dirty = false → ((ids.foldl (release dev) s).object id).dirty = false := by
  induction ids with
  | nil => exact fun s h => h
  | cons id' ids ih =>
    intro s h
    refine ih (s.release dev id') ?_
    rw [release, CacheManager.sync]
    split
    · exact h
    · split
      · by_cases heq : id = id'
        · simp [heq]
        · simpa [heq] using h
      · exact h

/-- The invariant of a run: the owned objects hold the array. -/
structure Sound (dev : InnerDevice δ) (sec_sz : Nat) (reach : Set Nat) (inv : δ → Prop)
    (a : SectorArray) (s : CacheManager δ) : Prop extends Linked s where
  holds : s.Holds dev sec_sz reach inv a s.owned

theorem Linked.of_same (h : s.Linked) (hcache : s'.sectorCache = s.sectorCache)
    (hhandles : ∀ id ∈ s'.handles, id ∈ s.handles) (hnext : s'.next = s.next)
    (hobj : ∀ id, (s'.object id).secNum = (s.object id).secNum) : s'.Linked := by
  refine ⟨fun p hp => ?_, hcache ▸ h.nodup, fun id hid => ?_⟩
  · rw [hobj]
    exact h.keys p (hcache ▸ hp)
  · rw [hnext]
    exact h.fresh id (hid.imp (fun h => hcache ▸ h) (hhandles id))

theorem Linked.values_nodup (h : s.Linked) : s.sectorCache.values.Nodup := by
  have hmap : s.sectorCache.list.map Prod.fst = s.sectorCache.values.map fun id => (s.object id).secNum := by
    rw [LRUCacheMap.values, List.map_map]
    exact List.map_congr_left fun p hp => (h.keys p hp).symm
  have hnodup := h.nodup
  rw [LRUCacheMap.KeysNodup, hmap] at hnodup
  exact hnodup.of_map _

theorem Sound.sync (hlaw : dev.Lawful sec_sz reach inv) (h : s.Sound dev sec_sz reach inv a)
    (hid : id ∈ s.handles) : (s.sync dev id).Sound dev sec_sz reach inv a := by
  have hsame : (s.sync dev id).sectorCache = s.sectorCache ∧ (s.sync dev id).handles = s.handles ∧
      (s.sync dev id).next = s.next ∧ ∀ id', ((s.sync dev id).object id').secNum = (s.object id').secNum := by
    rw [CacheManager.sync]
    split
    · refine ⟨rfl, rfl, rfl, fun id' => ?_⟩
      by_cases heq : id' = id
      · subst heq
        simp
      · simp [heq]
    · exact ⟨rfl, rfl, rfl, fun _ => rfl⟩
  obtain ⟨hcache, hhandles, hnext, hobj⟩ := hsame
  have howned : (s.sync dev id).owned = s.owned := by rw [owned, owned, hcache, hhandles]
  exact ⟨h.toLinked.of_same hcache (fun _ hid => hhandles ▸ hid) hnext hobj,
    howned ▸ (h.holds.sync hlaw (.inr hid)).1⟩

theorem Sound.releases (hlaw : dev.Lawful sec_sz reach inv) (h : s.Sound dev sec_sz reach inv a)
    (ids : List Nat) (hobj : s'.object = s.object) (hinner : s'.innerDevice = s.innerDevice)
    (hlinked : s'.Linked) (hnodup : ids.Nodup) (hids : ∀ id ∈ ids, id ∈ s.owned)
    (hsup : s'.owned ⊆ s.owned) (hsub : ∀ id ∈ s.owned, id ∈ s'.owned ∨ id ∈ ids) :
    (ids.foldl (release dev) s').Sound dev sec_sz reach inv a := by
  have hholds : s'.Holds dev sec_sz reach inv a s.owned := by
    have hh := h.holds
    exact ⟨hinner ▸ hh.inner_inv, hobj ▸ hh.reached, hobj ▸ hh.value, hobj ▸ hh.unique,
      by rw [hinner, hobj]; exact hh.inner, by rw [hinner]; exact hh.range, hh.length⟩
  obtain ⟨hcache, hhandles, hnext, hsame⟩ := foldl_release_same dev ids s'
  have howned : (ids.foldl (release dev) s').owned = s'.owned := by rw [owned, owned, hcache, hhandles]
  refine ⟨hlinked.of_same hcache (fun _ hid => hhandles ▸ hid) hnext fun id => (hsame id).1, ?_⟩
  rw [howned]
  exact hholds.releases hlaw hnodup hids hsup hsub

theorem Sound.hit (h : s.Sound dev sec_sz reach inv a) (hget : (s.sectorCache.get n).1 = some id) :
    CacheManager.Sound dev sec_sz reach inv a
        { s with sectorCache := (s.sectorCache.get n).2, handles := id :: s.handles } ∧
      (s.object id).secNum = n ∧ id ∈ s.owned := by
  obtain ⟨hmem, hperm, -⟩ := LRUCacheMap.get_of_some h.nodup hget
  have hid : id ∈ s.owned := .inl (List.mem_map_of_mem (f := Prod.snd) hmem)
  have howned : CacheManager.owned
      { s with sectorCache := (s.sectorCache.get n).2, handles := id :: s.handles } = s.owned := by
    ext id'
    have hvalues : id' ∈ (s.sectorCache.get n).2.values ↔ id' ∈ s.sectorCache.values :=
      (hperm.map Prod.snd).mem_iff
    change id' ∈ (s.sectorCache.get n).2.values ∨ id' ∈ id :: s.handles ↔ id' ∈ s.owned
    rw [hvalues, List.mem_cons]
    constructor
    · rintro (hcache | rfl | hhandle)
      · exact .inl hcache
      · exact hid
      · exact .inr hhandle
    · exact fun hown => hown.imp_right .inr
  refine ⟨⟨⟨fun p hp => h.keys p (hperm.mem_iff.mp hp), ?_, fun id' hid' => ?_⟩, ?_⟩, h.keys _ hmem, hid⟩
  · exact ((hperm.map Prod.fst).nodup_iff).mpr h.nodup
  · exact h.fresh id' (howned ▸ hid')
  · rw [howned]
    exact ⟨h.holds.inner_inv, h.holds.reached, h.holds.value, h.holds.unique, h.holds.inner, h.holds.range,
      h.holds.length⟩

/-- A miss makes a new object with the bytes of the inner device, which are those of the array because nobody has another object of the sector. -/
theorem Sound.miss (hlaw : dev.Lawful sec_sz reach inv) (h : s.Sound dev sec_sz reach inv a)
    (hn : n ∈ reach) (hget : (s.sectorCache.get n).1 = none)
    (hcons : ∀ id ∈ s.handles, (s.object id).secNum ≠ n) :
    dev.readSector s.innerDevice n = a n ∧ ∀ value, dev.readSector s.innerDevice n = some value →
      CacheManager.Sound dev sec_sz reach inv a
        ((s.sectorCache.put n s.next).2.foldl (release dev)
          { s with
            sectorCache := (s.sectorCache.put n s.next).1
            object := Function.update s.object s.next ⟨n, value, false⟩
            next := s.next + 1
            handles := s.next :: s.handles }) := by
  have habsent := LRUCacheMap.get_eq_none.mp hget
  have hnone : ∀ id ∈ s.owned, (s.object id).secNum ≠ n := by
    rintro id (hcache | hhandle)
    · obtain ⟨p, hp, rfl⟩ := List.mem_map.mp hcache
      rw [h.keys p hp]
      exact habsent p hp
    · exact hcons id hhandle
  have hread : dev.readSector s.innerDevice n = a n :=
    h.holds.inner n hn fun id hid hnum => absurd hnum (hnone id hid)
  refine ⟨hread, fun value hvalue => ?_⟩
  obtain ⟨dropped, hdropped, happ, -⟩ := LRUCacheMap.put_of_absent habsent s.next
  have hold : ∀ id ∈ s.owned, id ≠ s.next := fun id hid heq => absurd (h.fresh id hid) (by omega)
  set s₁ : CacheManager δ :=
    { s with
      object := Function.update s.object s.next ⟨n, value, false⟩
      next := s.next + 1
      handles := s.next :: s.handles
      sectorCache := ⟨s.sectorCache.maxSize, (n, s.next) :: s.sectorCache.list⟩ } with hs₁
  have hself : s₁.object s.next = ⟨n, value, false⟩ := Function.update_self ..
  have hobj : ∀ id ∈ s.owned, s₁.object id = s.object id := fun id hid => Function.update_of_ne (hold id hid) ..
  have howned : ∀ id, id ∈ s₁.owned ↔ id = s.next ∨ id ∈ s.owned := by
    intro id
    change id ∈ s.next :: s.sectorCache.values ∨ id ∈ s.next :: s.handles ↔ _
    rw [List.mem_cons, List.mem_cons]
    change _ ↔ id = s.next ∨ id ∈ s.sectorCache.values ∨ id ∈ s.handles
    tauto
  have hlinked : s₁.Linked := by
    refine ⟨fun p hp => ?_, ?_, fun id hid => ?_⟩
    · rcases List.mem_cons.mp hp with rfl | hp
      · rw [hself]
      · rw [hobj _ (.inl (List.mem_map_of_mem (f := Prod.snd) hp))]
        exact h.keys p hp
    · refine List.nodup_cons.mpr ⟨fun hmem => ?_, h.nodup⟩
      obtain ⟨p, hp, heq⟩ := List.mem_map.mp hmem
      exact habsent p hp heq
    · change id < s.next + 1
      rcases (howned id).mp hid with rfl | hid
      · omega
      · exact (h.fresh id hid).trans (Nat.lt_succ_self _)
  have hall : ∀ {P : Nat → Sector → Prop}, P s.next ⟨n, value, false⟩ → (∀ id ∈ s.owned, P id (s.object id)) →
      ∀ id ∈ s₁.owned, P id (s₁.object id) := by
    intro P hnew hrest id hid
    rcases (howned id).mp hid with rfl | hid
    · rw [hself]
      exact hnew
    · rw [hobj id hid]
      exact hrest id hid
  have hholds : s₁.Holds dev sec_sz reach inv a s₁.owned := by
    refine ⟨h.holds.inner_inv, hall (P := fun _ x => x.secNum ∈ reach) hn h.holds.reached,
      hall (P := fun _ x => a x.secNum = some x.value) (hread ▸ hvalue) h.holds.value,
      fun id hid id' hid' heq => ?_, fun m hm hclean => ?_, h.holds.range, h.holds.length⟩
    · rcases (howned id).mp hid with rfl | hid <;> rcases (howned id').mp hid' with rfl | hid'
      · rfl
      · rw [hself, hobj id' hid'] at heq
        exact absurd heq.symm (hnone id' hid')
      · rw [hself, hobj id hid] at heq
        exact absurd heq (hnone id hid)
      · rw [hobj id hid, hobj id' hid'] at heq
        exact h.holds.unique id hid id' hid' heq
    · refine h.holds.inner m hm fun id hid hnum => ?_
      have := hclean id ((howned id).mpr (.inr hid)) (by rw [hobj id hid]; exact hnum)
      rwa [hobj id hid] at this
  have hvalues : ∀ id, id ∈ s₁.sectorCache.values ↔
      id ∈ (s.sectorCache.put n s.next).1.values ∨ id ∈ (s.sectorCache.put n s.next).2 := by
    intro id
    change id ∈ ((n, s.next) :: s.sectorCache.list).map Prod.snd ↔ _
    rw [← happ, List.map_append, List.mem_append, hdropped]
    exact Iff.rfl
  have hnodup : (s.sectorCache.put n s.next).2.Nodup := by
    have hvals := hlinked.values_nodup
    change (((n, s.next) :: s.sectorCache.list).map Prod.snd).Nodup at hvals
    rw [← happ, List.map_append] at hvals
    rw [hdropped]
    exact (List.nodup_append.mp hvals).2.1
  have hsound : s₁.Sound dev sec_sz reach inv a := ⟨hlinked, hholds⟩
  refine hsound.releases hlaw _ rfl rfl ?_ hnodup (fun id hid => .inl ((hvalues id).mpr (.inr hid)))
    (fun id hid => hid.imp_left fun hcache => (hvalues id).mpr (.inl hcache)) fun id hid => ?_
  · refine ⟨fun p hp => hlinked.keys p ?_, LRUCacheMap.put_keysNodup h.nodup, fun id hid => ?_⟩
    · change p ∈ (n, s.next) :: s.sectorCache.list
      rw [← happ]
      exact List.mem_append_left _ hp
    · exact hlinked.fresh id (hid.imp_left fun hcache => (hvalues id).mpr (.inl hcache))
  · rcases hid with hcache | hhandle
    · exact ((hvalues id).mp hcache).imp .inl fun hdrop => hdrop
    · exact .inl (.inr hhandle)

/-- Reading a sector hands out an object with the bytes of the array, when there is such a sector. -/
theorem Sound.readSector (hlaw : dev.Lawful sec_sz reach inv) (h : s.Sound dev sec_sz reach inv a)
    (hcons : (SectorCall.readSector n).Considerate reach s) :
    (s.readSector dev n).2.Sound dev sec_sz reach inv a ∧
      (s.readSector dev n).1.map (fun id => ((s.readSector dev n).2.object id).value) = a n := by
  obtain ⟨hn, hcons⟩ := hcons
  rw [CacheManager.readSector]
  rcases hcache : s.sectorCache.get n with ⟨_ | id, cache⟩
  · have hget : (s.sectorCache.get n).1 = none := by rw [hcache]
    obtain ⟨hread, hmiss⟩ := h.miss hlaw hn hget (hcons hget)
    dsimp only
    split
    · next hnone => exact ⟨h, hread ▸ hnone.symm⟩
    · next value hvalue =>
      refine ⟨hmiss value hvalue, ?_⟩
      have hsame := (foldl_release_same dev (s.sectorCache.put n s.next).2
        { s with
          sectorCache := (s.sectorCache.put n s.next).1
          object := Function.update s.object s.next ⟨n, value, false⟩
          next := s.next + 1
          handles := s.next :: s.handles }).2.2.2 s.next
      simp only [Option.map_some, hsame.2, Function.update_self, ← hread, hvalue]
  · have hget : (s.sectorCache.get n).1 = some id := by rw [hcache]
    obtain ⟨hsound, hnum, hid⟩ := h.hit hget
    rw [hcache] at hsound
    refine ⟨hsound, ?_⟩
    dsimp only [Option.map_some]
    rw [← h.holds.value id hid, hnum]

theorem Sound.writePtr (h : s.Sound dev sec_sz reach inv a) (hid : id ∈ s.handles) {off : Nat}
    {buf : List UInt8} (hfit : off + buf.length ≤ (s.object id).value.length) :
    CacheManager.Sound dev sec_sz reach inv
      (Function.update a (s.object id).secNum (some (splice (s.object id).value off buf)))
      { s with object := Function.update s.object id ((s.object id).write off buf) } := by
  have hown : id ∈ s.owned := .inr hid
  have hnum : ∀ id', (Function.update s.object id ((s.object id).write off buf) id').secNum = (s.object id').secNum := by
    intro id'
    by_cases heq : id' = id
    · rw [heq, Function.update_self, Sector.secNum_write]
    · rw [Function.update_of_ne heq]
  have hother : ∀ id' ∈ s.owned, id' ≠ id → (s.object id').secNum ≠ (s.object id).secNum :=
    fun id' hid' hne heq => hne (h.holds.unique id' hid' id hown heq)
  have hvalue := h.holds.value id hown
  refine ⟨h.toLinked.of_same rfl (fun _ hid => hid) rfl hnum, ?_⟩
  refine ⟨h.holds.inner_inv, fun id' hid' => ?_, fun id' hid' => ?_, fun id' hid' id'' hid'' heq => ?_,
    fun n hn hclean => ?_, fun n hn => ?_, fun n hn b hb => ?_⟩
  · exact (hnum id').symm ▸ h.holds.reached id' hid'
  · by_cases heq : id' = id
    · subst heq
      dsimp only
      rw [Function.update_self id']
      exact Function.update_self ..
    · simp only [Function.update_of_ne heq, Function.update_of_ne (hother id' hid' heq)]
      exact h.holds.value id' hid'
  · exact h.holds.unique id' hid' id'' hid'' (by simpa only [hnum] using heq)
  · by_cases heq : n = (s.object id).secNum
    · have := hclean id hown (by simp only [hnum]; exact heq.symm)
      simp at this
    · rw [Function.update_of_ne heq]
      refine h.holds.inner n hn fun id' hid' hnum' => ?_
      have hne : id' ≠ id := fun hsame => heq (hsame ▸ hnum'.symm)
      simpa only [Function.update_of_ne hne] using hclean id' hid' (by simp only [hnum]; exact hnum')
  · rw [h.holds.range n hn]
    by_cases heq : n = (s.object id).secNum
    · rw [heq, Function.update_self, hvalue]
      rfl
    · rw [Function.update_of_ne heq]
  · by_cases heq : n = (s.object id).secNum
    · rw [heq, Function.update_self] at hb
      obtain rfl := Option.some.inj hb
      rw [length_splice hfit]
      exact h.holds.length _ (heq ▸ hn) _ hvalue
    · rw [Function.update_of_ne heq] at hb
      exact h.holds.length n hn b hb

theorem Sound.drop (hlaw : dev.Lawful sec_sz reach inv) (h : s.Sound dev sec_sz reach inv a)
    (hid : id ∈ s.handles) :
    (CacheManager.release dev { s with handles := s.handles.erase id } id).Sound dev sec_sz reach inv a := by
  have hsub : ∀ id' ∈ s.handles.erase id, id' ∈ s.handles := fun id' => List.mem_of_mem_erase
  refine h.releases hlaw [id] rfl rfl (h.toLinked.of_same rfl hsub rfl fun _ => rfl)
    (List.nodup_singleton id) (fun id' hid' => ?_) (fun id' hid' => hid'.imp_right (hsub id'))
    fun id' hid' => ?_
  · rw [List.mem_singleton.mp hid']
    exact .inr hid
  · by_cases heq : id' = id
    · exact .inr (List.mem_singleton.mpr heq)
    · exact .inl (hid'.imp_right fun hhandle => (List.mem_erase_of_ne heq).mpr hhandle)

theorem Sound.clear (hlaw : dev.Lawful sec_sz reach inv) (h : s.Sound dev sec_sz reach inv a) :
    (s.clear dev).Sound dev sec_sz reach inv a := by
  refine h.releases hlaw _ rfl rfl ⟨fun p hp => absurd hp List.not_mem_nil, List.nodup_nil, fun id hid => ?_⟩
    h.toLinked.values_nodup (fun id hid => .inl hid)
    (fun id hid => .inr (hid.resolve_left List.not_mem_nil)) fun id hid => ?_
  · exact h.fresh id (.inr (hid.resolve_left List.not_mem_nil))
  · exact hid.symm.imp_left .inr

/-- A call shows what the array shows, and keeps the invariant. -/
theorem Sound.call (hlaw : dev.Lawful sec_sz reach inv) (h : s.Sound dev sec_sz reach inv a)
    {call : SectorCall} (hcons : call.Considerate reach s) {event : Option SectorEvent}
    (hcall : call.run dev s = some (event, s')) :
    ∃ a', event.toList.foldlM SectorArray.next a = some a' ∧ s'.Sound dev sec_sz reach inv a' := by
  cases call with
  | readSector n =>
    obtain ⟨hsound, hvalue⟩ := h.readSector hlaw hcons
    obtain ⟨rfl, rfl⟩ := Prod.mk.inj (Option.some.inj hcall)
    exact ⟨a, SectorArray.foldlM_event (if_pos hvalue.symm), hsound⟩
  | readPtr id =>
    obtain ⟨_, hid, hcall⟩ := Option.bind_eq_some_iff.mp hcall
    obtain ⟨rfl, rfl⟩ := Prod.mk.inj (Option.some.inj hcall)
    have hid := of_decide_eq_true (assert_eq_some.mp hid)
    have hvalue := h.holds.value id (.inr hid)
    exact ⟨a, SectorArray.foldlM_event (if_pos hvalue), h⟩
  | writePtr id off buf =>
    obtain ⟨_, hfit, hcall⟩ := Option.bind_eq_some_iff.mp hcall
    obtain ⟨rfl, rfl⟩ := Prod.mk.inj (Option.some.inj hcall)
    obtain ⟨hid, -, hfit⟩ := of_decide_eq_true (assert_eq_some.mp hfit)
    have hvalue := h.holds.value id (.inr hid)
    refine ⟨_, SectorArray.foldlM_event ?_, h.writePtr hid hfit⟩
    rw [SectorArray.next, hvalue, Option.map_some]
  | sync id =>
    obtain ⟨_, hid, hcall⟩ := Option.bind_eq_some_iff.mp hcall
    obtain ⟨rfl, rfl⟩ := Prod.mk.inj (Option.some.inj hcall)
    exact ⟨a, rfl, h.sync hlaw (of_decide_eq_true (assert_eq_some.mp hid))⟩
  | drop id =>
    obtain ⟨_, hid, hcall⟩ := Option.bind_eq_some_iff.mp hcall
    obtain ⟨rfl, rfl⟩ := Prod.mk.inj (Option.some.inj hcall)
    exact ⟨a, rfl, h.drop hlaw (of_decide_eq_true (assert_eq_some.mp hid))⟩
  | clear =>
    obtain ⟨rfl, rfl⟩ := Prod.mk.inj (Option.some.inj hcall)
    exact ⟨a, rfl, h.clear hlaw⟩

private theorem sound_new (hlaw : dev.Lawful sec_sz reach inv) {d : δ} (hd : inv d) (cache_sz : Nat) :
    (CacheManager.new d cache_sz).Sound dev sec_sz reach inv (dev.readSector d) := by
  have hnone : ∀ id, id ∉ (CacheManager.new d cache_sz).owned := fun id hid =>
    hid.elim List.not_mem_nil List.not_mem_nil
  exact ⟨⟨fun p hp => absurd hp List.not_mem_nil, List.nodup_nil, fun id hid => absurd hid (hnone id)⟩,
    ⟨hd, fun id hid => absurd hid (hnone id), fun id hid => absurd hid (hnone id),
      fun id hid => absurd hid (hnone id), fun _ _ _ => rfl, fun _ _ => rfl,
      fun n hn b hb => hlaw.length d n b hd hn hb⟩⟩

theorem Run.sound (hlaw : dev.Lawful sec_sz reach inv) {s₀ : CacheManager δ} {events : List SectorEvent}
    (h₀ : s₀.Sound dev sec_sz reach inv a) (hrun : Run dev reach s₀ events s) :
    ∃ a', events.foldlM SectorArray.next a = some a' ∧ s.Sound dev sec_sz reach inv a' := by
  induction hrun with
  | nil => exact ⟨a, rfl, h₀⟩
  | call _ hcons hcall ih =>
    obtain ⟨a₁, hevents, hsound⟩ := ih
    obtain ⟨a', hevent, hsound'⟩ := hsound.call hlaw hcons hcall
    refine ⟨a', ?_, hsound'⟩
    rw [List.foldlM_append, hevents]
    exact hevent

/-- What was read is what an array of sectors shows, and after `clear` the inner device has the sectors of that array, those in `held` aside. -/
def ActsAsArray (dev : InnerDevice δ) (reach : Set Nat) (d : δ) (events : List SectorEvent)
    (s : CacheManager δ) (held : Set Nat) : Prop :=
  ∃ a, events.foldlM SectorArray.next (dev.readSector d) = some a ∧
    ∀ n ∈ reach, n ∉ held → dev.readSector (s.clear dev).innerDevice n = a n

/-- The sectors clients hold handles to whose bytes are not on the device below yet. -/
def heldSectors (s : CacheManager δ) : Set Nat :=
  {n | ∃ id ∈ s.handles, (s.object id).secNum = n ∧ (s.object id).dirty = true}

end CacheManager

/-- Whatever the capacity and the calls, clients that drop their handles before a sector is read again see a plain array, and `clear` leaves its sectors on the inner device, those aside that are still held with bytes to write. -/
theorem CacheManager.run_plain_array {δ : Type} (dev : InnerDevice δ) (sec_sz : Nat) (reach : Set Nat)
    (inv : δ → Prop) (hlaw : dev.Lawful sec_sz reach inv) (d : δ) (hd : inv d) (cache_sz : Nat)
    (events : List SectorEvent) (s : CacheManager δ)
    (hrun : CacheManager.Run dev reach (.new d cache_sz) events s) :
    s.ActsAsArray dev reach d events s.heldSectors := by
  obtain ⟨a, hevents, hsound⟩ := hrun.sound hlaw (CacheManager.sound_new hlaw hd cache_sz)
  refine ⟨a, hevents, fun n hn hheld => (hsound.clear hlaw).holds.inner n hn fun id hid hnum => ?_⟩
  -- the cache is empty now, so whoever owns the object holds a handle
  obtain ⟨hcache, hhandles, -, hobj⟩ :=
    CacheManager.foldl_release_same dev s.sectorCache.clear.2 { s with sectorCache := s.sectorCache.clear.1 }
  have hhandle : id ∈ s.handles := by
    refine hhandles ▸ hid.resolve_left fun hmem => ?_
    rw [CacheManager.clear, hcache] at hmem
    exact List.not_mem_nil hmem
  have hclean : (s.object id).dirty = false := by
    by_contra hdirty
    exact hheld ⟨id, hhandle, (hobj id).1.symm.trans hnum, by simpa using hdirty⟩
  exact CacheManager.foldl_release_clean dev s.sectorCache.clear.2 _ hclean

end FuseFat32
