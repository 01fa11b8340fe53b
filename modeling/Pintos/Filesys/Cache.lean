/-
`filesys/cache.c`: the buffer cache of 64 sectors.

A slot is free when its holder is 0, which no inode id is: `allocate_iid` counts from 1. The calls
run one after another, so a slot's semaphore and the lock of the eviction are free whenever they
are taken, and the model leaves them out. `src` and `dest` are lists of `chunk_size` bytes.

Putting looks for a slot with the inode id, the sector and the position, getting for one with the
sector. A put that takes a slot over tags it, leaves it clean, and fills the bytes it does not
write with zeros. A get that takes one over reads the sector but does not tag it.
-/
import Pintos.Filesys.Disk

set_option autoImplicit false

namespace Pintos.Filesys.Cache

open Pintos.Filesys

/-! ## The code -/

/-- `struct cache_block`, less the semaphore. -/
structure CacheBlock where
  sector : ℕ
  dirty : Bool
  access : Bool
  data : Sector
  holder : ℤ
  pos : ℤ

/-- `buffer_cache`, the static `victim` of `cache_evict`, and the file system with its disk. -/
structure CacheState where
  buffer_cache : Fin 64 → CacheBlock
  victim : ℕ
  fs : FileSys

/-- -1 as a `disk_sector_t`. -/
def NO_SECTOR : ℕ := 2 ^ 32 - 1

/-- `cache_init`. -/
def cache_init (st : CacheState) : CacheState :=
  { st with buffer_cache := fun i =>
      { st.buffer_cache i with
        holder := 0
        sector := NO_SECTOR } }

/-- A slot, by an index that may leave the array. -/
def block (st : CacheState) (i : ℕ) : Res CacheBlock :=
  if h : i < 64 then .ok (st.buffer_cache ⟨i, h⟩) else .error .bounds

/-- A slot replaced. -/
def set_block (st : CacheState) (i : Fin 64) (b : CacheBlock) : CacheState :=
  { st with buffer_cache := Function.update st.buffer_cache i b }

/-- The bytes of a turn of the loops below: the lesser of what is left to copy, what is left of the
request and what is left of the sector. -/
def chunk (length size offset : ℕ) : ℕ := min size (min (length - offset) (512 - offset % 512))

/-- The loop of `cache_write_disk`. -/
def cache_write_loop (sec_id length : ℕ) : ℕ → CacheState → ℕ → ℕ → ℕ → Res CacheState
  | 0, _, _, _, _ => .error .diverge
  | fuel + 1, st, size, offset, curr_id =>
    if 0 < size ∧ 0 < chunk length size offset then do
      let b ← block st curr_id
      let fs ← disk_write st.fs (sec_id + offset / 512) b.data
      cache_write_loop sec_id length fuel { st with fs := fs } (size - chunk length size offset)
        (offset + chunk length size offset) (curr_id + 1)
    else .ok st

/-- `cache_write_disk`. -/
def cache_write_disk (st : CacheState) (sec_id cache_id size offset : ℕ) : Res CacheState :=
  cache_write_loop sec_id size (size + 1) st size offset cache_id

/-- The loop of `cache_read_disk`. -/
def cache_read_loop (sec_id length : ℕ) : ℕ → CacheState → ℕ → ℕ → ℕ → Res CacheState
  | 0, _, _, _, _ => .error .diverge
  | fuel + 1, st, size, offset, curr_id =>
    if 0 < size ∧ 0 < chunk length size offset then
      if h : curr_id < 64 then do
        let data ← disk_read st.fs (sec_id + offset / 512)
        let st := set_block st ⟨curr_id, h⟩
          { st.buffer_cache ⟨curr_id, h⟩ with
            data := data
            access := false
            dirty := false }
        cache_read_loop sec_id length fuel st (size - chunk length size offset)
          (offset + chunk length size offset) (curr_id + 1)
      else .error .bounds
    else .ok st

/-- `cache_read_disk`. -/
def cache_read_disk (st : CacheState) (sec_id cache_id size offset : ℕ) : Res CacheState :=
  cache_read_loop sec_id size (size + 1) st size offset cache_id

/-- `search_free_block`. -/
def search_free_block (st : CacheState) : Option (Fin 64) :=
  (List.finRange 64).find? (fun i => decide ((st.buffer_cache i).holder = 0))

/-- `sector_to_cachei`. -/
def sector_to_cachei (st : CacheState) (sector : ℕ) : Option (Fin 64) :=
  (List.finRange 64).find? (fun i => decide ((st.buffer_cache i).sector = sector))

/-- `find_me`. -/
def find_me (st : CacheState) (iid : ℤ) (sec_id : ℕ) (pos : ℤ) : Option (Fin 64) :=
  (List.finRange 64).find? (fun i => decide ((st.buffer_cache i).holder = iid ∧
    (st.buffer_cache i).sector = sec_id ∧ (st.buffer_cache i).pos = pos))

/-- The slot that `cache_evict` frees next. -/
def victim_slot (st : CacheState) : Fin 64 := ⟨st.victim % 64, Nat.mod_lt _ (by decide)⟩

/-- `cache_evict`. -/
def cache_evict (st : CacheState) : Res (CacheState × Fin 64) := do
  let v := victim_slot st
  let st ← if (st.buffer_cache v).dirty then
      cache_write_disk st (st.buffer_cache v).sector v 512 0
    else .ok st
  let st := set_block st v
    { st.buffer_cache v with
      holder := 0
      sector := NO_SECTOR }
  return ({ st with victim := v + 1 }, v)

/-- A free slot, or else the evicted one. -/
def take_block (st : CacheState) : Res (CacheState × Fin 64) :=
  match search_free_block st with
  | some i => .ok (st, i)
  | none => cache_evict st

/-- `memcpy (data + sector_ofs, src, chunk_size)`. -/
def copy_in (data : Sector) (sector_ofs : ℕ) (src : List UInt8) : Res Sector :=
  if sector_ofs + src.length ≤ 512 then
    .ok (fun off => if sector_ofs ≤ off ∧ off < sector_ofs + src.length
      then src.getD (off - sector_ofs) 0 else data off)
  else .error .bounds

/-- `memcpy (dest, data + sector_ofs, chunk_size)`. -/
def copy_out (data : Sector) (sector_ofs chunk_size : ℕ) : Res (List UInt8) :=
  if sector_ofs + chunk_size ≤ 512 then
    .ok ((List.range chunk_size).map (fun j => data (sector_ofs + j)))
  else .error .bounds

/-- What `inode_put_cache` leaves in a slot: the bytes that are not written are zeros if the sector
was not cached. -/
def put_data (already_cached : Bool) (data : Sector) (src : List UInt8) (sector_ofs : ℕ) :
    Res Sector :=
  if sector_ofs = 0 ∧ src.length = 512 then copy_in data 0 src
  else copy_in (if already_cached then data else fun _ => 0) sector_ofs src

/-- `inode_put_cache`. -/
def inode_put_cache (st : CacheState) (src : List UInt8) (sec_id : ℕ) (iid pos : ℤ)
    (sector_ofs : ℕ) : Res CacheState :=
  match find_me st iid sec_id pos with
  | some i => do
    let data ← put_data true (st.buffer_cache i).data src sector_ofs
    return set_block st i
      { st.buffer_cache i with
        data := data
        sector := sec_id
        pos := pos
        dirty := true }
  | none => do
    let r ← take_block st
    let data ← put_data false (r.1.buffer_cache r.2).data src sector_ofs
    return set_block r.1 r.2
      { data := data
        sector := sec_id
        pos := pos
        dirty := false
        access := false
        holder := iid }

/-- The slot that `inode_get_cache` copies from: the one that holds the sector, or one that the
sector is read to. -/
def get_block (st : CacheState) (sec_id : ℕ) (iid pos : ℤ) : Res (CacheState × Fin 64) :=
  match (sector_to_cachei st sec_id).filter
    (fun i => decide ((st.buffer_cache i).holder = iid ∨ iid = -3)) with
  | some i => .ok (st, i)
  | none => do
    let r ← take_block st
    let st ← cache_read_disk r.1 sec_id r.2 512 0
    return (set_block st r.2 { st.buffer_cache r.2 with pos := pos }, r.2)

/-- `inode_get_cache`: the bytes for `dest`. -/
def inode_get_cache (st : CacheState) (sec_id : ℕ) (iid pos : ℤ) (sector_ofs chunk_size : ℕ) :
    Res (List UInt8 × CacheState) := do
  let r ← get_block st sec_id iid pos
  let dest ← copy_out (r.1.buffer_cache r.2).data sector_ofs chunk_size
  return (dest, set_block r.1 r.2 { r.1.buffer_cache r.2 with access := true })

end Pintos.Filesys.Cache
