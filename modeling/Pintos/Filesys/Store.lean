/-
The file system as a whole: formatting, the open inodes, and the operations that
create, open, write, remove and close them.

`inode_open` keeps one `struct inode` per sector, so the list of open inodes is
here the function from sectors it implements. The free map's inode is opened once
by `free_map_open` and stays in `free_map_file`; no directory entry names it, so
no operation of a run is about it. `live` is the list of inodes that exist:
created, and not yet deleted by the last close after a removal.
-/
import Pintos.Filesys.FileArray
import Pintos.Filesys.Create

set_option autoImplicit false

namespace Pintos.Filesys

open Pintos.Kernel WordImage StepSystem

/-! ## `filesys_init (true)` -/

/-- `sizeof (struct dir_entry)`. -/
def dir_entry_size : ℕ := 24

/-- The part of `inode_open` that reads an inode not yet open. -/
def read_inode (s : FileSys) (sector : ℕ) : Res Inode := do
  let b ← disk_read s sector
  return { sector := sector, open_cnt := 1, removed := false, deny_write_cnt := 0,
           data := inode_of_sector b }

/-- `free_map_init`, on a disk of `capacity` sectors with any contents. -/
def free_map_init (capacity : ℕ) (disk : ℕ → Sector) : FileSys where
  disk := disk
  free_map :=
    { bit_cnt := capacity, bits := fun i => i == FREE_MAP_SECTOR || i == ROOT_DIR_SECTOR }
  free_map_file := none
  indirect_sec_idx := fun _ => 0
  doubly_sec_parent := fun _ => 0
  doubly_sec_idx := fun _ => 0
  next_iid := 1

/-- `free_map_create`. -/
def free_map_create (s : FileSys) : Res FileSys := do
  let c ← inode_create s FREE_MAP_SECTOR (byte_cnt s.free_map.bit_cnt) true
  ASSERT (c.1 = true)
  let f ← read_inode c.2 FREE_MAP_SECTOR
  let w ← bitmap_write { c.2 with free_map_file := some f }
  ASSERT (w.1 = true)
  return w.2

/-- `free_map_open`, with `bitmap_read`. -/
def free_map_open (s : FileSys) : Res FileSys := do
  let f ← read_inode s FREE_MAP_SECTOR
  let bytes ← inode_read_at s f (byte_cnt s.free_map.bit_cnt) 0
  ASSERT (bytes.length = byte_cnt s.free_map.bit_cnt)
  return { s with
    free_map_file := some f
    free_map := bitmap_of_bytes s.free_map.bit_cnt (fun i => bytes.getD i 0) }

/-- `filesys_init (true)`: `free_map_init`, `do_format`, `free_map_open`. The root
directory has room for 16 entries. -/
def filesys_init (capacity : ℕ) (disk : ℕ → Sector) : Res FileSys := do
  let s ← free_map_create (free_map_init capacity disk)
  let c ← inode_create s ROOT_DIR_SECTOR (16 * dir_entry_size) true
  ASSERT (c.1 = true)
  free_map_open c.2

/-! ## The open inodes -/

/-- The file system with its open inodes and the inodes that exist. -/
structure Store where
  fs : FileSys
  open_inodes : ℕ → Option Inode
  live : List ℕ

/-- Storing an inode under its sector, or taking it off the list. -/
def Store.set_inode (st : Store) (sector : ℕ) (inode : Option Inode) : Store :=
  { st with open_inodes := Function.update st.open_inodes sector inode }

/-- `inode_open`. -/
def Store.inode_open (st : Store) (sector : ℕ) : Res Store :=
  match st.open_inodes sector with
  | some inode => .ok (st.set_inode sector (some { inode with open_cnt := inode.open_cnt + 1 }))
  | none => do
    let inode ← read_inode st.fs sector
    return st.set_inode sector (some inode)

/-- `inode_remove`. -/
def Store.inode_remove (st : Store) (sector : ℕ) : Res Store :=
  match st.open_inodes sector with
  | some inode => .ok (st.set_inode sector (some { inode with removed := true }))
  | none => .error .dangling

/-- `inode_close`. The last close of a removed inode releases its blocks, though
not its own sector. -/
def Store.inode_close (st : Store) (sector : ℕ) : Res Store :=
  match st.open_inodes sector with
  | none => .error .dangling
  | some inode =>
    if inode.open_cnt - 1 = 0 then
      let st := st.set_inode sector none
      if inode.removed then do
        let fs ← release_blocks st.fs inode.data
        return { st with fs := fs, live := st.live.filter (fun x => x ≠ sector) }
      else .ok st
    else .ok (st.set_inode sector (some { inode with open_cnt := inode.open_cnt - 1 }))

/-- `inode_write_at` on an open inode. -/
def Store.inode_write (st : Store) (sector : ℕ) (w : WriteReq) : Res Store :=
  match st.open_inodes sector with
  | none => .error .dangling
  | some inode => do
    let r ← inode_write_at st.fs inode w.buffer w.size w.offset
    return { st.set_inode sector (some r.2.1) with fs := r.2.2 }

/-- `inode_create` on a sector obtained from `free_map_allocate`, as
`filesys_create` and `mkdir` call it. -/
def Store.create (st : Store) (length : ℕ) (isdir : Bool) : Res Store := do
  let a ← free_map_allocate st.fs 1
  match a.1 with
  | none => return { st with fs := a.2 }
  | some sector =>
    let c ← inode_create a.2 sector length isdir
    if c.1 then return { st with fs := c.2, live := sector :: st.live }
    else do
      let fs ← free_map_release c.2 sector 1
      return { st with fs := fs }

/-! ## Runs -/

/-- One operation. -/
inductive StoreOp
  | create (length : ℕ) (isdir : Bool)
  | open_inode (sector : ℕ)
  | write (sector : ℕ) (w : WriteReq)
  | remove (sector : ℕ)
  | close (sector : ℕ)

/-- The operations a state allows: only an inode that exists is opened, and only
an open one is written, removed or closed. -/
def StoreOp.Enabled (st : Store) : StoreOp → Prop
  | .create _ _ => True
  | .open_inode x => x ∈ st.live ∧ x ≠ FREE_MAP_SECTOR
  | .write x _ => st.open_inodes x ≠ none
  | .remove x => st.open_inodes x ≠ none
  | .close x => st.open_inodes x ≠ none

/-- What an operation does. -/
def StoreOp.run (st : Store) : StoreOp → Res Store
  | .create length isdir => st.create length isdir
  | .open_inode x => st.inode_open x
  | .write x w => st.inode_write x w
  | .remove x => st.inode_remove x
  | .close x => st.inode_close x

/-- A disk `filesys_init` can format: `select_sector` can address it, the free map
has a size `inode_create` can lay out, and there is room for it and for the root
directory's block. -/
structure FormatOk (capacity : ℕ) : Prop where
  addressable : capacity ≤ 2 ^ 28
  create : CreateOk (bytes_to_sectors (byte_cnt capacity))
  room : (slotsFrom (bytes_to_sectors (byte_cnt capacity)) 0).length + 3 ≤ capacity

/-- Runs start on a formatted disk with nothing open but the free map. -/
def store_system : System Store StoreOp where
  init st := ∃ capacity disk fs, FormatOk capacity ∧ filesys_init capacity disk = .ok fs ∧
    st = ⟨fs, fun _ => none, [FREE_MAP_SECTOR, ROOT_DIR_SECTOR]⟩
  step st op st' := op.Enabled st ∧ op.run st = .ok st'

/-- An inode as the code sees it: the open one, or else what is on the disk. -/
def Store.inode_data (st : Store) (x : ℕ) : InodeDisk :=
  match (if x = FREE_MAP_SECTOR then st.fs.free_map_file else st.open_inodes x) with
  | some inode => inode.data
  | none => inode_of_sector (st.fs.disk x)

/-- The sectors of the inode `d` in sector `x`: its own, its index blocks and its
data blocks. -/
def inode_sectors (disk : ℕ → Sector) (x : ℕ) (d : InodeDisk) : Set ℕ :=
  { y | y = x ∨ ∃ σ : Slot, σ.pos < d.blocks ∧ y = disk_slot disk d σ }

/-- The sectors of an inode of the store. -/
def Store.sectors (st : Store) (x : ℕ) : Set ℕ :=
  inode_sectors st.fs.disk x (st.inode_data x)

/-- What the last close of a removed inode needs: no indirect block, or an entry
behind the last one of the file that is a sector in use but of no inode, nor the
root directory's. -/
def CloseOk (st : Store) (d : InodeDisk) : Prop :=
  d.blocks ≤ 122 ∨ d.blocks < 250 ∧
    st.fs.free_map.bits (word (st.fs.disk d.indirect_block) (d.blocks - 122)) = true ∧
    word (st.fs.disk d.indirect_block) (d.blocks - 122) ≠ ROOT_DIR_SECTOR ∧
    ∀ x ∈ st.live, word (st.fs.disk d.indirect_block) (d.blocks - 122) ∉ st.sectors x

/-- The guard of a run. -/
def StoreOk (st : Store) : StoreOp → Prop
  | .create length _ => (free_sectors st.fs).card = 0 ∨
      CreateOk (bytes_to_sectors length) ∧
        1 + (slotsFrom (bytes_to_sectors length) 0).length ≤ (free_sectors st.fs).card
  | .write x w => ∀ inode, st.open_inodes x = some inode →
      w.eof ≤ 512 * MAX_BLOCKS ∧ CanGrow st.fs inode.data.length w.eof
  | .close x => ∀ inode, st.open_inodes x = some inode → inode.open_cnt = 1 →
      inode.removed = true → CloseOk st inode.data
  | .open_inode _ => True
  | .remove _ => True

end Pintos.Filesys
