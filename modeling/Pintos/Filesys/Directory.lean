/-
`filesys/directory.c`, over the inodes of the store.

A directory is a file of 24-byte entries. A `struct inode *` is named by the sector of
the inode, and a `struct dir *` by the inode it stands for: `inode_open` keeps one
`struct inode` per sector, and the position of a handle is used by `dir_readdir` only.
`malloc` and `calloc` are taken to succeed.

`lookup` goes through a file with `inode_read_at`, whatever the file is. Its result is a
pure function of the bytes of the file (`find_entry`, `lookup_spec`), the place where the
block map below and the paths above meet.
-/
import Pintos.Filesys.Store
import Pintos.Filesys.Path

set_option autoImplicit false

namespace Pintos.Filesys

open Pintos.Kernel WordImage

/-! ## Entries -/

/-- `NAME_MAX`. -/
def NAME_MAX : ℕ := 14

/-- `struct dir_entry`, as its 24 bytes: the sector, fifteen bytes of name, one of
padding, and `in_use`. -/
structure DirEntry where
  bytes : List UInt8
  deriving DecidableEq

/-- The bytes as an image to be read or written. -/
def DirEntry.image (e : DirEntry) (i : ℕ) : UInt8 := e.bytes.getD i 0

def DirEntry.inode_sector (e : DirEntry) : ℕ := word e.image 0

def DirEntry.in_use (e : DirEntry) : ℕ := word e.image 5

/-- `e.name` as `strcmp` reads it, from byte 4 up to a zero. -/
def DirEntry.name (e : DirEntry) : Str := (e.bytes.drop 4).takeWhile (fun c => c ≠ 0)

/-- `e.in_use = 0`. -/
def DirEntry.erase (e : DirEntry) : DirEntry := ⟨e.bytes.take 20 ++ [0, 0, 0, 0]⟩

/-- The entry `dir_add` writes. Nothing reads `e.name` behind its zero; those bytes,
left from the loop before, are zeros here. -/
def new_entry (name : Str) (inode_sector : ℕ) : DirEntry :=
  ⟨(List.range 4).map (ofWords fun _ => inode_sector) ++
    (name ++ List.replicate (16 - name.length) 0) ++ [1, 0, 0, 0]⟩

/-- `inode_read_at (dir->inode, &e, sizeof e, ofs) == sizeof e`, with the entry read. -/
def read_entry (s : FileSys) (inode : Inode) (ofs : ℕ) : Res (Option DirEntry) := do
  let b ← inode_read_at s inode dir_entry_size ofs
  return if b.length = dir_entry_size then some ⟨b⟩ else none

/-- The rounds of a loop over the entries, up to the read that falls short. -/
def entry_rounds (inode : Inode) : ℕ := inode.data.length / dir_entry_size + 1

/-! ## `lookup` -/

/-- The inode behind a pointer. -/
def Store.deref (st : Store) (sector : ℕ) : Res Inode :=
  match st.open_inodes sector with
  | some inode => .ok inode
  | none => .error .dangling

/-- The test of `lookup`. -/
def DirEntry.Matches (name : Str) (e : DirEntry) : Prop := e.in_use = 1 ∧ e.name = name

instance (name : Str) (e : DirEntry) : Decidable (e.Matches name) :=
  inferInstanceAs (Decidable (_ ∧ _))

/-- The loop of `lookup`. -/
def lookup_loop (s : FileSys) (inode : Inode) (name : Str) :
    (fuel ofs : ℕ) → Res (Option (DirEntry × ℕ))
  | 0, _ => .error .diverge
  | fuel + 1, ofs => do
    match ← read_entry s inode ofs with
    | none => return none
    | some e =>
      if e.Matches name then return some (e, ofs)
      else lookup_loop s inode name fuel (ofs + dir_entry_size)

/-- `lookup`. -/
def lookup (st : Store) (dir : ℕ) (name : Str) : Res (Option (DirEntry × ℕ)) := do
  let inode ← st.deref dir
  lookup_loop st.fs inode name (entry_rounds inode) 0

/-! ## `dir_lookup` -/

/-- The caller's variable `struct inode *` after `dir_lookup (…, &inode)`. -/
inductive InodeVar
  | unassigned
  | null
  | inode (sector : ℕ)
  deriving DecidableEq

/-- The loop of `dir_lookup` over the tokens of a path with a delimiter. -/
def walk_loop (st : Store) (temp_dir : ℕ) (inode : InodeVar) :
    List Str → Res (Bool × InodeVar × Store)
  | [] => .ok (true, inode, st)
  | token :: rest =>
    if token = dot then walk_loop st temp_dir inode rest
    else do
      match ← lookup st temp_dir token with
      | none => return (false, .null, st)
      | some (e, _) =>
        let st ← st.inode_open e.inode_sector
        walk_loop st e.inode_sector (.inode e.inode_sector) rest

/-- `dir_lookup`, by a thread with the current directory `curr_dir`. -/
def dir_lookup (st : Store) (curr_dir : Option ℕ) (dir : ℕ) (name : Str) :
    Res (Bool × InodeVar × Store) :=
  if name = [] then
    match curr_dir with
    | none => .error .dangling
    | some c => .ok (true, .inode c, st)
  else if slash ∈ name then walk_loop st dir .unassigned (tokens name)
  else if name = dot then do
    let st ← st.inode_open dir
    return (true, .inode dir, st)
  else do
    match ← lookup st dir name with
    | none => return (false, .null, st)
    | some (e, _) =>
      let st ← st.inode_open e.inode_sector
      return (true, .inode e.inode_sector, st)

/-- `dir_open`, on a variable of the caller. -/
def dir_open : InodeVar → Res (Option ℕ)
  | .unassigned => .error .uninitialised
  | .null => .ok none
  | .inode sector => .ok (some sector)

/-! ## `dir_add`, `dir_remove`, `dir_readdir` -/

/-- `inode_write_at` on an open inode, with its result. -/
def Store.write_at (st : Store) (sector : ℕ) (w : WriteReq) : Res (ℕ × Store) := do
  let inode ← st.deref sector
  let r ← inode_write_at st.fs inode w.buffer w.size w.offset
  return (r.1, { st.set_inode sector (some r.2.1) with fs := r.2.2 })

/-- The loop of `dir_add` that looks for a free slot. -/
def slot_loop (s : FileSys) (inode : Inode) : (fuel ofs : ℕ) → Res ℕ
  | 0, _ => .error .diverge
  | fuel + 1, ofs => do
    match ← read_entry s inode ofs with
    | none => return ofs
    | some e => if e.in_use = 0 then return ofs else slot_loop s inode fuel (ofs + dir_entry_size)

/-- `dir_add`. -/
def dir_add (st : Store) (dir : ℕ) (name : Str) (inode_sector : ℕ) : Res (Bool × Store) :=
  if name = [] ∨ NAME_MAX < name.length then .ok (false, st)
  else do
    match ← lookup st dir name with
    | some _ => return (false, st)
    | none =>
      let inode ← st.deref dir
      let ofs ← slot_loop st.fs inode (entry_rounds inode) 0
      let w ← st.write_at dir ⟨(new_entry name inode_sector).image, dir_entry_size, ofs⟩
      return (w.1 == dir_entry_size, w.2)

/-- The loop of `dir_readdir`: the next name, cut as `strlcpy` cuts it, and the position it
leaves. -/
def readdir_loop (s : FileSys) (inode : Inode) : (fuel pos : ℕ) → Res (Option Str × ℕ)
  | 0, _ => .error .diverge
  | fuel + 1, pos => do
    match ← read_entry s inode pos with
    | none => return (none, pos)
    | some e =>
      if e.name ≠ dot_dot ∧ e.in_use = 1 then
        return (some (e.name.take NAME_MAX), pos + dir_entry_size)
      else readdir_loop s inode fuel (pos + dir_entry_size)

/-- `dir_readdir`. -/
def dir_readdir (st : Store) (dir pos : ℕ) : Res (Option Str × ℕ) := do
  let inode ← st.deref dir
  readdir_loop st.fs inode (entry_rounds inode) pos

/-- `dir_remove`, from the opened inode of the entry on. -/
def remove_entry (st : Store) (dir : ℕ) (e : DirEntry) (ofs : ℕ) : Res (Bool × Store) := do
  let w ← st.write_at dir ⟨e.erase.image, dir_entry_size, ofs⟩
  if w.1 ≠ dir_entry_size then do
    let st ← w.2.inode_close e.inode_sector
    return (false, st)
  else do
    let st ← w.2.inode_remove e.inode_sector
    let st ← st.inode_close e.inode_sector
    return (true, st)

/-- `dir_remove`. -/
def dir_remove (st : Store) (dir : ℕ) (name : Str) : Res (Bool × Store) := do
  match ← lookup st dir name with
  | none => return (false, st)
  | some (e, ofs) =>
    let st ← st.inode_open e.inode_sector
    let inode ← st.deref e.inode_sector
    if inode.data.isdir then do
      let r ← dir_readdir st e.inode_sector 0
      if r.1.isSome then do
        let st ← st.inode_close e.inode_sector
        return (false, st)
      else remove_entry st dir e ofs
    else remove_entry st dir e ofs

/-! ## Reading up to the end of a file -/

/-- The block behind the end of a file can be looked up: the index sectors on the way are
sectors of the disk. -/
structure EndOk (s : FileSys) (d : InodeDisk) : Prop where
  max : d.length < 512 * MAX_BLOCKS
  indirect : 122 ≤ d.length / 512 → d.length / 512 < 250 → d.indirect_block < s.capacity
  doubly : 250 ≤ d.length / 512 → d.doubly_indirect_block < s.capacity ∧
    word (s.disk d.doubly_indirect_block) ((d.length / 512 - 250) / 128) < s.capacity

/-- A file whose block map is well formed, up to the read that falls short. -/
structure ReadOk (s : FileSys) (d : InodeDisk) : Prop where
  disk : DiskOk s
  map : MapOk s d d.blocks
  max : d.blocks ≤ MAX_BLOCKS
  last : EndOk s d

section Read

variable {s : FileSys} {d : InodeDisk} {inode : Inode}

/-- The lookup of the block behind the end returns. -/
theorem ReadOk.block_sector_last (h : ReadOk s d) {c : IndexCache}
    (hc : CacheOk s.disk d d.blocks c) : ∃ r, block_sector s d c (d.length / 512) = .ok r := by
  have hread : ∀ {n : ℕ}, n < s.capacity → disk_read s n = .ok (s.disk n) := fun hn =>
    disk_read_eq hn h.disk.capacity
  have hmax := h.last.max
  have hM : MAX_BLOCKS = 16634 := rfl
  have hD : DIRECT_LEN = 122 := rfl
  unfold block_sector
  by_cases h1 : d.length / 512 < DIRECT_LEN
  · exact ⟨_, if_pos h1⟩
  rw [if_neg h1]
  by_cases h2 : d.length / 512 < DIRECT_LEN + 128
  · rw [if_pos h2]
    unfold load_indirect
    by_cases hf : c.buffer_flag ≠ 128
    · rw [if_pos hf, hread (h.last.indirect (by omega) (by omega))]
      exact ⟨_, rfl⟩
    · rw [if_neg hf]
      exact ⟨_, rfl⟩
  · rw [if_neg h2]
    obtain ⟨hdoubly, hchild⟩ := h.last.doubly (by omega)
    -- the parent block is cached, or it is read now
    obtain ⟨c', hload, hparent⟩ : ∃ c', load_parent s d c = .ok c' ∧
        c'.index_parent_buffer = word (s.disk d.doubly_indirect_block) := by
      unfold load_parent
      by_cases hf : c.buffer_parent_flag = false
      · rw [if_pos hf, hread hdoubly]
        exact ⟨_, rfl, rfl⟩
      · rw [if_neg hf]
        exact ⟨c, rfl, (hc.parent (by simpa using hf)).2⟩
    rw [hload, ok_bind]
    unfold load_child
    by_cases hf : c'.buffer_flag ≠ ((d.length / 512 - DIRECT_LEN - 128) / 128 : ℕ)
    · have hsub : (d.length / 512 - DIRECT_LEN - 128) / 128 = (d.length / 512 - 250) / 128 := by
        omega
      rw [if_pos hf, if_neg (by omega), hparent, hsub, hread hchild]
      exact ⟨_, rfl⟩
    · rw [if_neg hf]
      exact ⟨_, rfl⟩

/-- A read that reaches the end of the file falls short. -/
theorem ReadOk.read_loop_short (h : ReadOk s inode.data) : ∀ (fuel size offset : ℕ)
    (c : IndexCache), size ≤ fuel → offset ≤ inode.data.length →
      inode.data.length < offset + size → CacheOk s.disk inode.data inode.data.blocks c →
      ∃ bytes, read_loop s inode fuel size offset c = .ok bytes ∧
        bytes.length = inode.data.length - offset := by
  intro fuel
  induction fuel with
  | zero =>
    intro size offset c hf hle hlt _
    omega
  | succ fuel ih =>
    intro size offset c hf hle hlt hc
    rw [read_loop, if_neg (by omega)]
    by_cases hend : offset = inode.data.length
    · obtain ⟨r, hr⟩ := h.block_sector_last hc
      have hzero : chunk_size inode.data size offset = 0 := by
        simp only [chunk_size]
        split_ifs <;> omega
      rw [hend] at hzero ⊢
      rw [hr, ok_bind, hzero]
      exact ⟨[], rfl, by simp⟩
    · have hk : offset / 512 < inode.data.blocks := div_lt_blocks (by omega)
      obtain ⟨c', hb, hc'⟩ := block_sector_spec h.disk h.map hc h.max hk
      have hsector : block s.disk inode.data (offset / 512) < s.capacity := h.map.lt h.disk hk
      obtain ⟨hpos, hleft⟩ : 0 < chunk_size inode.data size offset ∧
          offset + chunk_size inode.data size offset ≤ inode.data.length := by
        simp only [chunk_size]
        split_ifs <;> omega
      have hsize : chunk_size inode.data size offset ≤ size := by
        simp only [chunk_size]
        split_ifs <;> omega
      obtain ⟨bytes, hrest, hlen⟩ := ih (size - chunk_size inode.data size offset)
        (offset + chunk_size inode.data size offset) c' (by omega) hleft (by omega) hc'
      rw [hb, ok_bind]
      dsimp only
      rw [if_neg (by omega), disk_read_eq hsector h.disk.capacity, ok_bind, hrest]
      refine ⟨_, rfl, ?_⟩
      rw [List.length_append, List.length_map, List.length_range, hlen]
      omega

/-- The entries that fit in a file. -/
theorem entry_lt_iff {i length : ℕ} : i < length / dir_entry_size ↔
    dir_entry_size * i + dir_entry_size ≤ length := by
  unfold dir_entry_size
  omega

/-- Entry `i` of a file. -/
def entry_at (disk : ℕ → Sector) (d : InodeDisk) (i : ℕ) : DirEntry :=
  ⟨(List.range dir_entry_size).map fun j => file_byte disk d (dir_entry_size * i + j)⟩

/-- **Reading an entry.** -/
theorem ReadOk.read_entry (h : ReadOk s inode.data) {i : ℕ}
    (hi : i ≤ inode.data.length / dir_entry_size) :
    read_entry s inode (dir_entry_size * i) = .ok (if i < inode.data.length / dir_entry_size
      then some (entry_at s.disk inode.data i) else none) := by
  have hle : dir_entry_size * i ≤ inode.data.length :=
    (Nat.mul_le_mul_left _ hi).trans (Nat.mul_div_le _ _)
  unfold Filesys.read_entry
  by_cases hlt : i < inode.data.length / dir_entry_size
  · rw [inode_read_at_spec h.disk h.map h.max _ _ (entry_lt_iff.mp hlt), ok_bind, if_pos hlt]
    rw [if_pos (by rw [List.length_map, List.length_range])]
    rfl
  · have hshort := Nat.not_le.mp (mt entry_lt_iff.mpr hlt)
    obtain ⟨bytes, hread, hlen⟩ := h.read_loop_short dir_entry_size dir_entry_size
      (dir_entry_size * i) IndexCache.fresh le_rfl hle hshort (CacheOk.fresh _ _ _)
    rw [inode_read_at, hread, ok_bind, if_neg hlt, if_neg (by omega)]
    rfl

/-! ## What `lookup` finds -/

/-- The first entry of a file with the name, and where it is. -/
def find_entry (disk : ℕ → Sector) (d : InodeDisk) (name : Str) : Option (DirEntry × ℕ) :=
  ((List.range (d.length / dir_entry_size)).find? fun i => (entry_at disk d i).Matches name).map
    fun i => (entry_at disk d i, dir_entry_size * i)

theorem ReadOk.lookup_loop (h : ReadOk s inode.data) (name : Str) : ∀ fuel i : ℕ,
    i + fuel = entry_rounds inode → 0 < fuel →
    lookup_loop s inode name fuel (dir_entry_size * i) =
      .ok (((List.range' i (inode.data.length / dir_entry_size - i)).find? fun i =>
        (entry_at s.disk inode.data i).Matches name).map
          fun i => (entry_at s.disk inode.data i, dir_entry_size * i)) := by
  intro fuel
  induction fuel with
  | zero =>
    intro i _ hpos
    omega
  | succ fuel ih =>
    intro i hround _
    unfold entry_rounds at hround ih
    rw [Filesys.lookup_loop, h.read_entry (by omega), ok_bind]
    by_cases hlt : i < inode.data.length / dir_entry_size
    · obtain ⟨k, hk⟩ : ∃ k, inode.data.length / dir_entry_size - i = k + 1 :=
        ⟨inode.data.length / dir_entry_size - i - 1, by omega⟩
      have hk' : k = inode.data.length / dir_entry_size - (i + 1) := by omega
      rw [if_pos hlt, hk, List.range'_succ]
      dsimp only
      by_cases hmatch : (entry_at s.disk inode.data i).Matches name
      · rw [if_pos hmatch, List.find?_cons_of_pos (by simpa using hmatch)]
        rfl
      · rw [if_neg hmatch, List.find?_cons_of_neg (by simpa using hmatch), hk',
          ← ih (i + 1) (by omega) (by omega), Nat.mul_succ]
    · have hzero : inode.data.length / dir_entry_size - i = 0 := by omega
      rw [if_neg hlt, hzero]
      rfl

theorem ReadOk.lookup {st : Store} {x : ℕ} (h : ReadOk st.fs inode.data)
    (hi : st.open_inodes x = some inode) (name : Str) :
    lookup st x name = .ok (find_entry st.fs.disk inode.data name) := by
  have hloop := h.lookup_loop name (entry_rounds inode) 0 (Nat.zero_add _) (Nat.succ_pos _)
  unfold Filesys.lookup Store.deref
  rw [hi, ok_bind]
  refine hloop.trans ?_
  rw [Nat.sub_zero, ← List.range_eq_range']
  rfl

/-- A directory can be read to its end as long as its index is what it was. The length of a
directory is a whole number of entries, which keeps the end of file off the first block of
a level. -/
theorem ReadOk.frame {s' : FileSys} (h : ReadOk s d) (hwhole : dir_entry_size ∣ d.length)
    (hd : DiskOk s') (hmap : MapOk s' d d.blocks) (hcap : s'.capacity = s.capacity)
    (hdisk : ∀ τ : Slot, τ.IsIndex → τ.pos < d.blocks →
      s'.disk (disk_slot s.disk d τ) = s.disk (disk_slot s.disk d τ)) : ReadOk s' d := by
  refine ⟨hd, hmap, h.max, h.last.max, fun h1 h2 => ?_, fun h250 => ?_⟩
  · rw [hcap]
    exact h.last.indirect h1 h2
  · -- past block 250 the doubly indirect block is one of the file's own
    have hpos : Slot.doubly.pos < d.blocks := by
      obtain ⟨k, hk⟩ := hwhole
      unfold dir_entry_size at hk
      simp only [Slot.pos, InodeDisk.blocks, bytes_to_sectors]
      omega
    have hsame : s'.disk d.doubly_indirect_block = s.disk d.doubly_indirect_block :=
      hdisk .doubly trivial hpos
    rw [hcap, hsame]
    exact h.last.doubly h250

/-- The slot the second loop of `dir_add` stops at. -/
theorem ReadOk.slot_loop (h : ReadOk s inode.data) : ∀ fuel i : ℕ,
    i + fuel = entry_rounds inode → 0 < fuel →
    ∃ j ≤ inode.data.length / dir_entry_size, i ≤ j ∧
      slot_loop s inode fuel (dir_entry_size * i) = .ok (dir_entry_size * j) ∧
      (j < inode.data.length / dir_entry_size → (entry_at s.disk inode.data j).in_use = 0) ∧
      ∀ k, i ≤ k → k < j → (entry_at s.disk inode.data k).in_use ≠ 0 := by
  intro fuel
  induction fuel with
  | zero =>
    intro i _ hpos
    omega
  | succ fuel ih =>
    intro i hround _
    unfold entry_rounds at hround ih
    rw [Filesys.slot_loop, h.read_entry (by omega), ok_bind]
    by_cases hlt : i < inode.data.length / dir_entry_size
    · rw [if_pos hlt]
      dsimp only
      by_cases hfree : (entry_at s.disk inode.data i).in_use = 0
      · rw [if_pos hfree]
        exact ⟨i, hlt.le, le_rfl, rfl, fun _ => hfree, fun k h1 h2 => by omega⟩
      · rw [if_neg hfree, ← Nat.mul_succ]
        obtain ⟨j, hj, hij, hrun, hend, hused⟩ := ih (i + 1) (by omega) (by omega)
        refine ⟨j, hj, by omega, hrun, hend, fun k h1 h2 => ?_⟩
        by_cases hk : k = i
        · rw [hk]
          exact hfree
        · exact hused k (by omega) h2
    · rw [if_neg hlt]
      exact ⟨i, by omega, le_rfl, rfl, fun h1 => absurd h1 hlt, fun k h1 h2 => by omega⟩

end Read

end Pintos.Filesys
