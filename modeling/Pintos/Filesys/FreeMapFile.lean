/-
`filesys/free-map.c` over the elements of the map and the bytes of its file.

The file is an array of bytes that is read and written in place; what the model of the
whole file system says about inodes and sectors is left out. What stays is what decides
whether the map survives a reboot: which operations write it through, and whether the bytes
read back give the same bits, the last element being used in part only.

`Synced` is the invariant. It holds once the file has been created and written, and every
call keeps it: each one that changes a bit writes the map before it returns.
-/
import Pintos.Kernel.WordBitmap
import Pintos.Library.StepSystem
import Pintos.Filesys.Store

set_option autoImplicit false

namespace Pintos.Filesys.FreeMapFile

open Pintos.Kernel Pintos.Kernel.Words WordImage StepSystem

/-! ## Files -/

/-- The contents of a file. -/
abbrev Bytes := ℕ → UInt8

/-- `file_read_at`: the bytes read and their number. -/
def file_read_at (file : Bytes) (size file_ofs : ℕ) : Bytes × ℕ :=
  (fun i => file (file_ofs + i), size)

/-- `file_write_at`: the file and the number of bytes written. -/
def file_write_at (file buffer : Bytes) (size file_ofs : ℕ) : Bytes × ℕ :=
  (fun i => if file_ofs ≤ i ∧ i < file_ofs + size then buffer (i - file_ofs) else file i, size)

/-- The elements as they lie in memory. -/
def elem_bytes (bits : ℕ → Elem) : Bytes := ofWords fun k => (bits k).toNat

/-- `bitmap_read`. -/
def bitmap_read (b : Words.Bitmap) (file : Bytes) : Res (Bool × Words.Bitmap) :=
  if 0 < b.bit_cnt then do
    let r := file_read_at file (byte_cnt b.bit_cnt) 0
    let b : Words.Bitmap := { b with
      bits := fun k => if k < elem_cnt b.bit_cnt then BitVec.ofNat 32 (word r.1 k) else b.bits k }
    let e ← b.elem (elem_cnt b.bit_cnt - 1)
    return (r.2 == byte_cnt b.bit_cnt, b.set_elem (elem_cnt b.bit_cnt - 1) (e &&& last_mask b))
  else .ok (true, b)

/-- `bitmap_write`. -/
def bitmap_write (b : Words.Bitmap) (file : Bytes) : Bool × Bytes :=
  let r := file_write_at file (elem_bytes b.bits) (byte_cnt b.bit_cnt) 0
  (r.2 == byte_cnt b.bit_cnt, r.1)

/-! ## `filesys/free-map.c` -/

/-- What `free_map_file` points to. -/
inductive FilePtr
  | null
  | opened
  | closed
  deriving DecidableEq

/-- The two variables of `free-map.c`, and the file on the disk. -/
structure FreeMap where
  free_map : Words.Bitmap
  free_map_file : FilePtr
  file : Bytes

/-- `bitmap_write (free_map, free_map_file)`. -/
def write_map (s : FreeMap) : Res (Bool × FreeMap) :=
  match s.free_map_file with
  | .opened =>
    let w := bitmap_write s.free_map s.file
    .ok (w.1, { s with file := w.2 })
  | _ => .error .dangling

/-- The lines that `free_map_allocate` and `free_map_allocate_index` share: scan and flip,
then write the map back. None in the first component stands for `BITMAP_ERROR`; the flag is
false when the map could not be written. -/
def take_sectors (s : FreeMap) (cnt : ℕ) : Res (Bool × Option ℕ × FreeMap) := do
  let r ← bitmap_scan_and_flip s.free_map 0 cnt false
  match r.1 with
  | none => return (true, none, s)
  | some sector =>
    let s : FreeMap := { s with free_map := r.2 }
    if s.free_map_file ≠ .null then do
      let w ← write_map s
      if w.1 then return (true, some sector, w.2)
      else do
        let b ← bitmap_set_multiple w.2.free_map sector cnt false
        return (false, none, { w.2 with free_map := b })
    else return (true, some sector, s)

/-- `free_map_allocate`. -/
def free_map_allocate (s : FreeMap) (cnt : ℕ) : Res (Option ℕ × FreeMap) := do
  let t ← take_sectors s cnt
  return t.2

/-- `free_map_release`. -/
def free_map_release (s : FreeMap) (sector cnt : ℕ) : Res FreeMap := do
  let all ← bitmap_all s.free_map sector cnt
  ASSERT (all = true)
  let b ← bitmap_set_multiple s.free_map sector cnt false
  let w ← write_map { s with free_map := b }
  return w.2

/-- The arrays `free_map_allocate_index` stores sectors in. -/
structure IndexArrays where
  direct : ℕ → ℕ
  indirect : ℕ
  doubly_indirect : ℕ
  indirect_arr : ℕ → ℕ
  parent_arr : ℕ → ℕ
  doubly_arr : ℕ → ℕ

/-- The arrays of a new inode. -/
def IndexArrays.zero : IndexArrays := ⟨fun _ => 0, 0, 0, fun _ => 0, fun _ => 0, fun _ => 0⟩

/-- A sector that is taken for an index array; `BITMAP_ERROR` is stored like a sector. -/
def stored (sector : Option ℕ) : ℕ := sector.getD BITMAP_ERROR

/-- The rest of a round of the loop in `free_map_allocate_index`, with its first sector in
hand. The flag is false when the round ends in `return false`. -/
def assign_index (s : FreeMap) (a : IndexArrays) (i sector : ℕ) :
    Res (Bool × IndexArrays × FreeMap) :=
  if i < DIRECT_LEN then
    .ok (true, { a with direct := Function.update a.direct i sector }, s)
  else if i = DIRECT_LEN then do
    let a : IndexArrays := { a with indirect := sector }
    let t ← take_sectors s 1
    if t.1 then return (true, { a with
      indirect_arr := Function.update a.indirect_arr 0 (stored t.2.1) }, t.2.2)
    else return (false, a, t.2.2)
  else if i < DIRECT_LEN + 128 then
    .ok (true, { a with
      indirect_arr := Function.update a.indirect_arr (i - DIRECT_LEN) sector }, s)
  else if i = DIRECT_LEN + 128 then do
    let a : IndexArrays := { a with doubly_indirect := sector }
    let t ← take_sectors s 1
    if t.1 then do
      let a : IndexArrays := { a with
        parent_arr := Function.update a.parent_arr 0 (stored t.2.1) }
      let t ← take_sectors t.2.2 1
      if t.1 then return (true, { a with
        doubly_arr := Function.update a.doubly_arr 0 (stored t.2.1) }, t.2.2)
      else return (false, a, t.2.2)
    else return (false, a, t.2.2)
  else
    let temp := i - DIRECT_LEN - 128
    if 128 ≤ temp / 128 then .error .bounds
    else if temp % 128 = 0 then do
      let a : IndexArrays := { a with
        parent_arr := Function.update a.parent_arr (temp / 128) sector }
      let t ← take_sectors s 1
      if t.1 then return (true, { a with
        doubly_arr := Function.update a.doubly_arr temp (stored t.2.1) }, t.2.2)
      else return (false, a, t.2.2)
    else
      .ok (true, { a with doubly_arr := Function.update a.doubly_arr temp sector }, s)

/-- `free_map_allocate_index`: `cnt` rounds of its loop, from index `i`. -/
def free_map_allocate_index : (cnt i : ℕ) → FreeMap → IndexArrays →
    Res (Bool × IndexArrays × FreeMap)
  | 0, _, s, a => .ok (true, a, s)
  | cnt + 1, i, s, a => do
    let t ← take_sectors s 1
    if t.1 then
      match t.2.1 with
      | none => free_map_allocate_index cnt (i + 1) t.2.2 a
      | some sector => do
        let r ← assign_index t.2.2 a i sector
        if r.1 then free_map_allocate_index cnt (i + 1) r.2.2 r.2.1 else return r
    else return (false, a, t.2.2)

/-- `free_map_init`, at power-on: the map is created in `memory`, and `free_map_file` is
null. -/
def free_map_init (capacity : ℕ) (memory : ℕ → Elem) (file : Bytes) : Res FreeMap := do
  let b ← bitmap_create capacity memory
  let b ← bitmap_mark b FREE_MAP_SECTOR
  let b ← bitmap_mark b ROOT_DIR_SECTOR
  return { free_map := b, free_map_file := .null, file := file }

/-- `free_map_open`. -/
def free_map_open (s : FreeMap) : Res FreeMap := do
  let r ← bitmap_read s.free_map s.file
  ASSERT (r.1 = true)
  return { s with free_map := r.2, free_map_file := .opened }

/-- `free_map_close`. -/
def free_map_close (s : FreeMap) : Res FreeMap :=
  match s.free_map_file with
  | .opened => .ok { s with free_map_file := .closed }
  | .null => .ok s
  | .closed => .error .dangling

/-- What `inode_create` does to the free map. -/
def inode_create (s : FreeMap) (length : ℕ) : Res (Bool × FreeMap) := do
  let r ← free_map_allocate_index (bytes_to_sectors length) 0 s IndexArrays.zero
  return (r.1, r.2.2)

/-- `free_map_create`. The new file holds zeros until the map is written. -/
def free_map_create (s : FreeMap) : Res FreeMap := do
  let c ← inode_create s (byte_cnt s.free_map.bit_cnt)
  ASSERT (c.1 = true)
  let w ← write_map { c.2 with free_map_file := .opened, file := fun _ => 0 }
  ASSERT (w.1 = true)
  return w.2

/-- `do_format`, with `dir_create (ROOT_DIR_SECTOR, 16, …)`. -/
def do_format (s : FreeMap) : Res FreeMap := do
  let s ← free_map_create s
  let c ← inode_create s (16 * dir_entry_size)
  ASSERT (c.1 = true)
  free_map_close c.2

/-- `filesys_init`, at power-on. -/
def filesys_init (capacity : ℕ) (format : Bool) (memory : ℕ → Elem) (file : Bytes) :
    Res FreeMap := do
  let s ← free_map_init capacity memory file
  if format then do
    let s ← do_format s
    free_map_open s
  else free_map_open s

/-- `filesys_done`. -/
def filesys_done (s : FreeMap) : Res FreeMap := free_map_close s

/-! ## Histories -/

/-- A call, or a boot. -/
inductive Event
  | boot (format : Bool) (memory : ℕ → Elem)
  | allocate (cnt : ℕ)
  | allocate_index (start cnt : ℕ) (arrays : IndexArrays)
  | release (sector cnt : ℕ)
  | done

/-- What an event does. A boot finds the file on the disk. -/
def exec (capacity : ℕ) (s : FreeMap) : Event → Res FreeMap
  | .boot format memory => filesys_init capacity format memory s.file
  | .allocate cnt => do
    let r ← free_map_allocate s cnt
    return r.2
  | .allocate_index start cnt arrays => do
    let r ← free_map_allocate_index cnt start s arrays
    return r.2.2
  | .release sector cnt => free_map_release s sector cnt
  | .done => filesys_done s

/-- Histories start with the first format of a disk of `capacity` sectors. -/
def free_map_system (capacity : ℕ) : System FreeMap Event where
  init s := ∃ memory file, filesys_init capacity true memory file = .ok s
  step s e s' := exec capacity s e = .ok s'

/-! ## The round trip -/

/-- Bit `i` of the file. -/
def file_bit (file : Bytes) (i : ℕ) : Bool := (BitVec.ofNat 32 (word file (i / 32))).getLsbD (i % 32)

/-- The file holds the map. -/
def Synced (s : FreeMap) : Prop := ∀ i < s.free_map.bit_cnt, file_bit s.file i = s.free_map.bit i

section RoundTrip

variable {b : Words.Bitmap}

/-- Bits that are written are the bits of the elements. -/
theorem bitmap_write_bit (file : Bytes) {i : ℕ} (hi : i < b.bit_cnt) :
    file_bit (bitmap_write b file).2 i = b.bit i := by
  have hidx := elem_idx_lt hi
  have hbyte : ∀ j < 4, (bitmap_write b file).2 (4 * (i / 32) + j) =
      elem_bytes b.bits (4 * (i / 32) + j) := by
    intro j hj
    unfold elem_idx at hidx
    change (if _ then _ else _) = _
    rw [if_pos ⟨Nat.zero_le _, by rw [byte_cnt_eq]; omega⟩, Nat.sub_zero]
  have hword : word (bitmap_write b file).2 (i / 32) = (b.bits (i / 32)).toNat := by
    rw [← word_ofWords (fun k => (b.bits k).toNat) (i / 32) (BitVec.isLt _)]
    unfold word
    rw [← Nat.add_zero (4 * (i / 32)), hbyte 0 (by norm_num), Nat.add_zero,
      hbyte 1 (by norm_num), hbyte 2 (by norm_num), hbyte 3 (by norm_num)]
    rfl
  unfold file_bit Words.Bitmap.bit elem_idx
  rw [hword, BitVec.ofNat_toNat, BitVec.setWidth_eq]

/-- The mask keeps the bits of the map that are in the last element. -/
theorem getLsbD_last_mask {j : ℕ} (h : 32 * (elem_cnt b.bit_cnt - 1) + j < b.bit_cnt) (hj : j < 32) :
    (last_mask b).getLsbD j = true := by
  unfold last_mask
  unfold elem_cnt at h
  by_cases hlast : b.bit_cnt % 32 ≠ 0
  · rw [if_pos hlast]
    have hlt : j < b.bit_cnt % 32 := by omega
    have hr : b.bit_cnt % 32 < 32 := Nat.mod_lt _ (by norm_num)
    have hall : ∀ r < 32, ∀ j < r, ((1#32 <<< r) - 1#32).getLsbD j = true := by decide
    exact hall _ hr j hlt
  · rw [if_neg hlast]
    have hall : ∀ j < 32, (-1#32).getLsbD j = true := by decide
    exact hall j hj

/-- **`bitmap_read`** returns the bits of the file. -/
theorem bitmap_read_spec (file : Bytes) : ∃ b', bitmap_read b file = .ok (true, b') ∧
    b'.bit_cnt = b.bit_cnt ∧ ∀ i < b.bit_cnt, b'.bit i = file_bit file i := by
  unfold bitmap_read
  by_cases hpos : 0 < b.bit_cnt
  · have hlast : elem_cnt b.bit_cnt - 1 < elem_cnt b.bit_cnt := by
      unfold elem_cnt
      omega
    set b₁ : Words.Bitmap := { b with
      bits := fun k => if k < elem_cnt b.bit_cnt then
        BitVec.ofNat 32 (word (file_read_at file (byte_cnt b.bit_cnt) 0).1 k) else b.bits k } with hb₁
    have helem : b₁.elem (elem_cnt b.bit_cnt - 1) = .ok (b₁.bits (elem_cnt b.bit_cnt - 1)) :=
      b₁.elem_eq hlast
    have hword : ∀ k < elem_cnt b.bit_cnt, b₁.bits k = BitVec.ofNat 32 (word file k) := by
      intro k hk
      rw [hb₁]
      dsimp only
      rw [if_pos hk]
      unfold file_read_at word
      simp only [Nat.zero_add]
    refine ⟨b₁.set_elem (elem_cnt b.bit_cnt - 1)
      (b₁.bits (elem_cnt b.bit_cnt - 1) &&& last_mask b₁), ?_, rfl, ?_⟩
    · rw [if_pos hpos]
      change b₁.elem (elem_cnt b.bit_cnt - 1) >>= _ = _
      rw [helem, ok_bind]
      simp only [file_read_at, beq_self_eq_true, pure_eq_ok]
      rfl
    · intro i hi
      have hmod : i % 32 < 32 := Nat.mod_lt _ (by norm_num)
      have hidx : elem_idx i < elem_cnt b.bit_cnt := elem_idx_lt hi
      unfold Words.Bitmap.bit Words.Bitmap.set_elem file_bit
      dsimp only
      by_cases hk : elem_idx i = elem_cnt b.bit_cnt - 1
      · -- the last element keeps the bits of the map under the mask
        have hmask : (last_mask b₁).getLsbD (i % 32) = true := by
          refine getLsbD_last_mask (b := b₁) ?_ hmod
          change 32 * (elem_cnt b.bit_cnt - 1) + i % 32 < b.bit_cnt
          rw [← hk]
          unfold elem_idx
          omega
        rw [hk, Function.update_self, BitVec.getLsbD_and, hmask, Bool.and_true, ← hk, hword _ hidx]
        rfl
      · rw [Function.update_of_ne hk, hword _ hidx]
        rfl
  · refine ⟨b, if_neg hpos, rfl, ?_⟩
    intro i hi
    omega

end RoundTrip

/-! ## Every call writes the map through -/

/-- The file holds the map, once there is one. -/
structure Good (capacity : ℕ) (s : FreeMap) : Prop where
  bit_cnt : s.free_map.bit_cnt = capacity
  synced : s.free_map_file ≠ .null → Synced s

/-- A call keeps `free_map_file`, and the file up to date. -/
structure Keeps (s s' : FreeMap) : Prop where
  ptr : s'.free_map_file = s.free_map_file
  good : ∀ {capacity : ℕ}, Good capacity s → Good capacity s'

section Calls

variable {s s' s'' : FreeMap} {a : IndexArrays} {capacity : ℕ}

theorem Keeps.refl (s : FreeMap) : Keeps s s := ⟨rfl, id⟩

theorem Keeps.trans (h : Keeps s s') (h' : Keeps s' s'') : Keeps s s'' :=
  ⟨h'.ptr.trans h.ptr, fun hg => h'.good (h.good hg)⟩

/-- Writing the map brings the file up to date. -/
theorem write_map_ok {ok : Bool} (h : write_map s = .ok (ok, s')) :
    ok = true ∧ s.free_map_file = .opened ∧ s'.free_map_file = .opened ∧
      s'.free_map = s.free_map ∧ Synced s' := by
  unfold write_map at h
  cases hptr : s.free_map_file with
  | opened =>
    rw [hptr] at h
    obtain ⟨hok, rfl⟩ := Prod.mk.inj (Except.ok.inj h)
    refine ⟨?_, rfl, rfl, rfl, fun i hi => bitmap_write_bit s.file hi⟩
    rw [← hok]
    exact beq_self_eq_true _
  | null =>
    rw [hptr] at h
    cases h
  | closed =>
    rw [hptr] at h
    cases h

/-- Changing the map and writing it. -/
theorem write_map_keeps {b : Words.Bitmap} {ok : Bool} (hcnt : b.bit_cnt = s.free_map.bit_cnt)
    (h : write_map { s with free_map := b } = .ok (ok, s')) : ok = true ∧ Keeps s s' := by
  obtain ⟨hok, hptr, hptr', hmap, hsync⟩ := write_map_ok h
  refine ⟨hok, ⟨hptr'.trans hptr.symm, ?_⟩⟩
  intro capacity hg
  refine ⟨?_, fun _ => hsync⟩
  rw [hmap]
  exact hcnt.trans hg.bit_cnt

/-- **`take_sectors`** leaves the file up to date. -/
theorem take_sectors_keeps {cnt : ℕ} {r : Bool × Option ℕ × FreeMap}
    (h : take_sectors s cnt = .ok r) : r.1 = true ∧ Keeps s r.2.2 := by
  obtain ⟨t, hscan, hrest⟩ := bind_eq_ok h
  have hcnt := bitmap_scan_and_flip_bit_cnt hscan
  cases hsec : t.1 with
  | none =>
    rw [hsec] at hrest
    obtain rfl := Except.ok.inj hrest
    exact ⟨rfl, Keeps.refl s⟩
  | some sector =>
    rw [hsec] at hrest
    dsimp only at hrest
    by_cases hptr : s.free_map_file ≠ .null
    · rw [if_pos hptr] at hrest
      obtain ⟨w, hwrite, hret⟩ := bind_eq_ok hrest
      obtain ⟨hok, hkeeps⟩ := write_map_keeps hcnt hwrite
      rw [if_pos hok] at hret
      obtain rfl := Except.ok.inj hret
      exact ⟨rfl, hkeeps⟩
    · -- the file does not exist yet
      rw [if_neg hptr] at hrest
      obtain rfl := Except.ok.inj hrest
      refine ⟨rfl, rfl, ?_⟩
      intro capacity hg
      exact ⟨hcnt.trans hg.bit_cnt, fun hne => absurd hne hptr⟩

/-- The rest of a round leaves the file up to date. -/
theorem assign_index_keeps {i sector : ℕ} {r : Bool × IndexArrays × FreeMap}
    (h : assign_index s a i sector = .ok r) : Keeps s r.2.2 := by
  unfold assign_index at h
  by_cases h1 : i < DIRECT_LEN
  · rw [if_pos h1] at h
    obtain rfl := Except.ok.inj h
    exact Keeps.refl s
  rw [if_neg h1] at h
  by_cases h2 : i = DIRECT_LEN
  · rw [if_pos h2] at h
    obtain ⟨t, ht, hret⟩ := bind_eq_ok h
    obtain ⟨hok, hkeeps⟩ := take_sectors_keeps ht
    rw [if_pos hok] at hret
    obtain rfl := Except.ok.inj hret
    exact hkeeps
  rw [if_neg h2] at h
  by_cases h3 : i < DIRECT_LEN + 128
  · rw [if_pos h3] at h
    obtain rfl := Except.ok.inj h
    exact Keeps.refl s
  rw [if_neg h3] at h
  by_cases h4 : i = DIRECT_LEN + 128
  · rw [if_pos h4] at h
    obtain ⟨t, ht, hrest⟩ := bind_eq_ok h
    obtain ⟨hok, hkeeps⟩ := take_sectors_keeps ht
    rw [if_pos hok] at hrest
    obtain ⟨u, hu, hret⟩ := bind_eq_ok hrest
    obtain ⟨hok', hkeeps'⟩ := take_sectors_keeps hu
    rw [if_pos hok'] at hret
    obtain rfl := Except.ok.inj hret
    exact hkeeps.trans hkeeps'
  rw [if_neg h4] at h
  dsimp only at h
  by_cases h5 : 128 ≤ (i - DIRECT_LEN - 128) / 128
  · rw [if_pos h5] at h
    cases h
  rw [if_neg h5] at h
  by_cases h6 : (i - DIRECT_LEN - 128) % 128 = 0
  · rw [if_pos h6] at h
    obtain ⟨t, ht, hret⟩ := bind_eq_ok h
    obtain ⟨hok, hkeeps⟩ := take_sectors_keeps ht
    rw [if_pos hok] at hret
    obtain rfl := Except.ok.inj hret
    exact hkeeps
  · rw [if_neg h6] at h
    obtain rfl := Except.ok.inj h
    exact Keeps.refl s

/-- **`free_map_allocate_index`** leaves the file up to date, however many rounds it makes. -/
theorem free_map_allocate_index_keeps : ∀ (cnt i : ℕ) (s : FreeMap) (a : IndexArrays)
    (r : Bool × IndexArrays × FreeMap), free_map_allocate_index cnt i s a = .ok r →
    Keeps s r.2.2 := by
  intro cnt
  induction cnt with
  | zero =>
    intro i s a r h
    obtain rfl := Except.ok.inj h
    exact Keeps.refl s
  | succ cnt ih =>
    intro i s a r h
    obtain ⟨t, ht, hrest⟩ := bind_eq_ok h
    obtain ⟨hok, hkeeps⟩ := take_sectors_keeps ht
    rw [if_pos hok] at hrest
    cases hsec : t.2.1 with
    | none =>
      rw [hsec] at hrest
      exact hkeeps.trans (ih _ _ _ _ hrest)
    | some sector =>
      rw [hsec] at hrest
      obtain ⟨u, hu, hrest⟩ := bind_eq_ok hrest
      have hkeeps' := hkeeps.trans (assign_index_keeps hu)
      by_cases hok' : u.1 = true
      · rw [if_pos hok'] at hrest
        exact hkeeps'.trans (ih _ _ _ _ hrest)
      · rw [if_neg hok'] at hrest
        obtain rfl := Except.ok.inj hrest
        exact hkeeps'

/-- **`free_map_release`** leaves the file up to date. -/
theorem free_map_release_keeps {sector cnt : ℕ} (h : free_map_release s sector cnt = .ok s') :
    Keeps s s' := by
  obtain ⟨_, -, h⟩ := bind_eq_ok h
  obtain ⟨_, -, h⟩ := bind_eq_ok h
  obtain ⟨b, hset, h⟩ := bind_eq_ok h
  obtain ⟨w, hwrite, hret⟩ := bind_eq_ok h
  obtain rfl := Except.ok.inj hret
  exact (write_map_keeps (bitmap_set_multiple_ok hset).2.1 hwrite).2

/-- `free_map_close` leaves map and file alone. -/
theorem free_map_close_good (h : free_map_close s = .ok s') (hg : Good capacity s) :
    Good capacity s' := by
  unfold free_map_close at h
  cases hptr : s.free_map_file with
  | opened =>
    rw [hptr] at h
    obtain rfl := Except.ok.inj h
    exact ⟨hg.bit_cnt, fun _ => hg.synced (by rw [hptr]; decide)⟩
  | null =>
    rw [hptr] at h
    obtain rfl := Except.ok.inj h
    exact hg
  | closed =>
    rw [hptr] at h
    cases h

/-- `free_map_close` does not make the pointer null. -/
theorem free_map_close_ptr (h : free_map_close s = .ok s') (hne : s.free_map_file ≠ .null) :
    s'.free_map_file ≠ .null := by
  unfold free_map_close at h
  cases hptr : s.free_map_file with
  | opened =>
    rw [hptr] at h
    obtain rfl := Except.ok.inj h
    exact (by decide : FilePtr.closed ≠ .null)
  | null => exact absurd hptr hne
  | closed =>
    rw [hptr] at h
    cases h

/-! ## Booting -/

/-- **`free_map_open`** reads what the file holds. -/
theorem free_map_open_spec (s : FreeMap) : ∃ s', free_map_open s = .ok s' ∧
    s'.free_map.bit_cnt = s.free_map.bit_cnt ∧ s'.free_map_file = .opened ∧ s'.file = s.file ∧
    Synced s' := by
  obtain ⟨b, hread, hcnt, hbit⟩ := bitmap_read_spec (b := s.free_map) s.file
  refine ⟨{ s with free_map := b, free_map_file := .opened }, ?_, hcnt, rfl, rfl, ?_⟩
  · rw [free_map_open, hread, ok_bind, ASSERT_pos rfl, ok_bind, pure_eq_ok]
  · intro i hi
    exact (hbit i (by rw [← hcnt]; exact hi)).symm

/-- **`free_map_init`** on a disk that has a sector. -/
theorem free_map_init_spec (memory : ℕ → Elem) (file : Bytes) (hpos : 0 < capacity) :
    ∃ s, free_map_init capacity memory file = .ok s ∧ s.free_map.bit_cnt = capacity ∧
      s.free_map_file = .null ∧ s.file = file := by
  have hroom : ∀ i < 32, elem_idx i < elem_cnt capacity := by
    intro i hi
    unfold elem_idx elem_cnt
    omega
  obtain ⟨b₁, hcreate, hcnt₁, -⟩ := bitmap_create_spec capacity memory
  obtain ⟨b₂, hmark₂, hcnt₂, -⟩ := bitmap_mark_spec (b := b₁) (i := FREE_MAP_SECTOR)
    (by rw [hcnt₁]; exact hroom _ (by decide))
  obtain ⟨b₃, hmark₃, hcnt₃, -⟩ := bitmap_mark_spec (b := b₂) (i := ROOT_DIR_SECTOR)
    (by rw [hcnt₂, hcnt₁]; exact hroom _ (by decide))
  refine ⟨⟨b₃, .null, file⟩, ?_, ?_, rfl, rfl⟩
  · rw [free_map_init, hcreate, ok_bind, hmark₂, ok_bind, hmark₃, ok_bind, pure_eq_ok]
  · exact hcnt₃.trans (hcnt₂.trans hcnt₁)

/-- On a disk without sectors it writes through a null pointer. -/
theorem free_map_init_empty (memory : ℕ → Elem) (file : Bytes) :
    free_map_init 0 memory file = .error .bounds := by
  obtain ⟨b, hcreate, hcnt, -⟩ := bitmap_create_spec 0 memory
  have hmark : bitmap_mark b FREE_MAP_SECTOR = .error .bounds := by
    have hnone : ¬ elem_idx FREE_MAP_SECTOR < elem_cnt b.bit_cnt := by
      rw [hcnt]
      decide
    rw [bitmap_mark, Words.Bitmap.elem, if_neg hnone]
    rfl
  rw [free_map_init, hcreate, ok_bind, hmark]
  rfl

/-- What a boot leaves: the map and the file agree, and the file is open. -/
theorem filesys_init_synced {format : Bool} {memory : ℕ → Elem} {file : Bytes}
    (h : filesys_init capacity format memory file = .ok s) :
    0 < capacity ∧ s.free_map_file ≠ .null ∧ Good capacity s := by
  obtain ⟨s₁, hinit, h⟩ := bind_eq_ok h
  have hpos : 0 < capacity := by
    rcases Nat.eq_zero_or_pos capacity with rfl | hpos
    · rw [free_map_init_empty] at hinit
      cases hinit
    · exact hpos
  obtain ⟨s₂, hinit₂, hcnt, hptr, -⟩ := free_map_init_spec memory file hpos
  obtain rfl : s₁ = s₂ := Except.ok.inj (hinit.symm.trans hinit₂)
  -- the file is read last, whatever came before
  have hopen : ∀ t : FreeMap, t.free_map.bit_cnt = capacity → free_map_open t = .ok s →
      0 < capacity ∧ s.free_map_file ≠ .null ∧ Good capacity s := by
    intro t ht hrun
    obtain ⟨s₃, hrun₃, hcnt₃, hptr₃, -, hsync₃⟩ := free_map_open_spec t
    obtain rfl : s = s₃ := Except.ok.inj (hrun.symm.trans hrun₃)
    exact ⟨hpos, by rw [hptr₃]; decide, hcnt₃.trans ht, fun _ => hsync₃⟩
  cases format with
  | false => exact hopen s₁ hcnt h
  | true =>
    obtain ⟨s₄, hformat, h⟩ := bind_eq_ok h
    refine hopen s₄ ?_ h
    -- the sizes of the maps on the way
    obtain ⟨s₅, hcreate, hformat⟩ := bind_eq_ok hformat
    obtain ⟨c, hroot, hformat⟩ := bind_eq_ok hformat
    obtain ⟨_, -, hclose⟩ := bind_eq_ok hformat
    obtain ⟨c', hinode, hcreate⟩ := bind_eq_ok hcreate
    obtain ⟨_, -, hcreate⟩ := bind_eq_ok hcreate
    obtain ⟨w, hwrite, hcreate⟩ := bind_eq_ok hcreate
    obtain ⟨_, -, hret⟩ := bind_eq_ok hcreate
    obtain rfl := Except.ok.inj hret
    have hgood₁ : Good capacity s₁ := ⟨hcnt, fun hne => absurd hptr hne⟩
    have hgood₂ : Good capacity c'.2 := by
      obtain ⟨r, hindex, hret⟩ := bind_eq_ok hinode
      obtain rfl := Except.ok.inj hret
      exact (free_map_allocate_index_keeps _ _ _ _ _ hindex).good hgood₁
    have hwrite' : write_map _ = .ok (w.1, w.2) := hwrite
    obtain ⟨-, -, -, hmap, hsync⟩ := write_map_ok hwrite'
    have hgood₃ : Good capacity w.2 := ⟨by rw [hmap]; exact hgood₂.bit_cnt, fun _ => hsync⟩
    obtain ⟨r, hindex, hret⟩ := bind_eq_ok hroot
    obtain rfl := Except.ok.inj hret
    exact (free_map_close_good hclose
      ((free_map_allocate_index_keeps _ _ _ _ _ hindex).good hgood₃)).bit_cnt

/-! ## Persistence -/

/-- What holds between two events. -/
structure Inv (capacity : ℕ) (s : FreeMap) : Prop where
  nonempty : 0 < capacity
  ptr : s.free_map_file ≠ .null
  good : Good capacity s

theorem Keeps.inv (h : Keeps s s') (hinv : Inv capacity s) : Inv capacity s' :=
  ⟨hinv.nonempty, by rw [h.ptr]; exact hinv.ptr, h.good hinv.good⟩

/-- One event. -/
theorem exec_inv {e : Event} (h : exec capacity s e = .ok s') (hinv : Inv capacity s) :
    Inv capacity s' := by
  cases e with
  | boot format memory =>
    obtain ⟨hpos, hptr, hgood⟩ := filesys_init_synced h
    exact ⟨hpos, hptr, hgood⟩
  | allocate cnt =>
    obtain ⟨r, hrun, hret⟩ := bind_eq_ok h
    obtain ⟨t, ht, hrun⟩ := bind_eq_ok hrun
    obtain rfl := Except.ok.inj hrun
    obtain rfl := Except.ok.inj hret
    exact (take_sectors_keeps ht).2.inv hinv
  | allocate_index start cnt arrays =>
    obtain ⟨r, hrun, hret⟩ := bind_eq_ok h
    obtain rfl := Except.ok.inj hret
    exact (free_map_allocate_index_keeps _ _ _ _ _ hrun).inv hinv
  | release sector cnt => exact (free_map_release_keeps h).inv hinv
  | done => exact ⟨hinv.nonempty, free_map_close_ptr h hinv.ptr, free_map_close_good h hinv.good⟩

/-- Whole histories. -/
theorem inv_of_reachable (h : Reachable (free_map_system capacity) (fun _ _ => True) s) :
    Inv capacity s := by
  refine h.invariant ?_ ?_
  · rintro s ⟨memory, file, hinit⟩
    obtain ⟨hpos, hptr, hgood⟩ := filesys_init_synced hinit
    exact ⟨hpos, hptr, hgood⟩
  · exact fun s e s' hinv _ hstep => exec_inv hstep hinv

/-- **The free map survives a reboot**: `free_map_init` and `free_map_open` find the bits
that were in memory. -/
theorem free_map_survives (memory : ℕ → Elem)
    (h : Reachable (free_map_system capacity) (fun _ _ => True) s) :
    ∃ s₁ s', free_map_init capacity memory s.file = .ok s₁ ∧ free_map_open s₁ = .ok s' ∧
      s'.free_map.map = s.free_map.map := by
  have hinv := inv_of_reachable h
  obtain ⟨s₁, hinit, hcnt₁, -, hfile₁⟩ := free_map_init_spec memory s.file hinv.nonempty
  obtain ⟨s', hopen, hcnt, -, hfile, hsync⟩ := free_map_open_spec s₁
  refine ⟨s₁, s', hinit, hopen, ?_⟩
  have hsize : s'.free_map.bit_cnt = s.free_map.bit_cnt := by
    rw [hcnt, hcnt₁, hinv.good.bit_cnt]
  unfold Words.Bitmap.map
  rw [hsize]
  simp only [Kernel.Bitmap.mk.injEq, true_and]
  funext i
  by_cases hi : i < s.free_map.bit_cnt
  · rw [← hsync i (by rw [hsize]; exact hi), hfile, hfile₁, hinv.good.synced hinv.ptr i hi]
  · simp [hi]

end Calls

/-- A format of a disk of 33 sectors in memory full of ones, an allocation and a release. -/
def small_history : List Event :=
  [.allocate 3, .release 4 1, .allocate_index 0 2 IndexArrays.zero]

/-- What follows the format, to a state in which the only bit of the last element is clear. -/
def small_run (s : FreeMap) : Bool :=
  follow (exec 33) (fun _ _ => true) (fun s => !s.free_map.map.bits 32) s small_history

theorem small_run_format : ∃ s₀, filesys_init 33 true (fun _ => -1) (fun _ => 0) = .ok s₀ ∧
    small_run s₀ = true := by
  have hrun : ((filesys_init 33 true (fun _ => -1) (fun _ => 0)).map small_run).toOption
      = some true := by decide +kernel
  cases hinit : filesys_init 33 true (fun _ => -1) (fun _ => 0) with
  | error e =>
    rw [hinit] at hrun
    cases hrun
  | ok s₀ =>
    rw [hinit] at hrun
    exact ⟨s₀, rfl, Option.some.inj hrun⟩

/-- The map after that history. -/
theorem free_map_survives_small : ∃ s, Reachable (free_map_system 33) (fun _ _ => True) s ∧
    ∃ s₁ s', free_map_init 33 (fun _ => -1) s.file = .ok s₁ ∧ free_map_open s₁ = .ok s' ∧
      s'.free_map.map = s.free_map.map := by
  obtain ⟨s₀, hinit, hrun⟩ := small_run_format
  have hstart : Reachable (free_map_system 33) (fun _ _ => true = true) s₀ := .init ⟨_, _, hinit⟩
  obtain ⟨s, hreach, -⟩ := follow_reachable (fun _ _ _ h => h) hstart hrun
  have hreach' : Reachable (free_map_system 33) (fun _ _ => True) s :=
    hreach.weaken (fun _ _ _ => trivial)
  exact ⟨s, hreach', free_map_survives (fun _ => -1) hreach'⟩

end Pintos.Filesys.FreeMapFile
