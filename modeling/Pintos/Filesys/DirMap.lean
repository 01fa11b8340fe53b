/-
Directories as finite maps.

`filesys/directory.c` once more, this time over files taken as growable byte arrays: a read
past the end falls short, and a write past the end makes the file longer. A directory is then
its bytes, in records of 24, and four layers lie between these and a map from names to
sectors: the bytes; the list of records (`records`), one of which a write replaces or appends;
what the loops of the code find in that list; and the map the list stands for (`Stands`).

Records that are in use have different names. Slots are reused, so this is an invariant of
the whole array and not of its growth, and `dir_add` keeps it because it looks the name up
in all of the array before it takes a slot.
-/
import Pintos.Filesys.Directory

set_option autoImplicit false

namespace Pintos.Filesys.DirMap

open WordImage

/-! ## Files as byte arrays -/

/-- `inode_read_at`. -/
def inode_read_at (b : List UInt8) (size offset : ℕ) : List UInt8 := (b.drop offset).take size

/-- `inode_write_at`: the bytes behind the old end and before the offset become zeros. -/
def inode_write_at (b data : List UInt8) (offset : ℕ) : List UInt8 :=
  b.take offset ++ List.replicate (offset - b.length) 0 ++ data ++ b.drop (offset + data.length)

/-- A C string: no byte of it is zero. -/
abbrev Name := { s : Str // (0 : UInt8) ∉ s }

/-- What an inode holds. -/
structure Content where
  isdir : Bool
  bytes : List UInt8

/-- The inodes, by sector. -/
abbrev World := ℕ → Content

/-! ## `filesys/directory.c` -/

/-- `inode_read_at (dir->inode, &e, sizeof e, ofs) == sizeof e`, with the entry read. -/
def read_entry (b : List UInt8) (ofs : ℕ) : Option DirEntry :=
  let e := inode_read_at b dir_entry_size ofs
  if e.length = dir_entry_size then some ⟨e⟩ else none

/-- The rounds of a loop over the entries, up to the read that falls short. -/
def rounds (b : List UInt8) : ℕ := b.length / dir_entry_size + 1

/-- The loop of `lookup`. -/
def lookup_loop (b : List UInt8) (name : Str) : (fuel ofs : ℕ) → Res (Option (DirEntry × ℕ))
  | 0, _ => .error .diverge
  | fuel + 1, ofs =>
    match read_entry b ofs with
    | none => .ok none
    | some e =>
      if e.Matches name then .ok (some (e, ofs))
      else lookup_loop b name fuel (ofs + dir_entry_size)

/-- `lookup`. -/
def lookup (b : List UInt8) (name : Str) : Res (Option (DirEntry × ℕ)) :=
  lookup_loop b name (rounds b) 0

/-- The loop of `dir_add` that looks for a free slot. -/
def slot_loop (b : List UInt8) : (fuel ofs : ℕ) → Res ℕ
  | 0, _ => .error .diverge
  | fuel + 1, ofs =>
    match read_entry b ofs with
    | none => .ok ofs
    | some e => if e.in_use = 0 then .ok ofs else slot_loop b fuel (ofs + dir_entry_size)

/-- `dir_add`, on the bytes of the directory. -/
def dir_add (b : List UInt8) (name : Str) (inode_sector : UInt32) : Res (Bool × List UInt8) :=
  if name = [] ∨ NAME_MAX < name.length then .ok (false, b)
  else do
    match ← lookup b name with
    | some _ => return (false, b)
    | none =>
      let ofs ← slot_loop b (rounds b) 0
      return (true, inode_write_at b (new_entry name inode_sector.toNat).bytes ofs)

/-- The test of `dir_readdir`. -/
def Shown (e : DirEntry) : Prop := e.name ≠ dot_dot ∧ e.in_use = 1

instance (e : DirEntry) : Decidable (Shown e) := inferInstanceAs (Decidable (_ ∧ _))

/-- The loop of `dir_readdir`: the next name, cut to the caller's buffer, and the position
it leaves. -/
def readdir_loop (b : List UInt8) : (fuel pos : ℕ) → Res (Option Str × ℕ)
  | 0, _ => .error .diverge
  | fuel + 1, pos =>
    match read_entry b pos with
    | none => .ok (none, pos)
    | some e =>
      if Shown e then .ok (some (e.name.take NAME_MAX), pos + dir_entry_size)
      else readdir_loop b fuel (pos + dir_entry_size)

/-- `dir_readdir`, at a position of the handle. -/
def dir_readdir (b : List UInt8) (pos : ℕ) : Res (Option Str × ℕ) := readdir_loop b (rounds b) pos

/-- A full scan: `dir_readdir` until it returns false. -/
def scan_loop (b : List UInt8) : (fuel pos : ℕ) → Res (List Str)
  | 0, _ => .error .diverge
  | fuel + 1, pos => do
    let r ← dir_readdir b pos
    match r.1 with
    | none => return []
    | some name =>
      let rest ← scan_loop b fuel r.2
      return name :: rest

/-- A scan with a new handle. -/
def scan (b : List UInt8) : Res (List Str) := scan_loop b (rounds b) 0

/-- `dir_remove`. The inode of the entry is opened for its type, and if it is a directory, for
the first name in it. -/
def dir_remove (w : World) (dir : ℕ) (name : Str) : Res (Bool × List UInt8) := do
  match ← lookup (w dir).bytes name with
  | none => return (false, (w dir).bytes)
  | some (e, ofs) =>
    let inode := w e.inode_sector
    if inode.isdir then do
      let r ← dir_readdir inode.bytes 0
      if r.1.isSome then return (false, (w dir).bytes)
      else return (true, inode_write_at (w dir).bytes e.erase.bytes ofs)
    else return (true, inode_write_at (w dir).bytes e.erase.bytes ofs)

/-! ## Runs -/

/-- An operation on the directory `d`, or a change to any other inode. -/
inductive Op (d : ℕ)
  | add (name : Name) (inode_sector : UInt32)
  | remove (name : Name)
  | lookup (name : Name)
  | scan
  | outside (x : { x : ℕ // x ≠ d }) (content : Content)

/-- What an operation returns. -/
inductive Result
  | success (b : Bool)
  | sector (s : Option ℕ)
  | names (l : List Str)
  | none

/-- The world with other bytes in a directory. -/
def World.set_bytes (w : World) (d : ℕ) (b : List UInt8) : World :=
  Function.update w d { w d with bytes := b }

/-- One operation. -/
def step {d : ℕ} (w : World) : Op d → Res (Result × World)
  | .add name inode_sector => do
    let r ← dir_add (w d).bytes name.1 inode_sector
    return (.success r.1, w.set_bytes d r.2)
  | .remove name => do
    let r ← dir_remove w d name.1
    return (.success r.1, w.set_bytes d r.2)
  | .lookup name => do
    let r ← DirMap.lookup (w d).bytes name.1
    return (.sector (r.map fun p => p.1.inode_sector), w)
  | .scan => do
    let l ← DirMap.scan (w d).bytes
    return (.names l, w)
  | .outside x content => .ok (.none, Function.update w x.1 content)

/-- A sequence of operations, with what each returned. -/
def run {d : ℕ} (w : World) : List (Op d) → Res (List (Op d × Result) × World)
  | [] => .ok ([], w)
  | op :: ops => do
    let r ← step w op
    let rest ← run r.2 ops
    return ((op, r.1) :: rest.1, rest.2)

/-- What one operation and its result do to a map. -/
def record {d : ℕ} (M : Str → Option ℕ) : Op d × Result → Str → Option ℕ
  | (.add name inode_sector, .success true) => Function.update M name.1 (some inode_sector.toNat)
  | (.remove name, .success true) => Function.update M name.1 Option.none
  | _ => M

/-- The map of a history: a name has the sector of its last successful `dir_add`, if no
successful `dir_remove` came after it. -/
def history {d : ℕ} (h : List (Op d × Result)) : Str → Option ℕ :=
  h.foldl record fun _ => Option.none

/-! ## Records -/

/-- The whole records of a file. -/
def records (b : List UInt8) : List DirEntry :=
  (List.range (b.length / dir_entry_size)).map fun i =>
    ⟨inode_read_at b dir_entry_size (dir_entry_size * i)⟩

theorem records_length (b : List UInt8) : (records b).length = b.length / dir_entry_size := by
  unfold records
  rw [List.length_map, List.length_range]

/-- Reading at a record boundary. -/
theorem read_entry_eq (b : List UInt8) (i : ℕ) :
    read_entry b (dir_entry_size * i) = (records b)[i]? := by
  have hlen : (inode_read_at b dir_entry_size (dir_entry_size * i)).length =
      min dir_entry_size (b.length - dir_entry_size * i) := by
    unfold inode_read_at
    rw [List.length_take, List.length_drop]
  unfold read_entry records
  dsimp only
  by_cases hi : i < b.length / dir_entry_size
  · have hfit := entry_lt_iff.mp hi
    rw [if_pos (by omega), List.getElem?_map, List.getElem?_range hi]
    rfl
  · have hshort := Nat.not_le.mp (mt entry_lt_iff.mpr hi)
    have hpos : 0 < dir_entry_size := by decide
    rw [if_neg (by omega), List.getElem?_map, List.getElem?_eq_none (by simpa using hi)]
    rfl

/-- The bytes of a file after a write that starts inside it or at its end. -/
theorem getElem?_inode_write_at {b data : List UInt8} {ofs : ℕ} (hofs : ofs ≤ b.length) (p : ℕ) :
    (inode_write_at b data ofs)[p]? =
      if ofs ≤ p ∧ p < ofs + data.length then data[p - ofs]? else b[p]? := by
  have htake : (b.take ofs).length = ofs := by
    rw [List.length_take]
    omega
  have hgap : List.replicate (ofs - b.length) (0 : UInt8) = [] := by
    rw [Nat.sub_eq_zero_of_le hofs]
    rfl
  unfold inode_write_at
  rw [hgap, List.append_nil]
  by_cases hlow : p < ofs
  · rw [if_neg (by omega), List.append_assoc, List.getElem?_append_left (by omega),
      List.getElem?_take_of_lt hlow]
  by_cases hmid : p < ofs + data.length
  · rw [if_pos ⟨by omega, hmid⟩, List.append_assoc, List.getElem?_append_right (by omega), htake,
      List.getElem?_append_left (by omega)]
  · rw [if_neg (by omega), List.getElem?_append_right (by rw [List.length_append]; omega),
      List.length_append, htake, List.getElem?_drop]
    congr 1
    omega

/-- A record written over, or behind the last one: the list of records after it. -/
def put (rs : List DirEntry) (i : ℕ) (e : DirEntry) : List DirEntry :=
  if i < rs.length then rs.set i e else rs ++ [e]

theorem getElem?_put_self {rs : List DirEntry} {i : ℕ} (hi : i ≤ rs.length) (e : DirEntry) :
    (put rs i e)[i]? = some e := by
  unfold put
  by_cases hlt : i < rs.length
  · rw [if_pos hlt, List.getElem?_set_self hlt]
  · have hzero : i - rs.length = 0 := by omega
    rw [if_neg hlt, List.getElem?_append_right (by omega), hzero]
    rfl

theorem getElem?_put_of_ne {rs : List DirEntry} {i j : ℕ} (hi : i ≤ rs.length) (hj : j ≠ i)
    (e : DirEntry) : (put rs i e)[j]? = rs[j]? := by
  unfold put
  by_cases hlt : i < rs.length
  · rw [if_pos hlt, List.getElem?_set_ne (Ne.symm hj)]
  rw [if_neg hlt]
  by_cases hj' : j < rs.length
  · rw [List.getElem?_append_left hj']
  · rw [List.getElem?_eq_none (by rw [List.length_append, List.length_singleton]; omega),
      List.getElem?_eq_none (by omega)]

/-- A read depends on the bytes of its range. -/
theorem inode_read_at_congr {b b' : List UInt8} {size p q : ℕ}
    (h : ∀ k < size, b[p + k]? = b'[q + k]?) : inode_read_at b size p = inode_read_at b' size q := by
  refine List.ext_getElem? fun k => ?_
  unfold inode_read_at
  by_cases hk : k < size
  · rw [List.getElem?_take_of_lt hk, List.getElem?_take_of_lt hk, List.getElem?_drop,
      List.getElem?_drop, h k hk]
  · rw [List.getElem?_eq_none (by rw [List.length_take]; omega),
      List.getElem?_eq_none (by rw [List.length_take]; omega)]

/-- **Writing a record** changes that record and no other. -/
theorem records_write {b : List UInt8} {e : DirEntry} {i : ℕ} (he : e.bytes.length = dir_entry_size)
    (hi : i ≤ (records b).length) :
    records (inode_write_at b e.bytes (dir_entry_size * i)) = put (records b) i e := by
  have hofs : dir_entry_size * i ≤ b.length := by
    rw [records_length] at hi
    exact (Nat.mul_le_mul_left _ hi).trans (Nat.mul_div_le _ _)
  refine List.ext_getElem? fun j => ?_
  rw [← read_entry_eq]
  unfold read_entry
  dsimp only
  by_cases hji : j = i
  · subst hji
    have hread : inode_read_at (inode_write_at b e.bytes (dir_entry_size * j)) dir_entry_size
        (dir_entry_size * j) = e.bytes := by
      have hall : e.bytes = inode_read_at e.bytes dir_entry_size 0 := by
        unfold inode_read_at
        rw [List.drop_zero, List.take_of_length_le (by omega)]
      rw [hall]
      refine inode_read_at_congr fun k hk => ?_
      rw [← hall, getElem?_inode_write_at hofs, if_pos ⟨by omega, by omega⟩]
      congr 1
      omega
    rw [hread, if_pos he, getElem?_put_self hi]
  · have hread : inode_read_at (inode_write_at b e.bytes (dir_entry_size * i)) dir_entry_size
        (dir_entry_size * j) = inode_read_at b dir_entry_size (dir_entry_size * j) := by
      -- the two records do not overlap
      have hapart : dir_entry_size * j + dir_entry_size ≤ dir_entry_size * i ∨
          dir_entry_size * i + dir_entry_size ≤ dir_entry_size * j := by
        unfold dir_entry_size
        omega
      refine inode_read_at_congr fun k hk => ?_
      rw [getElem?_inode_write_at hofs, if_neg (by omega)]
    rw [hread, getElem?_put_of_ne hi hji, ← read_entry_eq]
    rfl

/-! ## What the loops find -/

section Loops

variable (b : List UInt8)

/-- The position behind a record. -/
theorem next_ofs (i : ℕ) : dir_entry_size * i + dir_entry_size = dir_entry_size * (i + 1) := by
  rw [Nat.mul_succ]

theorem rounds_eq : rounds b = (records b).length + 1 := by
  rw [records_length]
  rfl

/-- `lookup` from record `i` on: a record with the name, or none has it. -/
theorem lookup_loop_spec (name : Str) : ∀ fuel i : ℕ, i + fuel = rounds b → 0 < fuel →
    (lookup_loop b name fuel (dir_entry_size * i) = .ok none ∧
      ∀ j e, i ≤ j → (records b)[j]? = some e → ¬ e.Matches name) ∨
    ∃ j e, lookup_loop b name fuel (dir_entry_size * i) = .ok (some (e, dir_entry_size * j)) ∧
      (records b)[j]? = some e ∧ e.Matches name := by
  intro fuel
  induction fuel with
  | zero =>
    intro i _ hpos
    omega
  | succ fuel ih =>
    intro i hround _
    rw [rounds_eq] at hround ih
    unfold lookup_loop
    rw [read_entry_eq]
    cases hi : (records b)[i]? with
    | none =>
      refine Or.inl ⟨rfl, fun j e hj he => ?_⟩
      have hle := List.getElem?_eq_none_iff.mp hi
      rw [List.getElem?_eq_none (hle.trans hj)] at he
      cases he
    | some e =>
      have hlt := (List.getElem?_eq_some_iff.mp hi).1
      dsimp only
      by_cases hmatch : e.Matches name
      · rw [if_pos hmatch]
        exact Or.inr ⟨i, e, rfl, hi, hmatch⟩
      · rw [if_neg hmatch, next_ofs]
        rcases ih (i + 1) (by omega) (by omega) with ⟨hnone, hrest⟩ | hfound
        · refine Or.inl ⟨hnone, fun j e' hj he' => ?_⟩
          rcases Nat.eq_or_lt_of_le hj with rfl | hj
          · rw [hi] at he'
            rw [← Option.some.inj he']
            exact hmatch
          · exact hrest j e' hj he'
        · exact Or.inr hfound

/-- **`lookup`** finds a record with the name, or there is none. -/
theorem lookup_cases (name : Str) :
    (lookup b name = .ok none ∧
      ∀ (j : ℕ) (e : DirEntry), (records b)[j]? = some e → ¬ e.Matches name) ∨
    ∃ j e, lookup b name = .ok (some (e, dir_entry_size * j)) ∧ (records b)[j]? = some e ∧
      e.Matches name := by
  rcases lookup_loop_spec b name (rounds b) 0 (Nat.zero_add _) (Nat.succ_pos _) with h | h
  · exact Or.inl ⟨h.1, fun j e he => h.2 j e (Nat.zero_le j) he⟩
  · exact Or.inr h

/-- The slot `dir_add` takes: a record not in use, or the end. -/
theorem slot_loop_spec : ∀ fuel i : ℕ, i + fuel = rounds b → 0 < fuel →
    ∃ j, slot_loop b fuel (dir_entry_size * i) = .ok (dir_entry_size * j) ∧
      j ≤ (records b).length ∧ ∀ e, (records b)[j]? = some e → e.in_use = 0 := by
  intro fuel
  induction fuel with
  | zero =>
    intro i _ hpos
    omega
  | succ fuel ih =>
    intro i hround _
    rw [rounds_eq] at hround ih
    unfold slot_loop
    rw [read_entry_eq]
    cases hi : (records b)[i]? with
    | none => exact ⟨i, rfl, by omega, fun e he => by rw [hi] at he; cases he⟩
    | some e =>
      have hlt := (List.getElem?_eq_some_iff.mp hi).1
      dsimp only
      by_cases hfree : e.in_use = 0
      · rw [if_pos hfree]
        refine ⟨i, rfl, hlt.le, fun e' he' => ?_⟩
        rw [hi] at he'
        rw [← Option.some.inj he']
        exact hfree
      · rw [if_neg hfree, next_ofs]
        exact ih (i + 1) (by omega) (by omega)

/-- `dir_readdir` from record `i` on: it stops behind the next record that is shown. -/
theorem readdir_loop_spec : ∀ fuel i : ℕ, i ≤ (records b).length →
    (records b).length < i + fuel →
    (((records b).drop i).filter Shown = [] ∧
      ∃ pos, readdir_loop b fuel (dir_entry_size * i) = .ok (none, pos)) ∨
    ∃ j e, i < j ∧ j ≤ (records b).length ∧
      readdir_loop b fuel (dir_entry_size * i) = .ok (some (e.name.take NAME_MAX),
        dir_entry_size * j) ∧
      ((records b).drop i).filter Shown = e :: ((records b).drop j).filter Shown := by
  intro fuel
  induction fuel with
  | zero =>
    intro i _ hlt
    omega
  | succ fuel ih =>
    intro i hle hfuel
    unfold readdir_loop
    rw [read_entry_eq]
    cases hi : (records b)[i]? with
    | none =>
      have hend := List.getElem?_eq_none_iff.mp hi
      rw [List.drop_eq_nil_of_le hend]
      exact Or.inl ⟨rfl, _, rfl⟩
    | some e =>
      obtain ⟨hlt, hget⟩ := List.getElem?_eq_some_iff.mp hi
      rw [List.drop_eq_getElem_cons hlt, hget]
      dsimp only
      by_cases hshown : Shown e
      · rw [if_pos hshown, List.filter_cons_of_pos (by simpa using hshown), next_ofs]
        exact Or.inr ⟨i + 1, e, Nat.lt_succ_self i, hlt, rfl, rfl⟩
      · rw [if_neg hshown, List.filter_cons_of_neg (by simpa using hshown), next_ofs]
        rcases ih (i + 1) hlt (by omega) with h | ⟨j, e', hj, hrest⟩
        · exact Or.inl h
        · exact Or.inr ⟨j, e', by omega, hrest⟩

/-- The first name in a directory. -/
theorem dir_readdir_first : ∃ r pos, dir_readdir b 0 = .ok (r, pos) ∧
    (r.isSome = true ↔ ∃ e ∈ records b, Shown e) := by
  have hspec := readdir_loop_spec b (rounds b) 0 (Nat.zero_le _) (by rw [rounds_eq]; omega)
  rw [List.drop_zero] at hspec
  rcases hspec with ⟨hnil, pos, hrun⟩ | ⟨j, e, -, -, hrun, hcons⟩
  · refine ⟨none, pos, hrun, iff_of_false (by simp) ?_⟩
    rintro ⟨e, he, hshown⟩
    have hmem : e ∈ (records b).filter Shown := List.mem_filter.mpr ⟨he, by simpa using hshown⟩
    rw [hnil] at hmem
    cases hmem
  · have hmem : e ∈ (records b).filter Shown := by
      rw [hcons]
      exact List.mem_cons_self
    obtain ⟨he, hshown⟩ := List.mem_filter.mp hmem
    exact ⟨_, _, hrun, iff_of_true rfl ⟨e, he, by simpa using hshown⟩⟩

theorem scan_loop_spec : ∀ fuel i : ℕ, i ≤ (records b).length → (records b).length < i + fuel →
    scan_loop b fuel (dir_entry_size * i) =
      .ok ((((records b).drop i).filter Shown).map fun e => e.name.take NAME_MAX) := by
  intro fuel
  induction fuel with
  | zero =>
    intro i _ hlt
    omega
  | succ fuel ih =>
    intro i hle hfuel
    unfold scan_loop dir_readdir
    rcases readdir_loop_spec b (rounds b) i hle (by rw [rounds_eq]; omega) with
      ⟨hnil, pos, hrun⟩ | ⟨j, e, hij, hj, hrun, hcons⟩
    · rw [hrun, hnil]
      rfl
    · rw [hrun, hcons, ok_bind]
      dsimp only
      rw [ih j hj (by omega)]
      rfl

/-- **A scan** yields the records that are shown, in order. -/
theorem scan_eq : scan b =
    .ok (((records b).filter Shown).map fun e => e.name.take NAME_MAX) := by
  have hspec := scan_loop_spec b (rounds b) 0 (Nat.zero_le _) (by rw [rounds_eq]; omega)
  rw [List.drop_zero] at hspec
  exact hspec

end Loops

/-! ## Files on the disk

The functions of `directory.c` over the block map read the same entries, so on a file in
order they find what these find in its bytes. -/

section OnDisk

variable {s : FileSys} {inode : Inode}

/-- The bytes of a file. -/
def file_bytes (disk : ℕ → Sector) (d : InodeDisk) : List UInt8 :=
  (List.range d.length).map (file_byte disk d)

theorem read_entry_file (h : ReadOk s inode.data) {i : ℕ}
    (hi : i ≤ inode.data.length / dir_entry_size) :
    Filesys.read_entry s inode (dir_entry_size * i) =
      .ok (read_entry (file_bytes s.disk inode.data) (dir_entry_size * i)) := by
  have hlen : (file_bytes s.disk inode.data).length = inode.data.length := by
    unfold file_bytes
    rw [List.length_map, List.length_range]
  rw [h.read_entry hi, read_entry_eq]
  by_cases hlt : i < inode.data.length / dir_entry_size
  · have hfit := entry_lt_iff.mp hlt
    have hslice : (entry_at s.disk inode.data i).bytes =
        inode_read_at (file_bytes s.disk inode.data) dir_entry_size (dir_entry_size * i) := by
      refine List.ext_getElem? fun k => ?_
      unfold entry_at inode_read_at
      by_cases hk : k < dir_entry_size
      · unfold file_bytes
        rw [List.getElem?_map, List.getElem?_range hk, List.getElem?_take_of_lt hk,
          List.getElem?_drop, List.getElem?_map, List.getElem?_range (by omega)]
        rfl
      · rw [List.getElem?_eq_none (by rw [List.length_map, List.length_range]; omega),
          List.getElem?_eq_none (by rw [List.length_take]; omega)]
    unfold records
    rw [if_pos hlt, List.getElem?_map, hlen, List.getElem?_range hlt, Option.map_some, ← hslice]
  · rw [if_neg hlt, List.getElem?_eq_none]
    rw [records_length, hlen]
    omega

theorem lookup_loop_file (h : ReadOk s inode.data) (name : Str) : ∀ fuel i : ℕ,
    i + fuel = entry_rounds inode →
    Filesys.lookup_loop s inode name fuel (dir_entry_size * i) =
      lookup_loop (file_bytes s.disk inode.data) name fuel (dir_entry_size * i) := by
  intro fuel
  induction fuel with
  | zero => exact fun _ _ => rfl
  | succ fuel ih =>
    intro i hround
    unfold entry_rounds at hround ih
    unfold Filesys.lookup_loop lookup_loop
    rw [read_entry_file h (by omega), ok_bind, next_ofs, ih (i + 1) (by omega)]
    rfl

/-- **On the disk**, `lookup` finds what it finds in the bytes of the file. -/
theorem lookup_file {st : Store} {x : ℕ} (hopen : st.open_inodes x = some inode)
    (h : ReadOk st.fs inode.data) (name : Str) :
    Filesys.lookup st x name = lookup (file_bytes st.fs.disk inode.data) name := by
  have hlen : (file_bytes st.fs.disk inode.data).length = inode.data.length := by
    unfold file_bytes
    rw [List.length_map, List.length_range]
  have hrounds : rounds (file_bytes st.fs.disk inode.data) = entry_rounds inode := by
    unfold rounds entry_rounds
    rw [hlen]
  have hloop := lookup_loop_file h name (entry_rounds inode) 0 (Nat.zero_add _)
  unfold Filesys.lookup Store.deref lookup
  rw [hopen, hrounds]
  exact hloop

end OnDisk

/-! ## The map of a list of records -/

/-- A record of a file has its size. -/
theorem record_size {b : List UInt8} {i : ℕ} {e : DirEntry} (h : (records b)[i]? = some e) :
    e.bytes.length = dir_entry_size := by
  rw [← read_entry_eq] at h
  unfold read_entry at h
  dsimp only at h
  split_ifs at h with hlen
  rw [← Option.some.inj h]
  exact hlen

/-- A byte of the flag of an erased record. -/
theorem erase_image {e : DirEntry} (he : e.bytes.length = dir_entry_size) {j : ℕ} (hj : 20 ≤ j) :
    e.erase.image j = 0 := by
  have htake : (e.bytes.take 20).length = 20 := by
    rw [List.length_take, he]
    rfl
  unfold DirEntry.image DirEntry.erase
  dsimp only
  have hzeros : ([0, 0, 0, 0] : List UInt8) = List.replicate 4 0 := rfl
  rw [List.getD_eq_getElem?_getD, List.getElem?_append_right (by omega), htake, hzeros,
    List.getElem?_replicate]
  split_ifs <;> rfl

theorem erase_in_use {e : DirEntry} (he : e.bytes.length = dir_entry_size) : e.erase.in_use = 0 := by
  unfold DirEntry.in_use word
  rw [erase_image he (by norm_num), erase_image he (by norm_num), erase_image he (by norm_num),
    erase_image he (by norm_num)]
  rfl

theorem erase_size {e : DirEntry} (he : e.bytes.length = dir_entry_size) :
    e.erase.bytes.length = dir_entry_size := by
  unfold DirEntry.erase
  rw [List.length_append, List.length_take, he]
  rfl

section NewEntry

variable {name : Str} {inode_sector : ℕ} (hlen : name.length ≤ NAME_MAX)

include hlen

theorem new_entry_size : (new_entry name inode_sector).bytes.length = dir_entry_size := by
  unfold NAME_MAX at hlen
  unfold new_entry dir_entry_size
  simp only [List.length_append, List.length_map, List.length_range, List.length_replicate,
    List.length_cons, List.length_nil]
  omega

/-- The bytes before the flag. -/
theorem new_entry_head : ((List.range 4).map (ofWords fun _ => inode_sector) ++
    (name ++ List.replicate (16 - name.length) 0)).length = 20 := by
  unfold NAME_MAX at hlen
  simp only [List.length_append, List.length_map, List.length_range, List.length_replicate]
  omega

theorem new_entry_in_use : (new_entry name inode_sector).in_use = 1 := by
  have himage : ∀ k < 4, (new_entry name inode_sector).image (20 + k) =
      ([1, 0, 0, 0] : List UInt8).getD k 0 := by
    intro k _
    unfold DirEntry.image new_entry
    dsimp only
    rw [List.getD_eq_getElem?_getD, List.getElem?_append_right (by rw [new_entry_head hlen]; omega),
      new_entry_head hlen, Nat.add_sub_cancel_left]
    rfl
  unfold DirEntry.in_use word
  rw [himage 0 (by norm_num), himage 1 (by norm_num), himage 2 (by norm_num),
    himage 3 (by norm_num)]
  rfl

theorem new_entry_name (hzero : (0 : UInt8) ∉ name) : (new_entry name inode_sector).name = name := by
  unfold NAME_MAX at hlen
  have hdrop : (new_entry name inode_sector).bytes.drop 4 =
      name ++ (List.replicate (16 - name.length) 0 ++ [1, 0, 0, 0]) := by
    unfold new_entry
    rw [List.append_assoc, List.append_assoc, List.drop_append_of_le_length (by simp),
      List.drop_of_length_le (by simp), List.nil_append]
  obtain ⟨m, hm⟩ : ∃ m, 16 - name.length = m + 1 := ⟨15 - name.length, by omega⟩
  unfold DirEntry.name
  rw [hdrop, List.takeWhile_append_of_pos, hm, List.replicate_succ, List.cons_append,
    List.takeWhile_cons_of_neg (by simp), List.append_nil]
  intro c hc
  simp only [decide_eq_true_eq]
  rintro rfl
  exact hzero hc

omit hlen in
theorem new_entry_sector (hsector : inode_sector < 2 ^ 32) :
    (new_entry name inode_sector).inode_sector = inode_sector := by
  have himage : ∀ k < 4, (new_entry name inode_sector).image k = ofWords (fun _ => inode_sector) k := by
    intro k hk
    unfold DirEntry.image new_entry
    dsimp only
    rw [List.append_assoc, List.getD_eq_getElem?_getD, List.getElem?_append_left (by simpa using hk),
      List.getElem?_map, List.getElem?_range hk]
    rfl
  have hsame : word (new_entry name inode_sector).image 0 = word (ofWords fun _ => inode_sector) 0 := by
    unfold word
    rw [himage (4 * 0) (by norm_num), himage (4 * 0 + 1) (by norm_num),
      himage (4 * 0 + 2) (by norm_num), himage (4 * 0 + 3) (by norm_num)]
  exact hsame.trans (word_ofWords (fun _ => inode_sector) 0 hsector)

end NewEntry

/-- The records stand for the map `M`. -/
structure Stands (rs : List DirEntry) (M : Str → Option ℕ) : Prop where
  short : ∀ (i : ℕ) (e : DirEntry), rs[i]? = some e → e.in_use = 1 → e.name.length ≤ NAME_MAX
  distinct : ∀ (i j : ℕ) (e e' : DirEntry), rs[i]? = some e → rs[j]? = some e' →
    e.in_use = 1 → e'.in_use = 1 → e.name = e'.name → i = j
  map : ∀ name s, M name = some s ↔
    ∃ (i : ℕ) (e : DirEntry), rs[i]? = some e ∧ e.Matches name ∧ e.inode_sector = s

section Maps

variable {rs : List DirEntry} {M : Str → Option ℕ}

/-- A name that no record has is not in the map. -/
theorem Stands.absent (h : Stands rs M) {name : Str}
    (hno : ∀ (j : ℕ) (e : DirEntry), rs[j]? = some e → ¬ e.Matches name) : M name = none := by
  cases hM : M name with
  | none => rfl
  | some s =>
    obtain ⟨i, e, he, hmatch, -⟩ := (h.map name s).mp hM
    exact absurd hmatch (hno i e he)

/-- **Taking a slot** for a new name. -/
theorem Stands.add (h : Stands rs M) {i : ℕ} {e : DirEntry} (hi : i ≤ rs.length)
    (hslot : ∀ e', rs[i]? = some e' → e'.in_use = 0) (huse : e.in_use = 1)
    (hshort : e.name.length ≤ NAME_MAX)
    (hno : ∀ (j : ℕ) (e' : DirEntry), rs[j]? = some e' → ¬ e'.Matches e.name) :
    Stands (put rs i e) (Function.update M e.name (some e.inode_sector)) := by
  -- a record in use after the step is the new one or was in use before
  have hcases : ∀ (j : ℕ) (e' : DirEntry), (put rs i e)[j]? = some e' →
      (j = i ∧ e' = e) ∨ (j ≠ i ∧ rs[j]? = some e') := by
    intro j e' he'
    by_cases hj : j = i
    · subst hj
      rw [getElem?_put_self hi] at he'
      exact Or.inl ⟨rfl, (Option.some.inj he').symm⟩
    · rw [getElem?_put_of_ne hi hj] at he'
      exact Or.inr ⟨hj, he'⟩
  refine ⟨fun j e' he' huse' => ?_, fun j k e₁ e₂ h₁ h₂ hu₁ hu₂ hname => ?_, fun name s => ?_⟩
  · rcases hcases j e' he' with ⟨-, rfl⟩ | ⟨-, hold⟩
    · exact hshort
    · exact h.short j e' hold huse'
  · rcases hcases j e₁ h₁ with ⟨rfl, rfl⟩ | ⟨hj, hold₁⟩ <;>
      rcases hcases k e₂ h₂ with ⟨rfl, rfl⟩ | ⟨hk, hold₂⟩
    · rfl
    · exact absurd ⟨hu₂, hname.symm⟩ (hno k e₂ hold₂)
    · exact absurd ⟨hu₁, hname⟩ (hno j e₁ hold₁)
    · exact h.distinct j k e₁ e₂ hold₁ hold₂ hu₁ hu₂ hname
  · by_cases hname : name = e.name
    · subst hname
      rw [Function.update_self]
      constructor
      · intro hs
        exact ⟨i, e, getElem?_put_self hi e, ⟨huse, rfl⟩, Option.some.inj hs⟩
      · rintro ⟨j, e', he', hmatch, rfl⟩
        rcases hcases j e' he' with ⟨-, rfl⟩ | ⟨-, hold⟩
        · rfl
        · exact absurd hmatch (hno j e' hold)
    · rw [Function.update_of_ne hname, h.map name s]
      constructor
      · rintro ⟨j, e', he', hmatch, hs⟩
        have hj : j ≠ i := by
          rintro rfl
          have hzero := hslot e' he'
          rw [hmatch.1] at hzero
          cases hzero
        exact ⟨j, e', (getElem?_put_of_ne hi hj e).trans he', hmatch, hs⟩
      · rintro ⟨j, e', he', hmatch, hs⟩
        rcases hcases j e' he' with ⟨-, rfl⟩ | ⟨-, hold⟩
        · exact absurd hmatch.2.symm hname
        · exact ⟨j, e', hold, hmatch, hs⟩

/-- **Freeing a slot.** -/
theorem Stands.remove (h : Stands rs M) {i : ℕ} {e e₀ : DirEntry} (hi : rs[i]? = some e)
    {name : Str} (hmatch : e.Matches name) (hfree : e₀.in_use = 0) :
    Stands (put rs i e₀) (Function.update M name none) := by
  have hle : i ≤ rs.length := (List.getElem?_eq_some_iff.mp hi).1.le
  have hold : ∀ (j : ℕ) (e' : DirEntry), (put rs i e₀)[j]? = some e' → e'.in_use = 1 →
      j ≠ i ∧ rs[j]? = some e' := by
    intro j e' he' huse
    by_cases hj : j = i
    · subst hj
      rw [getElem?_put_self hle] at he'
      rw [← Option.some.inj he', hfree] at huse
      cases huse
    · rw [getElem?_put_of_ne hle hj] at he'
      exact ⟨hj, he'⟩
  refine ⟨fun j e' he' huse => h.short j e' (hold j e' he' huse).2 huse, ?_, fun other s => ?_⟩
  · intro j k e₁ e₂ h₁ h₂ hu₁ hu₂ hname
    exact h.distinct j k e₁ e₂ (hold j e₁ h₁ hu₁).2 (hold k e₂ h₂ hu₂).2 hu₁ hu₂ hname
  · by_cases hother : other = name
    · subst hother
      rw [Function.update_self]
      refine iff_of_false (by simp) ?_
      rintro ⟨j, e', he', hmatch', -⟩
      obtain ⟨hj, hget⟩ := hold j e' he' hmatch'.1
      -- no second record had the name
      exact hj (h.distinct j i e' e hget hi hmatch'.1 hmatch.1
        (hmatch'.2.trans hmatch.2.symm))
    · rw [Function.update_of_ne hother, h.map other s]
      constructor
      · rintro ⟨j, e', he', hmatch', hs⟩
        have hj : j ≠ i := by
          rintro rfl
          obtain rfl := Option.some.inj (hi.symm.trans he')
          exact hother (hmatch'.2.symm.trans hmatch.2)
        exact ⟨j, e', (getElem?_put_of_ne hle hj e₀).trans he', hmatch', hs⟩
      · rintro ⟨j, e', he', hmatch', hs⟩
        exact ⟨j, e', (hold j e' he' hmatch'.1).2, hmatch', hs⟩

end Maps

/-! ## The operations on a directory that stands for a map -/

/-- An inode is a directory with a name other than `..` in it. -/
def NonEmptyDir (w : World) (s : ℕ) : Prop :=
  (w s).isdir = true ∧ ∃ (i : ℕ) (e : DirEntry),
    read_entry (w s).bytes (dir_entry_size * i) = some e ∧ Shown e

section Specs

variable {b : List UInt8} {M : Str → Option ℕ}

/-- **`lookup`** returns the sector of the map. -/
theorem Stands.lookup_eq (h : Stands (records b) M) (name : Str) :
    ∃ r, lookup b name = .ok r ∧ (r.map fun p => p.1.inode_sector) = M name := by
  rcases lookup_cases b name with ⟨hrun, hno⟩ | ⟨j, e, hrun, he, hmatch⟩
  · exact ⟨none, hrun, (h.absent hno).symm⟩
  · exact ⟨_, hrun, ((h.map name _).mpr ⟨j, e, he, hmatch, rfl⟩).symm⟩

/-- **`dir_add`.** -/
theorem Stands.dir_add_spec (h : Stands (records b) M) (name : Name) (s : UInt32) :
    (dir_add b name.1 s = .ok (false, b) ∧
      (name.1 = [] ∨ NAME_MAX < name.1.length ∨ M name.1 ≠ none)) ∨
    ∃ b', dir_add b name.1 s = .ok (true, b') ∧
      ¬ (name.1 = [] ∨ NAME_MAX < name.1.length ∨ M name.1 ≠ none) ∧
      Stands (records b') (Function.update M name.1 (some s.toNat)) := by
  unfold dir_add
  by_cases hvalid : name.1 = [] ∨ NAME_MAX < name.1.length
  · rw [if_pos hvalid]
    exact Or.inl ⟨rfl, or_assoc.mp (Or.inl hvalid)⟩
  rw [if_neg hvalid]
  rcases lookup_cases b name.1 with ⟨hrun, hno⟩ | ⟨j, e, hrun, he, hmatch⟩
  · obtain ⟨i, hslot, hi, hfree⟩ :=
      slot_loop_spec b (rounds b) 0 (Nat.zero_add _) (Nat.succ_pos _)
    have hshort : name.1.length ≤ NAME_MAX := not_lt.mp fun hlong => hvalid (Or.inr hlong)
    have hname : (new_entry name.1 s.toNat).name = name.1 := new_entry_name hshort name.2
    have hsector : (new_entry name.1 s.toNat).inode_sector = s.toNat :=
      new_entry_sector s.toNat_lt
    have hstands := h.add hi hfree (new_entry_in_use hshort) (by rw [hname]; exact hshort)
      (by rw [hname]; exact hno)
    rw [hname, hsector, ← records_write (new_entry_size hshort) hi] at hstands
    rw [Nat.mul_zero] at hslot
    refine Or.inr ⟨_, ?_, ?_, hstands⟩
    · rw [hrun, ok_bind]
      dsimp only
      rw [hslot]
      rfl
    · rintro (hnil | hlong | hpresent)
      · exact hvalid (Or.inl hnil)
      · exact hvalid (Or.inr hlong)
      · exact hpresent (h.absent hno)
  · have hpresent := (h.map name.1 _).mpr ⟨j, e, he, hmatch, rfl⟩
    refine Or.inl ⟨?_, Or.inr (Or.inr ?_)⟩
    · rw [hrun]
      rfl
    · rw [hpresent]
      exact Option.some_ne_none _

/-- **`dir_remove`.** -/
theorem dir_remove_spec {w : World} {d : ℕ} (h : Stands (records (w d).bytes) M) (name : Name) :
    (dir_remove w d name.1 = .ok (false, (w d).bytes) ∧
      (M name.1 = none ∨ ∃ s, M name.1 = some s ∧ NonEmptyDir w s)) ∨
    ∃ b', dir_remove w d name.1 = .ok (true, b') ∧
      ¬ (M name.1 = none ∨ ∃ s, M name.1 = some s ∧ NonEmptyDir w s) ∧
      Stands (records b') (Function.update M name.1 none) := by
  unfold dir_remove
  rcases lookup_cases (w d).bytes name.1 with ⟨hrun, hno⟩ | ⟨j, e, hrun, he, hmatch⟩
  · refine Or.inl ⟨?_, Or.inl (h.absent hno)⟩
    rw [hrun]
    rfl
  have hpresent : M name.1 = some e.inode_sector := (h.map name.1 _).mpr ⟨j, e, he, hmatch, rfl⟩
  have hsize := record_size he
  have hle : j ≤ (records (w d).bytes).length := (List.getElem?_eq_some_iff.mp he).1.le
  have hstands := h.remove he hmatch (erase_in_use hsize)
  rw [← records_write (erase_size hsize) hle] at hstands
  have hcond : (M name.1 = none ∨ ∃ s, M name.1 = some s ∧ NonEmptyDir w s) ↔
      NonEmptyDir w e.inode_sector := by
    rw [hpresent]
    constructor
    · rintro (hnone | ⟨s, hs, hdir⟩)
      · cases hnone
      · rw [Option.some.inj hs]
        exact hdir
    · exact fun hdir => Or.inr ⟨_, rfl, hdir⟩
  rw [hcond, hrun, ok_bind]
  dsimp only
  by_cases hdir : (w e.inode_sector).isdir = true
  swap
  · rw [if_neg hdir]
    exact Or.inr ⟨_, rfl, fun hne => hdir hne.1, hstands⟩
  rw [if_pos hdir]
  obtain ⟨r, pos, hfirst, hsome⟩ := dir_readdir_first (w e.inode_sector).bytes
  have hshown : r.isSome = true ↔ NonEmptyDir w e.inode_sector := by
    rw [hsome]
    constructor
    · rintro ⟨e', he', hshown⟩
      obtain ⟨i, hi⟩ := List.getElem?_of_mem he'
      exact ⟨hdir, i, e', (read_entry_eq _ i).trans hi, hshown⟩
    · rintro ⟨-, i, e', hi, hshown⟩
      rw [read_entry_eq] at hi
      exact ⟨e', List.mem_of_getElem? hi, hshown⟩
  rw [hfirst, ok_bind]
  dsimp only
  by_cases hr : r.isSome = true
  · rw [if_pos hr]
    exact Or.inl ⟨rfl, hshown.mp hr⟩
  · rw [if_neg hr]
    exact Or.inr ⟨_, rfl, fun hne => hr (hshown.mpr hne), hstands⟩

/-- **A scan** yields every name of the map but `..`, once. -/
theorem Stands.scan_spec (h : Stands (records b) M) :
    ∃ l, scan b = .ok l ∧ l.Nodup ∧ ∀ name, name ∈ l ↔ name ≠ dot_dot ∧ M name ≠ none := by
  refine ⟨_, scan_eq b, ?_, fun name => ?_⟩
  · -- two records with one name are one record
    refine List.pairwise_map.mpr (List.pairwise_filter.mpr (List.pairwise_iff_getElem.mpr ?_))
    intro i j hi hj hij hshown hshown' hname
    have hget := List.getElem?_eq_getElem hi
    have hget' := List.getElem?_eq_getElem hj
    have huse : (records b)[i].in_use = 1 := (of_decide_eq_true hshown).2
    have huse' : (records b)[j].in_use = 1 := (of_decide_eq_true hshown').2
    rw [List.take_of_length_le (h.short i _ hget huse),
      List.take_of_length_le (h.short j _ hget' huse')] at hname
    exact absurd (h.distinct i j _ _ hget hget' huse huse' hname) hij.ne
  · constructor
    · intro hmem
      obtain ⟨e, he, rfl⟩ := List.mem_map.mp hmem
      obtain ⟨he, hshown⟩ := List.mem_filter.mp he
      have hshown : Shown e := by simpa using hshown
      obtain ⟨i, hi⟩ := List.getElem?_of_mem he
      rw [List.take_of_length_le (h.short i e hi hshown.2)]
      have hM := (h.map e.name _).mpr ⟨i, e, hi, ⟨hshown.2, rfl⟩, rfl⟩
      rw [hM]
      exact ⟨hshown.1, Option.some_ne_none _⟩
    · rintro ⟨hdots, hM⟩
      obtain ⟨s, hs⟩ := Option.ne_none_iff_exists'.mp hM
      obtain ⟨i, e, hi, hmatch, -⟩ := (h.map name s).mp hs
      have hshown : Shown e := ⟨by rw [hmatch.2]; exact hdots, hmatch.1⟩
      refine List.mem_map.mpr ⟨e, List.mem_filter.mpr ⟨List.mem_of_getElem? hi, ?_⟩, ?_⟩
      · simpa using hshown
      · rw [List.take_of_length_le (h.short i e hi hmatch.1)]
        exact hmatch.2

end Specs

/-! ## Runs -/

/-- The directory `d` is the map `M`, as far as its operations can tell. -/
structure IsMap (w : World) (d : ℕ) (M : Str → Option ℕ) : Prop where
  /-- The names in use are different. -/
  distinct : ∀ (i j : ℕ) (e e' : DirEntry),
    read_entry (w d).bytes (dir_entry_size * i) = some e →
    read_entry (w d).bytes (dir_entry_size * j) = some e' →
    e.in_use = 1 → e'.in_use = 1 → e.name = e'.name → i = j
  /-- `lookup` finds the sector of the map. -/
  lookup : ∀ name : Name, ∃ r, lookup (w d).bytes name.1 = .ok r ∧
    (r.map fun p => p.1.inode_sector) = M name.1
  /-- `dir_add` fails on an empty name, a long one and one that is there, and then changes
  nothing. -/
  add : ∀ (name : Name) (s : UInt32), ∃ b bytes, dir_add (w d).bytes name.1 s = .ok (b, bytes) ∧
    (b = false ↔ name.1 = [] ∨ NAME_MAX < name.1.length ∨ M name.1 ≠ none) ∧
    (b = false → bytes = (w d).bytes)
  /-- `dir_remove` fails on a name that is not there or is that of a directory with names in
  it, and then changes nothing; no other name changes. -/
  remove : ∀ name : Name, ∃ b bytes, dir_remove w d name.1 = .ok (b, bytes) ∧
    (b = false ↔ M name.1 = none ∨ ∃ s, M name.1 = some s ∧ NonEmptyDir w s) ∧
    (b = false → bytes = (w d).bytes) ∧
    ∀ other : Name, other.1 ≠ name.1 → ∃ r, DirMap.lookup bytes other.1 = .ok r ∧
      (r.map fun p => p.1.inode_sector) = M other.1
  /-- A scan yields every name but `..`, once. -/
  scan : ∃ l, scan (w d).bytes = .ok l ∧ l.Nodup ∧
    ∀ name, name ∈ l ↔ name ≠ dot_dot ∧ M name ≠ none

theorem Stands.isMap {w : World} {d : ℕ} {M : Str → Option ℕ}
    (h : Stands (records (w d).bytes) M) : IsMap w d M := by
  refine ⟨fun i j e e' hi hj => ?_, fun name => h.lookup_eq name.1, fun name s => ?_,
    fun name => ?_, h.scan_spec⟩
  · rw [read_entry_eq] at hi hj
    exact h.distinct i j e e' hi hj
  · rcases h.dir_add_spec name s with ⟨hrun, hcond⟩ | ⟨b', hrun, hcond, -⟩
    · exact ⟨false, _, hrun, iff_of_true rfl hcond, fun _ => rfl⟩
    · exact ⟨true, b', hrun, iff_of_false (by simp) hcond, fun hf => by cases hf⟩
  · rcases dir_remove_spec h name with ⟨hrun, hcond⟩ | ⟨b', hrun, hcond, hstands⟩
    · exact ⟨false, _, hrun, iff_of_true rfl hcond, fun _ => rfl, fun other _ => h.lookup_eq other.1⟩
    · refine ⟨true, b', hrun, iff_of_false (by simp) hcond, fun hf => (by cases hf), ?_⟩
      intro other hother
      obtain ⟨r, hr, hsector⟩ := hstands.lookup_eq other.1
      rw [Function.update_of_ne hother] at hsector
      exact ⟨r, hr, hsector⟩

theorem set_bytes_self (w : World) (d : ℕ) (b : List UInt8) : (w.set_bytes d b d).bytes = b := by
  unfold World.set_bytes
  rw [Function.update_self]

/-- **One operation** returns, and the map follows its result. -/
theorem step_stands {d : ℕ} {w : World} {M : Str → Option ℕ}
    (h : Stands (records (w d).bytes) M) (op : Op d) :
    ∃ r w', step w op = .ok (r, w') ∧ Stands (records (w' d).bytes) (record M (op, r)) := by
  cases op with
  | add name s =>
    rcases h.dir_add_spec name s with ⟨hrun, -⟩ | ⟨b', hrun, -, hstands⟩
    · refine ⟨.success false, w.set_bytes d (w d).bytes, ?_, ?_⟩
      · unfold step
        dsimp only
        rw [hrun]
        rfl
      · rw [set_bytes_self]
        exact h
    · refine ⟨.success true, w.set_bytes d b', ?_, ?_⟩
      · unfold step
        dsimp only
        rw [hrun]
        rfl
      · rw [set_bytes_self]
        exact hstands
  | remove name =>
    rcases dir_remove_spec h name with ⟨hrun, -⟩ | ⟨b', hrun, -, hstands⟩
    · refine ⟨.success false, w.set_bytes d (w d).bytes, ?_, ?_⟩
      · unfold step
        dsimp only
        rw [hrun]
        rfl
      · rw [set_bytes_self]
        exact h
    · refine ⟨.success true, w.set_bytes d b', ?_, ?_⟩
      · unfold step
        dsimp only
        rw [hrun]
        rfl
      · rw [set_bytes_self]
        exact hstands
  | lookup name =>
    obtain ⟨r, hrun, -⟩ := h.lookup_eq name.1
    refine ⟨.sector (r.map fun p => p.1.inode_sector), w, ?_, h⟩
    unfold step
    dsimp only
    rw [hrun]
    rfl
  | scan =>
    obtain ⟨l, hrun, -⟩ := h.scan_spec
    refine ⟨.names l, w, ?_, h⟩
    unfold step
    dsimp only
    rw [hrun]
    rfl
  | outside x content =>
    refine ⟨.none, _, rfl, ?_⟩
    show Stands (records (Function.update w x.1 content d).bytes) M
    rw [Function.update_of_ne (Ne.symm x.2)]
    exact h

/-- A run from a directory that stands for a map. -/
theorem run_stands {d : ℕ} (ops : List (Op d)) : ∀ (w : World) (M : Str → Option ℕ),
    Stands (records (w d).bytes) M → ∃ h w', run w ops = .ok (h, w') ∧ h.map Prod.fst = ops ∧
      Stands (records (w' d).bytes) (h.foldl record M) := by
  induction ops with
  | nil => exact fun w M hM => ⟨[], w, rfl, rfl, hM⟩
  | cons op ops ih =>
    intro w M hM
    obtain ⟨r, w₁, hstep, hM₁⟩ := step_stands hM op
    obtain ⟨h, w', hrun, hops, hM'⟩ := ih w₁ _ hM₁
    refine ⟨(op, r) :: h, w', ?_, by rw [List.map_cons, hops], hM'⟩
    unfold run
    rw [hstep, ok_bind]
    dsimp only
    rw [hrun]
    rfl

/-- Zero bytes are records that are not in use. -/
theorem stands_zero (n : ℕ) : Stands (records (List.replicate n 0)) fun _ => none := by
  have hfree : ∀ (i : ℕ) (e : DirEntry), (records (List.replicate n 0))[i]? = some e →
      e.in_use = 0 := by
    intro i e he
    have hsize := record_size he
    have hbytes : ∀ c ∈ e.bytes, c = 0 := by
      intro c hc
      obtain ⟨k, -, hk⟩ := List.mem_map.mp (List.mem_of_getElem? he)
      rw [← hk] at hc
      exact List.eq_of_mem_replicate (List.mem_of_mem_drop (List.mem_of_mem_take hc))
    have himage : ∀ j, e.image j = 0 := by
      intro j
      unfold DirEntry.image
      rw [List.getD_eq_getElem?_getD]
      cases hj : e.bytes[j]? with
      | none => rfl
      | some c => exact hbytes c (List.mem_of_getElem? hj)
    unfold DirEntry.in_use word
    rw [himage, himage, himage, himage]
    rfl
  have hno : ∀ (i : ℕ) (e : DirEntry), (records (List.replicate n 0))[i]? = some e →
      e.in_use ≠ 1 := by
    intro i e he huse
    rw [hfree i e he] at huse
    cases huse
  refine ⟨fun i e he huse => absurd huse (hno i e he), fun i j e e' he _ huse => ?_, fun name s => ?_⟩
  · exact absurd huse (hno i e he)
  · refine iff_of_false (by simp) ?_
    rintro ⟨i, e, he, hmatch, -⟩
    exact hno i e he hmatch.1

/-- **Directories are finite maps.** From zero bytes every sequence of operations returns, and
the directory is the map of what has been added and not removed since. -/
theorem directory_is_map {d n : ℕ} {w₀ : World} (hzero : (w₀ d).bytes = List.replicate n 0)
    (ops : List (Op d)) : ∃ h w, run w₀ ops = .ok (h, w) ∧ h.map Prod.fst = ops ∧
      IsMap w d (history h) := by
  have hstart : Stands (records (w₀ d).bytes) fun _ => none := by
    rw [hzero]
    exact stands_zero n
  obtain ⟨h, w, hrun, hops, hstands⟩ := run_stands ops w₀ _ hstart
  exact ⟨h, w, hrun, hops, hstands.isMap⟩

/-- Three names are added, the first is removed, and a fourth takes its slot. -/
def reuse : List (Op 1) :=
  [.add ⟨[97], by decide⟩ 5, .add ⟨[98], by decide⟩ 6, .add ⟨[99], by decide⟩ 7,
    .remove ⟨[97], by decide⟩, .add ⟨[100], by decide⟩ 8]

/-- In a directory with room for two entries. -/
theorem directory_is_map_reuse : ∃ h w,
    run (fun _ => ⟨true, List.replicate 48 0⟩) reuse = .ok (h, w) ∧ h.map Prod.fst = reuse ∧
      IsMap w 1 (history h) :=
  directory_is_map rfl reuse

end Pintos.Filesys.DirMap
