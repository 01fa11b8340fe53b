/-
`mkdir` where there is room for it: a new directory, and its entry in the parent.

`free_map_allocate` takes a sector, `inode_create` lays out one block of zeros, one entry goes
into the parent and one, `".."`, into the new directory. Each of the steps keeps the other
inodes of the store, so their entries are found as before, and a path that was resolved still
is (`NewDir.resolve`). What `mkdir` reports is the result of its two lookups alone: it answers
true whether there was room or not.
-/
import Pintos.Filesys.TwoRuns
import Pintos.Filesys.Creation
import Pintos.Filesys.Split

set_option autoImplicit false

namespace Pintos.Filesys

open Pintos.Kernel WordImage

/-! ## A new inode -/

/-- What `free_map_allocate` and `inode_create` leave: one inode more, all of zeros. -/
structure Born (st st' : Store) (x length : ℕ) (isdir : Bool) : Prop where
  inv : st'.Inv
  live : st'.live = x :: st.live
  fresh : x ∉ st.live
  boot : x ≠ FREE_MAP_SECTOR
  root : x ≠ ROOT_DIR_SECTOR
  opened : st'.open_inodes = st.open_inodes
  closed : st.open_inodes x = none
  size : (st'.open_data x).length = length
  flag : (st'.open_data x).isdir = isdir
  zero : ∀ p < length, file_byte st'.fs.disk (st'.open_data x) p = 0
  capacity : st'.fs.capacity = st.fs.capacity
  free : (free_sectors st'.fs).card + 1 + (slotsFrom (bytes_to_sectors length) 0).length =
    (free_sectors st.fs).card
  others : ∀ y, Node st y → SameNode st st' y

section Births

variable {st : Store} {length : ℕ} {isdir : Bool}

/-- A new inode leaves the other ones alone. -/
theorem Added.same_node {s : FileSys} {x y : ℕ} {d : InodeDisk} (hA : Added st s x d) (h : st.Inv)
    (hy : Node st y) : SameNode st (st.add_inode s x) y := by
  refine ⟨by rw [open_data_eq hy.2, open_data_eq hy.2, (hA.keeps y hy.1).data], fun z hz => ?_⟩
  obtain ⟨hused, hboot, hfree⟩ := h.node_sector hy hz
  exact hA.disk z hused hboot hfree

/-- In a directory as the new inode leaves it, a name is searched as before. -/
theorem SameNode.readOk {st' : Store} {y : ℕ} {inode : Inode} (hS : SameNode st st' y) (h' : st'.Inv)
    (hy : Node st y) (hy' : y ∈ st'.live) (hi : st.open_inodes y = some inode)
    (hi' : st'.open_inodes y = some inode) (hcap : st'.fs.capacity = st.fs.capacity)
    (hread : ReadOk st.fs inode.data) (hwhole : dir_entry_size ∣ inode.data.length) :
    ReadOk st'.fs inode.data := by
  have hok := h'.inode y hy'
  rw [inode_data_open hy.2 hi'] at hok
  refine hread.frame hwhole h'.ready.ok.disk hok.map hcap fun τ _ hpos => hS.disk _ ?_
  exact Or.inr ⟨τ, by rwa [inode_data_open hy.2 hi], by rw [inode_data_open hy.2 hi]⟩

/-- Its entries are what they were. -/
theorem SameNode.entry_at {st' : Store} {y : ℕ} (hS : SameNode st st' y) (hy : Node st y) {i : ℕ}
    (hi : i < (st.open_data y).length / dir_entry_size) :
    entry_at st'.fs.disk (st.open_data y) i = entry_at st.fs.disk (st.open_data y) i := by
  have hfit := entry_lt_iff.mp hi
  refine entry_at_congr fun k hk => ?_
  exact node_byte_eq hy hS.disk (p := dir_entry_size * i + k) (by omega)

/-- **A new inode** on a disk with room for it. -/
theorem inode_born (h : st.Inv) (hc : CreateOk (bytes_to_sectors length))
    (hroom : 1 + (slotsFrom (bytes_to_sectors length) 0).length ≤ (free_sectors st.fs).card) :
    ∃ x s₁ s₂, free_map_allocate st.fs 1 = .ok (some x, s₁) ∧
      inode_create s₁ x length isdir = .ok (true, s₂) ∧
      Born st (st.add_inode s₂ x) x length isdir := by
  obtain ⟨x, s₁, htake, hT⟩ := take_sector_spec h.ready.ok (by omega)
  have hleft := hT.free_sectors_card
  have hused : s₁.free_map.bits x = true := hT.bits.mpr (Or.inr rfl)
  have hready : Ready s₁ := hT.ready h.ready
  have hne : ∀ z, st.fs.free_map.bits z = true → z ≠ x := by
    rintro z hz rfl
    rw [hT.free] at hz
    cases hz
  have hx0 : x ≠ FREE_MAP_SECTOR := (hne _ h.ready.boot).symm
  have hfile : ∀ f, s₁.free_map_file = some f → ∀ τ : Slot, τ.pos < f.data.blocks →
      disk_slot s₁.disk f.data τ ≠ x := fun f hf τ hτ => hT.file_slot_ne h.ready.ok hf hτ
  obtain ⟨d, s₂, hcreate, hC, hlen⟩ := inode_create_spec length isdir (hT.fsOk h.ready.ok)
    hused hfile hc (by omega)
  -- the other lemma about the call says what the flag is
  have hisdir : d.isdir = isdir := by
    rcases inode_create_placed length isdir hready hused hx0 hfile hc.max (by omega) with
      herr | ⟨d', s', hcreate', hP, -, hdir, -⟩
    · rw [hcreate] at herr
      cases herr
    · obtain ⟨-, rfl⟩ := Prod.mk.inj (Except.ok.inj (hcreate.symm.trans hcreate'))
      have himage : inode_image d = inode_image d' := hC.image.symm.trans hP.image
      rw [← inode_of_sector_image hC.fits, himage, inode_of_sector_image hP.fits, hdir]
  have hblocks : d.blocks = bytes_to_sectors length := by rw [InodeDisk.blocks, hlen]
  have hA := h.added hT hC.placed (by rw [hblocks]; exact hc.max)
  have hdata : (st.add_inode s₂ x).open_data x = d := by rw [open_data_eq hx0, hA.data]
  refine ⟨x, s₁, s₂, (free_map_allocate_one (by omega)).trans htake, hcreate, hA.inv, rfl, ?_, hx0,
    (hne _ h.root).symm, rfl, hA.closed, by rw [hdata, hlen], by rw [hdata, hisdir], ?_,
    hC.capacity.trans hT.capacity, ?_, ?_⟩
  · exact fun hx => hne x (h.inode x hx).used rfl
  · intro p hp
    have hk : p / 512 < d.blocks := div_lt_blocks (by rwa [hlen])
    rw [hdata]
    change file_byte s₂.disk d p = 0
    rw [file_byte, hC.zero _ hk]
  · have hfree := hC.free
    rw [hblocks] at hfree
    change (free_sectors s₂).card + 1 + _ = _
    omega
  · exact fun y hy => hA.same_node h hy

end Births

/-! ## Names in a store -/

section Names

variable {st st' : Store} {d x y : ℕ} {name : Str}

theorem SameNode.entry_sector (h : SameNode st st' y) (hy : Node st y) (n : Str) :
    entry_sector st' y n = entry_sector st y n := by
  unfold Filesys.entry_sector
  rw [h.find_entry hy]

/-- A sector of the disk fits an entry. -/
theorem Store.Inv.sector_lt (h : st.Inv) (hx : x ∈ st.live) : x < 2 ^ 32 := by
  have hlt : x < st.fs.capacity := h.ready.ok.disk.bits _ (h.inode x hx).used
  have hcap := h.ready.ok.disk.capacity
  omega

/-- **An entry was added**: the new name, and the others as before. -/
theorem Entered.entry_sector (h : Entered st st' d name x) (hx : x < 2 ^ 32)
    (hlen : name.length ≤ NAME_MAX) (hzero : (0 : UInt8) ∉ name)
    (hnew : entry_sector st d name = none) (n : Str) :
    entry_sector st' d n = if n = name then some x else entry_sector st d n := by
  obtain ⟨j, hput⟩ := h.put
  have hname : (new_entry name x).name = name := DirMap.new_entry_name hlen hzero
  unfold Filesys.entry_sector at hnew ⊢
  rw [Option.map_eq_none_iff] at hnew
  by_cases hn : n = name
  · have hself := hput.find_self (DirMap.new_entry_in_use hlen) (by rwa [hname])
    rw [hname] at hself
    rw [if_pos hn, hn, hself, Option.map_some, DirMap.new_entry_sector hx]
  · rw [if_neg hn, hput.find_other (by rw [hname]; exact Ne.symm hn)]

/-- In a file of zeros no name is found. -/
theorem entry_at_zero {disk : ℕ → Sector} {d : InodeDisk} {i : ℕ}
    (hi : i < d.length / dir_entry_size) (h : ∀ p < d.length, file_byte disk d p = 0) :
    (entry_at disk d i).in_use = 0 := by
  have hfit := entry_lt_iff.mp hi
  have hbytes : entry_at disk d i = ⟨List.replicate dir_entry_size 0⟩ := by
    unfold entry_at
    rw [DirEntry.mk.injEq, List.eq_replicate_iff]
    refine ⟨by rw [List.length_map, List.length_range], fun b hb => ?_⟩
    obtain ⟨k, hk, rfl⟩ := List.mem_map.mp hb
    exact h _ (by have hk' := List.mem_range.mp hk; omega)
  rw [hbytes]
  decide

theorem find_entry_zero {disk : ℕ → Sector} {d : InodeDisk}
    (h : ∀ p < d.length, file_byte disk d p = 0) (n : Str) : find_entry disk d n = none := by
  unfold find_entry
  rw [Option.map_eq_none_iff, List.find?_eq_none]
  intro i hi hm
  have hfree := entry_at_zero (List.mem_range.mp hi) h
  exact not_matches_of_free hfree n (by simpa using hm)

/-- The data of an inode of the store is what its sector on the disk holds. -/
theorem Store.Inv.open_data (h : st.Inv) (hy : Node st y) :
    st.open_data y = inode_of_sector (st.fs.disk y) := by
  obtain ⟨himage, hfits⟩ := h.image y hy.1 hy.2
  rw [open_data_eq hy.2, himage, inode_of_sector_image hfits]

end Names

/-! ## `mkdir` from the parent on -/

/-- The length of a directory with one entry more. -/
def add_eof (d : InodeDisk) : ℕ :=
  dir_entry_size * (d.length / dir_entry_size) + dir_entry_size

/-- An entry that is not in use. -/
def HasSlot (s : FileSys) (d : InodeDisk) : Prop :=
  ∃ i < d.length / dir_entry_size, (entry_at s.disk d i).in_use = 0

/-- Two sectors for the new directory, and for the entry in the parent a free one, or the
sectors its growth takes. -/
def MakeSpace (s : FileSys) (d : InodeDisk) : Prop :=
  2 ≤ (free_sectors s).card ∧ (HasSlot s d ∨ add_eof d ≤ 512 * MAX_BLOCKS ∧
    (needs_blocks d.length (add_eof d) →
      2 + (grown_slots d.length (add_eof d)).length ≤ (free_sectors s).card))

/-- If the parent has to grow, it grows between lengths `add_blocks` can handle. -/
def GrowsOk (s : FileSys) (d : InodeDisk) : Prop :=
  HasSlot s d ∨ (needs_blocks d.length (add_eof d) → GrowthOk d.length (add_eof d))

/-- The store with the new directory `x`, called `name` in its parent `p`. -/
structure NewDir (st st' : Store) (p : ℕ) (name : Str) (x : ℕ) : Prop where
  inv : st'.Inv
  live : st'.live = x :: st.live
  fresh : x ∉ st.live
  boot : x ≠ FREE_MAP_SECTOR
  flag : (st'.open_data x).isdir = true
  isdir : ∀ y, Node st y → (st'.open_data y).isdir = (st.open_data y).isdir
  parent : ∀ n, entry_sector st' p n = if n = name then some x else entry_sector st p n
  self : ∀ n, entry_sector st' x n = if n = dot_dot then some p else none
  others : ∀ y, Node st y → y ≠ p → ∀ n, entry_sector st' y n = entry_sector st y n

section Making

variable {st st' : Store} {p x : ℕ} {ip : Inode} {name : Str}

/-- The entry `".."` in a new directory, which is opened for it and closed again. -/
theorem enter_parent_spec (h : st.Inv) (hx : Node st x) (hclosed : st.open_inodes x = none)
    (hp : p < 2 ^ 32) (hsize : (st.open_data x).length = dir_entry_size)
    (hzero : ∀ k < dir_entry_size, file_byte st.fs.disk (st.open_data x) k = 0) :
    ∃ st', enter_parent st x p = .ok st' ∧ st'.Inv ∧ st'.live = st.live ∧
      (st'.open_data x).isdir = (st.open_data x).isdir ∧
      (∀ n, entry_sector st' x n = if n = dot_dot then some p else none) ∧
      ∀ y, Node st y → y ≠ x → SameNode st st' y := by
  obtain ⟨st₁, hopen, hinv₁⟩ := inode_open_spec h hx.1 hx.2
  have hraised := inode_open_raised hopen
  obtain ⟨k, hst₁, hcnt, hrem⟩ := inode_open_cases hopen
  have hk : st₁.open_inodes x = some k := by
    rw [hst₁]
    exact set_inode_self _
  have hk1 : k.open_cnt = 1 := by rw [hcnt, Store.open_cnt, hclosed]
  have hallow : k.deny_write_cnt = 0 := by
    obtain ⟨-, hfresh⟩ := hraised.fresh x k hclosed hk
    rw [hfresh]
  have hkrem : ¬ k.removed = true := fun hr => hrem hr hclosed
  have hdata : k.data = st.open_data x := by
    have hsame := hraised.open_data x
    rwa [Store.open_data, hk] at hsame
  -- one block, so the read behind the end needs no index
  have hsize' : k.data.length = dir_entry_size := by rw [hdata, hsize]
  have hzero' : ∀ q < k.data.length, file_byte st₁.fs.disk k.data q = 0 := by
    rw [hsize', hraised.fs, hdata]
    exact hzero
  have hok := hinv₁.inode x (hraised.live ▸ hx.1)
  rw [inode_data_open hx.2 hk] at hok
  have hread : ReadOk st₁.fs k.data := by
    refine ⟨hinv₁.ready.ok.disk, hok.map, hok.max, ?_, ?_, ?_⟩
    · rw [hsize']
      decide
    · rw [hsize']
      exact fun h122 => absurd h122 (by decide)
    · rw [hsize']
      exact fun h250 => absurd h250 (by decide)
  have hslot : 0 < k.data.length / dir_entry_size := by
    rw [hsize']
    decide
  obtain ⟨st₂, hadd, hE⟩ := @dir_add_spec _ x p k dot_dot hinv₁ hk hallow hread
    (by decide) (by decide) (find_entry_zero hzero' _)
    (Or.inl ⟨0, hslot, entry_at_zero hslot hzero'⟩)
  obtain ⟨data, hk₂⟩ := hE.opened x k hk
  have hclose : st₂.inode_close x = .ok (st₂.set_inode x none) := by
    unfold Store.inode_close
    rw [hk₂]
    dsimp only
    rw [if_pos (by rw [hk1]), if_neg hkrem]
  have hinv := hE.inv.unset_inode hk₂
  -- the data of the nodes is on the disk, open or not
  have hlive₂ : st₂.live = st.live := hE.live.trans hraised.live
  have hopen_data : ∀ y, Node st y → (st₂.set_inode x none).open_data y = st₂.open_data y := by
    intro y hy
    have hy₂ : Node st₂ y := ⟨hlive₂ ▸ hy.1, hy.2⟩
    rw [hinv.open_data hy₂, hE.inv.open_data hy₂]
    rfl
  have hnew : entry_sector st₁ x dot_dot = none := by
    unfold entry_sector
    rw [hraised.open_data, ← hdata, find_entry_zero hzero', Option.map_none]
  refine ⟨st₂.set_inode x none, ?_, hinv, hlive₂, ?_, fun n => ?_, fun y hy hne => ?_⟩
  · unfold enter_parent
    rw [hopen, ok_bind, hadd, ok_bind]
    exact hclose
  · rw [hopen_data x hx, hE.isdir, hraised.open_data]
  · have hsector := hE.entry_sector hp (by decide) (by decide) hnew n
    have hsame : entry_sector (st₂.set_inode x none) x n = entry_sector st₂ x n := by
      unfold entry_sector
      rw [hopen_data x hx]
      rfl
    rw [hsame, hsector]
    congr 1
    unfold entry_sector
    rw [hraised.open_data, ← hdata, find_entry_zero hzero', Option.map_none]
  · have hN₁ : Node st₁ y := ⟨hraised.live ▸ hy.1, hy.2⟩
    have hS := hE.others y hN₁ hne
    refine ⟨by rw [hopen_data y hy, hS.data, hraised.open_data], fun z hz => ?_⟩
    have hz₁ : z ∈ st₁.sectors y := by
      unfold Store.sectors at hz ⊢
      rwa [← open_data_eq hy.2, hraised.fs, hraised.open_data, open_data_eq hy.2]
    have hdisk := hS.disk z hz₁
    rw [hraised.fs] at hdisk
    exact hdisk

/-- **`mkdir` in the parent**, where there is room. -/
theorem make_dir_spec (h : st.Inv) {c : ℕ} (hi : st.open_inodes p = some ip)
    (hdeny : ip.deny_write_cnt = 0) (hquiet : c = p ∨ Quiet ip) (hread : ReadOk st.fs ip.data)
    (hwhole : dir_entry_size ∣ ip.data.length) (hname : name ≠ []) (hlen : name.length ≤ NAME_MAX)
    (hzero : (0 : UInt8) ∉ name) (hnew : find_entry st.fs.disk ip.data name = none)
    (hspace : MakeSpace st.fs ip.data) (hgrows : GrowsOk st.fs ip.data) :
    ∃ x st', make_dir st c (some p) name = .ok st' ∧ NewDir st st' p name x := by
  obtain ⟨-, hplive, hp0, -⟩ := h.opened p ip hi
  have hpnode : Node st p := ⟨hplive, hp0⟩
  have hpdata : st.open_data p = ip.data := by rw [Store.open_data, hi]
  obtain ⟨htwo, hplace⟩ := hspace
  have hslots : (slotsFrom (bytes_to_sectors (1 * dir_entry_size)) 0).length = 1 := by decide
  obtain ⟨x, s₁, s₂, halloc, hcreate, hB⟩ := @inode_born st
    (1 * dir_entry_size) true h ⟨by decide, fun h250 => absurd h250 (by decide)⟩ (by omega)
  have hxp : x ≠ p := fun heq => hB.fresh (heq ▸ hplive)
  have hfree := hB.free
  rw [hslots] at hfree
  set st₁ := st.add_inode s₂ x with hst₁
  have hx₁ : Node st₁ x := ⟨by rw [hB.live]; exact List.mem_cons_self, hB.boot⟩
  have hnode₁ : ∀ y, Node st y → Node st₁ y := fun y hy =>
    ⟨by rw [hB.live]; exact List.mem_cons_of_mem _ hy.1, hy.2⟩
  have hx32 := hB.inv.sector_lt hx₁.1
  -- the parent as it is behind the new inode
  have hi₁ : st₁.open_inodes p = some ip := hi
  have hS := hB.others p hpnode
  have hread₁ : ReadOk st₁.fs ip.data :=
    hS.readOk hB.inv hpnode (hnode₁ p hpnode).1 hi hi₁ hB.capacity hread hwhole
  have hfind : ∀ n, find_entry st₁.fs.disk ip.data n = find_entry st.fs.disk ip.data n := by
    intro n
    have hsame := hS.find_entry hpnode n
    rwa [hS.data, hpdata] at hsame
  have hentry : ∀ i < ip.data.length / dir_entry_size,
      entry_at st₁.fs.disk ip.data i = entry_at st.fs.disk ip.data i := by
    intro i hilt
    rw [← hpdata] at hilt ⊢
    exact hS.entry_at hpnode hilt
  have hroom₁ : AddRoom st₁.fs ip.data := by
    have hslot : HasSlot st.fs ip.data → AddRoom st₁.fs ip.data := by
      rintro ⟨i, hilt, huse⟩
      exact Or.inl ⟨i, hilt, by rw [hentry i hilt, huse]⟩
    rcases hgrows with hhas | hok
    · exact hslot hhas
    rcases hplace with hhas | ⟨hmax, hgrow⟩
    · exact hslot hhas
    refine Or.inr ⟨hmax, fun hneed => ⟨hok hneed, ?_⟩⟩
    have hcard := hgrow hneed
    unfold add_eof at hcard
    omega
  obtain ⟨st₂, hadd, hE⟩ := dir_add_spec (x := x) hB.inv hi₁ hdeny hread₁ hname hlen
    ((hfind name).trans hnew) hroom₁
  obtain ⟨data, hi₂⟩ := hE.opened p ip hi₁
  -- the new directory, which the entry in the parent has left alone
  have hSx := hE.others x hx₁ hxp
  have hx₂ : Node st₂ x := ⟨by rw [hE.live]; exact hx₁.1, hB.boot⟩
  have hsize₂ : (st₂.open_data x).length = dir_entry_size := by
    rw [hSx.data, hB.size, Nat.one_mul]
  have hzero₂ : ∀ k < dir_entry_size, file_byte st₂.fs.disk (st₂.open_data x) k = 0 := by
    intro k hk
    rw [hSx.data, node_byte_eq hx₁ hSx.disk (by rwa [hB.size, Nat.one_mul])]
    exact hB.zero k (by rwa [Nat.one_mul])
  obtain ⟨st₃, henter, hinv₃, hlive₃, hflag₃, hself, hothers⟩ := enter_parent_spec hE.inv hx₂
    (hE.closed x hB.closed) (h.sector_lt hplive) hsize₂ hzero₂
  have hadd_parent : add_parent st₂ x p = .ok st₃ := by
    unfold add_parent
    rw [if_neg hB.boot, henter]
  have hi₃ : st₃.open_inodes p = some { ip with data := data } :=
    (add_parent_frame hadd_parent (Ne.symm hxp)).trans hi₂
  obtain ⟨o, hleave, hap⟩ := leave_parent (c := c) hi₃ hquiet
  set st₄ := st₃.set_inode p o with hst₄
  have hinv₄ : st₄.Inv := by
    obtain ⟨hsec, hlive, -, hcnt⟩ := hinv₃.opened p _ hi₃
    cases ho : o with
    | none =>
      rw [hst₄, ho]
      exact hinv₃.unset_inode hi₃
    | some k =>
      obtain ⟨hapart, hpos⟩ := hap k ho
      rw [hst₄, ho]
      refine hinv₃.set_inode hlive hp0 (hapart.sector.trans hsec) (hpos hcnt) ?_
      rw [hapart.data, inode_data_open hp0 hi₃]
  -- the close has changed no data
  have hlive₄ : st₄.live = x :: st.live :=
    hlive₃.trans (hE.live.trans hB.live)
  have hnode₂ : ∀ y, Node st₁ y → Node st₂ y := fun y hy => ⟨hE.live ▸ hy.1, hy.2⟩
  have hdata₄ : ∀ y, Node st₁ y → st₄.open_data y = st₃.open_data y := by
    intro y hy
    have hlive₁ : st₃.live = st₁.live := hlive₃.trans hE.live
    have hy₃ : Node st₃ y := ⟨hlive₁ ▸ hy.1, hy.2⟩
    rw [hinv₃.open_data hy₃]
    exact hinv₄.open_data hy₃
  have hname₄ : ∀ y, Node st₁ y → ∀ n, entry_sector st₄ y n = entry_sector st₃ y n := by
    intro y hy n
    unfold entry_sector
    rw [hdata₄ y hy]
    rfl
  refine ⟨x, st₄, ?_, hinv₄, hlive₄, hB.fresh, hB.boot, ?_, fun y hy => ?_, fun n => ?_,
    fun n => ?_, fun y hy hne n => ?_⟩
  · have hcreated : dir_create { st with fs := s₁ } (some p) x 1 name = .ok (true, st₃) := by
      have hst₁' : ({ st with
          fs := s₂
          live := x :: st.live } : Store) = st₁ := rfl
      unfold dir_create
      dsimp only
      rw [hcreate, ok_bind]
      dsimp only
      rw [if_neg hB.root, if_pos rfl, hst₁', hadd, ok_bind, hadd_parent]
      rfl
    unfold make_dir
    rw [halloc, ok_bind, Option.getD_some, hcreated]
    exact hleave
  · rw [hdata₄ x hx₁, hflag₃, hSx.data, hB.flag]
  · have hyx : y ≠ x := fun heq => hB.fresh (heq ▸ hy.1)
    rw [hdata₄ y (hnode₁ y hy), (hothers y (hnode₂ y (hnode₁ y hy)) hyx).data]
    by_cases hyp : y = p
    · rw [hyp, hE.isdir, hS.data]
    · rw [(hE.others y (hnode₁ y hy) hyp).data, (hB.others y hy).data]
  · have hpx : p ≠ x := Ne.symm hxp
    have hnew₁ : entry_sector st₁ p name = none := by
      rw [hS.entry_sector hpnode]
      unfold entry_sector
      rw [hpdata, hnew, Option.map_none]
    rw [hname₄ p (hnode₁ p hpnode), (hothers p (hnode₂ p (hnode₁ p hpnode)) hpx).entry_sector
      (hnode₂ p (hnode₁ p hpnode)), hE.entry_sector hx32 hlen hzero hnew₁, hS.entry_sector hpnode]
  · rw [hname₄ x hx₁, hself]
  · have hyx : y ≠ x := fun heq => hB.fresh (heq ▸ hy.1)
    rw [hname₄ y (hnode₁ y hy), (hothers y (hnode₂ y (hnode₁ y hy)) hyx).entry_sector
      (hnode₂ y (hnode₁ y hy)), (hE.others y (hnode₁ y hy) hne).entry_sector (hnode₁ y hy),
      (hB.others y hy).entry_sector hy]

end Making

end Pintos.Filesys
