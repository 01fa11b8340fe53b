/-
Who owns which sector, over every run of the file system.

The invariant says that the sectors of the inodes that exist are distinct, within
an inode and across inodes, and marked used. An operation changes one inode at
most. For every other one it is enough that its index sectors are not written and
its sectors stay marked (`Keeps`); for the changed one, that its sectors were its
own before or were free (`Changed`). `Inv.of_keeps` turns these into the invariant
once, and each operation only supplies them.
-/
import Pintos.Filesys.Store

set_option autoImplicit false

namespace Pintos.Filesys

open Pintos.Kernel WordImage StepSystem

/-! ## The invariant -/

/-- One inode: distinct sectors, marked used, none of them a fixed sector. -/
structure InodeOk (s : FileSys) (x : ℕ) (d : InodeDisk) : Prop where
  map : MapOk s d d.blocks
  max : d.blocks ≤ MAX_BLOCKS
  used : s.free_map.bits x = true
  own : ∀ σ : Slot, σ.pos < d.blocks → disk_slot s.disk d σ ≠ x
  boot : ∀ σ : Slot, σ.pos < d.blocks → disk_slot s.disk d σ ≠ FREE_MAP_SECTOR
  root : ∀ σ : Slot, σ.pos < d.blocks → disk_slot s.disk d σ ≠ ROOT_DIR_SECTOR

theorem InodeOk.sectors_used {s : FileSys} {x : ℕ} {d : InodeDisk} (h : InodeOk s x d) {z : ℕ}
    (hz : z ∈ inode_sectors s.disk x d) : s.free_map.bits z = true := by
  rcases hz with rfl | ⟨σ, hσ, rfl⟩
  · exact h.used
  · exact h.map.used σ hσ

/-- The invariant of a run. -/
structure Store.Inv (st : Store) : Prop where
  ready : Ready st.fs
  free_map : ∃ f, st.fs.free_map_file = some f
  boot : FREE_MAP_SECTOR ∈ st.live
  root : st.fs.free_map.bits ROOT_DIR_SECTOR = true
  opened : ∀ x inode, st.open_inodes x = some inode →
    inode.sector = x ∧ x ∈ st.live ∧ x ≠ FREE_MAP_SECTOR ∧ 0 < inode.open_cnt
  inode : ∀ x ∈ st.live, InodeOk st.fs x (st.inode_data x)
  image : ∀ x ∈ st.live, x ≠ FREE_MAP_SECTOR →
    st.fs.disk x = inode_image (st.inode_data x) ∧ (st.inode_data x).Fits
  across : ∀ x ∈ st.live, ∀ y ∈ st.live, x ≠ y → ∀ z ∈ st.sectors x, z ∉ st.sectors y

section Data

variable {t : Store} {x : ℕ}

theorem inode_data_boot {f : Inode} (hf : t.fs.free_map_file = some f) :
    t.inode_data FREE_MAP_SECTOR = f.data := by
  rw [Store.inode_data, if_pos rfl, hf]

theorem inode_data_open {inode : Inode} (hx : x ≠ FREE_MAP_SECTOR)
    (h : t.open_inodes x = some inode) : t.inode_data x = inode.data := by
  rw [Store.inode_data, if_neg hx, h]

theorem inode_data_closed (hx : x ≠ FREE_MAP_SECTOR) (h : t.open_inodes x = none) :
    t.inode_data x = inode_of_sector (t.fs.disk x) := by
  rw [Store.inode_data, if_neg hx, h]

/-- An inode's data depends on the open list at its sector and, when it is closed,
on the disk there. -/
theorem inode_data_congr {t' : Store} (hf : t'.fs.free_map_file = t.fs.free_map_file)
    (ho : t'.open_inodes x = t.open_inodes x)
    (hd : x ≠ FREE_MAP_SECTOR → t'.fs.disk x = t.fs.disk x)
    (hsome : ∃ f, t.fs.free_map_file = some f) : t'.inode_data x = t.inode_data x := by
  by_cases hx : x = FREE_MAP_SECTOR
  · obtain ⟨f, hf'⟩ := hsome
    subst hx
    rw [inode_data_boot hf', inode_data_boot (hf.trans hf')]
  · cases hi : t.open_inodes x with
    | some inode => rw [inode_data_open hx hi, inode_data_open hx (ho.trans hi)]
    | none => rw [inode_data_closed hx hi, inode_data_closed hx (ho.trans hi), hd hx]

end Data

/-- An open inode is a well-formed file. -/
theorem Store.Inv.fileOk {st : Store} (h : st.Inv) {x : ℕ} {inode : Inode}
    (hi : st.open_inodes x = some inode) : FileOk st.fs inode := by
  obtain ⟨hsec, hlive, hx0, -⟩ := h.opened x inode hi
  have hdata : st.inode_data x = inode.data := inode_data_open hx0 hi
  have hok := h.inode x hlive
  rw [hdata] at hok
  refine ⟨hok.map, hok.max, by rw [hsec]; exact hok.used, by rw [hsec]; exact hok.own, hok.boot, ?_⟩
  intro f hf τ hτ
  -- the free-map file's sectors are those of inode 0
  have hmem : disk_slot st.fs.disk f.data τ ∈ st.sectors FREE_MAP_SECTOR := by
    refine Or.inr ⟨τ, ?_, ?_⟩
    · rw [inode_data_boot hf]
      exact hτ
    · rw [inode_data_boot hf]
  have hout := h.across _ h.boot x hlive hx0.symm _ hmem
  refine ⟨?_, ?_⟩
  · intro he
    exact hout (Or.inl (he.trans hsec))
  · intro σ hσ he
    refine hout (Or.inr ⟨σ, ?_, ?_⟩)
    · rw [hdata]
      exact hσ
    · rw [hdata, he]

/-- A sector of an inode holds no free-map contents, the free map's own data
blocks apart. -/
theorem Store.Inv.not_freeMapData {st : Store} (h : st.Inv) {x z : ℕ} (hx : x ∈ st.live)
    (hx0 : x ≠ FREE_MAP_SECTOR) (hz : z ∈ st.sectors x) : ¬ FreeMapData st.fs z := by
  rintro ⟨f, hf, k, hk, rfl⟩
  refine h.across x hx _ h.boot hx0 _ hz (Or.inr ⟨.data k, ?_, ?_⟩)
  · rw [inode_data_boot hf]
    exact hk
  · rw [inode_data_boot hf]

theorem Store.Inv.not_freeMapData_index {st : Store} (h : st.Inv) {x : ℕ} (hx : x ∈ st.live)
    {τ : Slot} (hτ : τ.IsIndex) (hpos : τ.pos < (st.inode_data x).blocks) :
    ¬ FreeMapData st.fs (disk_slot st.fs.disk (st.inode_data x) τ) := by
  by_cases hx0 : x = FREE_MAP_SECTOR
  · obtain ⟨f, hf⟩ := h.free_map
    subst hx0
    rw [inode_data_boot hf] at hpos ⊢
    exact Pintos.Filesys.not_freeMapData_index hf (h.ready.ok.file f hf) τ hτ hpos
  · exact h.not_freeMapData hx hx0 (Or.inr ⟨τ, hpos, rfl⟩)

theorem Store.Inv.own_not_freeMapData {st : Store} (h : st.Inv) {x : ℕ} (hx : x ∈ st.live)
    (hx0 : x ≠ FREE_MAP_SECTOR) : ¬ FreeMapData st.fs x :=
  h.not_freeMapData hx hx0 (Or.inl rfl)

/-! ## What an operation owes -/

/-- Inode `y` is as it was: same data, index sectors not written, sectors still
marked. -/
structure Keeps (st st' : Store) (y : ℕ) : Prop where
  data : st'.inode_data y = st.inode_data y
  index : ∀ τ : Slot, τ.IsIndex → τ.pos < (st.inode_data y).blocks →
    st'.fs.disk (disk_slot st.fs.disk (st.inode_data y) τ)
      = st.fs.disk (disk_slot st.fs.disk (st.inode_data y) τ)
  used : ∀ z ∈ st.sectors y, st'.fs.free_map.bits z = true
  own : y ≠ FREE_MAP_SECTOR → st'.fs.disk y = st.fs.disk y

theorem Keeps.slot {st st' : Store} {y : ℕ} (h : Keeps st st' y) {σ : Slot}
    (hσ : σ.pos < (st.inode_data y).blocks) :
    disk_slot st'.fs.disk (st.inode_data y) σ = disk_slot st.fs.disk (st.inode_data y) σ :=
  disk_slot_congr h.index hσ

theorem Keeps.sectors {st st' : Store} {y : ℕ} (h : Keeps st st' y) :
    st'.sectors y = st.sectors y := by
  ext z
  simp only [Store.sectors, inode_sectors, Set.mem_ofPred_eq, h.data]
  constructor
  · rintro (rfl | ⟨σ, hσ, rfl⟩)
    · exact Or.inl rfl
    · exact Or.inr ⟨σ, hσ, h.slot hσ⟩
  · rintro (rfl | ⟨σ, hσ, rfl⟩)
    · exact Or.inl rfl
    · exact Or.inr ⟨σ, hσ, (h.slot hσ).symm⟩

theorem Keeps.inodeOk {st st' : Store} {y : ℕ} (h : Keeps st st' y)
    (hok : InodeOk st.fs y (st.inode_data y)) : InodeOk st'.fs y (st'.inode_data y) := by
  rw [h.data]
  have hslot := fun (σ : Slot) (hσ : σ.pos < (st.inode_data y).blocks) => h.slot hσ
  refine ⟨⟨?_, ?_⟩, hok.max, h.used y (Or.inl rfl), ?_, ?_, ?_⟩
  · intro σ τ hσ hτ he
    rw [hslot σ hσ, hslot τ hτ] at he
    exact hok.map.inj σ τ hσ hτ he
  · intro σ hσ
    rw [hslot σ hσ]
    exact h.used _ (Or.inr ⟨σ, hσ, rfl⟩)
  · intro σ hσ
    rw [hslot σ hσ]
    exact hok.own σ hσ
  · intro σ hσ
    rw [hslot σ hσ]
    exact hok.boot σ hσ
  · intro σ hσ
    rw [hslot σ hσ]
    exact hok.root σ hσ

/-- Inode `x` is new or has grown: well formed, on the disk as it is in memory, and
every sector of it was its own before or was free. -/
structure Changed (st st' : Store) (x : ℕ) : Prop where
  inode : InodeOk st'.fs x (st'.inode_data x)
  image : x ≠ FREE_MAP_SECTOR →
    st'.fs.disk x = inode_image (st'.inode_data x) ∧ (st'.inode_data x).Fits
  sectors : ∀ z ∈ st'.sectors x,
    st.fs.free_map.bits z = false ∨ x ∈ st.live ∧ z ∈ st.sectors x

/-- **The rule for operations.** An operation that changes inode `x` at most keeps
the invariant. -/
theorem Store.Inv.of_keeps {st st' : Store} (h : st.Inv) (x : ℕ) (hready : Ready st'.fs)
    (hfile : st'.fs.free_map_file = st.fs.free_map_file)
    (hboot : FREE_MAP_SECTOR ∈ st'.live)
    (hroot : st'.fs.free_map.bits ROOT_DIR_SECTOR = true)
    (hopened : ∀ y inode, st'.open_inodes y = some inode → inode.sector = y ∧ y ∈ st'.live ∧
      y ≠ FREE_MAP_SECTOR ∧ 0 < inode.open_cnt)
    (hlive : ∀ y ∈ st'.live,
      y ∈ st.live ∧ Keeps st st' y ∨ y = x ∧ Changed st st' y) : st'.Inv := by
  -- a kept inode and the changed one share no sector
  have hmixed : ∀ y z, y ∈ st.live → Keeps st st' y → Changed st st' x → y ≠ x →
      z ∈ st'.sectors y → z ∉ st'.sectors x := by
    intro y z hy hk hc hne hz hzx
    rw [hk.sectors] at hz
    rcases hc.sectors z hzx with hfree | ⟨hxl, hzx'⟩
    · have := (h.inode y hy).sectors_used hz
      rw [hfree] at this
      cases this
    · exact h.across y hy x hxl hne z hz hzx'
  refine ⟨hready, by rw [hfile]; exact h.free_map, hboot, hroot, hopened, ?_, ?_, ?_⟩
  · intro y hy
    rcases hlive y hy with ⟨hyl, hk⟩ | ⟨-, hc⟩
    · exact hk.inodeOk (h.inode y hyl)
    · exact hc.inode
  · intro y hy hy0
    rcases hlive y hy with ⟨hyl, hk⟩ | ⟨-, hc⟩
    · rw [hk.data, hk.own hy0]
      exact h.image y hyl hy0
    · exact hc.image hy0
  · intro y hy y' hy' hne z hz
    rcases hlive y hy with ⟨hyl, hk⟩ | ⟨rfl, hc⟩ <;> rcases hlive y' hy' with ⟨hyl', hk'⟩ | ⟨rfl, hc'⟩
    · rw [hk.sectors] at hz
      rw [hk'.sectors]
      exact h.across y hyl y' hyl' hne z hz
    · exact hmixed y z hyl hk hc' hne hz
    · intro hz'
      exact hmixed y' z hyl' hk' hc hne.symm hz' hz
    · exact absurd rfl hne

/-- An operation on the open list alone keeps every inode whose data it keeps. -/
theorem Keeps.of_fs {st : Store} (t : Store) (h : st.Inv) (hfs : t.fs = st.fs) {y : ℕ}
    (hy : y ∈ st.live) (hdata : t.inode_data y = st.inode_data y) : Keeps st t y where
  data := hdata
  index τ _ _ := by rw [hfs]
  used z hz := by
    rw [hfs]
    exact (h.inode y hy).sectors_used hz
  own _ := by rw [hfs]

/-! ## Opening, removing, closing -/

section OpenList

variable {st : Store} {x : ℕ}

theorem set_inode_self {t : Store} (inode : Option Inode) :
    (t.set_inode x inode).open_inodes x = inode := Function.update_self _ _ _

theorem set_inode_eq_self {t : Store} {inode : Inode} (h : t.open_inodes x = some inode) :
    t.set_inode x (some inode) = t := by
  rw [Store.set_inode, ← h, Function.update_eq_self]

theorem set_inode_of_ne {t : Store} {y : ℕ} (inode : Option Inode) (h : y ≠ x) :
    (t.set_inode x inode).open_inodes y = t.open_inodes y := Function.update_of_ne h _ _

/-- Storing an open inode with the data it had. -/
theorem Store.Inv.set_inode (h : st.Inv) (hx : x ∈ st.live) (hx0 : x ≠ FREE_MAP_SECTOR)
    {inode : Inode} (hsec : inode.sector = x) (hcnt : 0 < inode.open_cnt)
    (hdata : inode.data = st.inode_data x) :
    (st.set_inode x (some inode)).Inv := by
  have hsame : ∀ y, (st.set_inode x (some inode)).inode_data y = st.inode_data y := by
    intro y
    by_cases hy : y = x
    · subst hy
      rw [inode_data_open hx0 (set_inode_self _), hdata]
    · exact inode_data_congr rfl (set_inode_of_ne _ hy) (fun _ => rfl) h.free_map
  refine h.of_keeps x h.ready rfl h.boot h.root ?_ ?_
  · intro y i hi
    by_cases hy : y = x
    · subst hy
      rw [set_inode_self] at hi
      obtain rfl := Option.some.inj hi
      exact ⟨hsec, hx, hx0, hcnt⟩
    · rw [set_inode_of_ne _ hy] at hi
      exact h.opened y i hi
  · intro y hy
    exact Or.inl ⟨hy, Keeps.of_fs (st.set_inode x (some inode)) h rfl hy (hsame y)⟩

/-- Taking an inode off the open list: its data is then read from the disk, where
it is the same. -/
theorem Store.Inv.unset_inode (h : st.Inv) {inode : Inode} (hi : st.open_inodes x = some inode) :
    (st.set_inode x none).Inv := by
  obtain ⟨-, hx, hx0, -⟩ := h.opened x inode hi
  have hsame : ∀ y, (st.set_inode x none).inode_data y = st.inode_data y := by
    intro y
    by_cases hy : y = x
    · subst hy
      obtain ⟨himg, hfits⟩ := h.image y hx hx0
      rw [inode_data_closed hx0 (set_inode_self _)]
      change inode_of_sector (st.fs.disk y) = _
      rw [himg, inode_of_sector_image hfits]
    · exact inode_data_congr rfl (set_inode_of_ne _ hy) (fun _ => rfl) h.free_map
  refine h.of_keeps x h.ready rfl h.boot h.root ?_ ?_
  · intro y i hi
    by_cases hy : y = x
    · subst hy
      rw [set_inode_self] at hi
      cases hi
    · rw [set_inode_of_ne _ hy] at hi
      exact h.opened y i hi
  · intro y hy
    exact Or.inl ⟨hy, Keeps.of_fs (st.set_inode x none) h rfl hy (hsame y)⟩

theorem inode_open_spec (h : st.Inv) (hx : x ∈ st.live) (hx0 : x ≠ FREE_MAP_SECTOR) :
    ∃ st', st.inode_open x = .ok st' ∧ st'.Inv := by
  cases hi : st.open_inodes x with
  | some inode =>
    obtain ⟨hsec, -, -, hcnt⟩ := h.opened x inode hi
    refine ⟨st.set_inode x (some { inode with open_cnt := inode.open_cnt + 1 }),
      by simp only [Store.inode_open, hi], ?_⟩
    exact h.set_inode hx hx0 hsec (Nat.succ_pos _) (inode_data_open hx0 hi).symm
  | none =>
    have hlt : x < st.fs.capacity := h.ready.ok.disk.bits _ (h.inode x hx).used
    refine ⟨st.set_inode x (some ⟨x, 1, false, 0, inode_of_sector (st.fs.disk x)⟩),
      by simp only [Store.inode_open, hi, read_inode,
        disk_read_eq hlt h.ready.ok.disk.capacity, ok_bind, pure_eq_ok], ?_⟩
    exact h.set_inode hx hx0 rfl Nat.one_pos (inode_data_closed hx0 hi).symm

theorem inode_remove_spec (h : st.Inv) (hx : st.open_inodes x ≠ none) :
    ∃ st', st.inode_remove x = .ok st' ∧ st'.Inv := by
  obtain ⟨inode, hi⟩ := Option.ne_none_iff_exists'.mp hx
  obtain ⟨hsec, hlive, hx0, hcnt⟩ := h.opened x inode hi
  refine ⟨st.set_inode x (some { inode with removed := true }),
    by simp only [Store.inode_remove, hi], ?_⟩
  exact h.set_inode hlive hx0 hsec hcnt (inode_data_open hx0 hi).symm

end OpenList

/-! ## Writing -/

/-- **A write** keeps the invariant, and every other inode as it was, contents
included. -/
theorem inode_write_spec {st : Store} {x : ℕ} {w : WriteReq} (h : st.Inv)
    (hx : st.open_inodes x ≠ none) (hw : StoreOk st (.write x w)) :
    ∃ st', st.inode_write x w = .ok st' ∧ st'.Inv ∧ st'.live = st.live ∧
      ∀ y ∈ st.live, y ≠ x → Keeps st st' y ∧
        (y ≠ FREE_MAP_SECTOR → ∀ z ∈ st.sectors y, st'.fs.disk z = st.fs.disk z) := by
  obtain ⟨inode, hi⟩ := Option.ne_none_iff_exists'.mp hx
  obtain ⟨hsec, hxl, hx0, hcnt⟩ := h.opened x inode hi
  have hF := h.fileOk hi
  have hdata : st.inode_data x = inode.data := inode_data_open hx0 hi
  by_cases hdeny : inode.deny_write_cnt = 0
  swap
  · refine ⟨st, ?_, h, rfl, fun y hy _ => ⟨Keeps.of_fs st h rfl hy rfl, fun _ _ _ => rfl⟩⟩
    -- a denied write stores the inode it found
    simp only [Store.inode_write, hi, inode_write_at, inode_write_at_with, if_pos hdeny, ok_bind,
      pure_eq_ok, set_inode_eq_self hi]
  obtain ⟨hmax, hgrow⟩ := hw inode hi
  obtain ⟨inode', s', hrun, -, hK, -, -⟩ :=
    inode_write_at_spec w.buffer h.ready hF hdeny hmax hgrow
  have hsec' : inode'.sector = x := by rw [hK.rest]; exact hsec
  set st' : Store := { st.set_inode x (some inode') with fs := s' } with hst'
  have hdata' : st'.inode_data x = inode'.data := by
    rw [inode_data_open (t := st') hx0 (Function.update_self _ _ _)]
  -- a sector of another inode that holds no free-map contents is not written
  have hframe : ∀ y ∈ st.live, y ≠ x → ∀ z ∈ st.sectors y, z ≠ FREE_MAP_SECTOR →
      ¬ FreeMapData st.fs z → s'.disk z = st.fs.disk z := by
    intro y hy hne z hz hz0 hzF
    have hout := h.across y hy x hxl hne z hz
    refine hK.frame z ((h.inode y hy).sectors_used hz) hz0 ?_ hzF ?_
    · rintro rfl
      exact hout (Or.inl hsec)
    · intro σ hσ he
      refine hout (Or.inr ⟨σ, ?_, ?_⟩)
      · rw [hdata]
        exact hσ
      · rw [hdata, he]
  have hz0 : ∀ y ∈ st.live, y ≠ FREE_MAP_SECTOR → ∀ z ∈ st.sectors y, z ≠ FREE_MAP_SECTOR := by
    rintro y hy hy0 z (rfl | ⟨σ, hσ, rfl⟩)
    · exact hy0
    · exact (h.inode y hy).boot σ hσ
  have hdisk : ∀ y ∈ st.live, y ≠ x → y ≠ FREE_MAP_SECTOR → ∀ z ∈ st.sectors y,
      s'.disk z = st.fs.disk z := fun y hy hne hy0 z hz =>
    hframe y hy hne z hz (hz0 y hy hy0 z hz) (h.not_freeMapData hy hy0 hz)
  have hkeeps : ∀ y ∈ st.live, y ≠ x → Keeps st st' y := by
    intro y hy hne
    refine ⟨?_, ?_, ?_, ?_⟩
    · refine inode_data_congr hK.file ?_ ?_ h.free_map
      · exact Function.update_of_ne hne _ _
      · intro hy0
        exact hdisk y hy hne hy0 y (Or.inl rfl)
    · intro τ hτ hpos
      exact hframe y hy hne _ (Or.inr ⟨τ, hpos, rfl⟩) ((h.inode y hy).boot τ hpos)
        (h.not_freeMapData_index hy hτ hpos)
    · intro z hz
      exact hK.bits z ((h.inode y hy).sectors_used hz)
    · intro hy0
      exact hdisk y hy hne hy0 y (Or.inl rfl)
  refine ⟨st', ?_, ?_, rfl, fun y hy hne => ⟨hkeeps y hy hne, hdisk y hy hne⟩⟩
  · simp only [Store.inode_write, hi, hrun, ok_bind, pure_eq_ok]
    rfl
  · refine h.of_keeps x hK.ready hK.file h.boot (hK.bits _ h.root) ?_ ?_
    · intro y i hyi
      by_cases hy : y = x
      · subst hy
        rw [hst'] at hyi
        obtain rfl := Option.some.inj ((set_inode_self (t := st) _).symm.trans hyi)
        rw [hK.rest]
        exact ⟨hsec, hxl, hx0, hcnt⟩
      · exact h.opened y i ((set_inode_of_ne (t := st) _ hy).symm.trans hyi)
    · intro y hy
      by_cases hne : y = x
      · right
        subst hne
        have hFk := hK.fileOk
        -- slots of the grown file: old ones, or ones that were free
        have hslots : ∀ σ : Slot, σ.pos < inode'.data.blocks →
            st.fs.free_map.bits (disk_slot s'.disk inode'.data σ) = false ∨
              σ.pos < inode.data.blocks ∧
                disk_slot s'.disk inode'.data σ = disk_slot st.fs.disk inode.data σ := by
          intro σ hσ
          by_cases hb : σ.pos < inode.data.blocks
          · exact Or.inr ⟨hb, hK.old σ hb⟩
          · exact Or.inl (hK.fresh σ (Nat.not_lt.mp hb) hσ)
        refine ⟨rfl, ⟨?_, ?_, ?_⟩⟩
        · rw [hdata']
          refine ⟨hFk.map, hFk.max, ?_, ?_, hFk.boot, ?_⟩
          · rw [← hsec']
            exact hFk.used
          · rw [← hsec']
            exact hFk.own
          · intro σ hσ he
            rcases hslots σ hσ with hfree | ⟨hb, hold⟩
            · rw [he, h.root] at hfree
              cases hfree
            · have := (h.inode y hxl).root σ (by rw [hdata]; exact hb)
              rw [hdata] at this
              exact this (hold.symm.trans he)
        · intro _
          obtain ⟨himg, hfits⟩ := h.image y hxl hx0
          rw [hdata] at himg hfits
          rw [hdata']
          refine ⟨?_, hK.fits hfits⟩
          have := hK.image (by rw [hsec]; exact himg)
          rwa [hsec] at this
        · rintro z (rfl | ⟨σ, hσ, rfl⟩)
          · exact Or.inr ⟨hxl, Or.inl rfl⟩
          · rw [hdata'] at hσ ⊢
            rcases hslots σ hσ with hfree | ⟨hb, hold⟩
            · exact Or.inl hfree
            · right
              refine ⟨hxl, Or.inr ⟨σ, ?_, ?_⟩⟩
              · rw [hdata]
                exact hb
              · rw [hdata]
                exact hold
      · exact Or.inl ⟨hy, hkeeps y hy hne⟩

/-! ## Creating -/

/-- An operation that writes no sector in use, sector 0 and free-map contents apart, and frees
none keeps every inode. -/
theorem Keeps.of_frame {st : Store} (t : Store) (h : st.Inv) {y : ℕ} (hy : y ∈ st.live)
    (hfile : t.fs.free_map_file = st.fs.free_map_file)
    (hopen : t.open_inodes y = st.open_inodes y)
    (hdisk : ∀ z ∈ st.sectors y, z ≠ FREE_MAP_SECTOR → ¬ FreeMapData st.fs z →
      t.fs.disk z = st.fs.disk z)
    (hbits : ∀ z ∈ st.sectors y, t.fs.free_map.bits z = true) : Keeps st t y := by
  have hown : y ≠ FREE_MAP_SECTOR → t.fs.disk y = st.fs.disk y := fun hy0 =>
    hdisk y (Or.inl rfl) hy0 (h.own_not_freeMapData hy hy0)
  exact ⟨inode_data_congr hfile hopen hown h.free_map,
    fun τ hτ hpos => hdisk _ (Or.inr ⟨τ, hpos, rfl⟩) ((h.inode y hy).boot τ hpos)
      (h.not_freeMapData_index hy hτ hpos), hbits, hown⟩

/-- The free-map file's slots survive such an operation. -/
theorem Store.Inv.file_slot {st : Store} {s' : FileSys} (h : st.Inv)
    (hdisk : ∀ z ∈ st.sectors FREE_MAP_SECTOR, z ≠ FREE_MAP_SECTOR → ¬ FreeMapData st.fs z →
      s'.disk z = st.fs.disk z) {f : Inode} (hf : st.fs.free_map_file = some f) {τ : Slot}
    (hτ : τ.pos < f.data.blocks) :
    disk_slot s'.disk f.data τ = disk_slot st.fs.disk f.data τ := by
  refine disk_slot_congr (fun υ hυ hpos => hdisk _ ?_ ?_ ?_) hτ
  · refine Or.inr ⟨υ, ?_, ?_⟩
    · rw [inode_data_boot hf]
      exact hpos
    · rw [inode_data_boot hf]
  · exact h.ready.file_boot f hf υ hpos
  · exact Pintos.Filesys.not_freeMapData_index hf (h.ready.ok.file f hf) υ hυ hpos

/-- The store with a new inode in a sector that was taken for it. -/
def Store.add_inode (st : Store) (fs : FileSys) (sector : ℕ) : Store :=
  { st with fs := fs, live := sector :: st.live }

/-- What a new inode leaves of the store it is added to. -/
structure Added (st : Store) (fs : FileSys) (sector : ℕ) (d : InodeDisk) : Prop where
  inv : (st.add_inode fs sector).Inv
  fresh : st.fs.free_map.bits sector = false
  used : fs.free_map.bits sector = true
  closed : st.open_inodes sector = none
  data : (st.add_inode fs sector).inode_data sector = d
  bits : ∀ z, st.fs.free_map.bits z = true → fs.free_map.bits z = true
  keeps : ∀ y ∈ st.live, Keeps st (st.add_inode fs sector) y
  disk : ∀ z, st.fs.free_map.bits z = true → z ≠ FREE_MAP_SECTOR → ¬ FreeMapData st.fs z →
    fs.disk z = st.fs.disk z

/-- **A new inode** keeps the invariant. -/
theorem Store.Inv.added {st : Store} (h : st.Inv) {sector : ℕ} {s₁ s₂ : FileSys} {d : InodeDisk}
    (hT : Took st.fs s₁ sector) (hP : Placed s₁ s₂ sector d) (hmax : d.blocks ≤ MAX_BLOCKS) :
    Added st s₂ sector d := by
  have hused₁ : ∀ z, st.fs.free_map.bits z = true → s₁.free_map.bits z = true := fun z hz =>
    hT.bits.mpr (Or.inl hz)
  have hsecused : s₁.free_map.bits sector = true := hT.bits.mpr (Or.inr rfl)
  have hne : ∀ z, st.fs.free_map.bits z = true → z ≠ sector := by
    rintro z hz rfl
    rw [hT.free] at hz
    cases hz
  have hfile₂ : s₂.free_map_file = st.fs.free_map_file := hP.file.trans hT.same.file
  have hdisk : ∀ z, st.fs.free_map.bits z = true → z ≠ FREE_MAP_SECTOR → ¬ FreeMapData st.fs z →
      s₂.disk z = st.fs.disk z := by
    intro z hz hz0 hzF
    rw [hP.frame z (hused₁ z hz) (hne z hz) hz0 (by rwa [hT.same.freeMapData h.ready.ok]),
      hT.same.disk z hzF]
  have hbits : ∀ z, st.fs.free_map.bits z = true → s₂.free_map.bits z = true := fun z hz =>
    hP.bits z (hused₁ z hz)
  -- the new inode's sector was free, so no inode is open there
  have hclosed : st.open_inodes sector = none := by
    by_contra hsome
    obtain ⟨i, hi⟩ := Option.ne_none_iff_exists'.mp hsome
    exact hne sector (h.inode sector (h.opened sector i hi).2.1).used rfl
  have hsec0 : sector ≠ FREE_MAP_SECTOR := (hne _ h.ready.boot).symm
  have hdata : (st.add_inode s₂ sector).inode_data sector = d := by
    rw [inode_data_closed (t := st.add_inode s₂ sector) hsec0 hclosed]
    change inode_of_sector (s₂.disk sector) = d
    rw [hP.image, inode_of_sector_image hP.fits]
  have hready : Ready s₂ := by
    refine ⟨hP.ok, hP.arrays, hbits _ h.ready.boot, ?_⟩
    intro g hg τ hτ
    rw [hfile₂] at hg
    rw [h.file_slot (fun z hz => hdisk z ((h.inode _ h.boot).sectors_used hz)) hg hτ]
    exact h.ready.file_boot g hg τ hτ
  have hkeeps : ∀ y ∈ st.live, Keeps st (st.add_inode s₂ sector) y := fun y hy =>
    Keeps.of_frame (st.add_inode s₂ sector) h hy hfile₂ rfl
      (fun z hz => hdisk z ((h.inode y hy).sectors_used hz))
      (fun z hz => hbits z ((h.inode y hy).sectors_used hz))
  refine ⟨?_, hT.free, hP.bits _ hsecused, hclosed, hdata, hbits, hkeeps, hdisk⟩
  refine h.of_keeps sector hready hfile₂ (List.mem_cons_of_mem _ h.boot) (hbits _ h.root) ?_ ?_
  · intro y i hi
    obtain ⟨h1, h2, h3⟩ := h.opened y i hi
    exact ⟨h1, List.mem_cons_of_mem _ h2, h3⟩
  · intro y hy
    rcases List.mem_cons.mp hy with rfl | hy
    swap
    · exact Or.inl ⟨hy, hkeeps y hy⟩
    right
    have hslotne : ∀ σ : Slot, σ.pos < d.blocks → ∀ z, s₁.free_map.bits z = true →
        disk_slot s₂.disk d σ ≠ z := by
      rintro σ hσ z hz rfl
      rw [hP.fresh σ hσ] at hz
      cases hz
    refine ⟨rfl, ⟨?_, ?_, ?_⟩⟩
    · rw [hdata]
      exact ⟨hP.map, hmax, hP.bits _ hsecused,
        fun σ hσ => hslotne σ hσ _ hsecused, fun σ hσ => hslotne σ hσ _ (hused₁ _ h.ready.boot),
        fun σ hσ => hslotne σ hσ _ (hused₁ _ h.root)⟩
    · intro _
      rw [hdata]
      exact ⟨hP.image, hP.fits⟩
    · rintro z (rfl | ⟨σ, hσ, rfl⟩)
      · exact Or.inl hT.free
      · left
        rw [hdata] at hσ ⊢
        change st.fs.free_map.bits (disk_slot s₂.disk d σ) = false
        by_contra hbit
        exact hslotne σ hσ _ (hused₁ _ (by simpa using hbit)) rfl

/-- The sector taken for a new inode is none of the free map's. -/
theorem Took.file_slot_ne {s s₁ : FileSys} {sector : ℕ} (hT : Took s s₁ sector) (hok : FsOk s)
    {f : Inode} (hf : s₁.free_map_file = some f) {τ : Slot} (hτ : τ.pos < f.data.blocks) :
    disk_slot s₁.disk f.data τ ≠ sector := by
  rw [hT.same.file] at hf
  rw [hT.same.file_slot hok hf hτ]
  rintro rfl
  have hused := (hok.file f hf).map.used τ hτ
  rw [hT.free] at hused
  cases hused

/-- **A creation** keeps the invariant. -/
theorem create_spec {st : Store} {length : ℕ} {isdir : Bool} (h : st.Inv)
    (hc : StoreOk st (.create length isdir)) :
    ∃ st', st.create length isdir = .ok st' ∧ st'.Inv := by
  by_cases hfull : (free_sectors st.fs).card = 0
  · refine ⟨st, ?_, h⟩
    simp only [Store.create, free_map_allocate_full hfull, ok_bind, pure_eq_ok]
  obtain ⟨hco, hroom⟩ := hc.resolve_left hfull
  obtain ⟨sector, s₁, htake, hT⟩ := take_sector_spec h.ready.ok (by omega)
  have hleft := hT.free_sectors_card
  obtain ⟨d, s₂, hcreate, hC, hlen⟩ := inode_create_spec length isdir (hT.fsOk h.ready.ok)
    (hT.bits.mpr (Or.inr rfl)) (fun f hf τ hτ => hT.file_slot_ne h.ready.ok hf hτ) hco (by omega)
  have hblocks : d.blocks = bytes_to_sectors length := by rw [InodeDisk.blocks, hlen]
  refine ⟨st.add_inode s₂ sector, ?_, (h.added hT hC.placed (by rw [hblocks]; exact hco.max)).inv⟩
  simp only [Store.create, free_map_allocate_one (Nat.pos_of_ne_zero hfull), htake, ok_bind,
    hcreate, if_true, pure_eq_ok]
  rfl

/-! ## The last close of a removed inode -/

/-- The slots of a file of `n < 250` blocks, in the order `inode_close` releases
them. -/
def released_slots (n : ℕ) : List Slot :=
  (List.range (min n 122)).map Slot.data ++
    (if 122 < n then Slot.indirect :: (List.range (n - 122)).map (fun k => Slot.data (k + 122))
    else [])

theorem mem_released_slots {n : ℕ} {σ : Slot} (hσ : σ ∈ released_slots n) : σ.pos < n := by
  simp only [released_slots, List.mem_append, List.mem_map, List.mem_range] at hσ
  rcases hσ with ⟨k, hk, rfl⟩ | hσ
  · simp only [Slot.pos]
    omega
  · by_cases h1 : 122 < n
    · rw [if_pos h1] at hσ
      simp only [List.mem_cons, List.mem_map, List.mem_range] at hσ
      rcases hσ with rfl | ⟨k, hk, rfl⟩
      · exact h1
      · simp only [Slot.pos]
        omega
    · rw [if_neg h1] at hσ
      cases hσ

theorem nodup_released_slots (n : ℕ) : (released_slots n).Nodup := by
  have hinj : Function.Injective Slot.data := fun a b h => by injection h
  have hinj' : Function.Injective (fun k => Slot.data (k + 122)) := fun a b h => by
    injection h with h
    omega
  rw [released_slots, List.nodup_append]
  refine ⟨List.nodup_range.map hinj, ?_, ?_⟩
  · by_cases h1 : 122 < n
    · rw [if_pos h1, List.nodup_cons]
      exact ⟨by simp, List.nodup_range.map hinj'⟩
    · rw [if_neg h1]
      exact List.nodup_nil
  · intro a ha b hb he
    subst he
    simp only [List.mem_map, List.mem_range] at ha
    obtain ⟨k, hk, rfl⟩ := ha
    by_cases h1 : 122 < n
    · rw [if_pos h1] at hb
      simp only [List.mem_cons, reduceCtorEq, List.mem_map, List.mem_range, Slot.data.injEq,
        false_or] at hb
      obtain ⟨l, -, hl⟩ := hb
      omega
    · rw [if_neg h1] at hb
      cases hb

/-- `inode_close` gives back the file's sectors, and behind an indirect block the
entry after the file's last. -/
theorem released_sectors_eq (s : FileSys) {d : InodeDisk} (hB : d.blocks < 250) :
    released_sectors s d = (released_slots d.blocks).map (disk_slot s.disk d) ++
      (if 122 < d.blocks then [word (s.disk d.indirect_block) (d.blocks - 122)] else []) := by
  have hdirect : (List.range (min d.blocks 122)).map d.direct_block
      = ((List.range (min d.blocks 122)).map Slot.data).map (disk_slot s.disk d) := by
    rw [List.map_map]
    apply List.map_congr_left
    intro k hk
    rw [List.mem_range] at hk
    simp only [Function.comp_apply, disk_slot, if_pos (show k < 122 by omega)]
  rw [released_sectors, released_slots, List.map_append, hdirect, List.append_assoc]
  congr 1
  by_cases h1 : 122 < d.blocks
  · have hind : (List.range (d.blocks - 122)).map (word (s.disk d.indirect_block))
        = ((List.range (d.blocks - 122)).map (fun k => Slot.data (k + 122))).map
            (disk_slot s.disk d) := by
      rw [List.map_map]
      apply List.map_congr_left
      intro k hk
      rw [List.mem_range] at hk
      simp only [Function.comp_apply, disk_slot]
      rw [if_neg (by omega), if_pos (by omega), Nat.add_sub_cancel]
    rw [if_pos h1, if_pos h1, if_pos h1, List.range_succ, List.map_append, List.map_singleton,
      hind, List.map_cons, List.cons_append, List.cons_append, List.nil_append, disk_slot]
  · rw [if_neg h1, if_neg h1, if_neg h1]
    rfl

/-- The sectors of a removed inode can be released, and no other inode has one of
them. -/
theorem Store.Inv.releasable {st : Store} (h : st.Inv) {x : ℕ} {inode f : Inode}
    (hi : st.open_inodes x = some inode) (hf : st.fs.free_map_file = some f)
    (hc : CloseOk st inode.data) :
    Releasable st.fs f (released_sectors st.fs inode.data) ∧
      ∀ z ∈ released_sectors st.fs inode.data, z ≠ ROOT_DIR_SECTOR ∧
        ∀ y ∈ st.live, y ≠ x → z ∉ st.sectors y := by
  obtain ⟨-, hxl, hx0, -⟩ := h.opened x inode hi
  have hdata : st.inode_data x = inode.data := inode_data_open hx0 hi
  have hok := h.inode x hxl
  rw [hdata] at hok
  have hB : inode.data.blocks < 250 := by
    rcases hc with hc | hc
    · omega
    · exact hc.1
  have hslot : ∀ σ : Slot, σ.pos < inode.data.blocks →
      disk_slot st.fs.disk inode.data σ ∈ st.sectors x := fun σ hσ =>
    Or.inr ⟨σ, by rw [hdata]; exact hσ, by rw [hdata]⟩
  -- each released sector is a slot of the file, or the stray entry
  have hmem : ∀ z ∈ released_sectors st.fs inode.data,
      (∃ σ : Slot, σ.pos < inode.data.blocks ∧ z = disk_slot st.fs.disk inode.data σ) ∨
        st.fs.free_map.bits z = true ∧ z ≠ ROOT_DIR_SECTOR ∧ ∀ y ∈ st.live, z ∉ st.sectors y := by
    intro z hz
    rw [released_sectors_eq _ hB, List.mem_append, List.mem_map] at hz
    rcases hz with ⟨σ, hσ, rfl⟩ | hz
    · exact Or.inl ⟨σ, mem_released_slots hσ, rfl⟩
    · by_cases h1 : 122 < inode.data.blocks
      · rw [if_pos h1, List.mem_singleton] at hz
        subst hz
        exact Or.inr (hc.resolve_left (by omega)).2
      · rw [if_neg h1] at hz
        cases hz
  refine ⟨⟨?_, ?_, ?_⟩, ?_⟩
  · rw [released_sectors_eq _ hB, List.nodup_append]
    refine ⟨(nodup_released_slots _).map_on ?_, ?_, ?_⟩
    · intro σ hσ τ hτ he
      exact hok.map.inj σ τ (mem_released_slots hσ) (mem_released_slots hτ) he
    · split_ifs <;> simp
    · rintro z hz z' hz' rfl
      rw [List.mem_map] at hz
      obtain ⟨σ, hσ, rfl⟩ := hz
      by_cases h1 : 122 < inode.data.blocks
      · rw [if_pos h1, List.mem_singleton] at hz'
        refine (hc.resolve_left (by omega)).2.2.2 x hxl ?_
        rw [← hz']
        exact hslot σ (mem_released_slots hσ)
      · rw [if_neg h1] at hz'
        cases hz'
  · intro z hz
    rcases hmem z hz with ⟨σ, hσ, rfl⟩ | ⟨hu, -, -⟩
    · exact hok.map.used σ hσ
    · exact hu
  · intro z hz τ hτ he
    have hz0 : z ∈ st.sectors FREE_MAP_SECTOR := by
      refine Or.inr ⟨τ, ?_, ?_⟩
      · rw [inode_data_boot hf]
        exact hτ
      · rw [inode_data_boot hf, he]
    rcases hmem z hz with ⟨σ, hσ, rfl⟩ | ⟨-, -, hout⟩
    · exact h.across x hxl _ h.boot hx0 _ (hslot σ hσ) hz0
    · exact hout _ h.boot hz0
  · intro z hz
    rcases hmem z hz with ⟨σ, hσ, rfl⟩ | ⟨-, hroot, hout⟩
    · exact ⟨hok.root σ hσ, fun y hy hne => h.across x hxl y hy hne.symm _ (hslot σ hσ)⟩
    · exact ⟨hroot, fun y hy _ => hout y hy⟩

/-- **A close** keeps the invariant. -/
theorem inode_close_spec {st : Store} {x : ℕ} (h : st.Inv) (hx : st.open_inodes x ≠ none)
    (hc : StoreOk st (.close x)) : ∃ st', st.inode_close x = .ok st' ∧ st'.Inv := by
  obtain ⟨inode, hi⟩ := Option.ne_none_iff_exists'.mp hx
  obtain ⟨hsec, hxl, hx0, hcnt⟩ := h.opened x inode hi
  have hdata : st.inode_data x = inode.data := inode_data_open hx0 hi
  by_cases hlast : inode.open_cnt - 1 = 0
  · by_cases hrem : inode.removed = true
    · obtain ⟨f, hf⟩ := h.free_map
      have hclose := hc inode hi (by omega) hrem
      obtain ⟨hrel, hout⟩ := h.releasable hi hf hclose
      have hB : inode.data.blocks < 250 := by
        rcases hclose with hclose | hclose
        · omega
        · exact hclose.1
      obtain ⟨s', hrun, hR⟩ := release_blocks_spec h.ready.ok hf hB
        (fun h1 => (h.fileOk hi).not_freeMapData (σ := .indirect) h1) hrel
      have hbits : ∀ z, st.fs.free_map.bits z = true →
          z ∉ released_sectors st.fs inode.data → s'.free_map.bits z = true := by
        intro z hz hn
        rw [hR.map, clear_bits_of_not_mem hn]
        exact hz
      set st' : Store := ⟨s', Function.update st.open_inodes x none,
        st.live.filter (fun y => y ≠ x)⟩ with hst'
      have hmem : ∀ y, y ∈ st'.live ↔ y ∈ st.live ∧ y ≠ x := by
        intro y
        simp [hst']
      have hbootR : FREE_MAP_SECTOR ∉ released_sectors st.fs inode.data := fun hz =>
        (hout _ hz).2 _ h.boot hx0.symm (Or.inl rfl)
      refine ⟨st', ?_, ?_⟩
      · simp only [Store.inode_close, hi, if_pos hlast, if_pos hrem, Store.set_inode, hrun,
          ok_bind, pure_eq_ok]
        rfl
      have hready : Ready s' := by
        refine ⟨hR.ok, ?_, hbits _ h.ready.boot hbootR, ?_⟩
        · rw [hR.same.rest]
          exact ⟨h.ready.arrays.indirect, h.ready.arrays.parent, h.ready.arrays.doubly⟩
        · intro g hg τ hτ
          rw [hR.same.file] at hg
          rw [hR.same.file_slot h.ready.ok hg hτ]
          exact h.ready.file_boot g hg τ hτ
      refine h.of_keeps x hready hR.same.file ((hmem _).mpr ⟨h.boot, hx0.symm⟩)
        (hbits _ h.root (fun hz => (hout _ hz).1 rfl)) ?_ ?_
      · intro y i hyi
        by_cases hy : y = x
        · subst hy
          rw [hst'] at hyi
          simp only [Function.update_self] at hyi
          cases hyi
        · rw [hst'] at hyi
          simp only [Function.update_of_ne hy] at hyi
          obtain ⟨h1, h2, h3⟩ := h.opened y i hyi
          exact ⟨h1, (hmem y).mpr ⟨h2, hy⟩, h3⟩
      · intro y hy
        obtain ⟨hyl, hne⟩ := (hmem y).mp hy
        left
        refine ⟨hyl, Keeps.of_frame st' h hyl hR.same.file (Function.update_of_ne hne _ _) ?_ ?_⟩
        · intro z _ _ hzF
          exact hR.same.disk z hzF
        · intro z hz
          exact hbits z ((h.inode y hyl).sectors_used hz) (fun hzr => (hout z hzr).2 y hyl hne hz)
    · refine ⟨st.set_inode x none, ?_, h.unset_inode hi⟩
      simp only [Store.inode_close, hi, if_pos hlast, if_neg hrem]
  · refine ⟨st.set_inode x (some { inode with open_cnt := inode.open_cnt - 1 }), ?_, ?_⟩
    · simp only [Store.inode_close, hi, if_neg hlast]
    · exact h.set_inode hxl hx0 hsec (Nat.pos_of_ne_zero hlast) hdata.symm

end Pintos.Filesys
