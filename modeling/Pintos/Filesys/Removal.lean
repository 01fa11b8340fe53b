/-
What `dir_remove` does to the free map.

Erasing the entry is a write inside the directory, which takes no sector and gives none back. The
last close of the removed inode gives back what its deallocation releases: the bits of those
sectors are clear afterwards, and every other bit is as it was (`Clears`).
-/
import Pintos.Filesys.Deletion
import Pintos.Filesys.Entries
import Pintos.Filesys.GrowthCount

set_option autoImplicit false

namespace Pintos.Filesys

open Pintos.Kernel WordImage

/-! ## The bits that are cleared -/

/-- The bits that were set are set, but for the sectors of `l`. -/
def Clears (l : List ℕ) (s s' : FileSys) : Prop :=
  ∀ z, s'.free_map.bits z = true ↔ s.free_map.bits z = true ∧ z ∉ l

section Maps

variable {s s' s'' : FileSys} {l l' : List ℕ}

theorem Clears.of_map (h : s'.free_map = s.free_map) : Clears [] s s' := by
  intro z
  rw [h]
  simp

theorem Clears.trans (h : Clears l s s') (h' : Clears l' s' s'') : Clears (l ++ l') s s'' := by
  intro z
  rw [h' z, h z, List.mem_append, not_or, and_assoc]

/-- Writing the map back does not change it. -/
theorem bitmap_write_map {b : Bool} (h : bitmap_write s = .ok (b, s')) :
    s'.free_map = s.free_map := by
  unfold bitmap_write at h
  cases hf : s.free_map_file with
  | none =>
    rw [hf] at h
    cases h
  | some f =>
    rw [hf] at h
    obtain ⟨⟨n, f', s₁⟩, hwrite, h⟩ := bind_eq_ok h
    obtain ⟨-, rfl⟩ := Prod.mk.inj (Except.ok.inj h)
    -- the file cannot grow: its write has no way to add blocks
    obtain ⟨hsame, hgrow⟩ := free_map_of_inode_write_at_with hwrite
    refine hsame fun hadds => ?_
    obtain ⟨f₁, s₂, herror, -⟩ := hgrow hadds
    cases herror

/-- **`free_map_release`** of one sector clears its bit. -/
theorem free_map_release_clears {n : ℕ} (h : free_map_release s n 1 = .ok s') :
    Clears [n] s s' := by
  obtain ⟨u, hassert, h⟩ := bind_eq_ok h
  obtain ⟨hle, -⟩ := ASSERT_eq_ok hassert
  obtain ⟨b, hset, h⟩ := bind_eq_ok h
  obtain ⟨⟨w, s₁⟩, hwrite, h⟩ := bind_eq_ok h
  obtain rfl := Except.ok.inj h
  rw [bitmap_set_multiple_eq _ hle] at hset
  obtain rfl := Except.ok.inj hset
  intro z
  rw [bitmap_write_map hwrite, List.mem_singleton]
  dsimp only
  by_cases hz : n ≤ z ∧ z < n + 1
  · rw [if_pos hz]
    exact iff_of_false (by simp) fun hand => hand.2 (by omega)
  · rw [if_neg hz]
    exact ⟨fun hbit => ⟨hbit, by omega⟩, fun hand => hand.1⟩

end Maps

namespace Deletion

open Traced

/-- What is cleared are the sectors that the calls name. -/
def Exact (s : FileSys) (x : Frees FileSys) : Prop := ∀ s', x.result = .ok s' → Clears x.trace s s'

section Exactly

variable {s : FileSys} {α : Type}

theorem exact_pure : Exact s (pure s) := by
  intro s' h
  obtain rfl := Except.ok.inj h
  exact Clears.of_map rfl

theorem exact_stop {e : Fault} : Exact s (stop e) := fun _ h => by cases h

theorem exact_release (n : ℕ) : Exact s (free_map_release s n) :=
  fun _ h => free_map_release_clears h

theorem exact_bind {x : Frees FileSys} {f : FileSys → Frees FileSys} (hx : Exact s x)
    (hf : ∀ s₁, Exact s₁ (f s₁)) : Exact s (x >>= f) := by
  intro s' h
  rw [result_bind] at h
  obtain ⟨s₁, h₁, h₂⟩ := bind_eq_ok h
  have hx₁ : x = ⟨x.trace, .ok s₁⟩ := by rw [← h₁]
  rw [bind_of_ok hx₁]
  exact (hx s₁ h₁).trans (hf s₁ s' h₂)

theorem exact_silently {x : Res α} {f : α → Frees FileSys} (hf : ∀ a, Exact s (f a)) :
    Exact s (silently x >>= f) := by
  intro s' h
  rw [result_bind] at h
  obtain ⟨a, h₁, h₂⟩ := bind_eq_ok h
  have hx : silently x = ⟨[], .ok a⟩ := by rw [silently, ← h₁, silently_result]
  rw [bind_of_ok hx, List.nil_append]
  exact hf a s' h₂

theorem exact_release_all (l : List ℕ) : ∀ s : FileSys, Exact s (release_all l s) := by
  induction l with
  | nil => exact fun s => exact_pure
  | cons n l ih => exact fun s => exact_bind (exact_release n) ih

theorem exact_release_children (b : ℕ → ℕ) (m cnt : ℕ) : ∀ (i : ℕ) (s : FileSys),
    Exact s (release_children b m cnt i s) := by
  induction cnt with
  | zero => exact fun i s => exact_pure
  | succ cnt ih =>
    intro i s
    unfold release_children
    by_cases hi : 128 ≤ i
    · rw [if_pos hi]
      exact exact_stop
    · rw [if_neg hi]
      apply exact_silently
      intro c
      apply exact_bind (exact_release _)
      intro s₁
      exact exact_bind (exact_release_all _ s₁) (ih (i + 1))

theorem exact_release_indirect (d : InodeDisk) (n : ℕ) (s : FileSys) :
    Exact s (release_indirect d n s) := by
  unfold release_indirect
  by_cases hn : DIRECT_LEN < n
  · rw [if_pos hn]
    apply exact_silently
    intro b
    apply exact_bind (exact_release _)
    intro s₁
    apply exact_bind (exact_release_all _ s₁)
    intro s₂
    by_cases hover : 128 ≤ n - DIRECT_LEN
    · rw [if_pos hover]
      exact exact_stop
    · rw [if_neg hover]
      exact exact_pure
  · rw [if_neg hn]
    exact exact_pure

theorem exact_release_doubly (d : InodeDisk) (n : ℕ) (s : FileSys) :
    Exact s (release_doubly d n s) := by
  unfold release_doubly
  by_cases hn : DIRECT_LEN + 128 < n
  · rw [if_pos hn]
    apply exact_silently
    intro b
    apply exact_bind (exact_release _)
    exact exact_release_children _ _ _ 0
  · rw [if_neg hn]
    exact exact_pure

/-- **The deallocation** clears what it releases. -/
theorem exact_release_blocks (s : FileSys) (d : InodeDisk) : Exact s (release_blocks s d) := by
  unfold release_blocks
  apply exact_bind (exact_release_all _ s)
  intro s₁
  exact exact_bind (exact_release_indirect d _ s₁) (exact_release_doubly d _)

end Exactly

/-- **The last close** of a removed inode: the file has fewer than 250 blocks, or the call does not
return. -/
theorem LastClose.clears {st st' : Store} {x : ℕ} {inode f : Inode} (h : LastClose st x inode f)
    (hrun : st.inode_close x = .ok st') : inode.data.blocks < 250 ∧
      Clears (released_sectors st.fs inode.data) st.fs st'.fs := by
  rw [← inode_close_result, h.result_eq] at hrun
  obtain ⟨fs, hfs, hret⟩ := bind_eq_ok hrun
  obtain rfl := Except.ok.inj hret
  have hB : inode.data.blocks < 250 := by
    by_contra hover
    rw [h.overrun (Nat.not_lt.mp hover)] at hfs
    cases hfs
  have hclears := exact_release_blocks st.fs inode.data fs hfs
  refine ⟨hB, ?_⟩
  rw [released_sectors_eq _ hB]
  by_cases h122 : 122 < inode.data.blocks
  · rwa [if_pos h122, ← h.indirect h122 hB]
  · obtain ⟨s', -, hall⟩ := h.direct (Nat.not_lt.mp h122)
    rw [hall] at hclears
    rwa [if_neg h122, List.append_nil]

end Deletion

/-! ## `dir_remove` -/

section Remove

variable {st st' st₁ : Store} {d y : ℕ} {ip inode : Inode} {name : Str} {b : Bool}

/-- Only the last close of a removed inode touches the file system. -/
theorem inode_close_fs (hi : st.open_inodes y = some inode) (h : st.inode_close y = .ok st') :
    st'.fs = st.fs ∨ inode.open_cnt - 1 = 0 ∧ inode.removed = true := by
  unfold Store.inode_close at h
  rw [hi] at h
  dsimp only at h
  by_cases hlast : inode.open_cnt - 1 = 0
  swap
  · rw [if_neg hlast] at h
    obtain rfl := Except.ok.inj h
    exact Or.inl rfl
  rw [if_pos hlast] at h
  by_cases hremoved : inode.removed = true
  · exact Or.inr ⟨hlast, hremoved⟩
  · rw [if_neg hremoved] at h
    obtain rfl := Except.ok.inj h
    exact Or.inl rfl

/-- The close of an inode that was just opened does not. -/
theorem close_of_open_fs (hcnt : Counted st) (hopen : st.inode_open y = .ok st₁)
    (hclose : st₁.inode_close y = .ok st') : st'.fs = st₁.fs := by
  obtain ⟨inode, rfl, hone, hremoved⟩ := inode_open_cases hopen
  refine (inode_close_fs (set_inode_self _) hclose).resolve_right fun hlast => ?_
  obtain ⟨i, hi⟩ := Option.ne_none_iff_exists'.mp (hremoved hlast.2)
  have hpos := hcnt y i hi
  rw [Store.open_cnt, hi] at hone
  dsimp only at hone
  omega

/-- The last close of a removed inode of the store. -/
theorem Store.Inv.lastClose (h : st.Inv) (hi : st.open_inodes y = some inode)
    (hlast : inode.open_cnt = 1) (hremoved : inode.removed = true) :
    ∃ f, Deletion.LastClose st y inode f := by
  obtain ⟨f, hf⟩ := h.free_map
  obtain ⟨-, hlive, hy0, -⟩ := h.opened y inode hi
  have hdata : st.inode_data y = inode.data := inode_data_open hy0 hi
  have hmap := h.inode y hlive
  rw [hdata] at hmap
  refine ⟨f, hi, hlast, hremoved, h.ready.ok, hf, hmap, fun σ τ hσ hτ he => ?_, h.ready.boot,
    h.root⟩
  refine h.across y hlive FREE_MAP_SECTOR h.boot hy0 _ (Or.inr ⟨σ, ?_, rfl⟩) (Or.inr ⟨τ, ?_, ?_⟩)
  · rwa [hdata]
  · rwa [inode_data_boot hf]
  · rw [inode_data_boot hf, hdata, he]

/-- A write inside the file, in the store. -/
theorem write_at_inside (h : st.Inv) (hd : st.open_inodes d = some ip)
    (hdeny : ip.deny_write_cnt = 0) {w : WriteReq} (hw : w.eof ≤ ip.data.length) {n : ℕ}
    (hrun : st.write_at d w = .ok (n, st')) :
    n = w.size ∧ st'.fs.free_map = st.fs.free_map ∧ st'.Inv ∧
      ∀ y, Node st y → y ≠ d → SameNode st st' y ∧ st'.open_inodes y = st.open_inodes y := by
  obtain ⟨-, hlive, hd0, -⟩ := h.opened d ip hd
  have hmax := (h.inode d hlive).max
  rw [inode_data_open hd0 hd] at hmax
  unfold InodeDisk.blocks bytes_to_sectors at hmax
  have hneed : ¬ needs_blocks ip.data.length w.eof := by
    rw [needs_blocks_iff]
    unfold bytes_to_sectors
    omega
  have hok : StoreOk st (.write d w) := by
    intro i hi
    obtain rfl := Option.some.inj (hd.symm.trans hi)
    exact ⟨by omega, fun hneeds => absurd hneeds hneed⟩
  obtain ⟨inode', s', hwrite, hW⟩ := write_at_spec h hd hdeny hok
  obtain ⟨hn, hst⟩ := Prod.mk.inj (Except.ok.inj (hrun.symm.trans hwrite))
  refine ⟨hn, ?_, hst ▸ hW.inv, fun y hy hne => ⟨hst ▸ hW.others y hy hne, ?_⟩⟩
  · obtain ⟨i, hderef, hrun⟩ := bind_eq_ok hrun
    obtain rfl := Option.some.inj (hd.symm.trans (deref_eq_ok.mp hderef))
    obtain ⟨r, hcall, hrun⟩ := bind_eq_ok hrun
    obtain ⟨-, rfl⟩ := Prod.mk.inj (Except.ok.inj hrun)
    exact (free_map_of_inode_write_at_with hcall).1 fun hadds => hneed hadds.2.2
  · rw [hst]
    exact set_inode_of_ne (t := st) _ hne

/-- The sectors that a deallocation would release depend on the inode's sectors. -/
theorem SameNode.released_sectors (hS : SameNode st st' y) (hy : Node st y) :
    released_sectors st'.fs (st'.open_data y) = released_sectors st.fs (st.open_data y) := by
  rw [hS.data]
  unfold Filesys.released_sectors
  by_cases h122 : 122 < (st.open_data y).blocks
  · have hsec : (st.open_data y).indirect_block ∈ st.sectors y := by
      refine Or.inr ⟨.indirect, ?_, ?_⟩
      · rwa [← open_data_eq hy.2]
      · rw [← open_data_eq hy.2]
        rfl
    rw [if_pos h122, if_pos h122, hS.disk _ hsec]
  · rw [if_neg h122, if_neg h122]

/-- What a removal does to the free map: nothing, or the inode `y` was closed, and its
deallocation cleared the bits of what it releases. -/
def Reclaims (st st' : Store) (y : ℕ) : Prop :=
  st'.fs.free_map = st.fs.free_map ∨ (st.open_data y).blocks < 250 ∧
    Clears (released_sectors st.fs (st.open_data y)) st.fs st'.fs

/-- `dir_remove`, from the entry on, in a directory that takes writes: `y` is its inode, which
the call has opened. -/
theorem remove_entry_reclaims (h : st.Inv) (hd : st.open_inodes d = some ip)
    (hdeny : ip.deny_write_cnt = 0) {e : DirEntry} {ofs : ℕ}
    (hofs : ofs + dir_entry_size ≤ ip.data.length)
    (hi : st.open_inodes e.inode_sector = some inode)
    (hrun : remove_entry st d e ofs = .ok (b, st')) :
    st'.fs.free_map = st.fs.free_map ∨ inode.open_cnt = 1 ∧
      (e.inode_sector ≠ d → Reclaims st st' e.inode_sector) := by
  set y := e.inode_sector with hy_def
  obtain ⟨-, hlive, hy0, hpos⟩ := h.opened y inode hi
  have hy : Node st y := ⟨hlive, hy0⟩
  obtain ⟨⟨n, stw⟩, hwrite, hrun⟩ := bind_eq_ok hrun
  obtain ⟨rfl, hmap, hinv, hothers⟩ := @write_at_inside st stw d ip h hd hdeny
    ⟨e.erase.image, dir_entry_size, ofs⟩ hofs n hwrite
  have hcnt := (write_at_gains hwrite).cnt y
  dsimp only at hrun
  rw [if_neg (by simp)] at hrun
  obtain ⟨str, hremove, hrun⟩ := bind_eq_ok hrun
  obtain ⟨stc, hclose, hrun⟩ := bind_eq_ok hrun
  obtain ⟨-, rfl⟩ := Prod.mk.inj (Except.ok.inj hrun)
  rw [← hy_def] at hremove hclose
  cases hiw : stw.open_inodes y with
  | none =>
    unfold Store.inode_remove at hremove
    rw [hiw] at hremove
    cases hremove
  | some iw =>
    have hsame : iw.open_cnt = inode.open_cnt := by
      rwa [Store.open_cnt, Store.open_cnt, hiw, hi] at hcnt
    obtain ⟨str', hremove', hinvr⟩ := inode_remove_spec hinv (x := y) (by
      rw [hiw]
      exact Option.some_ne_none iw)
    obtain rfl := Except.ok.inj (hremove.symm.trans hremove')
    unfold Store.inode_remove at hremove
    rw [hiw] at hremove
    obtain rfl := Except.ok.inj hremove
    rcases inode_close_fs (set_inode_self _) hclose with hfs | ⟨hlast, -⟩
    · left
      rw [hfs]
      exact hmap
    right
    have hone : inode.open_cnt = 1 := by
      dsimp only at hlast
      omega
    refine ⟨hone, fun hyd => Or.inr ?_⟩
    obtain ⟨hS, -⟩ := hothers y hy hyd
    obtain ⟨f, hL⟩ := hinvr.lastClose (set_inode_self _) (hsame.trans hone) rfl
    obtain ⟨hB, hclears⟩ := hL.clears hclose
    have hdata : iw.data = stw.open_data y := by rw [Store.open_data, hiw]
    change iw.data.blocks < 250 at hB
    change Clears (released_sectors stw.fs iw.data) stw.fs stc.fs at hclears
    rw [hdata, hS.released_sectors hy] at hclears
    rw [hdata, hS.data] at hB
    refine ⟨hB, fun z => ?_⟩
    rw [hclears z, hmap]

/-- **`dir_remove`** and the free map: nothing is cleared but what the deallocation of the removed
inode releases, and that only if nobody else has the inode open. -/
theorem dir_remove_reclaims (h : st.Inv) (hd : st.open_inodes d ≠ none)
    (hnode : ∀ y, entry_sector st d name = some y → Node st y)
    (hrun : dir_remove st d name = .ok (b, st')) :
    st'.fs.free_map = st.fs.free_map ∨ ∃ y, entry_sector st d name = some y ∧
      st.open_inodes y = none ∧ Reclaims st st' y := by
  obtain ⟨ip, hip⟩ := Option.ne_none_iff_exists'.mp hd
  obtain ⟨-, hdlive, hd0, -⟩ := h.opened d ip hip
  have hdata : st.open_data d = ip.data := by rw [Store.open_data, hip]
  obtain ⟨r, hlookup, hrun⟩ := bind_eq_ok hrun
  cases r with
  | none =>
    obtain ⟨-, rfl⟩ := Prod.mk.inj (Except.ok.inj hrun)
    exact Or.inl rfl
  | some r =>
    obtain ⟨e, ofs⟩ := r
    have hread : Readable st.fs ip.data := hdata ▸ h.readable ⟨hdlive, hd0⟩
    have hfind := (hread.lookup_returns hip hlookup).symm
    have hentry : entry_sector st d name = some e.inode_sector := by
      rw [entry_sector, hdata, hfind]
      rfl
    have hofs : ofs + dir_entry_size ≤ ip.data.length := by
      obtain ⟨i, hi, he, -⟩ := find_entry_matches hfind
      obtain ⟨-, rfl⟩ := Prod.mk.inj he
      exact entry_lt_iff.mp hi
    have hy := hnode _ hentry
    have hcnt : Counted st := fun z i hz => (h.opened z i hz).2.2.2
    obtain ⟨st₁, hopen, hrun⟩ := bind_eq_ok hrun
    have hraised := inode_open_raised hopen
    have hinv₁ := h.raised hraised (inode_open_within (Within.refl st) hy hopen)
    obtain ⟨i₁, hi₁, hcnt₁, -⟩ := inode_open_cases hopen
    obtain ⟨n, -, hip₁⟩ := hraised.kept d ip hip
    have hgo : ∀ {b : Bool}, remove_entry st₁ d e ofs = .ok (b, st') →
        st'.fs.free_map = st.fs.free_map ∨ ∃ y, entry_sector st d name = some y ∧
          st.open_inodes y = none ∧ Reclaims st st' y := by
      intro b hremove
      by_cases hdeny : ip.deny_write_cnt = 0
      swap
      · -- a denied write leaves the entry, and the inode is closed again
        have hdenied : Denies st₁ d := ⟨_, hip₁, hdeny⟩
        unfold remove_entry at hremove
        rw [write_at_denied hdenied, ok_bind] at hremove
        dsimp only at hremove
        rw [if_pos (by decide)] at hremove
        obtain ⟨st₂, hclose, hremove⟩ := bind_eq_ok hremove
        obtain ⟨-, rfl⟩ := Prod.mk.inj (Except.ok.inj hremove)
        left
        rw [close_of_open_fs hcnt hopen hclose, hraised.fs]
      have hself : st₁.open_inodes e.inode_sector = some i₁ := by
        rw [hi₁]
        exact set_inode_self _
      rcases remove_entry_reclaims hinv₁ hip₁ hdeny hofs hself hremove with hmap | ⟨hone, hrec⟩
      · exact Or.inl (by rw [hmap, hraised.fs])
      -- the count was zero before the call
      have hclosed : st.open_inodes e.inode_sector = none := by
        cases hold : st.open_inodes e.inode_sector with
        | none => rfl
        | some i =>
          have hpos := hcnt _ i hold
          rw [Store.open_cnt, hold] at hcnt₁
          dsimp only at hcnt₁
          omega
      have hne : e.inode_sector ≠ d := by
        intro heq
        rw [heq, hip] at hclosed
        cases hclosed
      refine Or.inr ⟨_, hentry, hclosed, ?_⟩
      have hreclaims := hrec hne
      unfold Reclaims at hreclaims ⊢
      rwa [hraised.fs, hraised.open_data] at hreclaims
    obtain ⟨inode, -, hrun⟩ := bind_eq_ok hrun
    by_cases hisdir : inode.data.isdir = true
    · rw [if_pos hisdir] at hrun
      obtain ⟨q, -, hrun⟩ := bind_eq_ok hrun
      by_cases hfull : q.1.isSome = true
      · rw [if_pos hfull] at hrun
        obtain ⟨st₂, hclose, hrun⟩ := bind_eq_ok hrun
        obtain ⟨-, rfl⟩ := Prod.mk.inj (Except.ok.inj hrun)
        left
        rw [close_of_open_fs hcnt hopen hclose, hraised.fs]
      · rw [if_neg hfull] at hrun
        exact hgo hrun
    · rw [if_neg hisdir] at hrun
      exact hgo hrun

end Remove

end Pintos.Filesys
