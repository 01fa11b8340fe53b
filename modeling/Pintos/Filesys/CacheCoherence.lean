/-
When the buffer cache is coherent.

What a sector holds is the data of the slot that is tagged with it, or else what is on disk. The
tags are kept by every call: a slot with a holder is the only one with its sector, and both look-ups
find it. What the sectors hold is kept unless a slot is taken over: the evicted slot may be clean
although it was put to, and a put of part of a sector forgets the rest.
-/
import Pintos.Filesys.Cache

set_option autoImplicit false

namespace Pintos.Filesys.Cache

open Pintos.Filesys

/-! ## What is promised -/

/-- A sector of the disk, as `select_sector` asserts. -/
def OnDisk (fs : FileSys) (sec : ℕ) : Prop := sec < fs.capacity ∧ sec < 2 ^ 28

/-- A call, with the inode id and the position left to the sector. -/
inductive Call
  | put (sec sector_ofs : ℕ) (src : List UInt8)
  | get (sec sector_ofs chunk_size : ℕ)

/-- The sector of a call. -/
def Call.sec : Call → ℕ
  | .put sec _ _ => sec
  | .get sec _ _ => sec

/-- A call copies bytes of a sector of the disk. -/
def Call.Valid (fs : FileSys) : Call → Prop
  | .put sec ofs src => OnDisk fs sec ∧ ofs + src.length ≤ 512
  | .get sec ofs n => OnDisk fs sec ∧ ofs + n ≤ 512

/-- A call of a run in which `own` says with which inode id and position a sector is used. -/
def exec (own : ℕ → ℤ × ℤ) (st : CacheState) : Call → Res (List UInt8 × CacheState)
  | .put sec ofs src => do
    let st ← inode_put_cache st src sec (own sec).1 (own sec).2 ofs
    return ([], st)
  | .get sec ofs n => inode_get_cache st sec (own sec).1 (own sec).2 ofs n

/-- What the sectors should hold after a call. -/
def effect (m : ℕ → Sector) : Call → ℕ → Sector
  | .put sec ofs src => Function.update m sec (fun off =>
      if ofs ≤ off ∧ off < ofs + src.length then src.getD (off - ofs) 0 else m sec off)
  | .get _ _ _ => m

/-- The state after `cache_init` with a disk. -/
def start (fs : FileSys) : CacheState :=
  cache_init ⟨fun _ => ⟨0, false, false, fun _ => 0, 0, 0⟩, 0, fs⟩

/-- In this state a get of any bytes would return what the sectors should hold, and no two slots
hold the same sector. -/
def Coherent (own : ℕ → ℤ × ℤ) (st : CacheState) (m : ℕ → Sector) : Prop :=
  (∀ sec ofs n, OnDisk st.fs sec → ofs + n ≤ 512 → ∃ st',
      inode_get_cache st sec (own sec).1 (own sec).2 ofs n
        = .ok ((List.range n).map (fun j => m sec (ofs + j)), st')) ∧
    ∀ i j, (st.buffer_cache i).sector = (st.buffer_cache j).sector →
      (st.buffer_cache i).sector ≠ NO_SECTOR → i = j

/-- Every state of a run is coherent: before each call, which returns, and in the end. -/
def AllCoherent (own : ℕ → ℤ × ℤ) : CacheState → (ℕ → Sector) → List Call → Prop
  | st, m, [] => Coherent own st m
  | st, m, c :: cs => Coherent own st m ∧
      ∃ r, exec own st c = .ok r ∧ AllCoherent own r.2 (effect m c) cs

/-- The next eviction would lose data: no slot is free, and the victim is clean but differs from
its sector on disk. -/
def Loses (st : CacheState) : Prop :=
  (∀ i, (st.buffer_cache i).holder ≠ 0) ∧ (st.buffer_cache (victim_slot st)).dirty = false ∧
    ∃ off < 512, (st.buffer_cache (victim_slot st)).data off
      ≠ st.fs.disk (st.buffer_cache (victim_slot st)).sector off

/-- A call on a sector that is not cached loses nothing: the eviction does not, and a put leaves out
only bytes that are zero on disk. -/
def Safe (st : CacheState) (c : Call) : Prop :=
  (∀ i, (st.buffer_cache i).sector ≠ c.sec) →
    ¬Loses st ∧ match c with
      | .put sec ofs src =>
        ∀ off < 512, ¬(ofs ≤ off ∧ off < ofs + src.length) → st.fs.disk sec off = 0
      | .get _ _ _ => True

/-- Every call of a run is safe in the state before it. -/
def AllSafe (own : ℕ → ℤ × ℤ) : CacheState → List Call → Prop
  | _, [] => True
  | st, c :: cs => Safe st c ∧ ∃ r, exec own st c = .ok r ∧ AllSafe own r.2 cs

/-! ## Tags and look-ups -/

variable {own : ℕ → ℤ × ℤ} {st st₁ : CacheState} {i j : Fin 64} {sec : ℕ}

/-- **The tags.** A slot with a holder has a sector of the disk with that sector's inode id and
position, and no other slot has it; a slot without one has no sector. -/
structure Tags (own : ℕ → ℤ × ℤ) (st : CacheState) : Prop where
  tagged : ∀ i, (st.buffer_cache i).holder ≠ 0 → OnDisk st.fs (st.buffer_cache i).sector ∧
    (st.buffer_cache i).holder = (own (st.buffer_cache i).sector).1 ∧
    (st.buffer_cache i).pos = (own (st.buffer_cache i).sector).2
  free : ∀ i, (st.buffer_cache i).holder = 0 → (st.buffer_cache i).sector = NO_SECTOR
  apart : ∀ i j, (st.buffer_cache i).holder ≠ 0 →
    (st.buffer_cache i).sector = (st.buffer_cache j).sector → i = j

/-- What a sector holds. -/
def current (st : CacheState) (sec : ℕ) : Sector :=
  match sector_to_cachei st sec with
  | some i => (st.buffer_cache i).data
  | none => st.fs.disk sec

theorem OnDisk.ne_no_sector {fs : FileSys} (h : OnDisk fs sec) : sec ≠ NO_SECTOR := by
  rintro rfl
  exact absurd h.2 (by decide)

/-- A slot that holds a sector of the disk is in use. -/
theorem Tags.holder_ne (h : Tags own st) (hsec : OnDisk st.fs sec)
    (hi : (st.buffer_cache i).sector = sec) : (st.buffer_cache i).holder ≠ 0 := by
  intro hzero
  exact hsec.ne_no_sector (hi.symm.trans (h.free i hzero))

theorem sector_to_cachei_some (h : sector_to_cachei st sec = some i) :
    (st.buffer_cache i).sector = sec := by
  have hp := List.find?_some h
  exact of_decide_eq_true hp

theorem sector_to_cachei_none :
    sector_to_cachei st sec = none ↔ ∀ i, (st.buffer_cache i).sector ≠ sec := by
  rw [sector_to_cachei, List.find?_eq_none]
  constructor
  · intro h i hi
    exact h i (List.mem_finRange i) (decide_eq_true hi)
  · intro h i _ hi
    exact h i (of_decide_eq_true hi)

/-- The look-up finds the slot that holds the sector. -/
theorem Tags.sector_to_cachei_eq (h : Tags own st) (hsec : OnDisk st.fs sec)
    (hi : (st.buffer_cache i).sector = sec) : sector_to_cachei st sec = some i := by
  cases hfound : sector_to_cachei st sec with
  | none => exact absurd hi (sector_to_cachei_none.mp hfound i)
  | some j =>
    have hj := sector_to_cachei_some hfound
    rw [h.apart j i (h.holder_ne hsec hj) (hj.trans hi.symm)]

/-- **Both look-ups agree**, because a sector is always used with one inode id and position. -/
theorem Tags.find_me_eq (h : Tags own st) (hsec : OnDisk st.fs sec) :
    find_me st (own sec).1 sec (own sec).2 = sector_to_cachei st sec := by
  unfold find_me sector_to_cachei
  congr 1
  funext i
  rw [decide_eq_decide]
  constructor
  · exact fun hi => hi.2.1
  · intro hi
    obtain ⟨-, hholder, hpos⟩ := h.tagged i (h.holder_ne hsec hi)
    rw [hi] at hholder hpos
    exact ⟨hholder, hi, hpos⟩

/-- The holder that `inode_get_cache` checks is the right one. -/
theorem Tags.filter_eq (h : Tags own st) (hsec : OnDisk st.fs sec) :
    (sector_to_cachei st sec).filter
        (fun i => decide ((st.buffer_cache i).holder = (own sec).1 ∨ (own sec).1 = -3))
      = sector_to_cachei st sec := by
  cases hfound : sector_to_cachei st sec with
  | none => rfl
  | some i =>
    have hi := sector_to_cachei_some hfound
    obtain ⟨-, hholder, -⟩ := h.tagged i (h.holder_ne hsec hi)
    rw [hi] at hholder
    rw [Option.filter_some, if_pos (decide_eq_true (Or.inl hholder))]

theorem current_of_cached (h : sector_to_cachei st sec = some i) :
    current st sec = (st.buffer_cache i).data := by
  rw [current, h]

theorem current_of_uncached (h : sector_to_cachei st sec = none) :
    current st sec = st.fs.disk sec := by
  rw [current, h]

/-- A sector holds the same when the slots that hold it and the disk do. -/
theorem current_congr
    (hslot : ∀ i, (st₁.buffer_cache i).sector = sec ↔ (st.buffer_cache i).sector = sec)
    (hdata : ∀ i, (st.buffer_cache i).sector = sec →
      (st₁.buffer_cache i).data = (st.buffer_cache i).data)
    (hdisk : st₁.fs.disk sec = st.fs.disk sec) : current st₁ sec = current st sec := by
  have hfind : sector_to_cachei st₁ sec = sector_to_cachei st sec := by
    unfold sector_to_cachei
    congr 1
    funext i
    rw [decide_eq_decide]
    exact hslot i
  cases hfound : sector_to_cachei st sec with
  | none => rw [current_of_uncached hfound, current_of_uncached (hfind.trans hfound), hdisk]
  | some i =>
    rw [current_of_cached hfound, current_of_cached (hfind.trans hfound)]
    exact hdata i (sector_to_cachei_some hfound)

/-! ## Slots replaced -/

@[simp] theorem set_block_self (st : CacheState) (i : Fin 64) (b : CacheBlock) :
    (set_block st i b).buffer_cache i = b := Function.update_self ..

theorem set_block_of_ne (b : CacheBlock) (h : j ≠ i) :
    (set_block st i b).buffer_cache j = st.buffer_cache j := Function.update_of_ne h ..

/-- A slot keeps the tags when it is tagged with a sector that no other slot has, or freed. -/
theorem Tags.set_block (h : Tags own st) {b : CacheBlock}
    (hb : (b.holder = 0 ∧ b.sector = NO_SECTOR) ∨ (b.holder ≠ 0 ∧ OnDisk st.fs b.sector ∧
      b.holder = (own b.sector).1 ∧ b.pos = (own b.sector).2 ∧
      ∀ j, j ≠ i → (st.buffer_cache j).sector ≠ b.sector)) : Tags own (set_block st i b) := by
  constructor
  · intro j hj
    by_cases hji : j = i
    · subst hji
      rw [set_block_self] at hj ⊢
      rcases hb with ⟨hzero, -⟩ | ⟨-, hsec, hholder, hpos, -⟩
      · exact absurd hzero hj
      · exact ⟨hsec, hholder, hpos⟩
    · rw [set_block_of_ne b hji] at hj ⊢
      exact h.tagged j hj
  · intro j hj
    by_cases hji : j = i
    · subst hji
      rw [set_block_self] at hj ⊢
      rcases hb with ⟨-, hno⟩ | ⟨hne, -⟩
      · exact hno
      · exact absurd hj hne
    · rw [set_block_of_ne b hji] at hj ⊢
      exact h.free j hj
  · intro j k hj hjk
    by_cases hji : j = i
    · subst hji
      rw [set_block_self] at hj hjk
      by_cases hkj : k = j
      · exact hkj.symm
      rw [set_block_of_ne b hkj] at hjk
      rcases hb with ⟨hzero, -⟩ | ⟨-, -, -, -, hother⟩
      · exact absurd hzero hj
      · exact absurd hjk.symm (hother k hkj)
    · rw [set_block_of_ne b hji] at hj hjk
      by_cases hki : k = i
      · subst hki
        rw [set_block_self] at hjk
        rcases hb with ⟨-, hno⟩ | ⟨-, -, -, -, hother⟩
        · exact absurd (hjk.trans hno) (h.tagged j hj).1.ne_no_sector
        · exact absurd hjk (hother j hji)
      · rw [set_block_of_ne b hki] at hjk
        exact h.apart j k hj hjk

/-- The tags do not depend on the contents of the disk. -/
theorem Tags.of_eq (h : Tags own st) (hslots : st₁.buffer_cache = st.buffer_cache)
    (hcap : st₁.fs.capacity = st.fs.capacity) : Tags own st₁ := by
  constructor
  · intro i hi
    rw [hslots] at hi ⊢
    rw [OnDisk, hcap]
    exact h.tagged i hi
  · rw [hslots]
    exact h.free
  · rw [hslots]
    exact h.apart

/-- A slot that keeps its tags keeps those of all. -/
theorem Tags.set_same (h : Tags own st) {b : CacheBlock}
    (hholder : b.holder = (st.buffer_cache i).holder)
    (hsector : b.sector = (st.buffer_cache i).sector) (hpos : b.pos = (st.buffer_cache i).pos) :
    Tags own (Cache.set_block st i b) := by
  apply h.set_block
  rw [hholder, hsector, hpos]
  by_cases hzero : (st.buffer_cache i).holder = 0
  · exact Or.inl ⟨hzero, h.free i hzero⟩
  · obtain ⟨hsec, hown, hat⟩ := h.tagged i hzero
    exact Or.inr ⟨hzero, hsec, hown, hat,
      fun j hj heq => hj (h.apart i j hzero heq.symm).symm⟩

/-- A free slot that stays free does not show. -/
theorem Tags.current_set_free (h : Tags own st) (hi : (st.buffer_cache i).holder = 0)
    {b : CacheBlock} (hb : b.sector = NO_SECTOR) (hsec : OnDisk st.fs sec) :
    current (Cache.set_block st i b) sec = current st sec := by
  have hno := h.free i hi
  apply current_congr
  · intro j
    by_cases hji : j = i
    · subst hji
      rw [set_block_self, hb, hno]
    · rw [set_block_of_ne b hji]
  · intro j hj
    by_cases hji : j = i
    · subst hji
      exact absurd (hj.symm.trans hno) hsec.ne_no_sector
    · rw [set_block_of_ne b hji]
  · rfl

/-! ## The disk -/

/-- A sector written. -/
def write_sector (fs : FileSys) (sec : ℕ) (data : Sector) : FileSys :=
  { fs with disk := Function.update fs.disk sec data }

/-- A whole slot is written in one turn of the loop. -/
theorem cache_write_disk_eq (st : CacheState) (i : Fin 64) (hsec : OnDisk st.fs sec) :
    cache_write_disk st sec i 512 0
      = .ok { st with fs := write_sector st.fs sec (st.buffer_cache i).data } := by
  have hsec' : sec < st.fs.capacity ∧ sec < 2 ^ 28 := hsec
  have hchunk : chunk 512 512 0 = 512 := by decide
  have hwrite : disk_write st.fs (sec + 0 / 512) (st.buffer_cache i).data
      = .ok (write_sector st.fs sec (st.buffer_cache i).data) := by
    rw [Nat.zero_div, Nat.add_zero, disk_write, ASSERT_pos hsec']
    rfl
  rw [cache_write_disk, cache_write_loop, hchunk, if_pos (by decide), block, dif_pos i.isLt,
    ok_bind, hwrite, ok_bind, cache_write_loop, if_neg (by decide)]

/-- A whole slot is read in one turn of the loop. -/
theorem cache_read_disk_eq (st : CacheState) (i : Fin 64) (hsec : OnDisk st.fs sec) :
    cache_read_disk st sec i 512 0
      = .ok (set_block st i
          { st.buffer_cache i with
            data := st.fs.disk sec
            access := false
            dirty := false }) := by
  have hsec' : sec < st.fs.capacity ∧ sec < 2 ^ 28 := hsec
  have hchunk : chunk 512 512 0 = 512 := by decide
  have hread : disk_read st.fs (sec + 0 / 512) = .ok (st.fs.disk sec) := by
    rw [Nat.zero_div, Nat.add_zero, disk_read, ASSERT_pos hsec']
    rfl
  rw [cache_read_disk, cache_read_loop, hchunk, if_pos (by decide), dif_pos i.isLt, hread, ok_bind,
    cache_read_loop, if_neg (by decide)]

/-! ## Taking a slot -/

/-- What the sectors hold is the same in both states. -/
def SameContent (st st₁ : CacheState) : Prop :=
  ∀ sec, OnDisk st.fs sec → ∀ off < 512, current st₁ sec off = current st sec off

/-- What `take_block` leaves: a free slot, the tags, and what the sectors hold, unless the eviction
loses the victim's data. -/
structure Taken (own : ℕ → ℤ × ℤ) (st st₁ : CacheState) (i : Fin 64) : Prop where
  tags : Tags own st₁
  slot : (st₁.buffer_cache i).holder = 0
  capacity : st₁.fs.capacity = st.fs.capacity
  uncached : ∀ sec, OnDisk st.fs sec → sector_to_cachei st sec = none →
    sector_to_cachei st₁ sec = none ∧ st₁.fs.disk sec = st.fs.disk sec
  keeps : ¬Loses st → SameContent st st₁
  loses : Loses st → ∃ sec, OnDisk st.fs sec ∧ sector_to_cachei st sec ≠ none ∧
    ∃ off < 512, current st₁ sec off ≠ current st sec off

theorem search_free_block_none :
    search_free_block st = none ↔ ∀ i, (st.buffer_cache i).holder ≠ 0 := by
  rw [search_free_block, List.find?_eq_none]
  constructor
  · intro h i hi
    exact h i (List.mem_finRange i) (decide_eq_true hi)
  · intro h i _ hi
    exact h i (of_decide_eq_true hi)

/-- The file system after the eviction. -/
def written_back (st : CacheState) : FileSys :=
  let b := st.buffer_cache (victim_slot st)
  if b.dirty then write_sector st.fs b.sector b.data else st.fs

/-- The state after the eviction. -/
def evicted (st : CacheState) : CacheState where
  buffer_cache := Function.update st.buffer_cache (victim_slot st)
    { st.buffer_cache (victim_slot st) with
      holder := 0
      sector := NO_SECTOR }
  victim := victim_slot st + 1
  fs := written_back st

/-- **`cache_evict`** writes a dirty victim back. -/
theorem cache_evict_eq (st : CacheState)
    (hsec : OnDisk st.fs (st.buffer_cache (victim_slot st)).sector) :
    cache_evict st = .ok (evicted st, victim_slot st) := by
  have hwrite := cache_write_disk_eq st (victim_slot st) hsec
  simp only [cache_evict, hwrite, ok_bind, evicted, written_back]
  by_cases hdirty : (st.buffer_cache (victim_slot st)).dirty = true
  · rw [if_pos hdirty, if_pos hdirty]
    rfl
  · rw [if_neg hdirty, if_neg hdirty]
    rfl

/-- **Evicting.** The victim's sector goes back to what is on disk; the others are not touched. -/
theorem evicted_taken (h : Tags own st) (hfull : ∀ i, (st.buffer_cache i).holder ≠ 0) :
    Taken own st (evicted st) (victim_slot st) := by
  obtain ⟨v, hv⟩ : ∃ v, v = victim_slot st := ⟨_, rfl⟩
  have hvsec := (h.tagged v (hfull v)).1
  have hself : (evicted st).buffer_cache v =
      { st.buffer_cache v with
        holder := 0
        sector := NO_SECTOR } := by
    rw [hv]
    exact Function.update_self ..
  have hother : ∀ j, j ≠ v → (evicted st).buffer_cache j = st.buffer_cache j := by
    intro j hj
    rw [hv] at hj
    exact Function.update_of_ne hj ..
  have hcap : (evicted st).fs.capacity = st.fs.capacity := by
    unfold evicted written_back
    simp only
    split_ifs <;> rfl
  have hdisk : ∀ sec, sec ≠ (st.buffer_cache v).sector →
      (evicted st).fs.disk sec = st.fs.disk sec := by
    intro sec hne
    rw [hv] at hne
    unfold evicted written_back
    simp only
    split_ifs
    · exact Function.update_of_ne hne ..
    · rfl
  have hfind : ∀ sec, sec ≠ (st.buffer_cache v).sector → OnDisk st.fs sec → ∀ i,
      ((evicted st).buffer_cache i).sector = sec ↔ (st.buffer_cache i).sector = sec := by
    intro sec hne hsec i
    by_cases hi : i = v
    · subst hi
      rw [hself]
      exact iff_of_false (Ne.symm hsec.ne_no_sector) (Ne.symm hne)
    · rw [hother i hi]
  have hcurrent : ∀ sec, sec ≠ (st.buffer_cache v).sector → OnDisk st.fs sec →
      current (evicted st) sec = current st sec := by
    intro sec hne hsec
    refine current_congr (hfind sec hne hsec) (fun i hi => ?_) (hdisk sec hne)
    rw [hother i (fun heq => hne (by rw [← hi, heq]))]
  -- the victim's sector is not cached any more
  have hbefore : current st (st.buffer_cache v).sector = (st.buffer_cache v).data :=
    current_of_cached (h.sector_to_cachei_eq hvsec rfl)
  have hgone : sector_to_cachei (evicted st) (st.buffer_cache v).sector = none := by
    rw [sector_to_cachei_none]
    intro i hi
    by_cases hiv : i = v
    · subst hiv
      rw [hself] at hi
      exact hvsec.ne_no_sector hi.symm
    · rw [hother i hiv] at hi
      exact hiv (h.apart i v (hfull i) hi)
  have hafter : current (evicted st) (st.buffer_cache v).sector
      = if (st.buffer_cache v).dirty then (st.buffer_cache v).data
        else st.fs.disk (st.buffer_cache v).sector := by
    rw [current_of_uncached hgone, hv]
    unfold evicted written_back
    simp only
    split_ifs
    · exact Function.update_self ..
    · rfl
  refine ⟨?_, ?_, hcap, ?_, ?_, ?_⟩
  · exact (h.set_block (i := victim_slot st)
      (b := { st.buffer_cache (victim_slot st) with
        holder := 0
        sector := NO_SECTOR }) (Or.inl ⟨rfl, rfl⟩)).of_eq rfl hcap
  · rw [← hv, hself]
  · intro sec hsec hnone
    have hne : sec ≠ (st.buffer_cache v).sector :=
      fun heq => sector_to_cachei_none.mp hnone v heq.symm
    refine ⟨sector_to_cachei_none.mpr (fun i hi => ?_), hdisk sec hne⟩
    exact sector_to_cachei_none.mp hnone i ((hfind sec hne hsec i).mp hi)
  · intro hkeep sec hsec off hoff
    by_cases heq : sec = (st.buffer_cache v).sector
    · rw [heq, hafter, hbefore]
      by_cases hdirty : (st.buffer_cache v).dirty = true
      · rw [if_pos hdirty]
      · rw [if_neg hdirty]
        by_contra hdiff
        refine hkeep ⟨hfull, ?_, off, hoff, ?_⟩
        · rw [← hv]
          exact Bool.not_eq_true _ ▸ hdirty
        · rw [← hv]
          exact Ne.symm hdiff
    · rw [hcurrent sec heq hsec]
  · rintro ⟨-, hclean, off, hoff, hdiff⟩
    rw [← hv] at hclean hdiff
    refine ⟨(st.buffer_cache v).sector, hvsec, ?_, off, hoff, ?_⟩
    · rw [h.sector_to_cachei_eq hvsec rfl]
      exact Option.some_ne_none v
    · rw [hafter, hbefore, hclean]
      exact Ne.symm hdiff

/-- **`take_block`** always finds a slot. -/
theorem take_block_spec (h : Tags own st) :
    ∃ st₁ i, take_block st = .ok (st₁, i) ∧ Taken own st st₁ i := by
  cases hfree : search_free_block st with
  | some i =>
    have hp := List.find?_some (show (List.finRange 64).find? _ = some i from hfree)
    have hi : (st.buffer_cache i).holder = 0 := of_decide_eq_true hp
    refine ⟨st, i, by rw [take_block, hfree], h, hi, rfl, fun sec _ hnone => ⟨hnone, rfl⟩,
      fun _ _ _ _ _ => rfl, fun hloses => absurd hi (hloses.1 i)⟩
  | none =>
    have hfull := search_free_block_none.mp hfree
    have hsec := (h.tagged _ (hfull (victim_slot st))).1
    exact ⟨evicted st, victim_slot st, by rw [take_block, hfree, cache_evict_eq st hsec],
      evicted_taken h hfull⟩

/-! ## The calls -/

/-- A call leaves in the sectors what it should. -/
def Keeps (st st₁ : CacheState) (c : Call) : Prop :=
  ∀ sec, OnDisk st.fs sec → ∀ off < 512, current st₁ sec off = effect (current st) c sec off

theorem put_data_eq (cached : Bool) (data : Sector) {src : List UInt8} {ofs : ℕ}
    (hfit : ofs + src.length ≤ 512) :
    ∃ d, put_data cached data src ofs = .ok d ∧ ∀ off < 512, d off =
      if ofs ≤ off ∧ off < ofs + src.length then src.getD (off - ofs) 0
      else if cached then data off else 0 := by
  rw [put_data]
  by_cases hwhole : ofs = 0 ∧ src.length = 512
  · obtain ⟨rfl, hlen⟩ := hwhole
    rw [if_pos ⟨rfl, hlen⟩, copy_in, if_pos hfit]
    refine ⟨_, rfl, fun off hoff => ?_⟩
    rw [if_pos (by omega), if_pos (by omega)]
  · rw [if_neg hwhole, copy_in, if_pos hfit]
    refine ⟨_, rfl, fun off hoff => ?_⟩
    cases cached <;> rfl

/-- A slot that is set to hold a sector: that sector holds its data, and the others what they
did. -/
theorem current_set_block {b : CacheBlock} (htags : Tags own (set_block st i b))
    (hb : OnDisk st.fs b.sector)
    (hold : (st.buffer_cache i).sector = b.sector ∨ (st.buffer_cache i).sector = NO_SECTOR) :
    current (set_block st i b) b.sector = b.data ∧
      ∀ sec, OnDisk st.fs sec → sec ≠ b.sector →
        current (set_block st i b) sec = current st sec := by
  constructor
  · have hi : ((set_block st i b).buffer_cache i).sector = b.sector := by rw [set_block_self]
    rw [current_of_cached (htags.sector_to_cachei_eq hb hi), set_block_self]
  · intro sec hsec hne
    have hnot : (st.buffer_cache i).sector ≠ sec := by
      rcases hold with hold | hold <;> rw [hold]
      · exact Ne.symm hne
      · exact Ne.symm hsec.ne_no_sector
    refine current_congr (fun j => ?_) (fun j hj => ?_) rfl
    · by_cases hji : j = i
      · subst hji
        rw [set_block_self]
        exact iff_of_false (Ne.symm hne) hnot
      · rw [set_block_of_ne b hji]
    · by_cases hji : j = i
      · subst hji
        exact absurd hj hnot
      · rw [set_block_of_ne b hji]

/-- **A put that hits** keeps what the other bytes and the other sectors hold. -/
theorem put_hit (h : Tags own st) (hsec : OnDisk st.fs sec) {src : List UInt8} {ofs : ℕ}
    (hfit : ofs + src.length ≤ 512) (hi : sector_to_cachei st sec = some i) :
    ∃ st', inode_put_cache st src sec (own sec).1 (own sec).2 ofs = .ok st' ∧ Tags own st' ∧
      st'.fs.capacity = st.fs.capacity ∧ Keeps st st' (.put sec ofs src) := by
  have hslot := sector_to_cachei_some hi
  have hholder := h.holder_ne hsec hslot
  obtain ⟨-, hown, hpos⟩ := h.tagged i hholder
  rw [hslot] at hown hpos
  obtain ⟨d, hd, hbytes⟩ := put_data_eq true (st.buffer_cache i).data hfit
  obtain ⟨b, hb⟩ : ∃ b : CacheBlock, b = { st.buffer_cache i with
      data := d
      sector := sec
      pos := (own sec).2
      dirty := true } := ⟨_, rfl⟩
  have hbsec : b.sector = sec := by rw [hb]
  have htags : Tags own (set_block st i b) := by
    apply h.set_same <;> rw [hb]
    · exact hslot.symm
    · exact hpos.symm
  obtain ⟨hself, hother⟩ := current_set_block htags (by rw [hbsec]; exact hsec)
    (Or.inl (by rw [hbsec, hslot]))
  rw [hbsec] at hself hother
  refine ⟨set_block st i b, ?_, htags, rfl, fun sec' hsec' off hoff => ?_⟩
  · rw [inode_put_cache, h.find_me_eq hsec, hi]
    simp only [hd, ok_bind, hb]
    rfl
  · by_cases heq : sec' = sec
    · subst heq
      rw [hself, effect, Function.update_self, hb, current_of_cached hi]
      exact hbytes off hoff
    · rw [hother sec' hsec' heq, effect, Function.update_of_ne heq]

/-- **A put that misses** keeps what the sectors hold just when it loses nothing. -/
theorem put_miss (h : Tags own st) (hsec : OnDisk st.fs sec) (hown : (own sec).1 ≠ 0)
    {src : List UInt8} {ofs : ℕ} (hfit : ofs + src.length ≤ 512)
    (hnone : sector_to_cachei st sec = none) :
    ∃ st', inode_put_cache st src sec (own sec).1 (own sec).2 ofs = .ok st' ∧ Tags own st' ∧
      st'.fs.capacity = st.fs.capacity ∧ (Keeps st st' (.put sec ofs src) ↔ ¬Loses st ∧
        ∀ off < 512, ¬(ofs ≤ off ∧ off < ofs + src.length) → st.fs.disk sec off = 0) := by
  obtain ⟨st₁, i, htake, htaken⟩ := take_block_spec h
  obtain ⟨hnone₁, hdisk₁⟩ := htaken.uncached sec hsec hnone
  have hsame : ∀ {sec'}, OnDisk st.fs sec' → OnDisk st₁.fs sec' := by
    intro sec' hsec'
    rw [OnDisk, htaken.capacity]
    exact hsec'
  obtain ⟨d, hd, hbytes⟩ := put_data_eq false (st₁.buffer_cache i).data hfit
  obtain ⟨b, hb⟩ : ∃ b : CacheBlock, b = ⟨sec, false, false, d, (own sec).1, (own sec).2⟩ :=
    ⟨_, rfl⟩
  have hbsec : b.sector = sec := by rw [hb]
  have htags : Tags own (set_block st₁ i b) := by
    apply htaken.tags.set_block
    rw [hb]
    exact Or.inr ⟨hown, hsame hsec, rfl, rfl,
      fun j _ => sector_to_cachei_none.mp hnone₁ j⟩
  obtain ⟨hself, hother⟩ := current_set_block htags (by rw [hbsec]; exact hsame hsec)
    (Or.inr (htaken.tags.free i htaken.slot))
  rw [hbsec] at hself hother
  have hnew : ∀ off < 512, current (set_block st₁ i b) sec off
      = if ofs ≤ off ∧ off < ofs + src.length then src.getD (off - ofs) 0 else 0 := by
    intro off hoff
    rw [hself, hb]
    exact hbytes off hoff
  have hold : current st sec = st.fs.disk sec := current_of_uncached hnone
  refine ⟨set_block st₁ i b, ?_, htags, htaken.capacity, ?_, ?_⟩
  · rw [inode_put_cache, h.find_me_eq hsec, hnone]
    simp only [htake, ok_bind, hd, hb]
    rfl
  · intro hkeeps
    constructor
    · -- the sector whose data are lost is another one, since it was cached
      intro hloses
      obtain ⟨sec', hsec', hcached, off, hoff, hdiff⟩ := htaken.loses hloses
      have hne : sec' ≠ sec := by
        rintro rfl
        exact hcached hnone
      have hkeep := hkeeps sec' hsec' off hoff
      rw [hother sec' (hsame hsec') hne, effect, Function.update_of_ne hne] at hkeep
      exact hdiff hkeep
    · intro off hoff hout
      have hkeep := hkeeps sec hsec off hoff
      rw [hnew off hoff, if_neg hout, effect, Function.update_self, if_neg hout, hold] at hkeep
      exact hkeep.symm
  · rintro ⟨hkeep, hzero⟩ sec' hsec' off hoff
    by_cases heq : sec' = sec
    · subst heq
      rw [hnew off hoff, effect, Function.update_self, hold]
      by_cases hin : ofs ≤ off ∧ off < ofs + src.length
      · rw [if_pos hin, if_pos hin]
      · rw [if_neg hin, if_neg hin, hzero off hoff hin]
    · rw [hother sec' (hsame hsec') heq, effect, Function.update_of_ne heq]
      exact htaken.keeps hkeep sec' hsec' off hoff

/-- **The slot of a get** has the bytes of the sector, hit or miss; the other sectors keep theirs
when nothing is lost. -/
theorem get_block_spec (h : Tags own st) (hsec : OnDisk st.fs sec) :
    ∃ st₁ i, get_block st sec (own sec).1 (own sec).2 = .ok (st₁, i) ∧ Tags own st₁ ∧
      st₁.fs.capacity = st.fs.capacity ∧
      (st₁.buffer_cache i).data = current st sec ∧
      (SameContent st st₁ ↔ (sector_to_cachei st sec = none → ¬Loses st)) := by
  cases hfound : sector_to_cachei st sec with
  | some i =>
    refine ⟨st, i, ?_, h, rfl, (current_of_cached hfound).symm, ?_⟩
    · rw [get_block, h.filter_eq hsec, hfound]
    · exact iff_of_true (fun _ _ _ _ => rfl) (fun hno => (by cases hno))
  | none =>
    obtain ⟨st₁, i, htake, htaken⟩ := take_block_spec h
    obtain ⟨-, hdisk₁⟩ := htaken.uncached sec hsec hfound
    have hsame : ∀ {sec'}, OnDisk st.fs sec' → OnDisk st₁.fs sec' := by
      intro sec' hsec'
      rw [OnDisk, htaken.capacity]
      exact hsec'
    have hread := cache_read_disk_eq st₁ i (hsame hsec)
    -- the slot stays free, so what was read does not show
    obtain ⟨b, hb⟩ : ∃ b : CacheBlock, b = { st₁.buffer_cache i with
        data := st₁.fs.disk sec
        access := false
        dirty := false
        pos := (own sec).2 } := ⟨_, rfl⟩
    have hbno : b.sector = NO_SECTOR := by
      rw [hb]
      exact htaken.tags.free i htaken.slot
    have htags : Tags own (set_block st₁ i b) := by
      apply htaken.tags.set_block
      refine Or.inl ⟨?_, hbno⟩
      rw [hb]
      exact htaken.slot
    have hcurrent : ∀ sec', OnDisk st.fs sec' →
        current (set_block st₁ i b) sec' = current st₁ sec' :=
      fun sec' hsec' => htaken.tags.current_set_free htaken.slot hbno (hsame hsec')
    refine ⟨set_block st₁ i b, i, ?_, htags, htaken.capacity, ?_, ?_⟩
    · rw [get_block, h.filter_eq hsec, hfound]
      simp only [htake, ok_bind, hread, hb, set_block_self]
      rw [set_block, set_block, set_block]
      simp only [Function.update_idem]
      rfl
    · rw [set_block_self, hb, current_of_uncached hfound, ← hdisk₁]
    · constructor
      · intro hcontent _ hloses
        obtain ⟨sec', hsec', -, off, hoff, hdiff⟩ := htaken.loses hloses
        have heq := hcontent sec' hsec' off hoff
        rw [hcurrent sec' hsec'] at heq
        exact hdiff heq
      · intro hkeep sec' hsec' off hoff
        rw [hcurrent sec' hsec']
        exact htaken.keeps (hkeep rfl) sec' hsec' off hoff

/-- **A get** returns the bytes that the sector holds. -/
theorem get_spec (h : Tags own st) (hsec : OnDisk st.fs sec) {ofs n : ℕ} (hfit : ofs + n ≤ 512) :
    ∃ st', inode_get_cache st sec (own sec).1 (own sec).2 ofs n
        = .ok ((List.range n).map (fun j => current st sec (ofs + j)), st') ∧ Tags own st' ∧
      st'.fs.capacity = st.fs.capacity ∧
      (Keeps st st' (.get sec ofs n) ↔ (sector_to_cachei st sec = none → ¬Loses st)) := by
  obtain ⟨st₁, i, hblock, htags, hcap, hdata, hkeeps⟩ := get_block_spec h hsec
  obtain ⟨b, hb⟩ : ∃ b : CacheBlock, b = { st₁.buffer_cache i with access := true } := ⟨_, rfl⟩
  have hcurrent : ∀ sec', current (set_block st₁ i b) sec' = current st₁ sec' := by
    intro sec'
    have hslot : ∀ j, ((set_block st₁ i b).buffer_cache j).sector = (st₁.buffer_cache j).sector ∧
        ((set_block st₁ i b).buffer_cache j).data = (st₁.buffer_cache j).data := by
      intro j
      by_cases hji : j = i
      · subst hji
        rw [set_block_self, hb]
        exact ⟨rfl, rfl⟩
      · rw [set_block_of_ne b hji]
        exact ⟨rfl, rfl⟩
    exact current_congr (fun j => by rw [(hslot j).1]) (fun j _ => (hslot j).2) rfl
  refine ⟨set_block st₁ i b, ?_, ?_, hcap, ?_⟩
  · rw [inode_get_cache, hblock, ok_bind, copy_out, if_pos hfit, ok_bind, hdata, hb]
    rfl
  · apply htags.set_same <;> rw [hb]
  · rw [← hkeeps]
    unfold Keeps SameContent effect
    simp only [hcurrent]

/-! ## Runs -/

/-- Whether a sector is cached, by the tags. -/
theorem safe_put_iff {ofs : ℕ} {src : List UInt8} :
    Safe st (.put sec ofs src) ↔ (sector_to_cachei st sec = none → ¬Loses st ∧
      ∀ off < 512, ¬(ofs ≤ off ∧ off < ofs + src.length) → st.fs.disk sec off = 0) := by
  rw [sector_to_cachei_none]
  exact Iff.rfl

theorem safe_get_iff {ofs n : ℕ} :
    Safe st (.get sec ofs n) ↔ (sector_to_cachei st sec = none → ¬Loses st) := by
  rw [sector_to_cachei_none, Safe]
  simp only [and_true]
  exact Iff.rfl

/-- **A call.** It returns and keeps the tags, and leaves in the sectors what it should just when
it is safe. -/
theorem exec_spec (h : Tags own st) (hown : ∀ sec, (own sec).1 ≠ 0) {c : Call}
    (hc : c.Valid st.fs) :
    ∃ r, exec own st c = .ok r ∧ Tags own r.2 ∧ r.2.fs.capacity = st.fs.capacity ∧
      (Keeps st r.2 c ↔ Safe st c) := by
  cases c with
  | put sec ofs src =>
    obtain ⟨hsec, hfit⟩ := hc
    cases hfound : sector_to_cachei st sec with
    | some i =>
      obtain ⟨st', hput, htags, hcap, hkeeps⟩ := put_hit h hsec hfit hfound
      refine ⟨([], st'), by rw [exec, hput]; rfl, htags, hcap, ?_⟩
      rw [safe_put_iff, hfound]
      exact iff_of_true hkeeps (fun hno => (by cases hno))
    | none =>
      obtain ⟨st', hput, htags, hcap, hkeeps⟩ := put_miss h hsec (hown sec) hfit hfound
      refine ⟨([], st'), by rw [exec, hput]; rfl, htags, hcap, ?_⟩
      rw [safe_put_iff, hkeeps]
      exact ⟨fun hsafe _ => hsafe, fun hsafe => hsafe hfound⟩
  | get sec ofs n =>
    obtain ⟨hsec, hfit⟩ := hc
    obtain ⟨st', hget, htags, hcap, hkeeps⟩ := get_spec h hsec hfit
    refine ⟨_, hget, htags, hcap, ?_⟩
    rw [safe_get_iff]
    exact hkeeps

/-- What the sectors hold is what they should. -/
def Holds (st : CacheState) (m : ℕ → Sector) : Prop :=
  ∀ sec, OnDisk st.fs sec → ∀ off < 512, current st sec off = m sec off

/-- **Coherence is the right content**, given the tags: a get returns what the sector holds. -/
theorem coherent_iff (h : Tags own st) {m : ℕ → Sector} : Coherent own st m ↔ Holds st m := by
  constructor
  · rintro ⟨hget, -⟩ sec hsec off hoff
    have hfit : off + 1 ≤ 512 := by omega
    obtain ⟨st', hrun⟩ := hget sec off 1 hsec hfit
    obtain ⟨st'', hrun', -⟩ := get_spec h hsec hfit
    rw [hrun'] at hrun
    have hbytes := congrArg Prod.fst (Except.ok.inj hrun)
    simpa using hbytes
  · intro hholds
    refine ⟨fun sec ofs n hsec hfit => ?_, fun i j hij hno => ?_⟩
    · obtain ⟨st', hrun, -⟩ := get_spec h hsec hfit
      refine ⟨st', hrun.trans ?_⟩
      congr 2
      apply List.map_congr_left
      intro j hj
      rw [List.mem_range] at hj
      exact hholds sec hsec (ofs + j) (by omega)
    · exact h.apart i j (fun hzero => hno (h.free i hzero)) hij

/-- A call from the right content gives the right content just when it keeps what it should. -/
theorem holds_effect (hcap : st₁.fs.capacity = st.fs.capacity) {m : ℕ → Sector} (c : Call)
    (h : Holds st m) : Holds st₁ (effect m c) ↔ Keeps st st₁ c := by
  have heffect : ∀ sec, OnDisk st.fs sec → ∀ off < 512,
      effect (current st) c sec off = effect m c sec off := by
    intro sec hsec off hoff
    cases c with
    | put sec' ofs src =>
      by_cases heq : sec = sec'
      · subst heq
        rw [effect, effect, Function.update_self, Function.update_self, h sec hsec off hoff]
      · rw [effect, effect, Function.update_of_ne heq, Function.update_of_ne heq,
          h sec hsec off hoff]
    | get sec' ofs n => exact h sec hsec off hoff
  have hsame : ∀ sec, OnDisk st₁.fs sec ↔ OnDisk st.fs sec := by
    intro sec
    rw [OnDisk, OnDisk, hcap]
  constructor
  · intro hholds sec hsec off hoff
    rw [heffect sec hsec off hoff]
    exact hholds sec ((hsame sec).mpr hsec) off hoff
  · intro hkeeps sec hsec off hoff
    rw [← heffect sec ((hsame sec).mp hsec) off hoff]
    exact hkeeps sec ((hsame sec).mp hsec) off hoff

theorem AllCoherent.head {m : ℕ → Sector} {calls : List Call} (h : AllCoherent own st m calls) :
    Coherent own st m := by
  cases calls with
  | nil => exact h
  | cons c cs => exact h.1

theorem Call.Valid.of_capacity {fs fs₁ : FileSys} (hcap : fs₁.capacity = fs.capacity) {c : Call}
    (h : c.Valid fs) : c.Valid fs₁ := by
  cases c with
  | put sec ofs src => exact ⟨⟨hcap ▸ h.1.1, h.1.2⟩, h.2⟩
  | get sec ofs n => exact ⟨⟨hcap ▸ h.1.1, h.1.2⟩, h.2⟩

/-- From any state with the tags and the right content the states of a run are coherent just when
its calls are safe. -/
theorem allCoherent_iff (hown : ∀ sec, (own sec).1 ≠ 0) (calls : List Call) {m : ℕ → Sector}
    (h : Tags own st) (hholds : Holds st m) (hvalid : ∀ c ∈ calls, c.Valid st.fs) :
    AllCoherent own st m calls ↔ AllSafe own st calls := by
  induction calls generalizing st m with
  | nil => exact iff_of_true ((coherent_iff h).mpr hholds) trivial
  | cons c cs ih =>
    obtain ⟨r, hrun, htags, hcap, hkeeps⟩ := exec_spec h hown (hvalid c List.mem_cons_self)
    have hrest : ∀ c' ∈ cs, c'.Valid r.2.fs :=
      fun c' hc' => (hvalid c' (List.mem_cons_of_mem c hc')).of_capacity hcap
    have hnext := holds_effect hcap c hholds
    constructor
    · rintro ⟨-, r', hrun', hall⟩
      rw [hrun] at hrun'
      cases hrun'
      have hholds' := (coherent_iff htags).mp hall.head
      exact ⟨hkeeps.mp (hnext.mp hholds'), r, hrun, (ih htags hholds' hrest).mp hall⟩
    · rintro ⟨hsafe, r', hrun', hall⟩
      rw [hrun] at hrun'
      cases hrun'
      have hholds' := hnext.mpr (hkeeps.mpr hsafe)
      exact ⟨(coherent_iff h).mpr hholds, r, hrun, (ih htags hholds' hrest).mpr hall⟩

/-- After `cache_init` nothing is cached. -/
theorem start_tags (own : ℕ → ℤ × ℤ) (fs : FileSys) : Tags own (start fs) :=
  ⟨fun _ hne => absurd rfl hne, fun _ _ => rfl, fun _ _ hne => absurd rfl hne⟩

theorem start_holds (fs : FileSys) : Holds (start fs) fs.disk := by
  intro sec hsec off _
  have hnone : sector_to_cachei (start fs) sec = none :=
    sector_to_cachei_none.mpr (fun _ => hsec.ne_no_sector.symm)
  rw [current_of_uncached hnone]
  rfl

/-- **Buffer-cache coherence.** For every run of puts and gets after `cache_init`, on any number of
sectors of the disk, each used with one inode id and position: all states of the run are coherent
if and only if every call is safe in the state before it, which means that it evicts no clean slot
that differs from the disk, and that a put of part of an uncached sector leaves out only zeros. -/
theorem cache_coherent_iff (own : ℕ → ℤ × ℤ) (fs : FileSys) (calls : List Call)
    (hown : ∀ sec, (own sec).1 ≠ 0) (hvalid : ∀ c ∈ calls, c.Valid fs) :
    AllCoherent own (start fs) fs.disk calls ↔ AllSafe own (start fs) calls :=
  allCoherent_iff hown calls (start_tags own fs) (start_holds fs) hvalid

/-- A disk of eight sectors filled with ones. -/
def disk_of_ones : FileSys where
  disk := fun _ _ => 1
  free_map := ⟨8, fun _ => false⟩
  free_map_file := none
  indirect_sec_idx := fun _ => 0
  doubly_sec_parent := fun _ => 0
  doubly_sec_idx := fun _ => 0
  next_iid := 1

/-- Sector 5 is read and written in part. -/
theorem cache_coherent_iff_one :
    AllCoherent (fun _ => (1, 0)) (start disk_of_ones) disk_of_ones.disk
        [.get 5 0 512, .put 5 3 [7]]
      ↔ AllSafe (fun _ => (1, 0)) (start disk_of_ones) [.get 5 0 512, .put 5 3 [7]] := by
  refine cache_coherent_iff (fun _ => (1, 0)) disk_of_ones [.get 5 0 512, .put 5 3 [7]]
    (fun _ => one_ne_zero) (fun c hc => ?_)
  rcases List.mem_cons.mp hc with rfl | hc
  · exact ⟨⟨by decide, by decide⟩, by decide⟩
  · rw [List.mem_singleton.mp hc]
    exact ⟨⟨by decide, by decide⟩, by decide⟩

/-- One byte put to a sector that is not cached: the others are zeros from then on. -/
theorem partial_put_forgets :
    ¬AllCoherent (fun _ => (1, 0)) (start disk_of_ones) disk_of_ones.disk [.put 5 3 [7]] := by
  intro hall
  have hvalid : ∀ c ∈ [Call.put 5 3 [7]], c.Valid (start disk_of_ones).fs := by
    intro c hc
    rw [List.mem_singleton.mp hc]
    exact ⟨⟨by decide, by decide⟩, by decide⟩
  obtain ⟨hsafe, -⟩ := (allCoherent_iff (fun _ => one_ne_zero) _ (start_tags _ _)
    (start_holds _) hvalid).mp hall
  obtain ⟨-, hzeros⟩ := hsafe (fun i => (by decide : NO_SECTOR ≠ 5))
  exact absurd (hzeros 0 (by decide) (by decide)) (by decide)

end Pintos.Filesys.Cache
