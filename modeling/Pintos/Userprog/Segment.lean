/-
`userprog/process.c`: the segments of an executable.

`validate_segment` and the `PT_LOAD` case of `load` compute with 32-bit words, and so does
the loop of `load_segment`, which takes different amounts off two counters until both are
zero. The model computes with the same words. `segment_exact` says that nothing wraps and
what the pages hold once `page_fault` has filled them.

The loop has a bound on its rounds, past which it is taken not to end. Memory for an entry
is taken to be there.
-/
import Pintos.Threads.Vaddr
import Pintos.Vm.Paging

set_option autoImplicit false

namespace Pintos.Userprog.Segment

open Pintos.Threads.Vaddr

/-- A 32-bit word. -/
abbrev Word := BitVec 32

/-- `struct Elf32_Phdr`, the fields that the `PT_LOAD` case reads. -/
structure Elf32_Phdr where
  p_offset : Word
  p_vaddr : Word
  p_filesz : Word
  p_memsz : Word
  p_flags : Word

/-- `PF_W`. -/
def PF_W : Word := 2#32

/-- `ROUND_UP`. -/
def ROUND_UP (x step : Word) : Word := (x + step - 1#32) / step * step

/-- `validate_segment`. `file_length` is an `off_t` and is cast to `Elf32_Off`. -/
def validate_segment (phdr : Elf32_Phdr) (file : Vm.File) : Bool :=
  if phdr.p_offset &&& PGMASK ≠ phdr.p_vaddr &&& PGMASK then false
  else if BitVec.ofNat 32 file.length < phdr.p_offset then false
  else if phdr.p_memsz < phdr.p_filesz then false
  else if phdr.p_memsz = 0#32 then false
  else if ¬ is_user_vaddr phdr.p_vaddr then false
  else if ¬ is_user_vaddr (phdr.p_vaddr + phdr.p_memsz) then false
  else if phdr.p_vaddr + phdr.p_memsz < phdr.p_vaddr then false
  else true

/-- `struct sup_page_table_entry`, the fields that `load_segment` sets. -/
structure SupPage where
  user_vaddr : Addr
  load_executable : Bool
  loaded : Bool
  page_read_bytes : Word
  file_ofs : Word
  writable : Bool
  file_ptr : Vm.File
  swapped : Bool
  mmapped : Bool

/-- `hash_insert (&thread_current()->sup_page_table, …)`: the table has one entry for an
address and keeps the one it has. -/
def hash_insert (t : List SupPage) (e : SupPage) : List SupPage :=
  if t.any (fun x => x.user_vaddr == e.user_vaddr) then t else t ++ [e]

/-- The entry a round of the loop makes. -/
def new_exec_pg (file : Vm.File) (writable : Bool) (upage page_read_bytes offset : Word) :
    SupPage where
  user_vaddr := upage
  load_executable := true
  loaded := false
  page_read_bytes := page_read_bytes
  file_ofs := offset
  writable := writable
  file_ptr := file
  swapped := false
  mmapped := false

/-- `page_read_bytes`. -/
def page_read_bytes (read_bytes : Word) : Word :=
  if read_bytes < 4096#32 then read_bytes else 4096#32

/-- The `while` loop of `load_segment`. -/
def load_loop (file : Vm.File) (writable : Bool) : (fuel : ℕ) →
    (read_bytes zero_bytes upage offset : Word) → List SupPage → Res (List SupPage)
  | 0, _, _, _, _, _ => .error .diverge
  | fuel + 1, read_bytes, zero_bytes, upage, offset, t =>
    if 0#32 < read_bytes ∨ 0#32 < zero_bytes then
      let n := page_read_bytes read_bytes
      let page_zero_bytes := 4096#32 - n
      load_loop file writable fuel (read_bytes - n) (zero_bytes - page_zero_bytes)
        (upage + 4096#32) (offset + n) (hash_insert t (new_exec_pg file writable upage n offset))
    else .ok t

/-- `load_segment`; it returns true. -/
def load_segment (fuel : ℕ) (file : Vm.File) (ofs upage read_bytes zero_bytes : Word)
    (writable : Bool) (t : List SupPage) : Res (List SupPage) := do
  ASSERT ((read_bytes + zero_bytes) % 4096#32 = 0#32)
  ASSERT (pg_ofs upage = 0#32)
  ASSERT (ofs.toInt.tmod 4096 = 0)
  load_loop file writable fuel read_bytes zero_bytes upage ofs t

namespace Elf32_Phdr

/-- `page_offset`. -/
def page_offset (phdr : Elf32_Phdr) : Word := phdr.p_vaddr &&& PGMASK

/-- `read_bytes`: nothing is read for a segment that is entirely zero. -/
def read_bytes (phdr : Elf32_Phdr) : Word :=
  if 0#32 < phdr.p_filesz then phdr.page_offset + phdr.p_filesz else 0#32

/-- `zero_bytes`. -/
def zero_bytes (phdr : Elf32_Phdr) : Word :=
  if 0#32 < phdr.p_filesz then
    ROUND_UP (phdr.page_offset + phdr.p_memsz) 4096#32 - phdr.read_bytes
  else ROUND_UP (phdr.page_offset + phdr.p_memsz) 4096#32

end Elf32_Phdr

/-- The `PT_LOAD` case of `load`. The flag is false for `goto done`. -/
def load_phdr (fuel : ℕ) (phdr : Elf32_Phdr) (file : Vm.File) (t : List SupPage) :
    Res (Bool × List SupPage) :=
  if validate_segment phdr file then do
    let t ← load_segment fuel file (phdr.p_offset &&& ~~~ PGMASK) (phdr.p_vaddr &&& ~~~ PGMASK)
      phdr.read_bytes phdr.zero_bytes (phdr.p_flags &&& PF_W ≠ 0#32) t
    return (true, t)
  else .ok (false, t)

/-- What `page_fault` puts into the frame `kpage` for an entry that is not swapped out. A
frame that could not be read into is freed, which fills it. -/
def fill_page (e : SupPage) (kpage : Vm.Page) : Vm.Page :=
  let r := Vm.file_read_at e.file_ptr kpage e.page_read_bytes.toNat e.file_ofs.toNat
  let kpage := if r.1 ≠ e.page_read_bytes.toNat then fun _ => 0xcc else r.2
  Vm.zero_from e.page_read_bytes.toNat kpage

/-! ## What `validate_segment` accepts -/

section Valid

variable {phdr : Elf32_Phdr} {file : Vm.File}

/-- The header of a segment that is accepted, as numbers. -/
structure Valid (phdr : Elf32_Phdr) (file : Vm.File) : Prop where
  same_offset : phdr.p_offset.toNat % 4096 = phdr.p_vaddr.toNat % 4096
  in_file : phdr.p_offset.toNat ≤ file.length
  fits : phdr.p_filesz.toNat ≤ phdr.p_memsz.toNat
  nonempty : 0 < phdr.p_memsz.toNat
  user : phdr.p_vaddr.toNat + phdr.p_memsz.toNat < 0xc0000000

/-- The checks are on words; the sum of the last three does not wrap. -/
theorem validate_segment_valid (hlen : file.length < 2 ^ 31)
    (h : validate_segment phdr file = true) : Valid phdr file := by
  unfold validate_segment at h
  by_cases h1 : phdr.p_offset &&& PGMASK ≠ phdr.p_vaddr &&& PGMASK
  · rw [if_pos h1] at h
    cases h
  rw [if_neg h1] at h
  by_cases h2 : BitVec.ofNat 32 file.length < phdr.p_offset
  · rw [if_pos h2] at h
    cases h
  rw [if_neg h2] at h
  by_cases h3 : phdr.p_memsz < phdr.p_filesz
  · rw [if_pos h3] at h
    cases h
  rw [if_neg h3] at h
  by_cases h4 : phdr.p_memsz = 0#32
  · rw [if_pos h4] at h
    cases h
  rw [if_neg h4] at h
  by_cases h5 : is_user_vaddr phdr.p_vaddr
  · rw [if_neg (not_not_intro h5)] at h
    by_cases h6 : is_user_vaddr (phdr.p_vaddr + phdr.p_memsz)
    · rw [if_neg (not_not_intro h6)] at h
      by_cases h7 : phdr.p_vaddr + phdr.p_memsz < phdr.p_vaddr
      · rw [if_pos h7] at h
        cases h
      have hmask := congrArg BitVec.toNat (not_not.mp h1)
      have hofs : phdr.p_offset.toNat % 4096 = phdr.p_vaddr.toNat % 4096 := by
        rw [← pg_ofs_toNat, ← pg_ofs_toNat]
        exact hmask
      unfold is_user_vaddr at h5 h6
      rw [BitVec.lt_def, toNat_PHYS_BASE] at h5 h6
      rw [BitVec.lt_def, BitVec.toNat_ofNat] at h2
      rw [BitVec.lt_def] at h3 h7
      rw [BitVec.toNat_add] at h6 h7
      have hmem := phdr.p_memsz.isLt
      have hne : phdr.p_memsz.toNat ≠ 0 := by
        intro hzero
        exact h4 (BitVec.eq_of_toNat_eq hzero)
      exact ⟨hofs, by omega, by omega, by omega, by omega⟩
    · rw [if_pos h6] at h
      cases h
  · rw [if_pos h5] at h
    cases h

/-! ## The counters -/

/-- The pages of the segment. -/
def page_cnt (phdr : Elf32_Phdr) : ℕ :=
  (phdr.p_vaddr.toNat % 4096 + phdr.p_memsz.toNat + 4095) / 4096

theorem ROUND_UP_toNat {x : Word} (h : x.toNat + 4095 < 2 ^ 32) :
    (ROUND_UP x 4096#32).toNat = (x.toNat + 4095) / 4096 * 4096 := by
  have hsum : (x + 4096#32 - 1#32).toNat = x.toNat + 4095 := by
    rw [BitVec.toNat_sub, BitVec.toNat_add]
    simp only [BitVec.toNat_ofNat]
    omega
  have hstep : (4096#32).toNat = 4096 := rfl
  rw [ROUND_UP, BitVec.toNat_mul, BitVec.toNat_udiv, hsum, hstep]
  omega

theorem page_offset_toNat (phdr : Elf32_Phdr) :
    phdr.page_offset.toNat = phdr.p_vaddr.toNat % 4096 := pg_ofs_toNat _

/-- The bytes of the segment's pages that are read from the file. -/
theorem read_bytes_toNat (h : Valid phdr file) :
    phdr.read_bytes.toNat = if phdr.p_filesz.toNat = 0 then 0
      else phdr.p_vaddr.toNat % 4096 + phdr.p_filesz.toNat := by
  have huser := h.user
  have hfits := h.fits
  have hofs := page_offset_toNat phdr
  unfold Elf32_Phdr.read_bytes
  by_cases hzero : phdr.p_filesz.toNat = 0
  · rw [if_pos hzero, if_neg (by rw [BitVec.lt_def, hzero]; exact Nat.lt_irrefl 0)]
    rfl
  · rw [if_neg hzero, if_pos (by rw [BitVec.lt_def]; exact Nat.pos_of_ne_zero hzero),
      BitVec.toNat_add, hofs]
    omega

/-- The two counters make up whole pages: neither sum nor the difference wraps. -/
theorem counters_toNat (h : Valid phdr file) :
    phdr.read_bytes.toNat + phdr.zero_bytes.toNat = 4096 * page_cnt phdr := by
  have huser := h.user
  have hfits := h.fits
  have hofs := page_offset_toNat phdr
  have hread := read_bytes_toNat h
  have hmem : (phdr.page_offset + phdr.p_memsz).toNat =
      phdr.p_vaddr.toNat % 4096 + phdr.p_memsz.toNat := by
    rw [BitVec.toNat_add, hofs]
    omega
  have hup := @ROUND_UP_toNat (phdr.page_offset + phdr.p_memsz) (by omega)
  rw [hmem] at hup
  unfold Elf32_Phdr.zero_bytes page_cnt
  by_cases hzero : phdr.p_filesz.toNat = 0
  · rw [if_pos hzero] at hread
    rw [if_neg (by rw [BitVec.lt_def, hzero]; exact Nat.lt_irrefl 0), hup, hread]
    omega
  · rw [if_neg hzero] at hread
    rw [if_pos (by rw [BitVec.lt_def]; exact Nat.pos_of_ne_zero hzero), BitVec.toNat_sub, hup]
    omega

end Valid

/-! ## The loop -/

section Loop

variable {file : Vm.File} {writable : Bool}

/-- The entry for page `i` of a segment. -/
def page_entry (file : Vm.File) (writable : Bool) (read_bytes upage ofs : Word) (i : ℕ) :
    SupPage :=
  new_exec_pg file writable (upage + BitVec.ofNat 32 (4096 * i))
    (BitVec.ofNat 32 (min (read_bytes.toNat - 4096 * i) 4096))
    (ofs + BitVec.ofNat 32 (min (4096 * i) read_bytes.toNat))

theorem hash_insert_new {t : List SupPage} {e : SupPage}
    (h : ∀ x ∈ t, x.user_vaddr ≠ e.user_vaddr) : hash_insert t e = t ++ [e] := by
  rw [hash_insert, if_neg]
  rw [List.any_eq_true]
  rintro ⟨x, hx, heq⟩
  exact h x hx (eq_of_beq heq)

/-- What a round leaves of the first counter. -/
theorem rest_toNat (read_bytes : Word) :
    (page_read_bytes read_bytes).toNat = min read_bytes.toNat 4096 ∧
      (read_bytes - page_read_bytes read_bytes).toNat =
        read_bytes.toNat - 4096 := by
  have hlt := read_bytes.isLt
  unfold page_read_bytes
  by_cases h : read_bytes < 4096#32
  · rw [if_pos h, BitVec.sub_self]
    rw [BitVec.lt_def] at h
    have h' : read_bytes.toNat < 4096 := h
    exact ⟨by omega, by rw [BitVec.toNat_ofNat]; omega⟩
  · rw [if_neg h, BitVec.toNat_sub]
    rw [BitVec.lt_def] at h
    have h' : ¬ read_bytes.toNat < 4096 := h
    simp only [BitVec.toNat_ofNat]
    exact ⟨by omega, by omega⟩

theorem next_page (upage : Word) (i : ℕ) : upage + 4096#32 + BitVec.ofNat 32 (4096 * i) =
    upage + BitVec.ofNat 32 (4096 * (i + 1)) := by
  rw [BitVec.add_assoc, ← BitVec.ofNat_add, Nat.mul_add, Nat.mul_one, Nat.add_comm 4096]

/-- The entries of the later pages, from where a round leaves off. -/
theorem page_entry_succ (read_bytes upage ofs : Word) (i : ℕ) :
    page_entry file writable (read_bytes - page_read_bytes read_bytes)
        (upage + 4096#32) (ofs + page_read_bytes read_bytes) i =
      page_entry file writable read_bytes upage ofs (i + 1) := by
  obtain ⟨hpage, hrest⟩ := rest_toNat read_bytes
  unfold page_entry
  have hofs : page_read_bytes read_bytes +
      BitVec.ofNat 32 (min (4096 * i) (read_bytes.toNat - 4096)) =
      BitVec.ofNat 32 (min (4096 * (i + 1)) read_bytes.toNat) := by
    apply BitVec.eq_of_toNat_eq
    have hlt := read_bytes.isLt
    rw [BitVec.toNat_add, hpage, BitVec.toNat_ofNat, BitVec.toNat_ofNat]
    omega
  have hread : read_bytes.toNat - 4096 - 4096 * i = read_bytes.toNat - 4096 * (i + 1) := by
    omega
  rw [hrest, next_page, BitVec.add_assoc ofs, hofs, hread]

/-- The entry of the first page. -/
theorem page_entry_zero (read_bytes upage ofs : Word) :
    new_exec_pg file writable upage (page_read_bytes read_bytes) ofs =
      page_entry file writable read_bytes upage ofs 0 := by
  obtain ⟨hpage, -⟩ := rest_toNat read_bytes
  unfold page_entry
  have hread : (page_read_bytes read_bytes) =
      BitVec.ofNat 32 (min (read_bytes.toNat - 4096 * 0) 4096) := by
    apply BitVec.eq_of_toNat_eq
    rw [hpage, BitVec.toNat_ofNat]
    omega
  rw [hread, Nat.mul_zero, Nat.zero_min, BitVec.add_zero, BitVec.add_zero]

/-- **The loop** makes one entry for each page and ends with both counters at zero. The
induction is on the pages left. -/
theorem load_loop_spec : ∀ (n fuel : ℕ) (read_bytes zero_bytes upage ofs : Word)
    (t : List SupPage), n < fuel → read_bytes.toNat + zero_bytes.toNat = 4096 * n →
    upage.toNat + 4096 * n ≤ 2 ^ 32 →
    (∀ x ∈ t, ∀ i < n, x.user_vaddr ≠ upage + BitVec.ofNat 32 (4096 * i)) →
    load_loop file writable fuel read_bytes zero_bytes upage ofs t =
      .ok (t ++ (List.range n).map (page_entry file writable read_bytes upage ofs)) := by
  intro n
  induction n with
  | zero =>
    intro fuel read_bytes zero_bytes upage ofs t hfuel hsum _ _
    obtain ⟨fuel, rfl⟩ := Nat.exists_eq_succ_of_ne_zero (by omega : fuel ≠ 0)
    rw [load_loop, if_neg, List.range_zero, List.map_nil, List.append_nil]
    rw [BitVec.lt_def, BitVec.lt_def]
    have hzero : (0#32).toNat = 0 := rfl
    omega
  | succ n ih =>
    intro fuel read_bytes zero_bytes upage ofs t hfuel hsum hup hnew
    obtain ⟨fuel, rfl⟩ := Nat.exists_eq_succ_of_ne_zero (by omega : fuel ≠ 0)
    obtain ⟨hpage, hrest⟩ := rest_toNat read_bytes
    have hcond : 0#32 < read_bytes ∨ 0#32 < zero_bytes := by
      rw [BitVec.lt_def, BitVec.lt_def]
      have hzero : (0#32).toNat = 0 := rfl
      omega
    rw [load_loop, if_pos hcond]
    dsimp only
    rw [hash_insert_new (fun x hx => by
      have hne := hnew x hx 0 (Nat.succ_pos n)
      rwa [Nat.mul_zero, BitVec.add_zero] at hne)]
    have hzb : (zero_bytes - (4096#32 - page_read_bytes read_bytes)).toNat =
        zero_bytes.toNat - (4096 - read_bytes.toNat) := by
      have hlt := zero_bytes.isLt
      rw [BitVec.toNat_sub, BitVec.toNat_sub, hpage]
      simp only [BitVec.toNat_ofNat]
      omega
    rw [ih fuel _ (zero_bytes - (4096#32 - page_read_bytes read_bytes)) (upage + 4096#32)
      (ofs + page_read_bytes read_bytes)
      (t ++ [new_exec_pg file writable upage (page_read_bytes read_bytes) ofs])
      (by omega) (by rw [hrest, hzb]; omega) ?_ ?_]
    · have hlater : (List.range n).map (page_entry file writable
          (read_bytes - page_read_bytes read_bytes) (upage + 4096#32)
          (ofs + page_read_bytes read_bytes)) =
          (List.range n).map (page_entry file writable read_bytes upage ofs ∘ Nat.succ) :=
        List.map_congr_left fun i _ => page_entry_succ read_bytes upage ofs i
      rw [hlater, List.append_assoc, List.singleton_append, page_entry_zero,
        List.range_succ_eq_map, List.map_cons, List.map_map]
    · rw [BitVec.toNat_add]
      simp only [BitVec.toNat_ofNat]
      omega
    · intro x hx i hi
      rw [next_page]
      rcases List.mem_append.mp hx with hold | hone
      · exact hnew x hold (i + 1) (by omega)
      · rw [List.mem_singleton.mp hone]
        intro heq
        have hnat := congrArg BitVec.toNat heq
        have hself : (new_exec_pg file writable upage (page_read_bytes read_bytes)
            ofs).user_vaddr = upage := rfl
        rw [hself, toNat_add_ofNat (by omega)] at hnat
        omega

end Loop

/-! ## The pages of a segment -/

section Pages

variable {phdr : Elf32_Phdr} {file : Vm.File} {writable : Bool} {t : List SupPage}

/-- The entry for page `i` of the segment of a header. -/
def segment_page (phdr : Elf32_Phdr) (file : Vm.File) (writable : Bool) (i : ℕ) : SupPage :=
  page_entry file writable phdr.read_bytes (pg_round_down phdr.p_vaddr)
    (pg_round_down phdr.p_offset) i

theorem pg_round_down_toNat (va : Addr) : (pg_round_down va).toNat = va.toNat / 4096 * 4096 :=
  toNat_and_not_PGMASK va

/-- The last page starts below `PHYS_BASE`. -/
theorem page_lt (h : Valid phdr file) {i : ℕ} (hi : i < page_cnt phdr) :
    phdr.p_vaddr.toNat / 4096 * 4096 + 4096 * i < 0xc0000000 := by
  have huser := h.user
  unfold page_cnt at hi
  omega

theorem user_vaddr_toNat (h : Valid phdr file) {i : ℕ} (hi : i < page_cnt phdr) :
    (segment_page phdr file writable i).user_vaddr.toNat =
      phdr.p_vaddr.toNat / 4096 * 4096 + 4096 * i := by
  have hlt := page_lt h hi
  have hdown := pg_round_down_toNat phdr.p_vaddr
  change (pg_round_down phdr.p_vaddr + BitVec.ofNat 32 (4096 * i)).toNat = _
  rw [toNat_add_ofNat (by omega), hdown]

/-- The numbers of the entry: nothing is read past `p_offset + p_filesz`. -/
theorem page_reads (h : Valid phdr file)
    (hfile : phdr.p_offset.toNat + phdr.p_filesz.toNat ≤ file.length)
    (hlen : file.length < 2 ^ 31) (i : ℕ) :
    (segment_page phdr file writable i).page_read_bytes.toNat =
        min (phdr.read_bytes.toNat - 4096 * i) 4096 ∧
      (segment_page phdr file writable i).file_ofs.toNat =
        phdr.p_offset.toNat / 4096 * 4096 + min (4096 * i) phdr.read_bytes.toNat ∧
      (phdr.p_filesz.toNat ≠ 0 → phdr.p_offset.toNat / 4096 * 4096 + phdr.read_bytes.toNat =
        phdr.p_offset.toNat + phdr.p_filesz.toNat) := by
  have hread := read_bytes_toNat h
  have hsame := h.same_offset
  have hdown := pg_round_down_toNat phdr.p_offset
  have hsum : phdr.p_filesz.toNat ≠ 0 →
      phdr.p_offset.toNat / 4096 * 4096 + phdr.read_bytes.toNat =
        phdr.p_offset.toNat + phdr.p_filesz.toNat := by
    intro hne
    rw [if_neg hne] at hread
    omega
  refine ⟨?_, ?_, hsum⟩
  · change (BitVec.ofNat 32 (min (phdr.read_bytes.toNat - 4096 * i) 4096)).toNat = _
    rw [BitVec.toNat_ofNat]
    omega
  · change (pg_round_down phdr.p_offset +
      BitVec.ofNat 32 (min (4096 * i) phdr.read_bytes.toNat)).toNat = _
    have hin := h.in_file
    by_cases hzero : phdr.p_filesz.toNat = 0
    · rw [if_pos hzero] at hread
      rw [toNat_add_ofNat (by omega), hdown]
    · have := hsum hzero
      rw [toNat_add_ofNat (by omega), hdown]

/-- **A page as `page_fault` fills it**, whatever the frame held. -/
theorem fill_segment_page (h : Valid phdr file)
    (hfile : phdr.p_offset.toNat + phdr.p_filesz.toNat ≤ file.length)
    (hlen : file.length < 2 ^ 31) (i : ℕ) (kpage : Vm.Page) {j : ℕ} (hj : j < 4096) :
    fill_page (segment_page phdr file writable i) kpage j =
      if 4096 * i + j < phdr.read_bytes.toNat then
        file.data (phdr.p_offset.toNat / 4096 * 4096 + (4096 * i + j))
      else 0 := by
  obtain ⟨hn, hofs, hsum⟩ := @page_reads phdr file writable h hfile hlen i
  have hP : Vm.PGSIZE = 4096 := rfl
  have hread := read_bytes_toNat h
  unfold fill_page Vm.file_read_at Vm.zero_from
  rw [hn, hofs]
  dsimp only
  -- the read is complete
  have hfull : min (min (phdr.read_bytes.toNat - 4096 * i) 4096)
      (file.length - (phdr.p_offset.toNat / 4096 * 4096 + min (4096 * i) phdr.read_bytes.toNat)) =
      min (phdr.read_bytes.toNat - 4096 * i) 4096 := by
    by_cases hzero : phdr.p_filesz.toNat = 0
    · rw [if_pos hzero] at hread
      omega
    · have := hsum hzero
      omega
  have hptr : (segment_page phdr file writable i).file_ptr = file := rfl
  rw [hptr, hfull, if_neg (not_not_intro rfl)]
  by_cases hin : 4096 * i + j < phdr.read_bytes.toNat
  · have hlow : ¬ (min (phdr.read_bytes.toNat - 4096 * i) 4096 ≤ j ∧ j < Vm.PGSIZE) := by omega
    have hchunk : j < min (phdr.read_bytes.toNat - 4096 * i) 4096 := by omega
    rw [if_pos hin, if_neg hlow, if_pos hchunk,
      show min (4096 * i) phdr.read_bytes.toNat = 4096 * i by omega, Nat.add_assoc]
  · have hhigh : min (phdr.read_bytes.toNat - 4096 * i) 4096 ≤ j ∧ j < Vm.PGSIZE := by omega
    rw [if_neg hin, if_pos hhigh]

/-- Offset and address move together: `p_offset` and `p_vaddr` lie alike in their pages. -/
theorem file_index {o a i v : ℕ} (hsame : o % 4096 = a % 4096)
    (hpage : a / 4096 * 4096 + 4096 * i = v / 4096 * 4096) (hlo : a ≤ v) :
    o / 4096 * 4096 + (4096 * i + v % 4096) = o + (v - a) := by
  have ho := Nat.div_add_mod o 4096
  have ha := Nat.div_add_mod a 4096
  have hv := Nat.div_add_mod v 4096
  have hdiff : 4096 * i + v % 4096 = a % 4096 + (v - a) := by
    obtain ⟨d, rfl⟩ := Nat.exists_eq_add_of_le hlo
    rw [Nat.add_sub_cancel_left]
    generalize (a + d) / 4096 = n at *
    generalize (a + d) % 4096 = s at *
    generalize a / 4096 = m at *
    linarith
  rw [hdiff, ← hsame, ← Nat.add_assoc, Nat.mul_comm, ho]

/-- What `load` makes of a segment: the entries `l`, which the loop adds in a bounded
number of rounds. -/
structure Loaded (phdr : Elf32_Phdr) (file : Vm.File) (t l : List SupPage) : Prop where
  read_bytes : phdr.read_bytes.toNat = if phdr.p_filesz.toNat = 0 then 0
    else phdr.p_vaddr.toNat % 4096 + phdr.p_filesz.toNat
  zero_bytes : phdr.read_bytes.toNat + phdr.zero_bytes.toNat =
    (phdr.p_vaddr.toNat % 4096 + phdr.p_memsz.toNat + 4095) / 4096 * 4096
  runs : ∃ rounds, ∀ fuel, rounds < fuel → load_phdr fuel phdr file t = .ok (true, t ++ l)
  distinct : (l.map SupPage.user_vaddr).Nodup
  user : ∀ e ∈ l, pg_ofs e.user_vaddr = 0#32 ∧ is_user_vaddr e.user_vaddr
  covers : ∀ v : Addr, phdr.p_vaddr.toNat ≤ v.toNat →
    v.toNat < phdr.p_vaddr.toNat + phdr.p_memsz.toNat → ∃ e ∈ l, e.user_vaddr = pg_round_down v
  fills : ∀ e ∈ l, ∀ (kpage : Vm.Page) (v : Addr), e.user_vaddr = pg_round_down v →
    phdr.p_vaddr.toNat ≤ v.toNat → v.toNat < phdr.p_vaddr.toNat + phdr.p_memsz.toNat →
    fill_page e kpage (pg_ofs v).toNat =
      if v.toNat < phdr.p_vaddr.toNat + phdr.p_filesz.toNat then
        file.data (phdr.p_offset.toNat + (v.toNat - phdr.p_vaddr.toNat))
      else 0

/-- Page `i` of the segment holds an address of it. -/
theorem exists_mem_page (h : Valid phdr file) {i : ℕ} (hi : i < page_cnt phdr) :
    ∃ v : Addr, phdr.p_vaddr.toNat ≤ v.toNat ∧
      v.toNat < phdr.p_vaddr.toNat + phdr.p_memsz.toNat ∧
      pg_round_down v = (segment_page phdr file writable i).user_vaddr := by
  have huser := h.user
  have hpos := h.nonempty
  have hcnt := hi
  unfold page_cnt at hcnt
  have hv : (BitVec.ofNat 32 (max phdr.p_vaddr.toNat
      (phdr.p_vaddr.toNat / 4096 * 4096 + 4096 * i))).toNat =
      max phdr.p_vaddr.toNat (phdr.p_vaddr.toNat / 4096 * 4096 + 4096 * i) := by
    rw [BitVec.toNat_ofNat]
    omega
  refine ⟨_, by rw [hv]; omega, by rw [hv]; omega, ?_⟩
  apply BitVec.eq_of_toNat_eq
  rw [pg_round_down_toNat, hv, user_vaddr_toNat h hi]
  rcases Nat.eq_zero_or_pos i with rfl | hipos <;> omega

/-- The assertions of `load_segment` hold, and its loop adds the pages. -/
theorem load_phdr_spec (h : Valid phdr file) (hvalid : validate_segment phdr file = true)
    (hnew : ∀ x ∈ t, ∀ v : Addr, phdr.p_vaddr.toNat ≤ v.toNat →
      v.toNat < phdr.p_vaddr.toNat + phdr.p_memsz.toNat → x.user_vaddr ≠ pg_round_down v)
    (hlen : file.length < 2 ^ 31) {fuel : ℕ} (hfuel : page_cnt phdr < fuel) :
    load_phdr fuel phdr file t = .ok (true, t ++ (List.range (page_cnt phdr)).map
      (segment_page phdr file (phdr.p_flags &&& PF_W ≠ 0#32))) := by
  have huser := h.user
  have hsum := counters_toNat h
  have hcnt : page_cnt phdr = (phdr.p_vaddr.toNat % 4096 + phdr.p_memsz.toNat + 4095) / 4096 :=
    rfl
  have hdown := pg_round_down_toNat phdr.p_vaddr
  have hofs := pg_round_down_toNat phdr.p_offset
  have hin := h.in_file
  have hwhole : (phdr.read_bytes + phdr.zero_bytes) % 4096#32 = 0#32 := by
    apply BitVec.eq_of_toNat_eq
    have hstep : (4096#32).toNat = 4096 := rfl
    rw [BitVec.toNat_umod, BitVec.toNat_add, hsum, hstep, BitVec.toNat_ofNat]
    omega
  have hpage : pg_ofs (pg_round_down phdr.p_vaddr) = 0#32 := by
    apply BitVec.eq_of_toNat_eq
    rw [pg_ofs_toNat, hdown, BitVec.toNat_ofNat]
    omega
  have halign : (pg_round_down phdr.p_offset).toInt.tmod 4096 = 0 := by
    rw [BitVec.toInt_eq_toNat_of_lt (by omega), hofs, Int.tmod_eq_emod_of_nonneg (by omega)]
    omega
  have hrun := @load_loop_spec file (phdr.p_flags &&& PF_W ≠ 0#32) (page_cnt phdr) fuel
    phdr.read_bytes phdr.zero_bytes (pg_round_down phdr.p_vaddr) (pg_round_down phdr.p_offset) t
    hfuel hsum (by rw [hdown]; omega) (by
      intro x hx i hi
      obtain ⟨v, hlo, hhi, hv⟩ := @exists_mem_page phdr file true h i hi
      exact fun heq => hnew x hx v hlo hhi (heq.trans hv.symm))
  unfold load_phdr load_segment
  rw [if_pos hvalid]
  change ((do
    ASSERT ((phdr.read_bytes + phdr.zero_bytes) % 4096#32 = 0#32)
    ASSERT (pg_ofs (pg_round_down phdr.p_vaddr) = 0#32)
    ASSERT ((pg_round_down phdr.p_offset).toInt.tmod 4096 = 0)
    load_loop file (phdr.p_flags &&& PF_W ≠ 0#32) fuel phdr.read_bytes phdr.zero_bytes
      (pg_round_down phdr.p_vaddr) (pg_round_down phdr.p_offset) t) >>= fun t =>
        .ok (true, t) : Res (Bool × List SupPage)) = _
  rw [ASSERT_pos hwhole, ok_bind, ASSERT_pos hpage, ok_bind, ASSERT_pos halign, ok_bind, hrun]
  rfl

/-- **Segment loading is exact.** A header that `validate_segment` accepts, with its bytes
inside the file and its pages new, gives distinct user pages that cover the segment and are
filled with the file's bytes and with zeros behind them. -/
theorem segment_exact (hlen : file.length < 2 ^ 31)
    (hvalid : validate_segment phdr file = true)
    (hfile : phdr.p_offset.toNat + phdr.p_filesz.toNat ≤ file.length)
    (hnew : ∀ x ∈ t, ∀ v : Addr, phdr.p_vaddr.toNat ≤ v.toNat →
      v.toNat < phdr.p_vaddr.toNat + phdr.p_memsz.toNat → x.user_vaddr ≠ pg_round_down v) :
    ∃ l, Loaded phdr file t l := by
  have h := validate_segment_valid hlen hvalid
  have hread := read_bytes_toNat h
  have hsame := h.same_offset
  set writable : Bool := decide (phdr.p_flags &&& PF_W ≠ 0#32) with hw
  have hmem : ∀ e ∈ (List.range (page_cnt phdr)).map (segment_page phdr file writable),
      ∃ i < page_cnt phdr, segment_page phdr file writable i = e := by
    intro e he
    obtain ⟨i, hi, rfl⟩ := List.mem_map.mp he
    exact ⟨i, List.mem_range.mp hi, rfl⟩
  refine ⟨(List.range (page_cnt phdr)).map (segment_page phdr file writable), hread, ?_,
    ⟨page_cnt phdr, fun fuel hfuel => load_phdr_spec h hvalid hnew hlen hfuel⟩, ?_, ?_, ?_, ?_⟩
  · rw [counters_toNat h, Nat.mul_comm]
    rfl
  · rw [List.map_map]
    refine List.Nodup.map_on ?_ List.nodup_range
    intro i hi k hk heq
    have hnat := congrArg BitVec.toNat heq
    simp only [Function.comp_apply] at hnat
    rw [user_vaddr_toNat h (List.mem_range.mp hi), user_vaddr_toNat h (List.mem_range.mp hk)]
      at hnat
    omega
  · intro e he
    obtain ⟨i, hi, rfl⟩ := hmem e he
    have hlt := page_lt h hi
    have hnat := @user_vaddr_toNat phdr file writable h i hi
    constructor
    · apply BitVec.eq_of_toNat_eq
      rw [pg_ofs_toNat, hnat, BitVec.toNat_ofNat]
      omega
    · rw [is_user_vaddr, BitVec.lt_def, toNat_PHYS_BASE, hnat]
      exact hlt
  · intro v hlo hhi
    have hi : (v.toNat - phdr.p_vaddr.toNat / 4096 * 4096) / 4096 < page_cnt phdr := by
      unfold page_cnt
      omega
    refine ⟨_, List.mem_map.mpr ⟨_, List.mem_range.mpr hi, rfl⟩, ?_⟩
    apply BitVec.eq_of_toNat_eq
    rw [user_vaddr_toNat h hi, pg_round_down_toNat]
    omega
  · intro e he kpage v hv hlo hhi
    obtain ⟨i, hi, rfl⟩ := hmem e he
    have hnat := congrArg BitVec.toNat hv
    rw [user_vaddr_toNat h hi, pg_round_down_toNat] at hnat
    rw [fill_segment_page h hfile hlen i kpage (by rw [pg_ofs_toNat]; omega), pg_ofs_toNat]
    -- the address is byte `4096 * i + v % 4096` of the pages
    by_cases hin : v.toNat < phdr.p_vaddr.toNat + phdr.p_filesz.toNat
    · rw [if_neg (by omega)] at hread
      rw [if_pos hin, if_pos (by omega), file_index hsame hnat hlo]
    · rw [if_neg hin, if_neg]
      by_cases hzero : phdr.p_filesz.toNat = 0
      · rw [if_pos hzero] at hread
        omega
      · rw [if_neg hzero] at hread
        omega

/-- The call of `load_segment` for a header, over page numbers. -/
def Elf32_Phdr.segment (phdr : Elf32_Phdr) : Vm.Segment where
  ofs := phdr.p_offset.toNat / 4096 * 4096
  upage := phdr.p_vaddr.toNat / 4096
  read_bytes := phdr.read_bytes.toNat
  zero_bytes := phdr.zero_bytes.toNat
  writable := phdr.p_flags &&& PF_W ≠ 0#32

/-- The entries of the words are those of the paging model, page for page. -/
theorem segment_entry_agrees (h : Valid phdr file)
    (hfile : phdr.p_offset.toNat + phdr.p_filesz.toNat ≤ file.length)
    (hlen : file.length < 2 ^ 31) {i : ℕ} (hi : i < page_cnt phdr) (n : ℕ) (junk : Vm.Spte) :
    (Vm.segment_entry n phdr.segment i junk).user_vaddr * 4096 =
        (segment_page phdr file phdr.segment.writable i).user_vaddr.toNat ∧
      (Vm.segment_entry n phdr.segment i junk).page_read_bytes =
        (segment_page phdr file phdr.segment.writable i).page_read_bytes.toNat ∧
      (Vm.segment_entry n phdr.segment i junk).file_ofs =
        (segment_page phdr file phdr.segment.writable i).file_ofs.toNat ∧
      (Vm.segment_entry n phdr.segment i junk).writable =
        (segment_page phdr file phdr.segment.writable i).writable := by
  obtain ⟨hread, hofs, -⟩ := @page_reads phdr file phdr.segment.writable h hfile hlen i
  have hP : Vm.PGSIZE = 4096 := rfl
  rw [user_vaddr_toNat h hi, hread, hofs]
  refine ⟨?_, ?_, ?_, rfl⟩
  · change (phdr.p_vaddr.toNat / 4096 + i) * 4096 = _
    rw [Nat.add_mul, Nat.mul_comm i]
  · change min (phdr.read_bytes.toNat - i * Vm.PGSIZE) Vm.PGSIZE = _
    rw [hP, Nat.mul_comm i]
  · change phdr.p_offset.toNat / 4096 * 4096 + min (i * Vm.PGSIZE) phdr.read_bytes.toNat = _
    rw [hP, Nat.mul_comm i]

end Pages

/-- A file of 10000 bytes. -/
def small_file : Vm.File := ⟨10000, fun i => UInt8.ofNat i, 0⟩

/-- A segment of 9000 bytes, of which 5000 are in the file, that starts inside a page. -/
def small_phdr : Elf32_Phdr := ⟨0x1100#32, 0x08048100#32, 5000#32, 9000#32, 6#32⟩

theorem segment_exact_small : ∃ l, Loaded small_phdr small_file [] l :=
  segment_exact (by decide) (by decide) (by decide) (fun x hx => by cases hx)

end Pintos.Userprog.Segment
