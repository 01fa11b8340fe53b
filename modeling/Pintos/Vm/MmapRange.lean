/-
Where `mmap` puts a file.

The address is a 32-bit word and `addr + i * PGSIZE` wraps around. `mmap` looks up an entry for
every page of the range, which is right for all pages that have one. The page `setup_stack`
maps has none; the code compares the first address with it, and no other. Nothing compares
the end of the range with `PHYS_BASE`.
-/
import Pintos.Vm.Isolation

set_option autoImplicit false

namespace Pintos.Vm

open Pintos.Kernel StepSystem

/-- `PHYS_BASE`. -/
def PHYS_BASE : ℕ := PHYS_PAGES * PGSIZE

/-- The page of a 32-bit address, page `i` from `addr` on. -/
def page_from (addr i : ℕ) : ℕ := (addr / PGSIZE + i) % 2 ^ 20

/-- The pages a file of this length takes. -/
def page_cnt (file_len : ℕ) : ℕ := (file_len + PGSIZE - 1) / PGSIZE

/-- Entry `i` of the loop that makes them. -/
def new_file_pg (addr file mid file_len i : ℕ) (junk : Spte) : Spte :=
  { mmap_entry 0 file mid file_len (page_cnt file_len) i junk with user_vaddr := page_from addr i }

/-- `mmap`, with what it returns. -/
def mmap_call (s : Mem) (p fd addr : ℕ) (junk : ℕ → Spte) : ℤ × Mem :=
  if fd = 0 ∨ fd = 1 then (-1, s)
  else if addr % PGSIZE ≠ 0 then (-1, s)
  else if addr = 0 then (-1, s)
  else
    match (s.procs p).fd_list.find? (fun d => d.fd == fd) with
    | none => (-1, s)
    | some temp =>
      let file_len := (s.files temp.file_ptr).length
      if file_len = 0 then (-1, s)
      else if (List.range (page_cnt file_len)).any
          (fun i => (page_lookup s p (page_from addr i)).isSome) then (-1, s)
      else if addr = PHYS_BASE - 4096 then (-1, s)
      else
        let mid := s.next_mid
        let s := { s with next_mid := mid + 1 }
        let s := s.upd p (fun t => { t with fd_list := t.fd_list.map (fun g =>
          if g.fd = fd then { g with mmapped := true, mapid := mid, vaddr := addr / PGSIZE }
          else g) })
        (mid, (List.range (page_cnt file_len)).foldl (fun s i =>
          insert_page s p (new_file_pg addr temp.file_ptr mid file_len i (junk i))) s)

theorem any_congr {α : Type} {f g : α → Bool} {l : List α} (h : ∀ a ∈ l, f a = g a) :
    l.any f = l.any g := by
  induction l with
  | nil => rfl
  | cons a rest ih =>
    rw [List.any_cons, List.any_cons, h a List.mem_cons_self,
      ih fun b hb => h b (List.mem_cons_of_mem _ hb)]

/-- On a range that does not wrap around it is the `mmap` of the paging system, for the
descriptors there are. -/
theorem mmap_call_eq {s : Mem} {p fd addr : ℕ} {junk : ℕ → Spte} (hfd : 2 ≤ fd)
    (haddr : addr % PGSIZE = 0) (hrange : ∀ d ∈ (s.procs p).fd_list, d.fd = fd →
      addr / PGSIZE + page_cnt (s.files d.file_ptr).length ≤ 2 ^ 20) :
    (mmap_call s p fd addr junk).2 = mmap s p fd (addr / PGSIZE) junk := by
  have hzero : addr = 0 ↔ addr / PGSIZE = 0 := by
    unfold PGSIZE at *
    omega
  have htop : addr = PHYS_BASE - 4096 ↔ addr / PGSIZE = PHYS_PAGES - 1 := by
    unfold PHYS_BASE PHYS_PAGES PGSIZE at *
    omega
  unfold mmap_call mmap
  rw [if_neg (by omega), if_neg (by omega)]
  cases hd : (s.procs p).fd_list.find? (fun d => d.fd == fd) with
  | none =>
    dsimp only
    split_ifs <;> rfl
  | some temp =>
    have hpage : ∀ i ∈ List.range (page_cnt (s.files temp.file_ptr).length),
        page_from addr i = addr / PGSIZE + i := by
      intro i hi
      have hle := hrange temp (List.mem_of_find?_eq_some hd) (by simpa using List.find?_some hd)
      have hi' := List.mem_range.mp hi
      exact Nat.mod_eq_of_lt (by omega)
    have hany : (List.range (page_cnt (s.files temp.file_ptr).length)).any
          (fun i => (page_lookup s p (page_from addr i)).isSome) =
        (List.range (page_cnt (s.files temp.file_ptr).length)).any
          (fun i => (page_lookup s p (addr / PGSIZE + i)).isSome) :=
      any_congr fun i hi => by rw [hpage i hi]
    have hentries : ∀ t : Mem, (List.range (page_cnt (s.files temp.file_ptr).length)).foldl
          (fun t i => insert_page t p (new_file_pg addr temp.file_ptr s.next_mid
            (s.files temp.file_ptr).length i (junk i))) t =
        (List.range (page_cnt (s.files temp.file_ptr).length)).foldl
          (fun t i => insert_page t p (mmap_entry (addr / PGSIZE) temp.file_ptr s.next_mid
            (s.files temp.file_ptr).length (page_cnt (s.files temp.file_ptr).length) i
            (junk i))) t := fun t => by
      refine List.foldl_ext _ _ t fun t i hi => ?_
      unfold new_file_pg
      rw [hpage i hi]
      rfl
    have hcnt : ((s.files temp.file_ptr).length + PGSIZE - 1) / PGSIZE =
        page_cnt (s.files temp.file_ptr).length := rfl
    dsimp only
    rw [hany, hcnt]
    by_cases h0 : addr = 0
    · rw [if_pos h0, if_pos (Or.inl (hzero.mp h0))]
    rw [if_neg h0]
    by_cases hlen : (s.files temp.file_ptr).length = 0
    · rw [if_pos hlen, if_pos (Or.inr (Or.inl hlen))]
    rw [if_neg hlen]
    by_cases hlook : (List.range (page_cnt (s.files temp.file_ptr).length)).any
        (fun i => (page_lookup s p (addr / PGSIZE + i)).isSome) = true
    · rw [if_pos hlook, if_pos (Or.inr (Or.inr (Or.inr hlook)))]
    rw [if_neg hlook]
    by_cases hstack : addr = PHYS_BASE - 4096
    · rw [if_pos hstack, if_pos (Or.inr (Or.inr (Or.inl (htop.mp hstack))))]
    rw [if_neg hstack, if_neg]
    · exact hentries _
    · rintro (h | h | h | h)
      · exact h0 (hzero.mpr h)
      · exact hlen h
      · exact hstack (htop.mpr h)
      · exact hlook h

/-- The page is part of the process's address space: it has an entry, or it is the page that
`setup_stack` maps. -/
def InSpace (s : Mem) (p v : ℕ) : Prop := (page_lookup s p v).isSome ∨ v = PHYS_PAGES - 1

/-- `mmap` returns a mapping only for pages below `PHYS_BASE` that are not part of the address
space yet, and -1 with nothing changed. -/
def MmapApart (s : Mem) (p fd addr : ℕ) (junk : ℕ → Spte) : Prop :=
  ((mmap_call s p fd addr junk).1 ≠ -1 → ∃ d, (s.procs p).fd_list.find? (fun d => d.fd == fd) =
      some d ∧ ∀ i < page_cnt (s.files d.file_ptr).length,
        addr / PGSIZE + i < PHYS_PAGES ∧ ¬ InSpace s p (addr / PGSIZE + i)) ∧
    ((mmap_call s p fd addr junk).1 = -1 → (mmap_call s p fd addr junk).2 = s)

/-! ## When it does -/

/-- One of the checks turns the call down. -/
def Refused (s : Mem) (p fd addr : ℕ) : Prop :=
  fd = 0 ∨ fd = 1 ∨ addr % PGSIZE ≠ 0 ∨ addr = 0 ∨
    ∀ d, (s.procs p).fd_list.find? (fun d => d.fd == fd) = some d →
      (s.files d.file_ptr).length = 0 ∨
      (∃ i < page_cnt (s.files d.file_ptr).length, (page_lookup s p (page_from addr i)).isSome) ∨
      addr = PHYS_BASE - 4096

variable {s : Mem} {p fd addr : ℕ} {junk : ℕ → Spte}

theorem mmap_call_refused (h : Refused s p fd addr) : mmap_call s p fd addr junk = (-1, s) := by
  unfold mmap_call
  by_cases hfd : fd = 0 ∨ fd = 1
  · rw [if_pos hfd]
  rw [if_neg hfd]
  by_cases halign : addr % PGSIZE ≠ 0
  · rw [if_pos halign]
  rw [if_neg halign]
  by_cases hzero : addr = 0
  · rw [if_pos hzero]
  rw [if_neg hzero]
  cases hd : (s.procs p).fd_list.find? (fun d => d.fd == fd) with
  | none => rfl
  | some d =>
    have hcheck : (s.files d.file_ptr).length = 0 ∨
        (∃ i < page_cnt (s.files d.file_ptr).length,
          (page_lookup s p (page_from addr i)).isSome) ∨ addr = PHYS_BASE - 4096 := by
      rcases h with h | h | h | h | h
      · exact absurd (Or.inl h) hfd
      · exact absurd (Or.inr h) hfd
      · exact absurd h halign
      · exact absurd h hzero
      · exact h d hd
    dsimp only
    by_cases hlen : (s.files d.file_ptr).length = 0
    · rw [if_pos hlen]
    rw [if_neg hlen]
    by_cases hlook : (List.range (page_cnt (s.files d.file_ptr).length)).any
        (fun i => (page_lookup s p (page_from addr i)).isSome) = true
    · rw [if_pos hlook]
    rw [if_neg hlook, if_pos]
    rcases hcheck with hc | ⟨i, hi, hc⟩ | hc
    · exact absurd hc hlen
    · exact absurd (List.any_eq_true.mpr ⟨i, List.mem_range.mpr hi, hc⟩) hlook
    · exact hc

/-- A call that no check turns down makes a mapping. -/
theorem mmap_call_made (h : ¬ Refused s p fd addr) : ∃ d,
    (s.procs p).fd_list.find? (fun d => d.fd == fd) = some d ∧
      0 < page_cnt (s.files d.file_ptr).length ∧
      (∀ i < page_cnt (s.files d.file_ptr).length, page_lookup s p (page_from addr i) = none) ∧
      (mmap_call s p fd addr junk).1 = s.next_mid := by
  unfold Refused at h
  push Not at h
  obtain ⟨h0, h1, halign, hzero, d, hd, hlen, hlook, hstack⟩ := h
  refine ⟨d, hd, ?_, fun i hi => by simpa using hlook i hi, ?_⟩
  · unfold page_cnt PGSIZE
    omega
  · have hany : ¬ (List.range (page_cnt (s.files d.file_ptr).length)).any
        (fun i => (page_lookup s p (page_from addr i)).isSome) = true := by
      intro hc
      obtain ⟨i, hi, hsome⟩ := List.any_eq_true.mp hc
      exact absurd hsome (hlook i (List.mem_range.mp hi))
    unfold mmap_call
    rw [if_neg (by omega), if_neg (by simpa using halign), if_neg hzero, hd]
    dsimp only
    rw [if_neg hlen, if_neg hany, if_neg hstack]

/-- **`mmap` keeps its promise exactly if a check turns the call down or the range ends below
the initial stack page.** -/
theorem mmap_apart_iff : MmapApart s p fd addr junk ↔ Refused s p fd addr ∨
    ∃ d, (s.procs p).fd_list.find? (fun d => d.fd == fd) = some d ∧
      addr / PGSIZE + page_cnt (s.files d.file_ptr).length < PHYS_PAGES := by
  by_cases href : Refused s p fd addr
  · refine iff_of_true ⟨fun hne => ?_, fun _ => ?_⟩ (Or.inl href)
    · rw [mmap_call_refused href] at hne
      exact absurd rfl hne
    · rw [mmap_call_refused href]
  obtain ⟨d, hd, hpos, hlook, hmid⟩ := @mmap_call_made s p fd addr junk href
  have hmade : (mmap_call s p fd addr junk).1 ≠ -1 := by
    rw [hmid]
    omega
  constructor
  · rintro ⟨hmap, -⟩
    obtain ⟨d', hd', hrange⟩ := hmap hmade
    obtain rfl := Option.some.inj (hd.symm.trans hd')
    -- the last page of the range is below `PHYS_BASE`, and is not the stack page
    obtain ⟨hlt, hspace⟩ := hrange (page_cnt (s.files d.file_ptr).length - 1)
      (Nat.sub_lt hpos Nat.one_pos)
    have hne : addr / PGSIZE + (page_cnt (s.files d.file_ptr).length - 1) ≠ PHYS_PAGES - 1 :=
      fun hc => hspace (Or.inr hc)
    refine Or.inr ⟨d, hd, ?_⟩
    generalize addr / PGSIZE = a at *
    generalize page_cnt (s.files d.file_ptr).length = n at *
    omega
  · rintro (hc | ⟨d', hd', hend⟩)
    · exact absurd hc href
    obtain rfl := Option.some.inj (hd.symm.trans hd')
    refine ⟨fun _ => ⟨d, hd, fun i hi => ⟨by omega, ?_⟩⟩, fun hc => absurd hc hmade⟩
    have hpage : page_from addr i = addr / PGSIZE + i := by
      refine Nat.mod_eq_of_lt ?_
      unfold PHYS_PAGES at hend
      omega
    rintro (hsome | hstack)
    · have hnone := hlook i hi
      rw [hpage] at hnone
      rw [hnone] at hsome
      cases hsome
    · omega

/-- `small_boot` with files of two pages. -/
def two_page_boot : Mem := { small_boot 2 with files := fun _ => ⟨8192, fun _ => 0, 0⟩ }

theorem two_page_boot_boot : Boot two_page_boot := by
  constructor <;> intros <;> rfl

/-- **`mmap` over the initial stack.** A file of two pages goes to the last two pages below
`PHYS_BASE`, the second of which is the stack. -/
theorem mmap_over_stack : ¬ ∀ s, Reachable paging (fun _ _ => True) s →
    ∀ p fd addr junk, MmapApart s p fd addr junk := by
  intro hall
  have hrun : follow exec (fun _ _ => true)
      (fun s => (mmap_call s 0 2 0xBFFFE000 (fun _ => blank)).1 == 1 &&
        ((s.procs 0).fd_list.find? (fun d => d.fd == 2)).all
          (fun d => (s.files d.file_ptr).length == 8192)) two_page_boot
      (load_run 0 1 ++ [.open_file 0 0]) = true := by
    decide +kernel
  have hstart : Reachable paging (fun _ _ => true = true) two_page_boot :=
    .init two_page_boot_boot
  obtain ⟨s, hr, hs⟩ := follow_reachable (fun _ _ _ h => h) hstart hrun
  rw [Bool.and_eq_true, beq_iff_eq] at hs
  obtain ⟨hmid, hlen⟩ := hs
  obtain ⟨d, hd, hrange⟩ := (hall s (hr.weaken fun _ _ _ => trivial) 0 2 0xBFFFE000 _).1
    (by rw [hmid]; decide)
  rw [hd] at hlen
  have htwo : (s.files d.file_ptr).length = 8192 := eq_of_beq hlen
  rw [htwo] at hrange
  exact (hrange 1 (by decide)).2 (Or.inr (by decide))

end Pintos.Vm
