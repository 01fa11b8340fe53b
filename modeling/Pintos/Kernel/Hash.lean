/-
`lib/kernel/hash.c`: hash tables.

The table is an array of buckets, each a list of elements, with `elem_cnt` beside it. Every
update ends in `rehash`, which may move all elements to an array of another size, and which
does nothing when there is no memory for one; each operation that rehashes carries the answer
of `malloc`. Elements are compared with `less` only: two are equal when neither is less.

The abstract side is a set of elements no two of which are equal. `Holds` is the
representation invariant with the set it stands for, and `Prescribes` says what each operation
returns and does in terms of the set.
-/
import Pintos.Base
import Pintos.Library.Buckets

set_option autoImplicit false

namespace Pintos.Kernel.HashTable

open Buckets

/-! ## Elements -/

/-- `hash_hash_func` and `hash_less_func`: a strict weak order, and a hash function that does
not tell equal elements apart. -/
structure HashFns (α : Type) where
  hash : α → UInt32
  less : α → α → Bool
  irrefl : ∀ a, less a a = false
  trans : ∀ a b c, less a b = true → less b c = true → less a c = true
  incomp_trans : ∀ a b c, less a b = false → less b a = false → less b c = false →
    less c b = false → less a c = false ∧ less c a = false
  consistent : ∀ a b, less a b = false → less b a = false → hash a = hash b

variable {α : Type}

/-- `!h->less (a, b, h->aux) && !h->less (b, a, h->aux)`. -/
def HashFns.equal (F : HashFns α) (a b : α) : Bool := !F.less a b && !F.less b a

/-- `struct hash`. -/
structure Hash (α : Type) where
  elem_cnt : ℕ
  bucket_cnt : ℕ
  buckets : ℕ → List α

/-- `hash_init`, with its buckets allocated. -/
def hash_init : Hash α := ⟨0, 4, fun _ => []⟩

/-! ## Operations -/

section Operations

variable (F : HashFns α)

/-- `find_bucket`: the index of the bucket. -/
def find_bucket (h : Hash α) (e : α) : Res ℕ :=
  let bucket_idx := (F.hash e).toNat &&& (h.bucket_cnt - 1)
  if bucket_idx < h.bucket_cnt then .ok bucket_idx else .error .bounds

/-- `find_elem`. -/
def find_elem (h : Hash α) (bucket : ℕ) (e : α) : Option α :=
  (h.buckets bucket).find? fun hi => F.equal hi e

/-- `list_push_front (bucket, …)`. -/
def push (h : Hash α) (bucket : ℕ) (e : α) : Hash α :=
  { h with buckets := Function.update h.buckets bucket (e :: h.buckets bucket) }

/-- `insert_elem`. -/
def insert_elem (h : Hash α) (bucket : ℕ) (e : α) : Hash α :=
  push { h with elem_cnt := h.elem_cnt + 1 } bucket e

/-- `remove_elem` of the element that `find_elem` has found for `e`. -/
def remove_elem (h : Hash α) (bucket : ℕ) (e : α) : Hash α :=
  { h with
    elem_cnt := h.elem_cnt - 1
    buckets := Function.update h.buckets bucket
      ((h.buckets bucket).eraseP fun hi => F.equal hi e) }

/-- `turn_off_least_1bit`. -/
def turn_off_least_1bit (x : ℕ) : ℕ := x &&& (x - 1)

/-- `is_power_of_2`. -/
def is_power_of_2 (x : ℕ) : Bool := x != 0 && turn_off_least_1bit x == 0

/-- The `while` loop of `rehash`. -/
def power_loop : (fuel x : ℕ) → Res ℕ
  | 0, _ => .error .diverge
  | fuel + 1, x => if is_power_of_2 x then .ok x else power_loop fuel (turn_off_least_1bit x)

/-- The number of buckets `rehash` asks for. Each round of its loop makes the number
smaller. -/
def new_bucket_cnt (elem_cnt : ℕ) : Res ℕ :=
  let n := elem_cnt / 2
  let n := if n < 4 then 4 else n
  power_loop n n

/-- The loop of `rehash` over one old bucket. -/
def move_elems : List α → Hash α → Res (Hash α)
  | [], h => .ok h
  | e :: rest, h => do
    let new_bucket ← find_bucket F h e
    move_elems rest (push h new_bucket e)

/-- The loop of `rehash` over the old buckets. -/
def move_buckets (old_buckets : ℕ → List α) : (cnt i : ℕ) → Hash α → Res (Hash α)
  | 0, _, h => .ok h
  | cnt + 1, i, h => do
    let h ← move_elems F (old_buckets i) h
    move_buckets old_buckets cnt (i + 1) h

/-- `rehash`; `alloc` says whether `malloc` finds memory for the new buckets. -/
def rehash (h : Hash α) (alloc : Bool) : Res (Hash α) := do
  let n ← new_bucket_cnt h.elem_cnt
  if n = h.bucket_cnt then return h
  else if alloc = false then return h
  else move_buckets F h.buckets h.bucket_cnt 0 { h with bucket_cnt := n, buckets := fun _ => [] }

/-- `hash_insert`. -/
def hash_insert (h : Hash α) (new : α) (alloc : Bool) : Res (Option α × Hash α) := do
  let bucket ← find_bucket F h new
  let old := find_elem F h bucket new
  let h := if old.isNone then insert_elem h bucket new else h
  let h ← rehash F h alloc
  return (old, h)

/-- `hash_replace`. -/
def hash_replace (h : Hash α) (new : α) (alloc : Bool) : Res (Option α × Hash α) := do
  let bucket ← find_bucket F h new
  let old := find_elem F h bucket new
  let h := if old.isSome then remove_elem F h bucket new else h
  let h := insert_elem h bucket new
  let h ← rehash F h alloc
  return (old, h)

/-- `hash_find`. -/
def hash_find (h : Hash α) (e : α) : Res (Option α) := do
  let bucket ← find_bucket F h e
  return find_elem F h bucket e

/-- `hash_delete`. -/
def hash_delete (h : Hash α) (e : α) (alloc : Bool) : Res (Option α × Hash α) := do
  let bucket ← find_bucket F h e
  let found := find_elem F h bucket e
  if found.isSome then do
    let h ← rehash F (remove_elem F h bucket e) alloc
    return (found, h)
  else return (found, h)

end Operations

/-! ## Iteration -/

/-- `struct hash_iterator`: the bucket, and the elements of it behind `elem`. -/
structure HashIterator (α : Type) where
  bucket : ℕ
  rest : List α

/-- `hash_first`: at the head of the first bucket. -/
def hash_first (h : Hash α) : HashIterator α := ⟨0, h.buckets 0⟩

/-- The loop of `hash_next`: `elem` is `list_end` as long as `rest` is empty. -/
def next_loop (h : Hash α) : (fuel : ℕ) → HashIterator α → Res (Option α × HashIterator α)
  | 0, _ => .error .diverge
  | fuel + 1, i =>
    match i.rest with
    | elem :: rest => .ok (some elem, ⟨i.bucket, rest⟩)
    | [] =>
      if h.bucket_cnt ≤ i.bucket + 1 then .ok (none, ⟨i.bucket + 1, []⟩)
      else next_loop h fuel ⟨i.bucket + 1, h.buckets (i.bucket + 1)⟩

/-- `hash_next`. -/
def hash_next (h : Hash α) (i : HashIterator α) : Res (Option α × HashIterator α) :=
  next_loop h h.bucket_cnt i

/-- `hash_first (&i, h); while (hash_next (&i)) …`. -/
def iterate_loop (h : Hash α) : (fuel : ℕ) → HashIterator α → Res (List α)
  | 0, _ => .error .diverge
  | fuel + 1, i => do
    let r ← hash_next h i
    match r.1 with
    | none => return []
    | some e =>
      let rest ← iterate_loop h fuel r.2
      return e :: rest

/-- A full iteration. -/
def iterate (h : Hash α) : Res (List α) := iterate_loop h (h.elem_cnt + 1) (hash_first h)

/-! ## Runs -/

/-- An operation. -/
inductive Op (α : Type)
  | insert (new : α) (alloc : Bool)
  | replace (new : α) (alloc : Bool)
  | find (e : α)
  | delete (e : α) (alloc : Bool)
  | iterate

/-- What it returns. -/
inductive Result (α : Type)
  | elem (e : Option α)
  | elems (l : List α)

/-- One operation. -/
def step (F : HashFns α) (h : Hash α) : Op α → Res (Result α × Hash α)
  | .insert new alloc => do
    let r ← hash_insert F h new alloc
    return (.elem r.1, r.2)
  | .replace new alloc => do
    let r ← hash_replace F h new alloc
    return (.elem r.1, r.2)
  | .find e => do
    let r ← hash_find F h e
    return (.elem r, h)
  | .delete e alloc => do
    let r ← hash_delete F h e alloc
    return (.elem r.1, r.2)
  | .iterate => do
    let l ← iterate h
    return (.elems l, h)

/-- A sequence of operations, with what each returned. -/
def run (F : HashFns α) (h : Hash α) : List (Op α) → Res (List (Op α × Result α) × Hash α)
  | [] => .ok ([], h)
  | op :: ops => do
    let r ← step F h op
    let rest ← run F r.2 ops
    return ((op, r.1) :: rest.1, rest.2)

/-! ## Sets of elements -/

/-- The element of a set that is equal to `e`, if there is one. -/
def Found (F : HashFns α) (S : Set α) (e : α) : Option α → Prop
  | none => ∀ x ∈ S, F.equal x e = false
  | some x => x ∈ S ∧ F.equal x e = true

/-- What an operation on the set `S` returns, and the set it leaves. -/
def Prescribes (F : HashFns α) (S : Set α) : Op α → Result α → Set α → Prop
  | .insert new _, .elem r, S' =>
    Found F S new r ∧ S' = if r.isNone then insert new S else S
  | .replace new _, .elem r, S' =>
    Found F S new r ∧ S' = insert new { x ∈ S | F.equal x new = false }
  | .find e, .elem r, S' => Found F S e r ∧ S' = S
  | .delete e _, .elem r, S' => Found F S e r ∧ S' = { x ∈ S | F.equal x e = false }
  | .iterate, .elems l, S' => l.Nodup ∧ (∀ x, x ∈ l ↔ x ∈ S) ∧ S' = S
  | _, _, _ => False

/-- The operations of a history take `S` to `S'`, each with the result prescribed. -/
def SetRun (F : HashFns α) : Set α → List (Op α × Result α) → Set α → Prop
  | S, [], S' => S' = S
  | S, (op, r) :: rest, S' => ∃ T, Prescribes F S op r T ∧ SetRun F T rest S'

/-- The table stands for the set `S`. -/
structure Holds (F : HashFns α) (h : Hash α) (S : Set α) : Prop where
  /-- The number of buckets is a power of two, four at least. -/
  power : ∃ k, 2 ≤ k ∧ h.bucket_cnt = 2 ^ k
  /-- An element is in the bucket of its hash. -/
  placed : ∀ i < h.bucket_cnt, ∀ e ∈ h.buckets i,
    (F.hash e).toNat &&& (h.bucket_cnt - 1) = i
  /-- No two elements are equal. -/
  distinct : (elems h.bucket_cnt h.buckets).Pairwise fun a b => F.equal a b = false
  /-- The elements are counted. -/
  count : h.elem_cnt = (elems h.bucket_cnt h.buckets).length
  /-- They are those of the set. -/
  elems : ∀ x, x ∈ elems h.bucket_cnt h.buckets ↔ x ∈ S

/-! ## Equal elements -/

section Equal

variable (F : HashFns α)

theorem equal_iff {a b : α} : F.equal a b = true ↔ F.less a b = false ∧ F.less b a = false := by
  unfold HashFns.equal
  rw [Bool.and_eq_true, Bool.not_eq_true', Bool.not_eq_true']

theorem equal_refl (a : α) : F.equal a a = true := (equal_iff F).mpr ⟨F.irrefl a, F.irrefl a⟩

theorem equal_comm (a b : α) : F.equal a b = F.equal b a := by
  unfold HashFns.equal
  exact Bool.and_comm _ _

theorem equal_trans {a b c : α} (h : F.equal a b = true) (h' : F.equal b c = true) :
    F.equal a c = true := by
  obtain ⟨hab, hba⟩ := (equal_iff F).mp h
  obtain ⟨hbc, hcb⟩ := (equal_iff F).mp h'
  exact (equal_iff F).mpr (F.incomp_trans a b c hab hba hbc hcb)

theorem equal_hash {a b : α} (h : F.equal a b = true) : F.hash a = F.hash b := by
  obtain ⟨hab, hba⟩ := (equal_iff F).mp h
  exact F.consistent a b hab hba

end Equal

/-! ## The number of buckets -/

theorem is_power_of_2_iff {x : ℕ} : is_power_of_2 x = true ↔ x.isPowerOfTwo := by
  unfold is_power_of_2 turn_off_least_1bit
  rw [← Nat.ne_zero_and_sub_one_eq_zero_iff_isPowerOfTwo, Bool.and_eq_true, bne_iff_ne, beq_iff_eq]

/-- The loop of `rehash` ends at a power of two, and not below four: the highest bit stays. -/
theorem power_loop_spec : ∀ fuel x : ℕ, x ≤ fuel → 4 ≤ x →
    ∃ k, 2 ≤ k ∧ power_loop fuel x = .ok (2 ^ k) := by
  intro fuel
  induction fuel with
  | zero =>
    intro x hx h4
    omega
  | succ fuel ih =>
    intro x hx h4
    unfold power_loop
    by_cases hpow : is_power_of_2 x = true
    · obtain ⟨k, rfl⟩ := is_power_of_2_iff.mp hpow
      rw [if_pos hpow]
      refine ⟨k, ?_, rfl⟩
      by_contra hk
      have hle : 2 ^ k ≤ 2 ^ 1 := Nat.pow_le_pow_right (by norm_num) (by omega)
      omega
    · rw [if_neg hpow]
      have hbit := Nat.and_sub_one_testBit_log2 (by omega : x ≠ 0) (mt is_power_of_2_iff.mpr hpow)
      have hge : 2 ^ x.log2 ≤ turn_off_least_1bit x := Nat.ge_two_pow_of_testBit hbit
      have hlog : 2 ^ 2 ≤ 2 ^ x.log2 :=
        Nat.pow_le_pow_right (by norm_num) ((Nat.le_log2 (by omega)).mpr h4)
      have hlt : turn_off_least_1bit x ≤ x - 1 := Nat.and_le_right
      exact ih (turn_off_least_1bit x) (by omega) (by omega)

theorem new_bucket_cnt_spec (elem_cnt : ℕ) :
    ∃ k, 2 ≤ k ∧ new_bucket_cnt elem_cnt = .ok (2 ^ k) := by
  unfold new_bucket_cnt
  dsimp only
  refine power_loop_spec _ _ le_rfl ?_
  split_ifs <;> omega

/-- The mask gives an index of the array. -/
theorem index_lt {n k : ℕ} (h : n = 2 ^ k) (x : ℕ) : x &&& (n - 1) < n := by
  rw [h, Nat.and_two_pow_sub_one_eq_mod]
  exact Nat.mod_lt _ (Nat.two_pow_pos k)

/-! ## The representation -/

/-- The array: its size, and every element in its bucket. -/
structure Shape (F : HashFns α) (h : Hash α) : Prop where
  power : ∃ k, 2 ≤ k ∧ h.bucket_cnt = 2 ^ k
  placed : ∀ i < h.bucket_cnt, ∀ e ∈ h.buckets i,
    (F.hash e).toNat &&& (h.bucket_cnt - 1) = i

section Shapes

variable {F : HashFns α} {h h' : Hash α} {S : Set α}

theorem Holds.shape (hh : Holds F h S) : Shape F h := ⟨hh.power, hh.placed⟩

/-- `find_bucket` stays in the array. -/
theorem Shape.find_bucket_eq (hs : Shape F h) (e : α) :
    (F.hash e).toNat &&& (h.bucket_cnt - 1) < h.bucket_cnt ∧
      find_bucket F h e = .ok ((F.hash e).toNat &&& (h.bucket_cnt - 1)) := by
  obtain ⟨k, -, hk⟩ := hs.power
  have hlt := index_lt hk (F.hash e).toNat
  refine ⟨hlt, ?_⟩
  unfold find_bucket
  exact if_pos hlt

/-- A push into the bucket of the element. -/
theorem Shape.push (hs : Shape F h) (e : α) :
    Shape F (push h ((F.hash e).toNat &&& (h.bucket_cnt - 1)) e) := by
  refine ⟨hs.power, fun i hi x hx => ?_⟩
  change x ∈ Function.update h.buckets _ _ i at hx
  by_cases hie : i = (F.hash e).toNat &&& (h.bucket_cnt - 1)
  · rw [hie, Function.update_self] at hx
    rcases List.mem_cons.mp hx with rfl | hx
    · exact hie.symm
    · exact (hs.placed _ (hie ▸ hi) x hx).trans hie.symm
  · rw [Function.update_of_ne hie] at hx
    exact hs.placed i hi x hx

/-- The same elements in another array. -/
theorem Holds.of_perm (hh : Holds F h S) (hs : Shape F h') (hcnt : h'.elem_cnt = h.elem_cnt)
    (hperm : (Buckets.elems h'.bucket_cnt h'.buckets).Perm (Buckets.elems h.bucket_cnt h.buckets)) :
    Holds F h' S := by
  refine ⟨hs.power, hs.placed, ?_, ?_, fun x => ?_⟩
  · refine (hperm.pairwise_iff ?_).mpr hh.distinct
    intro a b hab
    rw [equal_comm]
    exact hab
  · rw [hcnt, hh.count]
    exact hperm.length_eq.symm
  · rw [hperm.mem_iff]
    exact hh.elems x

/-! ## `rehash` -/

theorem move_elems_spec (l : List α) : ∀ h : Hash α, Shape F h →
    ∃ h', move_elems F l h = .ok h' ∧ Shape F h' ∧ h'.elem_cnt = h.elem_cnt ∧
      (Buckets.elems h'.bucket_cnt h'.buckets).Perm (l ++ Buckets.elems h.bucket_cnt h.buckets) := by
  induction l with
  | nil => exact fun h hs => ⟨h, rfl, hs, rfl, List.Perm.refl _⟩
  | cons e rest ih =>
    intro h hs
    obtain ⟨hlt, hfind⟩ := hs.find_bucket_eq e
    obtain ⟨h', hrun, hs', hcnt, hperm⟩ := ih _ (hs.push e)
    refine ⟨h', ?_, hs', hcnt, ?_⟩
    · unfold move_elems
      rw [hfind]
      exact hrun
    · refine hperm.trans (((elems_push h.buckets e hlt).append_left rest).trans ?_)
      exact List.perm_middle

theorem move_buckets_spec (old : ℕ → List α) (cnt : ℕ) : ∀ (i : ℕ) (h : Hash α), Shape F h →
    ∃ h', move_buckets F old cnt i h = .ok h' ∧ Shape F h' ∧ h'.elem_cnt = h.elem_cnt ∧
      (Buckets.elems h'.bucket_cnt h'.buckets).Perm
        ((List.range' i cnt).flatMap old ++ Buckets.elems h.bucket_cnt h.buckets) := by
  induction cnt with
  | zero => exact fun i h hs => ⟨h, rfl, hs, rfl, List.Perm.refl _⟩
  | succ cnt ih =>
    intro i h hs
    obtain ⟨h₁, hrun₁, hs₁, hcnt₁, hperm₁⟩ := move_elems_spec (old i) h hs
    obtain ⟨h', hrun, hs', hcnt, hperm⟩ := ih (i + 1) h₁ hs₁
    refine ⟨h', ?_, hs', hcnt.trans hcnt₁, ?_⟩
    · unfold move_buckets
      rw [hrun₁]
      exact hrun
    · rw [List.range'_succ, List.flatMap_cons, List.append_assoc]
      refine hperm.trans ((hperm₁.append_left _).trans ?_)
      rw [← List.append_assoc, ← List.append_assoc]
      exact List.perm_append_comm.append_right _

/-- **`rehash`** keeps the set, whether it gets its memory or not. -/
theorem rehash_spec (hh : Holds F h S) (alloc : Bool) :
    ∃ h', rehash F h alloc = .ok h' ∧ Holds F h' S := by
  obtain ⟨k, hk, hn⟩ := new_bucket_cnt_spec h.elem_cnt
  unfold rehash
  rw [hn, ok_bind]
  by_cases hsame : 2 ^ k = h.bucket_cnt
  · rw [if_pos hsame]
    exact ⟨h, rfl, hh⟩
  rw [if_neg hsame]
  by_cases halloc : alloc = false
  · rw [if_pos halloc]
    exact ⟨h, rfl, hh⟩
  rw [if_neg halloc]
  have hempty : Shape F { h with bucket_cnt := 2 ^ k, buckets := fun _ => [] } :=
    ⟨⟨k, hk, rfl⟩, fun i _ e he => by cases he⟩
  obtain ⟨h', hrun, hs', hcnt, hperm⟩ := move_buckets_spec h.buckets h.bucket_cnt 0 _ hempty
  refine ⟨h', hrun, hh.of_perm hs' hcnt ?_⟩
  rw [elems_empty, List.append_nil, ← List.range_eq_range'] at hperm
  exact hperm

/-! ## The operations on a table that holds a set -/

theorem find_elem_some {i : ℕ} {e x : α} (hfind : find_elem F h i e = some x) :
    x ∈ h.buckets i ∧ F.equal x e = true := by
  unfold find_elem at hfind
  have heq := List.find?_some hfind
  exact ⟨List.mem_of_find?_eq_some hfind, heq⟩

/-- **The search in one bucket** is one in the whole set. -/
theorem Holds.found (hh : Holds F h S) (e : α) :
    Found F S e (find_elem F h ((F.hash e).toNat &&& (h.bucket_cnt - 1)) e) := by
  have hlt := (hh.shape.find_bucket_eq e).1
  cases hfind : find_elem F h ((F.hash e).toNat &&& (h.bucket_cnt - 1)) e with
  | none =>
    intro x hx
    obtain ⟨i, hi, hxi⟩ := mem_elems.mp ((hh.elems x).mpr hx)
    by_contra heq
    have heq : F.equal x e = true := by simpa using heq
    -- an equal element would be in this bucket
    have hsame := hh.placed i hi x hxi
    rw [equal_hash F heq] at hsame
    rw [← hsame] at hxi
    exact List.find?_eq_none.mp hfind x hxi heq
  | some x =>
    obtain ⟨hx, heq⟩ := find_elem_some hfind
    exact ⟨(hh.elems x).mp (mem_elems.mpr ⟨_, hlt, hx⟩), heq⟩

/-- `insert_elem` of a new element. -/
theorem Holds.insert_elem (hh : Holds F h S) {new : α} (hnew : ∀ x ∈ S, F.equal x new = false) :
    Holds F (insert_elem h ((F.hash new).toNat &&& (h.bucket_cnt - 1)) new) (insert new S) := by
  have hlt := (hh.shape.find_bucket_eq new).1
  have hperm := elems_push h.buckets new hlt
  have hshape := hh.shape.push new
  refine ⟨hshape.power, hshape.placed, ?_, ?_, fun x => ?_⟩
  · refine (hperm.pairwise_iff ?_).mpr (List.pairwise_cons.mpr ⟨fun x hx => ?_, hh.distinct⟩)
    · intro a b hab
      rw [equal_comm]
      exact hab
    · rw [equal_comm]
      exact hnew x ((hh.elems x).mp hx)
  · show h.elem_cnt + 1 = _
    rw [hh.count]
    exact (hperm.length_eq.trans (List.length_cons)).symm
  · refine hperm.mem_iff.trans ?_
    rw [List.mem_cons, hh.elems x, Set.mem_insert_iff]

/-- `remove_elem` of what was found. -/
theorem Holds.remove_elem (hh : Holds F h S) {e x : α}
    (hfound : find_elem F h ((F.hash e).toNat &&& (h.bucket_cnt - 1)) e = some x) :
    Holds F (remove_elem F h ((F.hash e).toNat &&& (h.bucket_cnt - 1)) e)
      { y ∈ S | F.equal y e = false } := by
  have hlt := (hh.shape.find_bucket_eq e).1
  obtain ⟨hx, heq⟩ := find_elem_some hfound
  have hcons : (h.buckets ((F.hash e).toNat &&& (h.bucket_cnt - 1))).Perm
      (x :: (h.buckets ((F.hash e).toNat &&& (h.bucket_cnt - 1))).eraseP
        fun hi => F.equal hi e) := by
    obtain ⟨a, l₁, l₂, hno, ha, hl, herase⟩ := List.exists_of_eraseP
      (p := fun hi => F.equal hi e) hx heq
    have hax : a = x := by
      unfold find_elem at hfound
      rw [hl, List.find?_append, List.find?_eq_none.mpr (by simpa using hno), Option.none_or,
        List.find?_cons_of_pos (p := fun hi => F.equal hi e) ha] at hfound
      exact Option.some.inj hfound
    rw [herase, hl, hax]
    exact List.perm_middle
  have hperm := elems_remove h.buckets hlt hcons
  have hpair : (x :: Buckets.elems h.bucket_cnt (Function.update h.buckets
      ((F.hash e).toNat &&& (h.bucket_cnt - 1)) ((h.buckets
        ((F.hash e).toNat &&& (h.bucket_cnt - 1))).eraseP fun hi => F.equal hi e))).Pairwise
      fun a b => F.equal a b = false := by
    refine (hperm.pairwise_iff ?_).mp hh.distinct
    intro a b hab
    rw [equal_comm]
    exact hab
  obtain ⟨hhead, htail⟩ := List.pairwise_cons.mp hpair
  refine ⟨hh.power, fun i hi y hy => ?_, htail, ?_, fun y => ?_⟩
  · change y ∈ Function.update h.buckets _ _ i at hy
    by_cases hie : i = (F.hash e).toNat &&& (h.bucket_cnt - 1)
    · rw [hie, Function.update_self] at hy
      exact (hh.placed _ (hie ▸ hi) y (List.mem_of_mem_eraseP hy)).trans hie.symm
    · rw [Function.update_of_ne hie] at hy
      exact hh.placed i hi y hy
  · show h.elem_cnt - 1 = _
    rw [hh.count, hperm.length_eq, List.length_cons, Nat.add_sub_cancel]
    rfl
  · have hmem := (hh.elems y).symm.trans (hperm.mem_iff.trans List.mem_cons)
    constructor
    · intro hy
      refine ⟨hmem.mpr (Or.inr hy), ?_⟩
      by_contra hye
      have hye : F.equal y e = true := by simpa using hye
      have hxy : F.equal x y = true := equal_trans F heq (by rw [equal_comm]; exact hye)
      rw [hhead y hy] at hxy
      cases hxy
    · rintro ⟨hy, hye⟩
      rcases hmem.mp hy with rfl | hy
      · rw [heq] at hye
        cases hye
      · exact hy

/-- A set in which nothing is equal to `e` is left whole. -/
theorem filter_eq_self {e : α} (h : ∀ x ∈ S, F.equal x e = false) :
    { x ∈ S | F.equal x e = false } = S := by
  ext x
  exact ⟨fun hx => hx.1, fun hx => ⟨hx, h x hx⟩⟩

/-- **`hash_insert`.** -/
theorem hash_insert_spec (hh : Holds F h S) (new : α) (alloc : Bool) :
    ∃ r h', hash_insert F h new alloc = .ok (r, h') ∧ Found F S new r ∧
      Holds F h' (if r.isNone then insert new S else S) := by
  have hfound := hh.found new
  unfold hash_insert
  rw [(hh.shape.find_bucket_eq new).2, ok_bind]
  cases hold : find_elem F h ((F.hash new).toNat &&& (h.bucket_cnt - 1)) new with
  | none =>
    rw [hold] at hfound
    obtain ⟨h', hre, hh'⟩ := rehash_spec (hh.insert_elem hfound) alloc
    refine ⟨none, h', ?_, hfound, hh'⟩
    dsimp only
    rw [if_pos (by rfl), hre]
    rfl
  | some x =>
    rw [hold] at hfound
    obtain ⟨h', hre, hh'⟩ := rehash_spec hh alloc
    refine ⟨some x, h', ?_, hfound, hh'⟩
    dsimp only
    rw [if_neg (by simp), hre]
    rfl

/-- **`hash_replace`.** -/
theorem hash_replace_spec (hh : Holds F h S) (new : α) (alloc : Bool) :
    ∃ r h', hash_replace F h new alloc = .ok (r, h') ∧ Found F S new r ∧
      Holds F h' (insert new { x ∈ S | F.equal x new = false }) := by
  have hfound := hh.found new
  unfold hash_replace
  rw [(hh.shape.find_bucket_eq new).2, ok_bind]
  cases hold : find_elem F h ((F.hash new).toNat &&& (h.bucket_cnt - 1)) new with
  | none =>
    rw [hold] at hfound
    obtain ⟨h', hre, hh'⟩ := rehash_spec (hh.insert_elem hfound) alloc
    rw [filter_eq_self hfound]
    refine ⟨none, h', ?_, hfound, hh'⟩
    dsimp only
    rw [if_neg (by simp), hre]
    rfl
  | some x =>
    rw [hold] at hfound
    have hremoved := hh.remove_elem hold
    -- the bucket was looked up before the removal, in an array of the same size
    obtain ⟨h', hre, hh'⟩ := rehash_spec (hremoved.insert_elem fun y hy => hy.2) alloc
    refine ⟨some x, h', ?_, hfound, hh'⟩
    dsimp only
    rw [if_pos (by rfl)]
    exact (congrArg (fun r => r >>= fun h => pure (some x, h)) hre).trans rfl

/-- **`hash_delete`.** -/
theorem hash_delete_spec (hh : Holds F h S) (e : α) (alloc : Bool) :
    ∃ r h', hash_delete F h e alloc = .ok (r, h') ∧ Found F S e r ∧
      Holds F h' { x ∈ S | F.equal x e = false } := by
  have hfound := hh.found e
  unfold hash_delete
  rw [(hh.shape.find_bucket_eq e).2, ok_bind]
  cases hold : find_elem F h ((F.hash e).toNat &&& (h.bucket_cnt - 1)) e with
  | none =>
    rw [hold] at hfound
    rw [filter_eq_self hfound]
    exact ⟨none, h, rfl, hfound, hh⟩
  | some x =>
    rw [hold] at hfound
    obtain ⟨h', hre, hh'⟩ := rehash_spec (hh.remove_elem hold) alloc
    refine ⟨some x, h', ?_, hfound, hh'⟩
    dsimp only
    rw [if_pos (by rfl), hre]
    rfl

/-! ## Iteration -/

/-- What is still ahead of an iterator: the rest of its bucket and the buckets behind it. -/
def ahead (h : Hash α) (i : HashIterator α) : List α :=
  i.rest ++ (List.range' (i.bucket + 1) (h.bucket_cnt - (i.bucket + 1))).flatMap h.buckets

/-- The loop of `hash_next` stops at the first element ahead. -/
theorem next_loop_spec : ∀ (fuel : ℕ) (i : HashIterator α),
    i.bucket < h.bucket_cnt → h.bucket_cnt ≤ i.bucket + fuel →
    (ahead h i = [] ∧ ∃ i', next_loop h fuel i = .ok (none, i')) ∨
    ∃ e i', next_loop h fuel i = .ok (some e, i') ∧ i'.bucket < h.bucket_cnt ∧
      ahead h i = e :: ahead h i' := by
  intro fuel
  induction fuel with
  | zero =>
    intro i hi hfuel
    omega
  | succ fuel ih =>
    intro i hi hfuel
    unfold next_loop
    cases hrest : i.rest with
    | cons elem rest =>
      refine Or.inr ⟨elem, ⟨i.bucket, rest⟩, rfl, hi, ?_⟩
      unfold ahead
      rw [hrest]
      rfl
    | nil =>
      dsimp only
      by_cases hlast : h.bucket_cnt ≤ i.bucket + 1
      · rw [if_pos hlast]
        refine Or.inl ⟨?_, _, rfl⟩
        unfold ahead
        rw [hrest, Nat.sub_eq_zero_of_le hlast]
        rfl
      · rw [if_neg hlast]
        -- an empty bucket leaves what is ahead of the next one
        have hskip : ahead h i = ahead h ⟨i.bucket + 1, h.buckets (i.bucket + 1)⟩ := by
          obtain ⟨m, hm⟩ : ∃ m, h.bucket_cnt - (i.bucket + 1) = m + 1 :=
            ⟨h.bucket_cnt - (i.bucket + 1) - 1, by omega⟩
          have hm' : h.bucket_cnt - (i.bucket + 1 + 1) = m := by omega
          unfold ahead
          rw [hrest, hm, List.range'_succ, List.flatMap_cons, List.nil_append, hm']
        rw [hskip]
        exact ih ⟨i.bucket + 1, h.buckets (i.bucket + 1)⟩ (Nat.lt_of_not_le hlast)
          (by show _ ≤ i.bucket + 1 + fuel; omega)

theorem iterate_loop_spec : ∀ (fuel : ℕ) (i : HashIterator α), i.bucket < h.bucket_cnt →
    (ahead h i).length < fuel → iterate_loop h fuel i = .ok (ahead h i) := by
  intro fuel
  induction fuel with
  | zero =>
    intro i _ hlen
    omega
  | succ fuel ih =>
    intro i hi hlen
    unfold iterate_loop hash_next
    rcases next_loop_spec h.bucket_cnt i hi (by omega) with
      ⟨hnil, i', hrun⟩ | ⟨e, i', hrun, hi', hcons⟩
    · rw [hrun, hnil]
      rfl
    · rw [hcons, List.length_cons] at hlen
      rw [hrun, hcons, ok_bind]
      dsimp only
      rw [ih i' hi' (by omega)]
      rfl

/-- **An iteration** yields the elements of the array. -/
theorem iterate_spec (hh : Holds F h S) : iterate h = .ok (Buckets.elems h.bucket_cnt h.buckets) := by
  obtain ⟨k, -, hk⟩ := hh.power
  have hpos : 0 < h.bucket_cnt := hk ▸ Nat.two_pow_pos k
  have hahead : ahead h (hash_first h) = Buckets.elems h.bucket_cnt h.buckets := by
    obtain ⟨m, hm⟩ : ∃ m, h.bucket_cnt = m + 1 := ⟨h.bucket_cnt - 1, by omega⟩
    unfold ahead hash_first Buckets.elems
    rw [hm, List.range_eq_range', List.range'_succ, List.flatMap_cons]
    rfl
  have hlen : (ahead h (hash_first h)).length < h.elem_cnt + 1 := by
    rw [hahead, hh.count]
    exact Nat.lt_succ_self _
  unfold iterate
  rw [iterate_loop_spec _ _ hpos hlen, hahead]

/-! ## Runs -/

/-- **One operation** returns what the set prescribes. -/
theorem step_spec (hh : Holds F h S) (op : Op α) :
    ∃ r h' S', step F h op = .ok (r, h') ∧ Prescribes F S op r S' ∧ Holds F h' S' := by
  cases op with
  | insert new alloc =>
    obtain ⟨r, h', hrun, hfound, hh'⟩ := hash_insert_spec hh new alloc
    refine ⟨.elem r, h', _, ?_, ⟨hfound, rfl⟩, hh'⟩
    dsimp only [step]
    rw [hrun]
    rfl
  | replace new alloc =>
    obtain ⟨r, h', hrun, hfound, hh'⟩ := hash_replace_spec hh new alloc
    refine ⟨.elem r, h', _, ?_, ⟨hfound, rfl⟩, hh'⟩
    dsimp only [step]
    rw [hrun]
    rfl
  | find e =>
    refine ⟨.elem _, h, S, ?_, ⟨hh.found e, rfl⟩, hh⟩
    dsimp only [step, hash_find]
    rw [(hh.shape.find_bucket_eq e).2]
    rfl
  | delete e alloc =>
    obtain ⟨r, h', hrun, hfound, hh'⟩ := hash_delete_spec hh e alloc
    refine ⟨.elem r, h', _, ?_, ⟨hfound, rfl⟩, hh'⟩
    dsimp only [step]
    rw [hrun]
    rfl
  | iterate =>
    refine ⟨.elems _, h, S, ?_, ⟨?_, hh.elems, rfl⟩, hh⟩
    · dsimp only [step]
      rw [iterate_spec hh]
      rfl
    · refine hh.distinct.imp fun {a b} hab hne => ?_
      rw [hne, equal_refl] at hab
      cases hab

/-- A run from a table that holds a set. -/
theorem run_spec (ops : List (Op α)) : ∀ (h : Hash α) (S : Set α), Holds F h S →
    ∃ l h' S', run F h ops = .ok (l, h') ∧ l.map Prod.fst = ops ∧ SetRun F S l S' ∧
      Holds F h' S' := by
  induction ops with
  | nil => exact fun h S hh => ⟨[], h, S, rfl, rfl, rfl, hh⟩
  | cons op ops ih =>
    intro h S hh
    obtain ⟨r, h₁, S₁, hstep, hspec, hh₁⟩ := step_spec hh op
    obtain ⟨l, h', S', hrun, hops, hset, hh'⟩ := ih h₁ S₁ hh₁
    refine ⟨(op, r) :: l, h', S', ?_, by rw [List.map_cons, hops], ⟨S₁, hspec, hset⟩, hh'⟩
    unfold run
    rw [hstep, ok_bind]
    dsimp only
    rw [hrun]
    rfl

end Shapes

theorem hash_init_holds (F : HashFns α) : Holds F (hash_init : Hash α) ∅ := by
  have hempty : Buckets.elems 4 (fun _ => ([] : List α)) = [] := elems_empty 4
  refine ⟨⟨2, le_rfl, rfl⟩, fun i _ e he => (by cases he), ?_, rfl, fun x => ?_⟩
  · show (Buckets.elems 4 (fun _ => ([] : List α))).Pairwise _
    rw [hempty]
    exact List.Pairwise.nil
  · show x ∈ Buckets.elems 4 (fun _ => ([] : List α)) ↔ _
    rw [hempty]
    exact iff_of_false List.not_mem_nil (Set.notMem_empty x)

/-- **Hash tables refine finite sets.** From an empty table every sequence of operations
returns, whichever rehashes find memory, with the results the set prescribes, and ends in a
table that represents the set. -/
theorem hash_refines_set (F : HashFns α) (ops : List (Op α)) :
    ∃ l h S, run F hash_init ops = .ok (l, h) ∧ l.map Prod.fst = ops ∧ SetRun F ∅ l S ∧
      Holds F h S :=
  run_spec ops hash_init ∅ (hash_init_holds F)

/-! ## The supplemental page table -/

/-- `FNV_32_PRIME`. -/
def FNV_32_PRIME : UInt32 := 16777619

/-- `FNV_32_BASIS`. -/
def FNV_32_BASIS : UInt32 := 2166136261

/-- `hash_bytes`. -/
def hash_bytes (buf : List UInt8) : UInt32 :=
  buf.foldl (fun hash b => (hash * FNV_32_PRIME) ^^^ b.toUInt32) FNV_32_BASIS

/-- `struct sup_page_table_entry`, with one field beside the key. -/
structure SupPage where
  user_vaddr : UInt32
  mid : ℕ
  deriving DecidableEq

/-- `page_hash`, on the four bytes of the key. -/
def page_hash (p : SupPage) : UInt32 :=
  hash_bytes [p.user_vaddr.toUInt8, (p.user_vaddr >>> 8).toUInt8, (p.user_vaddr >>> 16).toUInt8,
    (p.user_vaddr >>> 24).toUInt8]

/-- `page_less`. -/
def page_less (a b : SupPage) : Bool := decide (a.user_vaddr < b.user_vaddr)

theorem page_less_eq_false {a b : SupPage} :
    page_less a b = false ↔ b.user_vaddr ≤ a.user_vaddr := by
  rw [page_less, decide_eq_false_iff_not, UInt32.not_lt]

/-- The functions of `sup_page_table`: pages with the same key are equal. -/
def page_fns : HashFns SupPage where
  hash := page_hash
  less := page_less
  irrefl a := page_less_eq_false.mpr (UInt32.le_refl _)
  trans a b c hab hbc := by
    simp only [page_less, decide_eq_true_eq] at hab hbc ⊢
    exact UInt32.lt_trans hab hbc
  incomp_trans a b c hab hba hbc hcb := by
    simp only [page_less_eq_false] at hab hba hbc hcb ⊢
    exact ⟨UInt32.le_trans hbc hab, UInt32.le_trans hba hcb⟩
  consistent a b hab hba := by
    rw [page_less_eq_false] at hab hba
    unfold page_hash
    rw [UInt32.le_antisymm hba hab]

/-- Sixteen pages are put in, so the array doubles; one is replaced, one is taken out, one is looked
for, and the table is walked. -/
def page_ops : List (Op SupPage) :=
  (List.range 16).map (fun k => .insert ⟨4096 * k.toUInt32, 0⟩ true) ++
    [.replace ⟨8192, 1⟩ true, .delete ⟨4096, 0⟩ false, .find ⟨8192, 0⟩, .iterate]

theorem hash_refines_set_pages : ∃ l h S, run page_fns hash_init page_ops = .ok (l, h) ∧
    h.bucket_cnt = 8 ∧ h.elem_cnt = 15 ∧ SetRun page_fns ∅ l S ∧ Holds page_fns h S := by
  obtain ⟨l, h, S, hrun, -, hset, hh⟩ := hash_refines_set page_fns page_ops
  have hcnt : (run page_fns hash_init page_ops).map (fun r => (r.2.bucket_cnt, r.2.elem_cnt)) =
      .ok (8, 15) := by decide +kernel
  rw [hrun] at hcnt
  obtain ⟨hbuckets, helems⟩ := Prod.mk.inj (Except.ok.inj hcnt)
  exact ⟨l, h, S, hrun, hbuckets, helems, hset, hh⟩

end Pintos.Kernel.HashTable
