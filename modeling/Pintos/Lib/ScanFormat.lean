/-
How far `__vprintf` reads the format.

Every loop stops at the NUL, which is no flag, digit or modifier. But the `switch` takes the NUL
for a conversion character, prints that there is no such conversion, and the increment of the outer
loop goes over it. So a format is read within its bounds exactly when no conversion is cut off by
the end of the string.
-/
import Pintos.Lib.FormatInteger
import Pintos.Lib.ParseConversion

set_option autoImplicit false

namespace Pintos.Lib

variable {s : CString} {ovf : ℤ → ℤ} {args : Args} {l : List Char}

/-! ## The condition -/

/-- Every conversion has its conversion character before the end of the string. -/
inductive Finished : List Char → Prop
  | nil : Finished []
  | char {ch : Char} {l : List Char} : ch ≠ '%' → Finished l → Finished (ch :: l)
  | percent {l : List Char} : Finished l → Finished ('%' :: '%' :: l)
  | conversion {ch : Char} {l l' : List Char} : first l ≠ '%' →
      (conversion_spec l).2 = ch :: l' → Finished l' → Finished ('%' :: l)

theorem finished_char {ch : Char} (hch : ch ≠ '%') : Finished (ch :: l) ↔ Finished l := by
  constructor
  · intro h
    cases h with
    | char _ h => exact h
    | percent _ => exact absurd rfl hch
    | conversion _ _ _ => exact absurd rfl hch
  · exact Finished.char hch

theorem finished_percent : Finished ('%' :: '%' :: l) ↔ Finished l := by
  constructor
  · intro h
    cases h with
    | char hch _ => exact absurd rfl hch
    | percent h => exact h
    | conversion hfirst _ _ => exact absurd rfl hfirst
  · exact Finished.percent

theorem finished_conversion (hfirst : first l ≠ '%') :
    Finished ('%' :: l) ↔ ∃ ch l', (conversion_spec l).2 = ch :: l' ∧ Finished l' := by
  constructor
  · intro h
    cases h with
    | char hch _ => exact absurd rfl hch
    | percent _ => exact absurd rfl hfirst
    | conversion _ hrest h => exact ⟨_, _, hrest, h⟩
  · rintro ⟨ch, l', hrest, h⟩
    exact Finished.conversion hfirst hrest h

/-! ## A conversion returns -/

theorem magnitude_lt (ovf : ℤ → ℤ) (value : ℤ) : magnitude ovf value < 2 ^ 64 := by
  rw [magnitude]
  omega

theorem unsigned_arg_lt (type : ArgType) (v : ℤ) : unsigned_arg type v < 2 ^ 64 := by
  cases type <;> simp only [unsigned_arg] <;> omega

theorem unsigned_base_sound (ch : Char) : (unsigned_base ch).Sound := by
  apply IsBase.sound
  unfold unsigned_base IsBase
  split_ifs <;> simp

/-- Every conversion returns when the messages can be printed. -/
theorem convert_returns {printf : CString → Char → Res (List Char)}
    (hkernel : ∀ ch, ∃ out, printf no_in_kernel ch = .ok out)
    (hconversion : ∀ ch, ∃ out, printf no_conversion ch = .ok out) (ch : Char) (c : Conversion)
    (k : ℕ) : ∃ r, convert ovf printf args ch c k = .ok r := by
  have hd : base_d.Sound := IsBase.sound (Or.inl rfl)
  have hx : base_x.Sound := IsBase.sound (Or.inr (Or.inr (Or.inl rfl)))
  have hp : (args.int k % 2 ^ 32).toNat < 2 ^ 64 := by omega
  have hsigned := format_integer_eq hd (magnitude_lt ovf (signed_arg c.type (args.int k))) ovf true
    (signed_arg c.type (args.int k) < 0) c
  have hunsigned := format_integer_eq (unsigned_base_sound ch)
    (unsigned_arg_lt c.type (args.int k)) ovf false false c
  have hpointer := format_integer_eq hx hp ovf false false { c with flags := { pound := true } }
  obtain ⟨out₁, hout₁⟩ := hkernel ch
  obtain ⟨out₂, hout₂⟩ := hconversion ch
  unfold convert
  split_ifs
  · simp only [hsigned, ok_bind]
    exact ⟨_, rfl⟩
  · simp only [hunsigned, ok_bind]
    exact ⟨_, rfl⟩
  · exact ⟨_, rfl⟩
  · exact ⟨_, rfl⟩
  · simp only [hpointer, ok_bind]
    exact ⟨_, rfl⟩
  · rw [hout₁]
    exact ⟨_, rfl⟩
  · rw [hout₂]
    exact ⟨_, rfl⟩

set_option maxRecDepth 4000 in
/-- The messages themselves are short formats with a `%%` and a `%c`. -/
theorem messages_return (ovf : ℤ → ℤ) (fuel : ℕ) (ch : Char) :
    (∃ out, vprintf_loop ovf (fuel + 24) no_in_kernel (char_args ch) 0 0 = .ok out) ∧
      ∃ out, vprintf_loop ovf (fuel + 24) no_conversion (char_args ch) 0 0 = .ok out :=
  ⟨⟨_, rfl⟩, ⟨_, rfl⟩⟩

/-! ## The loop of `__vprintf` -/

/-- **A turn and what follows.** From any position, with an argument list of any kind: the loop
returns if the rest of the format is finished, and reads behind the NUL if it is not. -/
theorem vprintf_loop_spec (fuel i k : ℕ) (h : Rest s i l) (hfuel : l.length + 25 ≤ fuel) :
    (Finished l → ∃ out, vprintf_loop ovf fuel s args i k = .ok out) ∧
      (¬Finished l → vprintf_loop ovf fuel s args i k = .error .bounds) := by
  induction fuel generalizing l i k with
  | zero => omega
  | succ fuel ih =>
    rw [vprintf_loop, h.read, ok_bind]
    cases l with
    | nil => exact ⟨fun _ => ⟨[], rfl⟩, fun hno => absurd Finished.nil hno⟩
    | cons ch l =>
      have hnul : ch ≠ NUL := h.nonul List.mem_cons_self
      have htail : Rest s (i + 1) l := h.tail hnul
      rw [List.length_cons] at hfuel
      rw [first_cons, if_neg hnul]
      by_cases hch : ch = '%'
      · subst hch
        rw [if_neg (not_not.mpr rfl), htail.read, ok_bind]
        by_cases hpercent : first l = '%'
        · -- `%%`
          obtain ⟨l', rfl⟩ : ∃ l', l = '%' :: l' := by
            cases l with
            | nil => exact absurd hpercent (by decide)
            | cons ch l' => exact ⟨l', by rw [show ch = '%' from hpercent]⟩
          rw [List.length_cons] at hfuel
          have hnext : Rest s (i + 2) l' := htail.tail (by rw [first_cons]; decide)
          obtain ⟨hok, hbounds⟩ := ih (i + 2) k hnext (by omega)
          rw [if_pos hpercent, finished_percent]
          refine ⟨fun hfin => ?_, fun hno => ?_⟩
          · obtain ⟨out, hout⟩ := hok hfin
            exact ⟨_, by rw [hout, ok_bind]; rfl⟩
          · rw [hbounds hno]
            rfl
        -- a conversion
        obtain ⟨i', hparse, hrest⟩ := parse_conversion_eq ovf args k htail (show _ < fuel by omega)
        have hlen := conversion_spec_length l
        obtain ⟨m, rfl⟩ := Nat.exists_eq_add_of_le' (show 24 ≤ fuel by omega)
        obtain ⟨t, ht⟩ := @convert_returns ovf args
          (fun f ch => vprintf_loop ovf (m + 24) f (char_args ch) 0 0)
          (fun ch => (messages_return ovf m ch).1) (fun ch => (messages_return ovf m ch).2)
          (first (conversion_spec l).2) ((conversion_spec l).1.conversion ovf args k)
          ((conversion_spec l).1.next k)
        rw [if_neg hpercent, finished_conversion hpercent]
        simp only [hparse, ok_bind, hrest.read, ht]
        cases hsplit : (conversion_spec l).2 with
        | nil =>
          -- the NUL was taken for the conversion character
          rw [hsplit] at hrest
          have hbeyond : vprintf_loop ovf (m + 24) s args (i' + 1) t.2 = .error .bounds := by
            rw [vprintf_loop, hrest.beyond]
            rfl
          rw [hbeyond]
          refine ⟨fun ⟨ch, l', hcons, _⟩ => (by cases hcons), fun _ => rfl⟩
        | cons ch l' =>
          rw [hsplit] at hrest hlen
          rw [List.length_cons] at hlen
          have hnext : Rest s (i' + 1) l' := hrest.tail (hrest.nonul List.mem_cons_self)
          obtain ⟨hok, hbounds⟩ := ih (i' + 1) t.2 hnext (by omega)
          refine ⟨fun ⟨ch₁, l₁, hcons, hfin⟩ => ?_, fun hno => ?_⟩
          · cases hcons
            obtain ⟨out, hout⟩ := hok hfin
            exact ⟨_, by rw [hout, ok_bind]; rfl⟩
          · rw [hbounds (fun hfin => hno ⟨ch, l', rfl, hfin⟩)]
            rfl
      · obtain ⟨hok, hbounds⟩ := ih (i + 1) k htail (by omega)
        rw [if_pos hch, finished_char hch]
        refine ⟨fun hfin => ?_, fun hno => ?_⟩
        · obtain ⟨out, hout⟩ := hok hfin
          exact ⟨_, by rw [hout, ok_bind]; rfl⟩
        · rw [hbounds hno]
          rfl

/-- `__vprintf` ends, for this format and these arguments, and reads no character behind the NUL:
it returns, with any fuel that is enough for the characters and a message. -/
def ReadsInside (ovf : ℤ → ℤ) (s : CString) (args : Args) : Prop :=
  ∀ fuel, s.chars.length + 25 ≤ fuel → ∃ out, vprintf ovf fuel s args = .ok out

/-- An unfinished conversion reads behind the NUL. -/
theorem vprintf_beyond (hno : ¬Finished s.chars) {fuel : ℕ} (hfuel : s.chars.length + 25 ≤ fuel) :
    vprintf ovf fuel s args = .error .bounds :=
  (vprintf_loop_spec fuel 0 0 (Rest.start s) hfuel).2 hno

/-- **Scanning the format.** For every format and argument list: `__vprintf` ends and stays inside
the format if and only if no conversion is cut off by the end of the string. -/
theorem reads_inside_iff (ovf : ℤ → ℤ) (s : CString) (args : Args) :
    ReadsInside ovf s args ↔ Finished s.chars := by
  constructor
  · intro h
    by_contra hno
    obtain ⟨out, hout⟩ := h _ le_rfl
    rw [vprintf_beyond hno le_rfl] at hout
    cases hout
  · intro hfin fuel hfuel
    exact (vprintf_loop_spec fuel 0 0 (Rest.start s) hfuel).1 hfin

/-- `100%` is printed and read on behind its end. -/
theorem percent_reads_beyond :
    ¬ReadsInside id ⟨"100%".toList, by simp [NUL]⟩ ⟨fun _ => 0, fun _ => none⟩ := by
  intro h
  obtain ⟨out, hout⟩ := h 29 (by decide)
  cases hout

end Pintos.Lib
