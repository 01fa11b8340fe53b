/-
Little-endian word images: an array of 32-bit words laid out in bytes, and read
back.

A block of bytes is a function from byte positions; `ofWords w` lays word `k`
out in bytes `4k .. 4k+3`, least significant first, and `word s k` reads it.
The file system stores both its index blocks and its inodes this way, so the
round trip `word_ofWords` is what makes a pointer survive a trip through a
sector.
-/
import Mathlib.Tactic

set_option autoImplicit false

namespace WordImage

/-- Word `k` of a byte image, least significant byte first. -/
def word (s : ℕ → UInt8) (k : ℕ) : ℕ :=
  (s (4 * k)).toNat + 256 * (s (4 * k + 1)).toNat
    + 65536 * (s (4 * k + 2)).toNat + 16777216 * (s (4 * k + 3)).toNat

/-- The byte image of an array of words. -/
def ofWords (w : ℕ → ℕ) (j : ℕ) : UInt8 :=
  UInt8.ofNat (w (j / 4) / 256 ^ (j % 4))

/-- **Round trip.** A 32-bit word is read back as it was laid out. -/
theorem word_ofWords (w : ℕ → ℕ) (k : ℕ) (hk : w k < 2 ^ 32) :
    word (ofWords w) k = w k := by
  have h0 : (4 * k) / 4 = k ∧ (4 * k) % 4 = 0 := by omega
  have h1 : (4 * k + 1) / 4 = k ∧ (4 * k + 1) % 4 = 1 := by omega
  have h2 : (4 * k + 2) / 4 = k ∧ (4 * k + 2) % 4 = 2 := by omega
  have h3 : (4 * k + 3) / 4 = k ∧ (4 * k + 3) % 4 = 3 := by omega
  simp only [word, ofWords, h0, h1, h2, h3, UInt8.toNat_ofNat']
  norm_num
  omega

end WordImage
