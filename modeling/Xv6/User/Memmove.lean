import Xv6.Lib.Copy

/-!
# User/Memmove — `memmove`, in the kernel and in the user library

`string.c` looks at the overlap and copies from the back where the destination lies behind the source;
`ulib.c` always copies from the front.  `dst ≤ src`, or blocks that do not meet, hide the difference; a
block moved upwards onto itself shows it, unless its bytes repeat with the distance it is moved by
(`memmove_agree_iff`).

Addresses are natural numbers: neither block runs over the end of the address space.
-/

namespace Xv6

open Copy

/-- The bytes of an address space. -/
abbrev Bytes := ℕ → UInt8

/-- `memmove` of `string.c`; the pointer it returns and the memory it leaves. -/
def kernelMemmove (m : Bytes) (dst src n : ℕ) : ℕ × Bytes :=
  if src < dst ∧ dst < src + n then (dst, backward m (dst + n) (src + n) n)
  else (dst, forward m dst src n)

/-- `memmove` of `ulib.c`, whose length is an `int`. -/
def ulibMemmove (m : Bytes) (dst src : ℕ) (n : ℤ) : ℕ × Bytes := (dst, forward m dst src n.toNat)

/-- **The kernel moves the block**, whatever the overlap. -/
theorem kernelMemmove_eq (m : Bytes) (dst src n : ℕ) :
    kernelMemmove m dst src n = (dst, moved m dst src n) := by
  rw [kernelMemmove]
  split
  · rename_i h
    rw [backward_eq_moved h.1]
  · rw [forward_eq_moved_iff.mpr (repeats_of_apart (by omega))]

/-- **The two agree exactly on moves downwards, on blocks apart, and on bytes that repeat.**  The kernel's
is right in any case. -/
theorem memmove_agree_iff (m : Bytes) (dst src n : ℕ) :
    kernelMemmove m dst src n = (dst, moved m dst src n) ∧
    (ulibMemmove m dst src n = kernelMemmove m dst src n ↔
      dst ≤ src ∨ src + n ≤ dst ∨ ∀ a, dst ≤ a → a < src + n → m a = m (a - (dst - src))) := by
  refine ⟨kernelMemmove_eq m dst src n, ?_⟩
  rw [kernelMemmove_eq, ulibMemmove, Int.toNat_natCast, Prod.mk.injEq, forward_eq_moved_iff]
  constructor
  · exact fun h => .inr (.inr h.2)
  · rintro (h | h | h)
    · exact ⟨rfl, repeats_of_apart (.inl h)⟩
    · exact ⟨rfl, repeats_of_apart (.inr h)⟩
    · exact ⟨rfl, h⟩

/-- **Two bytes moved up by one**: the user library doubles the first. -/
theorem memmove_disagree : (ulibMemmove (fun a => if a = 0 then 7 else 9) 1 0 2).2 2 = 7 ∧
    (kernelMemmove (fun a => if a = 0 then 7 else 9) 1 0 2).2 2 = 9 := by
  decide

end Xv6
