import Xv6.Proc.Grow
import Xv6.Proc.Sizes

/-!
# Proc/Syscall — the arguments of system calls

`fetchint`, `fetchstr`, `argint`, `argptr` and `argstr` of `syscall.c`.  The memory is what the kernel sees
through the installed page table, of the process and of itself.  A function returns its result, `none` for `-1`,
and the addresses of the bytes it has read.

Sums are taken modulo `2 ^ 32`.  Below a size less than `KERNBASE` none of those that are compared with it wraps
(`Proc/Sizes`), so what is accepted lies below the size as a number (`args_below_size`).
-/

namespace Xv6

namespace Syscall

open Kernel

variable {mem : ℕ → UInt8} {sz esp addr : ℕ} {n size : ℤ}

/-! ## The code -/

/-- The addresses of a word. -/
def wordAddrs (addr : ℕ) : List ℕ := (List.range 4).map fun i => (addr + i) % 2 ^ 32

/-- `*(int*)addr`, as an unsigned number. -/
def word (mem : ℕ → UInt8) (addr : ℕ) : ℕ := leBytes ((wordAddrs addr).map mem) 0 4

/-- `fetchint`. -/
def fetchint (mem : ℕ → UInt8) (sz addr : ℕ) : Option ℕ × List ℕ :=
  if sz ≤ addr ∨ sz < (addr + 4) % 2 ^ 32 then (none, [])
  else (some (word mem addr), wordAddrs addr)

/-- The loop of `fetchstr` from `s` on, up to `ep`: where the string ends.  The first argument bounds the
turns. -/
def findNul (mem : ℕ → UInt8) (ep : ℕ) : ℕ → ℕ → Option ℕ × List ℕ
  | 0, _ => (none, [])
  | n + 1, s =>
    if s < ep then
      if mem s = 0 then (some s, [s])
      else ((findNul mem ep n (s + 1)).1, s :: (findNul mem ep n (s + 1)).2)
    else (none, [])

/-- `fetchstr`: the pointer and the length. -/
def fetchstr (mem : ℕ → UInt8) (sz addr : ℕ) : Option (ℕ × ℕ) × List ℕ :=
  if sz ≤ addr then (none, [])
  else ((findNul mem sz (sz - addr) addr).1.map fun s => (addr, s - addr), (findNul mem sz (sz - addr) addr).2)

/-- `argint`. -/
def argint (mem : ℕ → UInt8) (sz esp : ℕ) (n : ℤ) : Option ℕ × List ℕ := fetchint mem sz (wrapAdd esp (4 + 4 * n))

/-- `argptr`. -/
def argptr (mem : ℕ → UInt8) (sz esp : ℕ) (n size : ℤ) : Option ℕ × List ℕ :=
  match argint mem sz esp n with
  | (none, read) => (none, read)
  | (some i, read) => (if size < 0 ∨ sz ≤ i ∨ sz < wrapAdd i size then none else some i, read)

/-- `argstr`. -/
def argstr (mem : ℕ → UInt8) (sz esp : ℕ) (n : ℤ) : Option (ℕ × ℕ) × List ℕ :=
  match argint mem sz esp n with
  | (none, read) => (none, read)
  | (some addr, read) => ((fetchstr mem sz addr).1, read ++ (fetchstr mem sz addr).2)

/-! ## What they read -/

/-- A word that is fetched lies below the size. -/
theorem fetchint_below (hsz : sz < kernBase) :
    (∀ w, (fetchint mem sz addr).1 = some w → addr + 4 ≤ sz) ∧ ∀ a ∈ (fetchint mem sz addr).2, a < sz := by
  unfold fetchint
  split
  · exact ⟨nofun, nofun⟩
  · rename_i h
    simp only [kernBase] at hsz
    have hle : addr + 4 ≤ sz := by omega
    refine ⟨fun _ _ => hle, fun a ha => ?_⟩
    obtain ⟨i, hi, rfl⟩ := List.mem_map.mp ha
    rw [List.mem_range] at hi
    omega

/-- The loop reads below its end, and stops at a NUL. -/
theorem findNul_below (mem : ℕ → UInt8) (ep : ℕ) : ∀ (n s : ℕ),
    (∀ e, (findNul mem ep n s).1 = some e → s ≤ e ∧ e < ep ∧ mem e = 0) ∧ ∀ a ∈ (findNul mem ep n s).2, a < ep
  | 0, _ => ⟨nofun, nofun⟩
  | n + 1, s => by
    obtain ⟨hend, hread⟩ := findNul_below mem ep n (s + 1)
    rw [findNul]
    split
    · rename_i hlt
      split
      · rename_i hnul
        refine ⟨fun e he => ?_, by simpa using hlt⟩
        cases he
        exact ⟨le_rfl, hlt, hnul⟩
      · refine ⟨fun e he => ?_, List.forall_mem_cons.mpr ⟨hlt, hread⟩⟩
        obtain ⟨hle, h⟩ := hend e he
        exact ⟨by omega, h⟩
    · exact ⟨nofun, nofun⟩

/-- A string that is fetched lies below the size, with its NUL. -/
theorem fetchstr_below (mem : ℕ → UInt8) (sz addr : ℕ) :
    (∀ s len, (fetchstr mem sz addr).1 = some (s, len) → s + len < sz ∧ mem (s + len) = 0) ∧
      ∀ a ∈ (fetchstr mem sz addr).2, a < sz := by
  obtain ⟨hend, hread⟩ := findNul_below mem sz (sz - addr) addr
  unfold fetchstr
  split
  · exact ⟨nofun, nofun⟩
  · refine ⟨fun s len h => ?_, hread⟩
    obtain ⟨e, he, heq⟩ := Option.map_eq_some_iff.mp h
    cases heq
    obtain ⟨hle, hlt, hnul⟩ := hend e he
    rw [Nat.add_sub_cancel' hle]
    exact ⟨hlt, hnul⟩

theorem argint_below (mem : ℕ → UInt8) (esp : ℕ) (n : ℤ) (hsz : sz < kernBase) :
    ∀ a ∈ (argint mem sz esp n).2, a < sz := (fetchint_below hsz).2

/-- A block that is accepted lies below the size: the sum has not wrapped. -/
theorem argptr_below (hsz : sz < kernBase) (hsize : size < 2 ^ 31) :
    (∀ i, (argptr mem sz esp n size).1 = some i → 0 ≤ size ∧ i < sz ∧ i + size ≤ sz) ∧
      ∀ a ∈ (argptr mem sz esp n size).2, a < sz := by
  have hread := argint_below mem esp n hsz
  unfold argptr
  split
  · rename_i heq
    rw [heq] at hread
    exact ⟨nofun, hread⟩
  · rename_i i read heq
    rw [heq] at hread
    refine ⟨fun j h => ?_, hread⟩
    simp only at h
    split at h
    · cases h
    · rename_i hok
      cases h
      simp only [not_or, not_lt, not_le] at hok
      obtain ⟨hpos, hi, hsum⟩ := hok
      have hwrap : (wrapAdd i size : ℤ) = i + size :=
        wrapAdd_of_nonneg (by omega) (by simp only [kernBase] at hsz; omega)
      exact ⟨hpos, hi, by omega⟩

theorem argstr_below (hsz : sz < kernBase) :
    (∀ s len, (argstr mem sz esp n).1 = some (s, len) → s + len < sz ∧ mem (s + len) = 0) ∧
      ∀ a ∈ (argstr mem sz esp n).2, a < sz := by
  have hread := argint_below mem esp n hsz
  unfold argstr
  split
  · rename_i heq
    rw [heq] at hread
    exact ⟨nofun, hread⟩
  · rename_i addr read heq
    rw [heq] at hread
    obtain ⟨hstr, hread'⟩ := fetchstr_below mem sz addr
    exact ⟨hstr, List.forall_mem_append.mpr ⟨hread, hread'⟩⟩

end Syscall

open Kernel Syscall

/-- **System call arguments stay below the size of the process**, in every state reached by booting, `exec`,
`growproc` and the other operations: the bytes that are read, the block of a pointer, and the string with its
NUL. -/
theorem args_below_size {k : Kernel} (hk : Reached k) {pid : ℕ} {p : Proc} (hp : k.procs pid = some p) :
    p.sz < kernBase ∧ ∀ (mem : ℕ → UInt8) (addr esp : ℕ) (n size : ℤ), size < 2 ^ 31 →
      ((∀ w, (fetchint mem p.sz addr).1 = some w → addr + 4 ≤ p.sz) ∧
        ∀ a ∈ (fetchint mem p.sz addr).2, a < p.sz) ∧
      ((∀ i, (argptr mem p.sz esp n size).1 = some i → 0 ≤ size ∧ i < p.sz ∧ i + size ≤ p.sz) ∧
        ∀ a ∈ (argptr mem p.sz esp n size).2, a < p.sz) ∧
      ((∀ s len, (argstr mem p.sz esp n).1 = some (s, len) → s + len < p.sz ∧ mem (s + len) = 0) ∧
        ∀ a ∈ (argstr mem p.sz esp n).2, a < p.sz) := by
  have hsz := hk.small pid p hp
  exact ⟨hsz, fun mem addr esp n size hsize => ⟨fetchint_below hsz, argptr_below hsz hsize, argstr_below hsz⟩⟩

/-- The first process passes a pointer and a string at address 0; its stack pointer has wrapped. -/
theorem args_below_size_first : ∃ k p, Reached k ∧ k.procs 1 = some p ∧ p.sz < kernBase ∧
    (argptr (fun _ => 0) p.sz (2 ^ 32 - 4) 0 4096).1 = some 0 ∧ 0 + (4096 : ℤ) ≤ p.sz ∧
    (argstr (fun _ => 0) p.sz (2 ^ 32 - 4) 0).1 = some (0, 0) ∧ 0 + 0 < p.sz := by
  have hl : Linked 0x115000 0x109000 := ⟨by decide, rfl, by decide, by decide⟩
  obtain ⟨k, hb⟩ := exists_boot [] hl (by decide) (by decide)
  obtain ⟨-, ⟨p, -, hp, hsz, -⟩, -⟩ := boot_spec hl hb
  have hk : Reached k := ⟨_, _, _, k, hb, .refl⟩
  obtain ⟨hlt, hargs⟩ := args_below_size hk hp
  obtain ⟨-, ⟨hptr, -⟩, hstr, -⟩ := hargs (fun _ => 0) 0 (2 ^ 32 - 4) 0 4096 (by decide)
  have h₁ : (argptr (fun _ => 0) p.sz (2 ^ 32 - 4) 0 4096).1 = some 0 := by rw [hsz]; decide
  have h₂ : (argstr (fun _ => 0) p.sz (2 ^ 32 - 4) 0).1 = some (0, 0) := by rw [hsz]; decide
  exact ⟨k, p, hk, hp, hlt, h₁, (hptr 0 h₁).2.2, h₂, (hstr 0 0 h₂).1⟩

end Xv6
