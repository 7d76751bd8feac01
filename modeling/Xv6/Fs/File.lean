import Xv6.Fs.Content

/-!
# Fs/File — files are byte arrays

`fileread` and `filewrite` of `file.c` on an inode, over `readi` and `writei`.  A file is a byte array
and an offset (`ByteFile`), and every call does to it what `FileCall.spec` says.  `filewrite` writes in
chunks of three blocks, one transaction each; where the whole range fits, the chunks make one write, and
where it does not, the whole chunks below the limit are written before one is refused.
-/

namespace Xv6

open Outcome List

/-- The most `filewrite` writes in a transaction, `max`. -/
def chunk : ℕ := (maxOpBlocks - 1 - 1 - 2) / 2 * 512

/-- `MAXFILE*BSIZE`. -/
def maxBytes : ℕ := maxFile * bsize

/-- An open file: the inode in memory, and `struct file`. -/
structure FileState where
  fs : Fs
  inum : ℕ
  ip : Dinode
  readable : Bool
  writable : Bool
  off : ℕ

/-- The result of a call and the bytes it returns. -/
abbrev Reply := ℤ × List UInt8

namespace FileState

/-- `writei` on the inode of the file. -/
def writei (src : ℕ → UInt8) (off n : ℕ) (s : FileState) : Except String (ℤ × FileState) := do
  let (r, ip, fs) ← Fs.writei s.inum s.ip src off n s.fs
  .ok (r, { s with ip := ip, fs := fs })

/-- `readi` on the inode of the file. -/
def readi (off n : ℕ) (s : FileState) : Except String (Reply × FileState) := do
  let (r, ip, fs) ← Fs.readi s.ip off n s.fs
  .ok (r, { s with ip := ip, fs := fs })

/-- `f->off += r`, when `r > 0`. -/
def advance (r : ℤ) (s : FileState) : FileState :=
  if 0 < r then { s with off := (s.off + r.toNat) % 2 ^ 32 } else s

/-- `fileread`; `readi` takes the length as a `uint`. -/
def fileread (n : ℤ) (s : FileState) : Except String (Reply × FileState) :=
  if !s.readable then .ok ((-1, []), s)
  else do
    let (r, s) ← s.readi s.off (n % 2 ^ 32).toNat
    .ok (r, s.advance r.1)

/-- The loop of `filewrite` from `i` on: the `i` it ends with.  Each turn writes a byte or ends it. -/
def filewriteLoop : ℕ → (ℕ → UInt8) → ℕ → ℕ → FileState → Except String (ℕ × FileState)
  | 0, _, i, _, s => .ok (i, s)
  | turns + 1, src, i, n, s =>
    if i < n then do
      let n1 := min (n - i) chunk
      let (r, s) ← s.writei (fun k => src (i + k)) s.off n1
      let s := s.advance r
      if r < 0 then .ok (i, s)
      else if r ≠ n1 then .error "short filewrite"
      else filewriteLoop turns src (i + n1) n s
    else .ok (i, s)

/-- `filewrite`. -/
def filewrite (src : ℕ → UInt8) (n : ℤ) (s : FileState) : Except String (ℤ × FileState) :=
  if !s.writable then .ok (-1, s)
  else do
    let (i, s) ← filewriteLoop n.toNat src 0 n.toNat s
    .ok (if (i : ℤ) = n then n else -1, s)

end FileState

/-- The calls on a file, with 32-bit arguments. -/
inductive FileCall where
  | writei (src : ℕ → UInt8) (off n : UInt32)
  | readi (off n : UInt32)
  | fileread (n : Int32)
  | filewrite (src : ℕ → UInt8) (n : Int32)

/-- **The code.** -/
def FileCall.run : FileCall → FileState → Except String (Reply × FileState)
  | .writei src off n, s => do
    let (r, s) ← s.writei src off.toNat n.toNat
    .ok ((r, []), s)
  | .readi off n, s => s.readi off.toNat n.toNat
  | .fileread n, s => s.fileread n.toInt
  | .filewrite src n, s => do
    let (r, s) ← s.filewrite src n.toInt
    .ok ((r, []), s)

/-! ## Byte arrays -/

/-- A file: its bytes, an offset, and what may be done with it. -/
structure ByteFile where
  bytes : List UInt8
  readable : Bool
  writable : Bool
  off : ℕ

namespace ByteFile

/-- The first `n` bytes of `src`, at `off`: they replace what is there, or extend the array. -/
def overwrite (bs : List UInt8) (src : ℕ → UInt8) (off n : ℕ) : List UInt8 :=
  (List.range (max bs.length (off + n))).map fun k =>
    if off ≤ k ∧ k < off + n then src (k - off) else bs.getD k 0

/-- A write that starts in the array and ends below the limit. -/
def Fits (b : ByteFile) (off n : ℕ) : Prop := off ≤ b.bytes.length ∧ off + n ≤ maxBytes

instance (b : ByteFile) (off n : ℕ) : Decidable (b.Fits off n) := inferInstanceAs (Decidable (_ ∧ _))

/-- A write. -/
def write (b : ByteFile) (src : ℕ → UInt8) (off n : ℕ) : ByteFile :=
  { b with bytes := overwrite b.bytes src off n }

/-- A read: what there is of the range, or `-1` if it starts behind the array or wraps around. -/
def read (b : ByteFile) (off n : ℕ) : Reply :=
  if off ≤ b.bytes.length ∧ off + n < 2 ^ 32 then
    ((min n (b.bytes.length - off) : ℕ), (b.bytes.drop off).take n)
  else (-1, [])

/-- The number of bytes a `filewrite` of `n` writes: all if they fit, otherwise the whole chunks below the
limit. -/
def filewriteLength (b : ByteFile) (n : ℕ) : ℕ :=
  if b.Fits b.off n then n
  else if b.off ≤ b.bytes.length then (maxBytes - b.off) / chunk * chunk
  else 0

/-- A write of `n` bytes at the offset, which moves behind them. -/
def append (b : ByteFile) (src : ℕ → UInt8) (n : ℕ) : ByteFile :=
  if n = 0 then b else { b.write src b.off n with off := b.off + n }

end ByteFile

/-- **What the calls do to a byte array.** -/
def FileCall.spec : FileCall → ByteFile → Reply × ByteFile
  | .writei src off n, b =>
    if b.Fits off.toNat n.toNat then ((n.toNat, []), b.write src off.toNat n.toNat)
    else ((-1, []), b)
  | .readi off n, b => (b.read off.toNat n.toNat, b)
  | .fileread n, b =>
    if !b.readable then ((-1, []), b)
    else
      let r := b.read b.off (n.toInt % 2 ^ 32).toNat
      (r, { b with off := b.off + r.2.length })
  | .filewrite src n, b =>
    if !b.writable ∨ n.toInt < 0 then ((-1, []), b)
    else
      let m := b.filewriteLength n.toInt.toNat
      ((if m = n.toInt.toNat then n.toInt else -1, []), b.append src m)

/-! ## One call -/

namespace ByteFile

variable {bs : List UInt8} {src : ℕ → UInt8} {off m n : ℕ}

theorem length_overwrite : (overwrite bs src off n).length = max bs.length (off + n) := by
  simp [overwrite]

theorem getD_overwrite {k : ℕ} (hk : k < max bs.length (off + n)) :
    (overwrite bs src off n).getD k 0
      = if off ≤ k ∧ k < off + n then src (k - off) else bs.getD k 0 := by
  rw [getD_eq_getElem _ _ (by rwa [length_overwrite])]
  simp [overwrite]

theorem overwrite_zero (hoff : off ≤ bs.length) : overwrite bs src off 0 = bs := by
  refine ext_getElem (by rw [length_overwrite]; omega) fun k hk hk' => ?_
  rw [← getD_eq_getElem _ 0, getD_overwrite (by omega), if_neg (by omega),
    getD_eq_getElem _ _ hk']

/-- **Writes that follow each other make one write.** -/
theorem overwrite_overwrite :
    overwrite (overwrite bs src off m) (fun k => src (m + k)) (off + m) n
      = overwrite bs src off (m + n) := by
  have hlen : (overwrite bs src off m).length = max bs.length (off + m) := length_overwrite
  refine ext_getElem (by simp only [length_overwrite]; omega) fun k hk hk' => ?_
  rw [← getD_eq_getElem _ 0, ← getD_eq_getElem _ 0]
  simp only [length_overwrite] at hk hk'
  have hwhole : (overwrite bs src off (m + n)).getD k 0
      = if off ≤ k ∧ k < off + (m + n) then src (k - off) else bs.getD k 0 := getD_overwrite hk'
  rw [getD_overwrite (by rw [hlen]; omega), hwhole]
  by_cases h2 : off + m ≤ k ∧ k < off + m + n
  · rw [if_pos h2, if_pos (by omega)]
    congr 1
    omega
  · rw [if_neg h2, getD_overwrite (by omega)]
    by_cases h1 : off ≤ k ∧ k < off + m
    · rw [if_pos h1, if_pos (by omega)]
    · rw [if_neg h1, if_neg (by omega)]

/-- **Chunks that follow each other make one write.** -/
theorem append_append {b : ByteFile} (hm : 0 < m) :
    (b.append src m).append (fun k => src (m + k)) n = b.append src (m + n) := by
  rcases Nat.eq_zero_or_pos n with rfl | hn
  · rfl
  · have hfirst : b.append src m = { b.write src b.off m with off := b.off + m } := if_neg (by omega)
    rw [hfirst, append, append, if_neg (by omega), if_neg (by omega)]
    simp only [write, overwrite_overwrite, Nat.add_assoc]

theorem filewriteLength_of_fits {b : ByteFile} (h : b.Fits b.off n) : b.filewriteLength n = n := if_pos h

theorem filewriteLength_of_not_fits {b : ByteFile} (h : ¬ b.Fits b.off n)
    (hoff : b.off ≤ b.bytes.length) : b.filewriteLength n = (maxBytes - b.off) / chunk * chunk := by
  rw [filewriteLength, if_neg h, if_pos hoff]

/-- **The first chunk fits**: the rest is a `filewrite` behind it. -/
theorem filewriteLength_chunk {b : ByteFile} (src : ℕ → UInt8) (hn : 0 < n) (hfit : b.Fits b.off (min n chunk)) :
    b.filewriteLength n
      = min n chunk + (b.append src (min n chunk)).filewriteLength (n - min n chunk) := by
  have hchunk : 0 < min n chunk := lt_min hn (by decide)
  have happ : b.append src (min n chunk)
      = { b.write src b.off (min n chunk) with off := b.off + min n chunk } := by
    rw [append, if_neg (Nat.pos_iff_ne_zero.mp hchunk)]
  have hlen : (b.append src (min n chunk)).bytes.length
      = max b.bytes.length (b.off + min n chunk) := by
    rw [happ]
    exact length_overwrite
  have hoff : (b.append src (min n chunk)).off = b.off + min n chunk := by rw [happ]
  obtain ⟨h1, h2⟩ := hfit
  by_cases hall : b.off + n ≤ maxBytes
  · rw [filewriteLength_of_fits ⟨h1, hall⟩, filewriteLength_of_fits ⟨by omega, by omega⟩]
    omega
  · -- a whole chunk was written, so there is one less below the limit
    have hmin : min n chunk = chunk := by omega
    have hdiv := Nat.div_eq_sub_div (show 0 < chunk by decide) (show chunk ≤ maxBytes - b.off by omega)
    rw [filewriteLength_of_not_fits (fun h => hall h.2) h1,
      filewriteLength_of_not_fits (fun h => by have := h.2; omega) (by omega), hoff, hmin, hdiv,
      Nat.sub_sub, Nat.add_mul, Nat.one_mul, Nat.add_comm]

/-- **The first chunk does not fit**: nothing is written. -/
theorem filewriteLength_refused {b : ByteFile} (hfit : ¬ b.Fits b.off (min n chunk)) :
    b.filewriteLength n = 0 := by
  by_cases h1 : b.off ≤ b.bytes.length
  · have hlt : maxBytes < b.off + min n chunk := by
      by_contra hle
      exact hfit ⟨h1, by omega⟩
    have hpos : 0 < chunk := by decide
    have hdiv : (maxBytes - b.off) / chunk = 0 := Nat.div_eq_of_lt (by omega)
    rw [filewriteLength_of_not_fits (fun h => by have := h.2; omega) h1, hdiv, Nat.zero_mul]
  · rw [filewriteLength, if_neg fun h => h1 h.1, if_neg h1]

theorem filewriteLength_zero {b : ByteFile} : b.filewriteLength 0 = 0 := by
  by_cases hfit : b.Fits b.off 0
  · exact filewriteLength_of_fits hfit
  · exact filewriteLength_refused (by rwa [Nat.zero_min])

end ByteFile

namespace FileState

variable {s s' : FileState} {src : ℕ → UInt8} {off n : ℕ}

/-- The bytes of the file. -/
def toBytes (s : FileState) : ByteFile :=
  ⟨(List.range s.ip.size).map (s.fs.byte s.ip), s.readable, s.writable, s.off⟩

/-- **What holds between the calls**: the inode is a file without holes in a sound file system, the copy in
memory is the one on disk, and there are enough free blocks for the file to grow to its limit. -/
structure Ok (s : FileState) : Prop where
  owns : s.fs.Owns s.fs.dinode
  live : Fs.Live s.fs.sb s.fs.dinode s.inum
  ip_eq : s.ip = s.fs.dinode s.inum
  type : s.ip.type = .file
  filled : s.fs.Filled s.ip
  room : s.ip.missing s.fs.block ≤ s.fs.freeBlocks

theorem length_toBytes : s.toBytes.bytes.length = s.ip.size := by simp [toBytes]

/-- The bytes after an accepted write. -/
theorem toBytes_written {ip' : Dinode} {fs' : Fs} (hip : s.ip = s.fs.dinode s.inum)
    (h : Fs.Written s.fs s.inum src off n ip' fs') (hoff : off ≤ s.ip.size) :
    (toBytes { s with ip := ip', fs := fs' }) = s.toBytes.write src off n := by
  have hsize : ip'.size = max s.ip.size (off + n) := by
    rw [hip]
    exact congrArg Dinode.size h.fields
  have hbytes : (List.range ip'.size).map (fs'.byte ip')
      = ByteFile.overwrite ((List.range s.ip.size).map (s.fs.byte s.ip)) src off n := by
    refine ext_getElem (by simp [ByteFile.length_overwrite, hsize]) fun k hk hk' => ?_
    rw [← getD_eq_getElem (ByteFile.overwrite _ _ _ _) 0]
    simp only [length_map, length_range] at hk
    rw [ByteFile.getD_overwrite (by simpa [hsize] using hk), getElem_map, getElem_range]
    by_cases hin : off ≤ k ∧ k < off + n
    · rw [if_pos hin]
      exact h.inside k hin.1 hin.2
    · have hlt : k < s.ip.size := by omega
      rw [if_neg hin, getD_eq_getElem _ _ (by simpa using hlt), getElem_map,
        getElem_range, hip]
      exact h.outside k (hip ▸ hlt) hin
  simp only [toBytes, ByteFile.write, hbytes]

/-- **`writei`** writes to the byte array or refuses. -/
theorem Ok.writei (h : s.Ok) (hn : n < 2 ^ 32) :
    Returns (FileState.writei src off n s) fun r =>
      if s.toBytes.Fits off n then
        r.1 = n ∧ r.2.Ok ∧ r.2.toBytes = s.toBytes.write src off n
      else r = (-1, s) := by
  have htype : (s.fs.dinode s.inum).type ≠ .dev := by
    rw [← h.ip_eq, h.type]
    exact nofun
  have hruns := (h.owns.writei src off h.live (h.ip_eq ▸ h.filled) htype hn).returns fun e he => by
    have := h.room
    rw [h.ip_eq] at this
    omega
  rw [FileState.writei, h.ip_eq]
  refine hruns.bind fun r hr => returns_ok.mpr ?_
  obtain ⟨r, ip', fs'⟩ := r
  have hfits : s.toBytes.Fits off n
      ↔ off ≤ (s.fs.dinode s.inum).size ∧ off + n ≤ maxFile * bsize := by
    rw [ByteFile.Fits, length_toBytes, h.ip_eq, maxBytes]
  by_cases hfit : off ≤ (s.fs.dinode s.inum).size ∧ off + n ≤ maxFile * bsize
  · rw [if_pos hfit] at hr
    obtain ⟨hr, hw⟩ : r = n ∧ Fs.Written s.fs s.inum src off n ip' fs' := hr
    have hdn : fs'.dinode s.inum = ip' := by rw [hw.dinode, Function.update_self]
    have htype' : ip'.type = (s.fs.dinode s.inum).type := by rw [hw.fields]
    rw [if_pos (hfits.mpr hfit)]
    refine ⟨hr, ⟨hw.owns, ⟨hw.sb ▸ h.live.1, ?_⟩, hdn.symm, ?_, hw.filled, ?_⟩,
      toBytes_written h.ip_eq hw (h.ip_eq ▸ hfit.1)⟩
    · change (fs'.dinode s.inum).type ≠ .free
      rw [hdn, htype']
      exact h.live.2
    · change ip'.type = .file
      rw [htype', ← h.ip_eq, h.type]
    · have hroom := hw.room
      have := h.room
      rw [h.ip_eq] at this
      change ip'.missing fs'.block ≤ fs'.freeBlocks
      omega
  · rw [if_neg hfit] at hr
    rw [if_neg (mt hfits.mp hfit)]
    cases hr
    rw [← h.ip_eq]

/-- **`readi`** reads from the byte array. -/
theorem Ok.readi (h : s.Ok) (hn : n < 2 ^ 32) :
    FileState.readi off n s = .ok (s.toBytes.read off n, s) := by
  have htype : s.ip.type ≠ .dev := by
    rw [h.type]
    exact nofun
  have hslice : (s.toBytes.bytes.drop off).take n
      = (List.range (min n (s.ip.size - off))).map fun k => s.fs.byte s.ip (off + k) := by
    refine ext_getElem (by simp [length_toBytes]) fun k _ _ => ?_
    simp [toBytes]
  rw [FileState.readi, h.filled.readi htype hn, ok_bind]
  simp only [ByteFile.read, length_toBytes, hslice]

/-! ## `fileread` and `filewrite` -/

theorem Ok.advance (h : s.Ok) (r : ℤ) : (s.advance r).Ok := by
  rw [FileState.advance]
  split
  · exact ⟨h.owns, h.live, h.ip_eq, h.type, h.filled, h.room⟩
  · exact h

theorem toBytes_advance {m : ℕ} (hpos : 0 < m) (hlt : s.off + m < 2 ^ 32) :
    (s.advance m).toBytes = { s.toBytes with off := s.off + m } := by
  rw [FileState.advance, if_pos (by omega), Int.toNat_natCast, Nat.mod_eq_of_lt hlt]
  rfl

/-- A read moves the offset behind what it has read. -/
theorem Ok.toBytes_advance_read (h : s.Ok) (off n : ℕ) (hoff : s.off = off) :
    (s.advance (s.toBytes.read off n).1).toBytes
      = { s.toBytes with off := off + (s.toBytes.read off n).2.length } := by
  have hsize : s.ip.size ≤ maxBytes := h.filled.size_le
  have hlim : maxBytes < 2 ^ 32 := by decide
  by_cases hin : off ≤ s.toBytes.bytes.length ∧ off + n < 2 ^ 32
  · have hread : s.toBytes.read off n = (((min n (s.toBytes.bytes.length - off) : ℕ) : ℤ),
        (s.toBytes.bytes.drop off).take n) := if_pos hin
    have hlen : ((s.toBytes.bytes.drop off).take n).length = min n (s.toBytes.bytes.length - off) := by
      rw [length_take, length_drop]
    rw [hread, hlen]
    rcases Nat.eq_zero_or_pos (min n (s.toBytes.bytes.length - off)) with hz | hpos
    · rw [hz, ← hoff]
      rfl
    · rw [toBytes_advance hpos (by rw [length_toBytes] at *; omega), hoff]
  · rw [ByteFile.read, if_neg hin, ← hoff]
    rfl

theorem filewriteLoop_self (turns n : ℕ) (src : ℕ → UInt8) (s : FileState) :
    FileState.filewriteLoop turns src n n s = .ok (n, s) := by
  cases turns with
  | zero => rfl
  | succ turns => rw [FileState.filewriteLoop, if_neg (Nat.lt_irrefl n)]

/-- **The loop of `filewrite`** writes as many bytes as the byte array takes. -/
theorem Ok.filewriteLoop : ∀ (turns : ℕ) (src : ℕ → UInt8) (i n : ℕ) {s : FileState}, s.Ok →
    n - i ≤ turns → i ≤ n → n < 2 ^ 31 → 0 < n - i →
    Returns (FileState.filewriteLoop turns src i n s) fun r => r.2.Ok ∧
      r.1 = i + s.toBytes.filewriteLength (n - i) ∧
      r.2.toBytes = s.toBytes.append (fun k => src (i + k)) (s.toBytes.filewriteLength (n - i))
  | 0, src, i, n, s, h, hturns, hi, hn, hpos => absurd hturns (by omega)
  | turns + 1, src, i, n, s, h, hturns, hi, hn, hpos => by
    rw [FileState.filewriteLoop, if_pos (by omega)]
    have hchunk : 0 < min (n - i) chunk := lt_min hpos (by decide)
    refine (h.writei (show min (n - i) chunk < 2 ^ 32 by omega)).bind fun r hr => ?_
    obtain ⟨r, s1⟩ := r
    by_cases hfit : s.toBytes.Fits s.off (min (n - i) chunk)
    · rw [if_pos hfit] at hr
      obtain ⟨rfl, hok, hbytes⟩ : r = (min (n - i) chunk : ℕ) ∧ s1.Ok ∧ s1.toBytes =
        s.toBytes.write (fun k => src (i + k)) s.off (min (n - i) chunk) := hr
      have hlim : maxBytes < 2 ^ 32 := by decide
      have hoff : s1.off = s.off := congrArg ByteFile.off hbytes
      -- the byte array behind the chunk
      have hnext : (s1.advance (min (n - i) chunk : ℕ)).toBytes
          = s.toBytes.append (fun k => src (i + k)) (min (n - i) chunk) := by
        rw [toBytes_advance hchunk (by have := hfit.2; omega), ByteFile.append, if_neg (by omega),
          hbytes, hoff]
        rfl
      have hlen := ByteFile.filewriteLength_chunk (fun k => src (i + k)) hpos hfit
      simp only
      rw [if_neg (by omega), if_neg (by simp)]
      rcases Nat.eq_zero_or_pos (n - (i + min (n - i) chunk)) with hend | hrest
      · -- it was the last chunk
        have hmin : min (n - i) chunk = n - i := by omega
        rw [hmin] at hfit hnext ⊢
        rw [Nat.add_sub_cancel' hi, filewriteLoop_self, ByteFile.filewriteLength_of_fits hfit]
        exact returns_ok.mpr ⟨hok.advance _, (Nat.add_sub_cancel' hi).symm, hnext⟩
      · refine (Ok.filewriteLoop turns src (i + min (n - i) chunk) n (hok.advance _) (by omega)
          (by omega) hn hrest).mono fun r _ hr => ?_
        obtain ⟨hr1, hr2, hr3⟩ := hr
        have hsub : n - (i + min (n - i) chunk) = n - i - min (n - i) chunk := by omega
        rw [hnext, hsub] at hr2 hr3
        refine ⟨hr1, by rw [hr2, hlen, Nat.add_assoc], ?_⟩
        rw [hr3, hlen, ← ByteFile.append_append hchunk]
        simp only [Nat.add_assoc]
    · rw [if_neg hfit] at hr
      cases hr
      rw [ByteFile.filewriteLength_refused hfit]
      exact returns_ok.mpr ⟨h.advance (-1), rfl, rfl⟩

/-- **`filewrite`.** -/
theorem Ok.filewrite (h : s.Ok) (n : ℤ) (hn : n < 2 ^ 31) :
    Returns (FileState.filewrite src n s) fun r => r.2.Ok ∧
      if !s.writable ∨ n < 0 then r.1 = -1 ∧ r.2.toBytes = s.toBytes
      else r.1 = (if s.toBytes.filewriteLength n.toNat = n.toNat then n else -1) ∧
        r.2.toBytes = s.toBytes.append src (s.toBytes.filewriteLength n.toNat) := by
  rw [FileState.filewrite]
  cases hw : s.writable with
  | false => exact returns_ok.mpr ⟨h, by simp⟩
  | true =>
    simp only [Bool.not_true, Bool.false_eq_true, if_false, false_or]
    rcases Int.lt_trichotomy n 0 with hneg | rfl | hpos
    · rw [Int.toNat_of_nonpos hneg.le, filewriteLoop_self]
      exact returns_ok.mpr ⟨h, by rw [if_pos hneg]; exact ⟨if_neg hneg.ne', rfl⟩⟩
    · rw [Int.toNat_zero, filewriteLoop_self, ByteFile.filewriteLength_zero]
      exact returns_ok.mpr ⟨h, rfl, rfl⟩
    · refine (h.filewriteLoop n.toNat src 0 n.toNat le_rfl (Nat.zero_le _) (by omega) (by omega)).bind
        fun r hr => returns_ok.mpr ?_
      obtain ⟨hok, hlen, hbytes⟩ := hr
      simp only [Nat.sub_zero, Nat.zero_add] at hlen hbytes
      rw [if_neg hpos.not_gt, hlen]
      exact ⟨hok, if_congr (by omega) rfl rfl, hbytes⟩

end FileState

/-! ## Runs -/

open FileState

/-- **One call does to the file what it does to the byte array**, and does not panic. -/
theorem FileCall.run_spec (c : FileCall) {s : FileState} (h : s.Ok) :
    Returns (c.run s) fun r => r.2.Ok ∧ (r.1, r.2.toBytes) = c.spec s.toBytes := by
  cases c with
  | writei src off n =>
    refine (h.writei n.toNat_lt).bind fun r hr => returns_ok.mpr ?_
    rw [FileCall.spec]
    by_cases hfit : s.toBytes.Fits off.toNat n.toNat
    · rw [if_pos hfit] at hr ⊢
      obtain ⟨hr, hok, hbytes⟩ := hr
      exact ⟨hok, by rw [hr, hbytes]⟩
    · rw [if_neg hfit] at hr ⊢
      rw [hr]
      exact ⟨h, rfl⟩
  | readi off n =>
    rw [FileCall.run, h.readi n.toNat_lt]
    exact returns_ok.mpr ⟨h, rfl⟩
  | fileread n =>
    rw [FileCall.run, FileState.fileread, FileCall.spec]
    have hn : (n.toInt % 2 ^ 32).toNat < 2 ^ 32 := by omega
    cases hr : s.readable with
    | false => exact returns_ok.mpr ⟨h, by simp [toBytes, hr]⟩
    | true =>
      have hreadable : ¬ ((!s.toBytes.readable) = true) := by simp [toBytes, hr]
      rw [h.readi hn, if_neg hreadable]
      exact returns_ok.mpr ⟨h.advance _, Prod.ext rfl (h.toBytes_advance_read _ _ rfl)⟩
  | filewrite src n =>
    refine (h.filewrite n.toInt n.toInt_lt).bind fun r hr => returns_ok.mpr ⟨hr.1, ?_⟩
    rw [FileCall.spec]
    by_cases hw : (!s.writable) ∨ n.toInt < 0
    · rw [if_pos hw] at hr
      rw [if_pos (show (!s.toBytes.writable) ∨ n.toInt < 0 from hw), hr.2.1, hr.2.2]
    · rw [if_neg hw] at hr
      rw [if_neg (show ¬ ((!s.toBytes.writable) ∨ n.toInt < 0) from hw), hr.2.1, hr.2.2]

/-- A `filewrite` that fits is one write. -/
theorem FileCall.spec_filewrite {b : ByteFile} (src : ℕ → UInt8) {n : Int32} (hw : b.writable = true)
    (hn : 0 ≤ n.toInt) (hfit : b.Fits b.off n.toInt.toNat) :
    (FileCall.filewrite src n).spec b = ((n.toInt, []),
      { b.write src b.off n.toInt.toNat with off := b.off + n.toInt.toNat }) := by
  have hok : ¬ ((!b.writable) = true ∨ n.toInt < 0) := by simp [hw, hn]
  rw [FileCall.spec, if_neg hok]
  simp only [ByteFile.filewriteLength_of_fits hfit, if_true, ByteFile.append]
  split
  · rename_i hz
    rw [hz, ByteFile.write, ByteFile.overwrite_zero hfit.1]
    rfl
  · rfl

/-- A sequence of calls: the replies, and the file after them. -/
def FileCall.runAll : List FileCall → FileState → Except String (List Reply × FileState)
  | [], s => .ok ([], s)
  | c :: cs, s => do
    let (r, s) ← c.run s
    let (rs, s) ← runAll cs s
    .ok (r :: rs, s)

/-- What a sequence of calls does to a byte array. -/
def FileCall.specAll : List FileCall → ByteFile → List Reply × ByteFile
  | [], b => ([], b)
  | c :: cs, b => ((c.spec b).1 :: (specAll cs (c.spec b).2).1, (specAll cs (c.spec b).2).2)

theorem FileCall.runAll_specAll : ∀ (cs : List FileCall) {s : FileState}, s.Ok →
    Returns (FileCall.runAll cs s) fun r => r.2.Ok ∧ (r.1, r.2.toBytes) = FileCall.specAll cs s.toBytes
  | [], _, h => returns_ok.mpr ⟨h, rfl⟩
  | c :: cs, s, h => by
    refine (c.run_spec h).bind fun r hr => ?_
    obtain ⟨hok, hspec⟩ := hr
    refine (FileCall.runAll_specAll cs hok).bind fun rs hrs => returns_ok.mpr ⟨hrs.1, ?_⟩
    rw [FileCall.specAll, ← hspec, ← hrs.2]

/-- **Files are byte arrays.**  Every sequence of calls on a file gives the replies and the contents that
it gives on a byte array, without a panic; and a `filewrite` that fits has the effect of one `writei` of
the whole buffer at the offset. -/
theorem files_are_byte_arrays (cs : List FileCall) (s : FileState) (h : s.Ok) :
    Returns (FileCall.runAll cs s) fun r =>
      (r.1, r.2.toBytes) = FileCall.specAll cs s.toBytes ∧ r.2.Ok ∧
      ∀ (src : ℕ → UInt8) (n : Int32), r.2.writable = true → 0 ≤ n.toInt →
        r.2.toBytes.Fits r.2.off n.toInt.toNat →
        Returns ((FileCall.filewrite src n).run r.2) fun r' => r'.1 = (n.toInt, []) ∧
          r'.2.toBytes = { r.2.toBytes.write src r.2.off n.toInt.toNat with
            off := r.2.off + n.toInt.toNat } := by
  refine (FileCall.runAll_specAll cs h).mono fun r _ hr => ⟨hr.2, hr.1, fun src n hw hn hfit => ?_⟩
  refine ((FileCall.filewrite src n).run_spec hr.1).mono fun r' _ hr' => ?_
  rw [FileCall.spec_filewrite src hw hn hfit] at hr'
  exact Prod.ext_iff.mp hr'.2

/-- An empty file, open for both, on an empty disk. -/
def emptyFile : FileState where
  fs := .blank (fun i => if i = 1 then { Dinode.zero with type := .file, nlink := 1 } else .zero)
  inum := 1
  ip := { Dinode.zero with type := .file, nlink := 1 }
  readable := true
  writable := true
  off := 0

theorem emptyFile_ok : emptyFile.Ok where
  owns := Fs.blank_owns fun i => by dsimp only; split <;> rfl
  live := by decide
  ip_eq := rfl
  type := rfl
  filled := ⟨Nat.zero_le _, fun k hk => absurd hk (Nat.not_lt_zero k)⟩
  room := (Finset.card_le_univ _).trans (by rw [emptyFile, Fs.freeBlocks_blank]; decide +kernel)

/-- Two writes and a read of the second block's end. -/
theorem files_are_byte_arrays_empty :
    emptyFile.Ok ∧ Returns (FileCall.runAll [.filewrite (fun _ => 7) 600, .readi 599 5] emptyFile)
      fun r => r.1 = [(600, []), (1, [7])] := by
  refine ⟨emptyFile_ok, (files_are_byte_arrays _ emptyFile emptyFile_ok).mono fun r _ hr => ?_⟩
  rw [(Prod.ext_iff.mp hr.1).1]
  decide +kernel

/-- **A read that starts behind the end is refused**: the slice it asks for is empty, and the reply
is `-1`. -/
theorem readi_behind_end :
    emptyFile.Ok ∧ (emptyFile.toBytes.bytes.drop 1).take 1 = [] ∧
      Returns ((FileCall.readi 1 1).run emptyFile) fun r => r.1 = (-1, []) :=
  ⟨emptyFile_ok, rfl, returns_ok.mpr rfl⟩

end Xv6
