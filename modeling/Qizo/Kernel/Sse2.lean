import Qizo.Lib.X64

/-!
# The fast copies and fills

`kernel/lib/sse2.S` against the loops of `kernel/lib/libc.c`. The assembly is embedded label by
label. The vector loops work downwards from the length rounded down to 16, two vectors at a time;
where the number of vectors is odd the last pass goes 16 bytes too far, and the byte loops behind
them start from the wrong end. Below 16 bytes both routines enter the byte loop of the copy with
whatever the counter register holds.

## Main results

* `leadsTo_loop16_even`, `leadsTo_loop16_odd` — the vector loop, by the parity of its vectors
* `memcpyOk_iff` — the lengths for which `qizo_memcpy_sse2` is `qizo_memcpy`
-/

namespace Qizo

namespace Sse2

open X64 StateTransition

/-! ### The C loops -/

/-- `qizo_memcpy`. -/
def qizoMemcpy (m : Memory) (dst src n : ℕ) : Memory :=
  (List.range n).foldl (fun m i => Function.update m (dst + i) (m (src + i))) m

/-- `qizo_memset`. -/
def qizoMemset (m : Memory) (dst : ℕ) (value : BitVec 32) (n : ℕ) : Memory :=
  (List.range n).foldl (fun m i => Function.update m (dst + i) (.ofNat value.toNat)) m

/-! ### The assembly -/

/-- The labels; `ret` is where a routine returns. -/
inductive Label where
  | qizoMemcpySse2 | loop16 | tail | tail1 | done
  | qizoMemsetSse2 | mloop | mtail | mtail1 | mdone
  | qizoFillByte
  | ret
  deriving DecidableEq

open Reg Operand

/-- The instructions of `kernel/lib/sse2.S`. -/
def code : Label → Option (Block Label)
  | .qizoMemcpySse2 => some ⟨[
      .op (cmpq (imm 16#64) rdx),
      jb .tail,
      .op (movq rdx rcx),
      .op (andq (imm (-16#64)) rcx),
      .op (addq rcx rsi),
      .op (addq rcx rdi),
      .op (leaq (ind (-16#64) rsi) rsi),
      .op (leaq (ind (-16#64) rdi) rdi)], .loop16⟩
  | .loop16 => some ⟨[
      .op (load0 (ind 0#64 rsi)),
      .op (store0 (ind 0#64 rdi)),
      .op (load1 (ind (-16#64) rsi)),
      .op (store1 (ind (-16#64) rdi)),
      .op (subq (imm 32#64) rsi),
      .op (subq (imm 32#64) rdi),
      .op (subq (imm 32#64) rcx),
      jg .loop16,
      .op (addq (imm 32#64) rsi),
      .op (addq (imm 32#64) rdi),
      .op (movq rdx rcx),
      .op (andq (imm 15#64) rcx),
      jz .done], .tail⟩
  | .tail => some ⟨[
      .op (addq rcx rsi),
      .op (addq rcx rdi)], .tail1⟩
  | .tail1 => some ⟨[
      .op (decq rsi),
      .op (decq rdi),
      .op (movzbl (ind 0#64 rsi) rax),
      .op (movb rax (ind 0#64 rdi)),
      .op (decq rcx),
      jnz .tail1], .done⟩
  | .done => some ⟨[.jmp .ret], .ret⟩
  | .qizoMemsetSse2 => some ⟨[
      .op (movl rsi rax),
      .op (movd rax),
      .op punpcklbw,
      .op punpcklwd,
      .op pshufd0,
      .op (cmpq (imm 16#64) rdx),
      jb .tail,
      .op (movq rdx rcx),
      .op (andq (imm (-16#64)) rcx),
      .op (addq rcx rdi),
      .op (leaq (ind (-16#64) rdi) rdi)], .mloop⟩
  | .mloop => some ⟨[
      .op (store0 (ind 0#64 rdi)),
      .op (store0 (ind (-16#64) rdi)),
      .op (subq (imm 32#64) rdi),
      .op (subq (imm 32#64) rcx),
      jg .mloop,
      .op (addq (imm 32#64) rdi),
      .op (movq rdx rcx),
      .op (andq (imm 15#64) rcx),
      jz .mdone], .mtail⟩
  | .mtail => some ⟨[.op (addq rcx rdi)], .mtail1⟩
  | .mtail1 => some ⟨[
      .op (decq rdi),
      .op (movb rax (ind 0#64 rdi)),
      .op (decq rcx),
      jnz .mtail1], .mdone⟩
  | .mdone => some ⟨[.jmp .ret], .ret⟩
  | .qizoFillByte => some ⟨[
      .op (movq rdx rcx),
      .op repStosb,
      .jmp .ret], .ret⟩
  | .ret => none

/-- The run of a routine arrives at its return with a memory. -/
def Returns (l : Label) (s : Cpu) (m : Memory) : Prop :=
  LeadsTo (step code) (l, s) fun y => y.1 = .ret ∧ y.2.mem = m

/-- For this length `qizo_memcpy_sse2` is `qizo_memcpy`: on any two buffers that do not overlap, in
any memory and with any other registers. -/
def MemcpyOk (n : ℕ) : Prop :=
  ∀ (dst src : ℕ) (s : Cpu), dst + n ≤ 2 ^ 64 → src + n ≤ 2 ^ 64 →
    (dst + n ≤ src ∨ src + n ≤ dst) → s.rdi = .ofNat 64 dst → s.rsi = .ofNat 64 src →
    s.rdx = .ofNat 64 n → Returns .qizoMemcpySse2 s (qizoMemcpy s.mem dst src n)

/-- For this length a fill is `qizo_memset`: on any buffer, with any value in the second argument
register, in any memory and with any other registers. -/
def FillOk (l : Label) (n : ℕ) : Prop :=
  ∀ (dst : ℕ) (s : Cpu), dst + n ≤ 2 ^ 64 → s.rdi = .ofNat 64 dst → s.rdx = .ofNat 64 n →
    Returns l s (qizoMemset s.mem dst (s.rsi.setWidth 32) n)

/-! ### Copied and filled memories -/

/-- A memory with `n` bytes copied. -/
def copied (m : Memory) (dst src n : ℕ) : Memory :=
  fun x => if dst ≤ x ∧ x < dst + n then m (src + (x - dst)) else m x

/-- A memory with `n` bytes filled. -/
def filled (m : Memory) (dst : ℕ) (b : UInt8) (n : ℕ) : Memory :=
  fun x => if dst ≤ x ∧ x < dst + n then b else m x

variable {m : Memory} {dst src n c : ℕ} {b : UInt8}

theorem copied_inside {x : ℕ} (h : dst ≤ x ∧ x < dst + n) :
    copied m dst src n x = m (src + (x - dst)) := if_pos h

theorem copied_outside {x : ℕ} (h : ¬(dst ≤ x ∧ x < dst + n)) : copied m dst src n x = m x :=
  if_neg h

theorem filled_inside {x : ℕ} (h : dst ≤ x ∧ x < dst + n) : filled m dst b n x = b := if_pos h

theorem filled_outside {x : ℕ} (h : ¬(dst ≤ x ∧ x < dst + n)) : filled m dst b n x = m x :=
  if_neg h

theorem qizoMemcpy_eq (h : dst + n ≤ src ∨ src + n ≤ dst) :
    qizoMemcpy m dst src n = copied m dst src n := by
  induction n with
  | zero =>
    funext x
    rw [copied_outside (by omega)]
    rfl
  | succ n ih =>
    rw [qizoMemcpy, List.range_succ, List.foldl_append, ← qizoMemcpy, ih (by omega)]
    funext x
    rw [List.foldl_cons, List.foldl_nil]
    rcases Nat.lt_trichotomy x (dst + n) with hx | rfl | hx
    · rw [Function.update_of_ne (by omega)]
      by_cases hd : dst ≤ x
      · rw [copied_inside (by omega), copied_inside (by omega)]
      · rw [copied_outside (by omega), copied_outside (by omega)]
    · rw [Function.update_self, copied_outside (by omega), copied_inside (by omega),
        Nat.add_sub_cancel_left]
    · rw [Function.update_of_ne (by omega), copied_outside (by omega),
        copied_outside (by omega)]

theorem qizoMemset_eq (value : BitVec 32) :
    qizoMemset m dst value n = filled m dst (.ofNat value.toNat) n := by
  induction n with
  | zero =>
    funext x
    rw [filled_outside (by omega)]
    rfl
  | succ n ih =>
    rw [qizoMemset, List.range_succ, List.foldl_append, ← qizoMemset, ih]
    funext x
    rw [List.foldl_cons, List.foldl_nil]
    rcases Nat.lt_trichotomy x (dst + n) with hx | rfl | hx
    · rw [Function.update_of_ne (by omega)]
      by_cases hd : dst ≤ x
      · rw [filled_inside (by omega), filled_inside (by omega)]
      · rw [filled_outside (by omega), filled_outside (by omega)]
    · rw [Function.update_self, filled_inside (by omega)]
    · rw [Function.update_of_ne (by omega), filled_outside (by omega),
        filled_outside (by omega)]

/-- A copy below the bytes already copied. -/
theorem copied_below {k : ℕ} (h : dst + (n + k) ≤ src ∨ src + (n + k) ≤ dst) :
    copied (copied m (dst + n) (src + n) k) dst src n = copied m dst src (n + k) := by
  funext x
  by_cases hx : dst ≤ x ∧ x < dst + n
  · rw [copied_inside hx, copied_outside (by omega), copied_inside (by omega)]
  · by_cases hx' : dst + n ≤ x ∧ x < dst + n + k
    · rw [copied_outside hx, copied_inside hx', copied_inside (by omega)]
      congr 1
      omega
    · rw [copied_outside hx, copied_outside hx', copied_outside (by omega)]

theorem filled_below {k : ℕ} :
    filled (filled m (dst + n) b k) dst b n = filled m dst b (n + k) := by
  funext x
  by_cases hx : dst ≤ x ∧ x < dst + n
  · rw [filled_inside hx, filled_inside (by omega)]
  · by_cases hx' : dst + n ≤ x ∧ x < dst + n + k
    · rw [filled_outside hx, filled_inside hx', filled_inside (by omega)]
    · rw [filled_outside hx, filled_outside hx', filled_outside (by omega)]

/-- A vector copied through a register. -/
theorem st128_ld128 (hd : dst + 16 ≤ 2 ^ 64) (hs : src + 16 ≤ 2 ^ 64) :
    st128 m (.ofNat 64 dst) (ld128 m (.ofNat 64 src)) = copied m dst src 16 := by
  rw [st128_ofNat hd]
  funext x
  by_cases hx : dst ≤ x ∧ x < dst + 16
  · rw [dif_pos hx, copied_inside hx, ld128, ldByte_ofNat (by simp only; omega)]
  · rw [dif_neg hx, copied_outside hx]

/-- A vector of equal bytes. -/
theorem st128_const (hd : dst + 16 ≤ 2 ^ 64) :
    st128 m (.ofNat 64 dst) (fun _ => b) = filled m dst b 16 := by
  rw [st128_ofNat hd]
  funext x
  by_cases hx : dst ≤ x ∧ x < dst + 16
  · rw [dif_pos hx, filled_inside hx]
  · rw [dif_neg hx, filled_outside hx]

/-! ### The copy -/

/-- The memory after one pass of the copy loop. -/
def passed (s : Cpu) : Memory :=
  st128 (st128 s.mem s.rdi (ld128 s.mem s.rsi)) (s.rdi + -16#64)
    (ld128 (st128 s.mem s.rdi (ld128 s.mem s.rsi)) (s.rsi + -16#64))

/-- A pass that goes on. -/
theorem leadsTo_loop16 {s : Cpu} {Q : Label × Cpu → Prop} (h : (32#64).toInt < s.rcx.toInt)
    (hQ : ∀ s', s'.rsi = s.rsi - 32#64 → s'.rdi = s.rdi - 32#64 → s'.rcx = s.rcx - 32#64 →
      s'.rdx = s.rdx → s'.mem = passed s → LeadsTo (step code) (.loop16, s') Q) :
    LeadsTo (step code) (.loop16, s) Q := by
  refine leadsTo_block rfl ?_
  simp only [runBlock, load0, Cpu.ea, Cpu.get, store0, load1, store1, subq, cmpFlags, Cpu.read,
    Cpu.write, Cpu.set, jg, greater_eq, h, decide_true, if_true, BitVec.add_zero]
  exact hQ _ rfl rfl rfl rfl rfl

/-- The last pass: the pointers come back, and the counter takes the rest of the length. -/
theorem leadsTo_loop16_last {s : Cpu} {Q : Label × Cpu → Prop}
    (h : ¬(32#64).toInt < s.rcx.toInt)
    (hQ : ∀ s' l, s'.rsi = s.rsi - 32#64 + 32#64 → s'.rdi = s.rdi - 32#64 + 32#64 →
      s'.rcx = s.rdx &&& 15#64 → s'.mem = passed s →
      l = (if s.rdx &&& 15#64 == 0#64 then .done else .tail) → LeadsTo (step code) (l, s') Q) :
    LeadsTo (step code) (.loop16, s) Q := by
  refine leadsTo_block rfl ?_
  simp only [runBlock, load0, Cpu.ea, Cpu.get, store0, load1, store1, subq, cmpFlags, Cpu.read,
    Cpu.write, Cpu.set, jg, greater_eq, h, decide_false, Bool.false_eq_true, if_false, addq,
    movq, andq, logicFlags, jz, BitVec.add_zero]
  refine LeadsTo.ite (fun hz => ?_) (fun hz => ?_)
  · exact hQ _ _ rfl rfl rfl rfl (if_pos hz).symm
  · exact hQ _ _ rfl rfl rfl rfl (if_neg hz).symm

theorem returns_done (s : Cpu) : Returns .done s s.mem :=
  leadsTo_block rfl (.now ⟨rfl, rfl⟩)

theorem returns_mdone (s : Cpu) : Returns .mdone s s.mem :=
  leadsTo_block rfl (.now ⟨rfl, rfl⟩)

/-- One byte of the copy. -/
theorem leadsTo_tail1 {s : Cpu} {g : ℕ} {Q : Label × Cpu → Prop} (hd : dst + g < 2 ^ 64)
    (hs : src + g < 2 ^ 64) (hg : g + 1 < 2 ^ 64) (hrcx : s.rcx = .ofNat 64 (g + 1))
    (hrsi : s.rsi = .ofNat 64 (src + (g + 1))) (hrdi : s.rdi = .ofNat 64 (dst + (g + 1)))
    (hQ : ∀ s' l, s'.rsi = .ofNat 64 (src + g) → s'.rdi = .ofNat 64 (dst + g) →
      s'.rcx = .ofNat 64 g → s'.mem = copied s.mem (dst + g) (src + g) 1 →
      l = (if g = 0 then .done else .tail1) → LeadsTo (step code) (l, s') Q) :
    LeadsTo (step code) (.tail1, s) Q := by
  have hsub : ∀ x : ℕ, BitVec.ofNat 64 (x + (g + 1)) - 1#64 = .ofNat 64 (x + g) := fun x =>
    ofNat_sub_ofNat (by omega)
  have hcount : BitVec.ofNat 64 (g + 1) - 1#64 = .ofNat 64 g := ofNat_sub_ofNat (by omega)
  have hzero : (BitVec.ofNat 64 (g + 1) == 1#64) = decide (g = 0) := by
    rw [Bool.eq_iff_iff, beq_iff_eq, decide_eq_true_iff, ← BitVec.toNat_inj,
      toNat_ofNat_of_lt (by omega), toNat_ofNat_of_lt (by omega)]
    omega
  have hmem : Function.update s.mem (dst + g)
      (UInt8.ofNat (BitVec.ofNat 64 (s.mem (src + g)).toNat).toNat) =
      copied s.mem (dst + g) (src + g) 1 := by
    have hb : (s.mem (src + g)).toNat < 256 := UInt8.toNat_lt _
    rw [toNat_ofNat_of_lt (by omega), UInt8.ofNat_toNat]
    funext x
    by_cases hx : x = dst + g
    · rw [hx, Function.update_self, copied_inside (by omega), Nat.sub_self, Nat.add_zero]
    · rw [Function.update_of_ne hx, copied_outside (by omega)]
  refine leadsTo_block rfl ?_
  simp only [runBlock, decq, Cpu.read, Cpu.get, Cpu.write, Cpu.set, movzbl, Cpu.ea, movb, jnz,
    BitVec.add_zero, hrcx, hrsi, hrdi, hsub, hcount, hzero, toNat_ofNat_of_lt hd,
    toNat_ofNat_of_lt hs, hmem]
  refine LeadsTo.ite (fun hz => ?_) (fun hz => ?_)
  · exact hQ _ _ rfl rfl rfl rfl (if_neg (by simpa using hz)).symm
  · exact hQ _ _ rfl rfl rfl rfl (if_pos (by simpa using hz)).symm

/-- **The byte loop of the copy**, from the end of two ranges down to their beginning. -/
theorem returns_tail1 {s : Cpu} {g : ℕ} (hd : dst + (g + 1) ≤ 2 ^ 64) (hs : src + (g + 1) ≤ 2 ^ 64)
    (hdis : dst + (g + 1) ≤ src ∨ src + (g + 1) ≤ dst) (hrcx : s.rcx = .ofNat 64 (g + 1))
    (hrsi : s.rsi = .ofNat 64 (src + (g + 1))) (hrdi : s.rdi = .ofNat 64 (dst + (g + 1))) :
    Returns .tail1 s (copied s.mem dst src (g + 1)) := by
  induction g generalizing s with
  | zero =>
    refine leadsTo_tail1 (by omega) (by omega) (by omega) hrcx hrsi hrdi ?_
    rintro s' _ - - - hmem rfl
    have hdone := returns_done s'
    rwa [hmem] at hdone
  | succ g ih =>
    refine leadsTo_tail1 (by omega) (by omega) (by omega) hrcx hrsi hrdi ?_
    rintro s' _ hrsi' hrdi' hrcx' hmem rfl
    have hrest := ih (by omega) (by omega) (by omega) hrcx' hrsi' hrdi'
    rw [hmem, copied_below (by omega)] at hrest
    exact hrest

theorem returns_tail {s : Cpu} {g : ℕ} (hd : dst + (g + 1) ≤ 2 ^ 64) (hs : src + (g + 1) ≤ 2 ^ 64)
    (hdis : dst + (g + 1) ≤ src ∨ src + (g + 1) ≤ dst) (hrcx : s.rcx = .ofNat 64 (g + 1))
    (hrsi : s.rsi = .ofNat 64 src) (hrdi : s.rdi = .ofNat 64 dst) :
    Returns .tail s (copied s.mem dst src (g + 1)) := by
  refine leadsTo_block rfl ?_
  simp only [runBlock, addq, Cpu.read, Cpu.get, Cpu.write, Cpu.set, hrcx, hrsi, hrdi,
    ofNat_add_ofNat]
  exact returns_tail1 hd hs hdis rfl rfl rfl

/-- A pass between two ranges that do not overlap. -/
theorem passed_eq {s : Cpu} (hd : dst + 32 ≤ 2 ^ 64) (hs : src + 32 ≤ 2 ^ 64)
    (hdis : dst + 32 ≤ src ∨ src + 32 ≤ dst) (hrsi : s.rsi = .ofNat 64 (src + 16))
    (hrdi : s.rdi = .ofNat 64 (dst + 16)) : passed s = copied s.mem dst src 32 := by
  rw [passed, hrsi, hrdi, ofNat_add_neg (by omega), ofNat_add_neg (by omega),
    Nat.add_sub_cancel, Nat.add_sub_cancel, st128_ld128 (by omega) (by omega),
    st128_ld128 (by omega) (by omega), copied_below (by omega)]

/-- **The copy loop over an even number of vectors.** -/
theorem leadsTo_loop16_even {s : Cpu} {k : ℕ} {Q : Label × Cpu → Prop}
    (hd : dst + (32 * k + 32) ≤ 2 ^ 64) (hs : src + (32 * k + 32) ≤ 2 ^ 64)
    (hdis : dst + (32 * k + 32) ≤ src ∨ src + (32 * k + 32) ≤ dst)
    (hk : 32 * k + 32 < 2 ^ 63) (hrcx : s.rcx = .ofNat 64 (32 * k + 32))
    (hrsi : s.rsi = .ofNat 64 (src + 32 * k + 16)) (hrdi : s.rdi = .ofNat 64 (dst + 32 * k + 16))
    (hQ : ∀ s' l, s'.rsi = .ofNat 64 (src + 16) → s'.rdi = .ofNat 64 (dst + 16) →
      s'.rcx = s.rdx &&& 15#64 → s'.mem = copied s.mem dst src (32 * k + 32) →
      l = (if s.rdx &&& 15#64 == 0#64 then .done else .tail) → LeadsTo (step code) (l, s') Q) :
    LeadsTo (step code) (.loop16, s) Q := by
  induction k generalizing s with
  | zero =>
    refine leadsTo_loop16_last (by rw [hrcx]; decide) ?_
    intro s' l hrsi' hrdi' hrcx' hmem hl
    refine hQ s' l ?_ ?_ hrcx' ?_ hl
    · rw [hrsi', hrsi, BitVec.sub_add_cancel]
    · rw [hrdi', hrdi, BitVec.sub_add_cancel]
    · rw [hmem]
      exact passed_eq (by omega) (by omega) (by omega) hrsi hrdi
  | succ k ih =>
    have hpass : passed s =
        copied s.mem (dst + (32 * k + 32)) (src + (32 * k + 32)) 32 :=
      passed_eq (by omega) (by omega) (by omega)
        (by rw [hrsi]; congr 1) (by rw [hrdi]; congr 1)
    refine leadsTo_loop16 ?_ ?_
    · rw [hrcx, toInt_ofNat_of_lt hk, toInt_ofNat_of_lt (by omega)]
      omega
    intro s' hrsi' hrdi' hrcx' hrdx' hmem
    refine ih (by omega) (by omega) (by omega) (by omega) ?_ ?_ ?_ ?_
    · rw [hrcx', hrcx, ofNat_sub_ofNat (by omega)]
      congr 1
    · rw [hrsi', hrsi, ofNat_sub_ofNat (by omega)]
      congr 1
    · rw [hrdi', hrdi, ofNat_sub_ofNat (by omega)]
      congr 1
    · rw [hmem, hpass, copied_below (by omega), hrdx']
      exact hQ

/-- **The copy loop over an odd number of vectors**, from the middle of the address space to its
beginning: the last pass writes below the destination. -/
theorem leadsTo_loop16_odd {s : Cpu} {k : ℕ} {Q : Label × Cpu → Prop}
    (hk : 32 * k + 16 < 2 ^ 63) (hrcx : s.rcx = .ofNat 64 (32 * k + 16))
    (hrsi : s.rsi = .ofNat 64 (2 ^ 63 + 32 * k)) (hrdi : s.rdi = .ofNat 64 (32 * k))
    (hQ : ∀ s' l, s'.rsi = .ofNat 64 (2 ^ 63) → s'.rdi = .ofNat 64 0 →
      s'.rcx = s.rdx &&& 15#64 →
      (∀ x, 32 * k + 16 ≤ x → x < 2 ^ 64 - 16 → s'.mem x = s.mem x) →
      s'.mem (2 ^ 64 - 1) = s.mem (2 ^ 63 - 1) →
      l = (if s.rdx &&& 15#64 == 0#64 then .done else .tail) → LeadsTo (step code) (l, s') Q) :
    LeadsTo (step code) (.loop16, s) Q := by
  induction k generalizing s with
  | zero =>
    rw [Nat.mul_zero] at hrcx hrsi hrdi
    rw [Nat.add_zero] at hrsi
    have hpass : passed s =
        copied (copied s.mem 0 (2 ^ 63) 16) (2 ^ 64 - 16) (2 ^ 63 - 16) 16 := by
      have hwrap : BitVec.ofNat 64 0 + -16#64 = .ofNat 64 (2 ^ 64 - 16) := by decide
      rw [passed, hrsi, hrdi, hwrap, ofNat_add_neg (by omega),
        st128_ld128 (by omega) (by omega), st128_ld128 (by omega) (by omega)]
    refine leadsTo_loop16_last (by rw [hrcx]; decide) ?_
    intro s' l hrsi' hrdi' hrcx' hmem hl
    refine hQ s' l ?_ ?_ hrcx' ?_ ?_ hl
    · rw [hrsi', hrsi, BitVec.sub_add_cancel]
    · rw [hrdi', hrdi, BitVec.sub_add_cancel]
    · intro x hx hx'
      rw [hmem, hpass, copied_outside (by omega), copied_outside (by omega)]
    · rw [hmem, hpass, copied_inside (by omega), copied_outside (by omega)]
      congr 1
  | succ k ih =>
    have hpass : passed s = copied s.mem (32 * k + 16) (2 ^ 63 + 32 * k + 16) 32 :=
      passed_eq (by omega) (by omega) (by omega) hrsi hrdi
    refine leadsTo_loop16 ?_ ?_
    · rw [hrcx, toInt_ofNat_of_lt hk, toInt_ofNat_of_lt (by omega)]
      omega
    intro s' hrsi' hrdi' hrcx' hrdx' hmem
    refine ih (by omega) ?_ ?_ ?_ ?_
    · rw [hrcx', hrcx, ofNat_sub_ofNat (by omega)]
      congr 1
    · rw [hrsi', hrsi, ofNat_sub_ofNat (by omega)]
      congr 1
    · rw [hrdi', hrdi, ofNat_sub_ofNat (by omega)]
      congr 1
    · rw [hmem, hpass, hrdx']
      intro s'' l hrsi'' hrdi'' hrcx'' hframe hlast hl
      refine hQ s'' l hrsi'' hrdi'' hrcx'' ?_ ?_ hl
      · intro x hx hx'
        rw [hframe x (by omega) hx', copied_outside (by omega)]
      · rw [hlast, copied_outside (by omega)]

/-- A short copy goes to the byte loop with the counter as it is. -/
theorem leadsTo_memcpy_short {s : Cpu} {Q : Label × Cpu → Prop} (hrdx : s.rdx = .ofNat 64 n)
    (hn : n < 16)
    (hQ : ∀ s', s'.rsi = s.rsi → s'.rdi = s.rdi → s'.rcx = s.rcx → s'.mem = s.mem →
      LeadsTo (step code) (.tail, s') Q) : LeadsTo (step code) (.qizoMemcpySse2, s) Q := by
  have hlt : n < (16#64).toNat := hn
  refine leadsTo_block rfl ?_
  simp only [runBlock, cmpq, cmpFlags, Cpu.read, Cpu.get, jb, hrdx,
    toNat_ofNat_of_lt (by omega : n < 2 ^ 64), hlt, decide_true, if_true]
  exact hQ _ rfl rfl rfl rfl

/-- A longer one starts at the last whole vector. -/
theorem leadsTo_memcpy_long {s : Cpu} {Q : Label × Cpu → Prop} (hrdx : s.rdx = .ofNat 64 n)
    (hn : 16 ≤ n) (hlt : n < 2 ^ 64) (hrsi : s.rsi = .ofNat 64 src) (hrdi : s.rdi = .ofNat 64 dst)
    (hQ : ∀ s', s'.rsi = .ofNat 64 (src + (n / 16 * 16 - 16)) →
      s'.rdi = .ofNat 64 (dst + (n / 16 * 16 - 16)) → s'.rcx = .ofNat 64 (n / 16 * 16) →
      s'.rdx = .ofNat 64 n → s'.mem = s.mem → LeadsTo (step code) (.loop16, s') Q) :
    LeadsTo (step code) (.qizoMemcpySse2, s) Q := by
  have hge : ¬n < (16#64).toNat := by
    change ¬n < 16
    omega
  have hptr : ∀ x, BitVec.ofNat 64 (x + n / 2 ^ 4 * 2 ^ 4) + -16#64 =
      .ofNat 64 (x + (n / 16 * 16 - 16)) := by
    intro x
    rw [ofNat_add_neg (by omega)]
    congr 1
    omega
  refine leadsTo_block rfl ?_
  simp only [runBlock, cmpq, cmpFlags, Cpu.read, Cpu.get, jb, hrdx, toNat_ofNat_of_lt hlt, hge,
    decide_false, Bool.false_eq_true, if_false, movq, Cpu.write, Cpu.set, andq, logicFlags,
    ofNat_and_neg_sixteen, addq, hrsi, hrdi, ofNat_add_ofNat, leaq, Cpu.ea, hptr]
  exact hQ _ rfl rfl rfl rfl rfl

/-- A routine returns with at most one memory. -/
theorem Returns.unique {l : Label} {s : Cpu} {m₁ m₂ : Memory} (h₁ : Returns l s m₁)
    (h₂ : Returns l s m₂) : m₁ = m₂ := by
  obtain ⟨⟨l₁, s₁⟩, hr₁, rfl, rfl⟩ := h₁
  obtain ⟨⟨l₂, s₂⟩, hr₂, hl₂, rfl⟩ := h₂
  obtain rfl : l₂ = .ret := hl₂
  have := Reaches.halted_unique hr₁ hr₂ rfl rfl
  rw [Prod.mk.injEq] at this
  rw [this.2]

/-- A state with given registers and memory. -/
def entered (rcx rdx rsi rdi : ℕ) (m : Memory) : Cpu :=
  ⟨0, 0, .ofNat 64 rcx, .ofNat 64 rdx, .ofNat 64 rsi, .ofNat 64 rdi, 0, 0, fun _ => 0, fun _ => 0,
    false, false, false, false, 0, 0, 0, fun _ => 0, m⟩

/-- A memory that is zero but for one byte. -/
def mark (a : ℕ) : Memory := Function.update (fun _ => 0) a 1

theorem mark_self (a : ℕ) : mark a a = 1 := Function.update_self ..

theorem mark_of_ne {a x : ℕ} (h : x ≠ a) : mark a x = 0 := Function.update_of_ne h ..

@[simp] theorem mem_entered (rcx rdx rsi rdi : ℕ) (m : Memory) :
    (entered rcx rdx rsi rdi m).mem = m := rfl

/-- Short copies depend on the counter register. -/
theorem not_memcpyOk_short (hn : n < 16) : ¬MemcpyOk n := by
  intro hok
  -- One byte too many, from 32 to 0.
  have hwant := hok 0 32 (entered (n + 1) n 32 0 (mark (32 + n))) (by omega) (by omega) (by omega)
    rfl rfl rfl
  have hrun : Returns .qizoMemcpySse2 (entered (n + 1) n 32 0 (mark (32 + n)))
      (copied (mark (32 + n)) 0 32 (n + 1)) := by
    refine leadsTo_memcpy_short rfl hn ?_
    intro s' hrsi hrdi hrcx hmem
    have := returns_tail (s := s') (g := n) (by omega) (by omega) (by omega)
      hrcx hrsi hrdi
    rwa [hmem] at this
  have hbyte := congrFun (hwant.unique hrun) n
  rw [qizoMemcpy_eq (by omega), copied_outside (by omega), copied_inside (by omega)] at hbyte
  rw [mem_entered, Nat.sub_zero, mark_self, mark_of_ne (by omega)] at hbyte
  exact absurd hbyte (by decide)

/-- The label and the counter behind the vector loops. -/
theorem rest_eq (n : ℕ) : BitVec.ofNat 64 n &&& 15#64 = .ofNat 64 (n % 16) ∧
    ((BitVec.ofNat 64 n &&& 15#64 == 0#64) = true ↔ n % 16 = 0) := by
  have hrest : BitVec.ofNat 64 n &&& 15#64 = .ofNat 64 (n % 16) := ofNat_and_mask n 4
  refine ⟨hrest, ?_⟩
  rw [hrest, beq_iff_eq, ← BitVec.toNat_inj, toNat_ofNat_of_lt (by omega)]
  rfl

/-- The byte loop behind the vector loop. -/
theorem exists_returns_rest {s : Cpu} {l : Label} (hd : dst + 16 ≤ 2 ^ 63)
    (hrsi : s.rsi = .ofNat 64 (2 ^ 63 + dst)) (hrdi : s.rdi = .ofNat 64 dst)
    (hrcx : s.rcx = .ofNat 64 n &&& 15#64)
    (hl : l = (if BitVec.ofNat 64 n &&& 15#64 == 0#64 then .done else .tail)) :
    ∃ m, Returns l s m ∧ ∀ x, ¬(dst ≤ x ∧ x < dst + 16) → m x = s.mem x := by
  obtain ⟨hrest, hzero⟩ := rest_eq n
  by_cases hr : n % 16 = 0
  · rw [if_pos (hzero.mpr hr)] at hl
    rw [hl]
    exact ⟨_, returns_done s, fun _ _ => rfl⟩
  · rw [if_neg (fun hz => hr (hzero.mp hz))] at hl
    obtain ⟨g, hg⟩ := Nat.exists_eq_add_one_of_ne_zero hr
    rw [hrest, hg] at hrcx
    rw [hl]
    refine ⟨_, returns_tail (by omega) (by omega) (by omega) hrcx
      hrsi hrdi, fun x hx => copied_outside (by omega)⟩

/-- **A copy from the middle of the address space to its beginning.** No byte from the last whole
vector on is copied, and where the number of vectors is odd the end of the address space is
overwritten. -/
theorem exists_returns_memcpy {m : Memory} (hn : 16 ≤ n) (hlt : n < 2 ^ 63) :
    ∃ m', Returns .qizoMemcpySse2 (entered 0 n (2 ^ 63) 0 m) m' ∧
      (∀ x, n / 16 * 16 ≤ x → x < 2 ^ 64 - 16 → m' x = m x) ∧
      (n % 32 = 16 → m' (2 ^ 64 - 1) = m (2 ^ 63 - 1)) := by
  suffices hrun : LeadsTo (step code) (.qizoMemcpySse2, entered 0 n (2 ^ 63) 0 m) fun y =>
      y.1 = .ret ∧ (∀ x, n / 16 * 16 ≤ x → x < 2 ^ 64 - 16 → y.2.mem x = m x) ∧
        (n % 32 = 16 → y.2.mem (2 ^ 64 - 1) = m (2 ^ 63 - 1)) by
    obtain ⟨y, hy, hret, hpost⟩ := hrun
    exact ⟨y.2.mem, ⟨y, hy, hret, rfl⟩, hpost⟩
  refine leadsTo_memcpy_long rfl hn (by omega) rfl rfl ?_
  intro s₁ hrsi₁ hrdi₁ hrcx₁ hrdx₁ hmem₁
  rw [mem_entered] at hmem₁
  by_cases hodd : n % 32 < 16
  · -- An even number of vectors, and a byte loop at 16.
    obtain ⟨k, hk⟩ : ∃ k, n / 16 * 16 = 32 * k + 32 := ⟨n / 32 - 1, by omega⟩
    rw [hk] at hrcx₁ hrsi₁ hrdi₁
    refine @leadsTo_loop16_even 0 _ _ k _ (by omega) (by omega) (by omega)
      (by omega) hrcx₁ hrsi₁ ?_ ?_
    · rw [hrdi₁]
      congr 1
    intro s₂ l hrsi₂ hrdi₂ hrcx₂ hmem₂ hl
    rw [hrdx₁] at hrcx₂ hl
    rw [Nat.zero_add] at hrdi₂
    obtain ⟨m', hrest, hframe⟩ :=
      exists_returns_rest (by omega) hrsi₂ hrdi₂ hrcx₂ hl
    refine hrest.mono ?_
    rintro y ⟨hret, rfl⟩
    refine ⟨hret, fun x hx hx' => ?_, fun h => absurd h (by omega)⟩
    rw [hframe x (by omega), hmem₂, copied_outside (by omega), hmem₁]
  · -- An odd number, and a byte loop at the beginning.
    obtain ⟨k, hk⟩ : ∃ k, n / 16 * 16 = 32 * k + 16 := ⟨n / 32, by omega⟩
    rw [hk, Nat.add_sub_cancel] at hrsi₁ hrdi₁
    rw [hk] at hrcx₁
    rw [Nat.zero_add] at hrdi₁
    refine leadsTo_loop16_odd (k := k) (by omega) hrcx₁ hrsi₁ hrdi₁ ?_
    intro s₂ l hrsi₂ hrdi₂ hrcx₂ hframe₂ hlast₂ hl
    rw [hrdx₁] at hrcx₂ hl
    obtain ⟨m', hrest, hframe⟩ :=
      exists_returns_rest (by omega) hrsi₂ hrdi₂ hrcx₂ hl
    refine hrest.mono ?_
    rintro y ⟨hret, rfl⟩
    refine ⟨hret, fun x hx hx' => ?_, fun _ => ?_⟩
    · rw [hframe x (by omega), hframe₂ x (by omega) hx', hmem₁]
    · rw [hframe _ (by omega), hlast₂, hmem₁]

/-- Where the length is no multiple of 16 its last byte is not copied. -/
theorem not_memcpyOk_rest (hn : 16 ≤ n) (hlt : n < 2 ^ 63) (hr : n % 16 ≠ 0) : ¬MemcpyOk n := by
  intro hok
  have hwant := hok 0 (2 ^ 63) (entered 0 n (2 ^ 63) 0 (mark (2 ^ 63 + (n - 1)))) (by omega)
    (by omega) (by omega) rfl rfl rfl
  obtain ⟨m, hrun, hframe, -⟩ := exists_returns_memcpy (m := mark (2 ^ 63 + (n - 1))) hn hlt
  have hbyte := hframe (n - 1) (by omega) (by omega)
  rw [← hwant.unique hrun, qizoMemcpy_eq (by omega), copied_inside (by omega), mem_entered,
    Nat.sub_zero, mark_self, mark_of_ne (by omega)] at hbyte
  exact absurd hbyte (by decide)

/-- Where the number of vectors is odd, the bytes below the destination change. -/
theorem not_memcpyOk_odd (hn : 16 ≤ n) (hlt : n < 2 ^ 63) (hr : n % 32 = 16) : ¬MemcpyOk n := by
  intro hok
  have hwant := hok 0 (2 ^ 63) (entered 0 n (2 ^ 63) 0 (mark (2 ^ 64 - 1))) (by omega) (by omega)
    (by omega) rfl rfl rfl
  obtain ⟨m, hrun, -, hlast⟩ := exists_returns_memcpy (m := mark (2 ^ 64 - 1)) hn hlt
  have hbyte := hlast hr
  rw [← hwant.unique hrun, qizoMemcpy_eq (by omega), copied_outside (by omega), mem_entered,
    mark_self, mark_of_ne (by omega)] at hbyte
  exact absurd hbyte (by decide)

/-- Half the address space is copied in part. -/
theorem not_memcpyOk_half : ¬MemcpyOk (2 ^ 63) := by
  intro hok
  have hwant := hok 0 (2 ^ 63) (entered 0 (2 ^ 63) (2 ^ 63) 0 (mark (2 ^ 63))) (by omega)
    (by omega) (by omega) rfl rfl rfl
  have hrun : Returns .qizoMemcpySse2 (entered 0 (2 ^ 63) (2 ^ 63) 0 (mark (2 ^ 63)))
      (copied (mark (2 ^ 63)) (2 ^ 63 - 32) (2 ^ 64 - 32) 32) := by
    refine leadsTo_memcpy_long rfl (by omega) (by omega) rfl rfl ?_
    intro s₁ hrsi₁ hrdi₁ hrcx₁ hrdx₁ hmem₁
    have hpass : passed s₁ = copied s₁.mem (2 ^ 63 - 32) (2 ^ 64 - 32) 32 :=
      passed_eq (by omega) (by omega) (by omega) hrsi₁ hrdi₁
    refine leadsTo_loop16_last (by rw [hrcx₁]; decide) ?_
    rintro s₂ _ - - - hmem₂ rfl
    rw [hrdx₁, if_pos (by decide)]
    have hdone := returns_done s₂
    rwa [hmem₂, hpass, hmem₁] at hdone
  have hbyte := congrFun (hwant.unique hrun) 0
  rw [qizoMemcpy_eq (by omega), copied_inside (by omega), copied_outside (by omega), mem_entered,
    mark_of_ne (by omega : 0 ≠ 2 ^ 63)] at hbyte
  exact absurd ((mark_self (2 ^ 63)).symm.trans hbyte) (by decide)

/-- **The lengths that are copied right.** -/
theorem memcpyOk_iff (n : ℕ) (hn : 2 * n ≤ 2 ^ 64) :
    MemcpyOk n ↔ 0 < n ∧ n % 32 = 0 ∧ n < 2 ^ 63 := by
  constructor
  · intro hok
    by_contra hcond
    rcases Nat.lt_or_ge n 16 with h16 | h16
    · exact not_memcpyOk_short h16 hok
    rcases Nat.lt_or_ge n (2 ^ 63) with hlt | hge
    · by_cases hr : n % 16 = 0
      · exact not_memcpyOk_odd h16 hlt (by omega) hok
      · exact not_memcpyOk_rest h16 hlt hr hok
    · obtain rfl : n = 2 ^ 63 := by omega
      exact not_memcpyOk_half hok
  · rintro ⟨hpos, hmod, hlt⟩ dst src s hd hsrc hdis hrdi hrsi hrdx
    rw [qizoMemcpy_eq hdis]
    obtain ⟨k, rfl⟩ : ∃ k, n = 32 * k + 32 := ⟨n / 32 - 1, by omega⟩
    obtain ⟨-, hzero⟩ := rest_eq (32 * k + 32)
    refine leadsTo_memcpy_long hrdx (by omega) (by omega) hrsi hrdi ?_
    intro s₁ hrsi₁ hrdi₁ hrcx₁ hrdx₁ hmem₁
    refine @leadsTo_loop16_even dst _ _ k _ (by omega) (by omega) (by omega)
      hlt ?_ ?_ ?_ ?_
    · rw [hrcx₁]
      congr 1
      omega
    · rw [hrsi₁]
      congr 1
      omega
    · rw [hrdi₁]
      congr 1
      omega
    · rintro s₂ _ - - - hmem₂ rfl
      rw [hrdx₁, if_pos (hzero.mpr (by omega))]
      have hdone := returns_done s₂
      rwa [hmem₂, hmem₁] at hdone

/-- Two vectors more than one. -/
theorem memcpyOk_iff_sixty_four :
    2 * 64 ≤ 2 ^ 64 ∧ (MemcpyOk 64 ↔ 0 < 64 ∧ 64 % 32 = 0 ∧ 64 < 2 ^ 63) :=
  ⟨by omega, memcpyOk_iff 64 (by omega)⟩

/-- A single vector. -/
theorem not_memcpyOk_sixteen : ¬MemcpyOk 16 := not_memcpyOk_odd (by omega) (by omega) (by omega)

end Sse2

end Qizo
