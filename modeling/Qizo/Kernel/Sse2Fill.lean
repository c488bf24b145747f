import Qizo.Kernel.Sse2

/-!
# The fast fills

`qizo_memset_sse2` and `qizo_fill_byte` of `kernel/lib/sse2.S` against `qizo_memset`. The vector
fill has the shape of the copy and its faults, and for less than 16 bytes it enters the byte loop
of the copy, with the value as the source address. `qizo_fill_byte` stores the low byte of the
accumulator, which is no argument register.

## Main results

* `leadsTo_mloop_even`, `leadsTo_mloop_odd` — the vector loop, by the parity of its vectors
* `fillOk_iff` — the lengths for which either fill is `qizo_memset`; there is none for which both
  are
-/

namespace Qizo

namespace Sse2

open X64 StateTransition

variable {m : Memory} {dst n : ℕ} {b : UInt8}

/-! ### Passes -/

/-- A pass of the fill loop that goes on. -/
theorem leadsTo_mloop {s : Cpu} {Q : Label × Cpu → Prop} (h : (32#64).toInt < s.rcx.toInt)
    (hQ : ∀ s', s'.rdi = s.rdi - 32#64 → s'.rcx = s.rcx - 32#64 → s'.rdx = s.rdx →
      s'.rax = s.rax → s'.xmm0 = s.xmm0 →
      s'.mem = st128 (st128 s.mem s.rdi s.xmm0) (s.rdi + -16#64) s.xmm0 →
      LeadsTo (step code) (.mloop, s') Q) :
    LeadsTo (step code) (.mloop, s) Q := by
  refine leadsTo_block rfl ?_
  simp only [runBlock, Cpu.ea, Cpu.get, store0, subq, cmpFlags, Cpu.read, Cpu.write, Cpu.set, jg,
    greater_eq, h, decide_true, if_true, BitVec.add_zero]
  exact hQ _ rfl rfl rfl rfl rfl rfl

/-- The last pass. -/
theorem leadsTo_mloop_last {s : Cpu} {Q : Label × Cpu → Prop}
    (h : ¬(32#64).toInt < s.rcx.toInt)
    (hQ : ∀ s' l, s'.rdi = s.rdi - 32#64 + 32#64 → s'.rcx = s.rdx &&& 15#64 → s'.rax = s.rax →
      s'.mem = st128 (st128 s.mem s.rdi s.xmm0) (s.rdi + -16#64) s.xmm0 →
      l = (if s.rdx &&& 15#64 == 0#64 then .mdone else .mtail) → LeadsTo (step code) (l, s') Q) :
    LeadsTo (step code) (.mloop, s) Q := by
  refine leadsTo_block rfl ?_
  simp only [runBlock, Cpu.ea, Cpu.get, store0, subq, cmpFlags, Cpu.read, Cpu.write, Cpu.set, jg,
    greater_eq, h, decide_false, Bool.false_eq_true, if_false, addq, movq, andq, logicFlags, jz,
    BitVec.add_zero]
  refine LeadsTo.ite (fun hz => ?_) (fun hz => ?_)
  · exact hQ _ _ rfl rfl rfl rfl (if_pos hz).symm
  · exact hQ _ _ rfl rfl rfl rfl (if_neg hz).symm

/-- One byte of the fill. -/
theorem leadsTo_mtail1 {s : Cpu} {g : ℕ} {Q : Label × Cpu → Prop} (hd : dst + g < 2 ^ 64)
    (hg : g + 1 < 2 ^ 64) (hrcx : s.rcx = .ofNat 64 (g + 1))
    (hrdi : s.rdi = .ofNat 64 (dst + (g + 1)))
    (hQ : ∀ s' l, s'.rdi = .ofNat 64 (dst + g) → s'.rcx = .ofNat 64 g → s'.rax = s.rax →
      s'.mem = filled s.mem (dst + g) (.ofNat s.rax.toNat) 1 →
      l = (if g = 0 then .mdone else .mtail1) → LeadsTo (step code) (l, s') Q) :
    LeadsTo (step code) (.mtail1, s) Q := by
  have hsub : BitVec.ofNat 64 (dst + (g + 1)) - 1#64 = .ofNat 64 (dst + g) :=
    ofNat_sub_ofNat (by omega)
  have hcount : BitVec.ofNat 64 (g + 1) - 1#64 = .ofNat 64 g := ofNat_sub_ofNat (by omega)
  have hzero : (BitVec.ofNat 64 (g + 1) == 1#64) = decide (g = 0) := by
    rw [Bool.eq_iff_iff, beq_iff_eq, decide_eq_true_iff, ← BitVec.toNat_inj,
      toNat_ofNat_of_lt (by omega), toNat_ofNat_of_lt (by omega)]
    omega
  have hmem : Function.update s.mem (dst + g) (UInt8.ofNat s.rax.toNat) =
      filled s.mem (dst + g) (.ofNat s.rax.toNat) 1 := by
    funext x
    by_cases hx : x = dst + g
    · rw [hx, Function.update_self, filled_inside (by omega)]
    · rw [Function.update_of_ne hx, filled_outside (by omega)]
  refine leadsTo_block rfl ?_
  simp only [runBlock, decq, Cpu.read, Cpu.get, Cpu.write, Cpu.set, Cpu.ea, movb, jnz,
    BitVec.add_zero, hrcx, hrdi, hsub, hcount, hzero, toNat_ofNat_of_lt hd, hmem]
  refine LeadsTo.ite (fun hz => ?_) (fun hz => ?_)
  · exact hQ _ _ rfl rfl rfl rfl (if_neg (by simpa using hz)).symm
  · exact hQ _ _ rfl rfl rfl rfl (if_pos (by simpa using hz)).symm

theorem returns_mtail1 {s : Cpu} {g : ℕ} (hd : dst + (g + 1) ≤ 2 ^ 64) (hg : g + 1 < 2 ^ 64)
    (hrcx : s.rcx = .ofNat 64 (g + 1)) (hrdi : s.rdi = .ofNat 64 (dst + (g + 1))) :
    Returns .mtail1 s (filled s.mem dst (.ofNat s.rax.toNat) (g + 1)) := by
  induction g generalizing s with
  | zero =>
    refine leadsTo_mtail1 (by omega) (by omega) hrcx hrdi ?_
    rintro s' _ - - - hmem rfl
    have hdone := returns_mdone s'
    rwa [hmem] at hdone
  | succ g ih =>
    refine leadsTo_mtail1 (by omega) (by omega) hrcx hrdi ?_
    rintro s' _ hrdi' hrcx' hrax' hmem rfl
    have hrest := ih (by omega) (by omega) hrcx' hrdi'
    rw [hmem, hrax', filled_below] at hrest
    exact hrest

/-- The byte loop behind the vector loop of the fill. -/
theorem exists_returns_mrest {s : Cpu} {l : Label} (hd : dst + 16 ≤ 2 ^ 64)
    (hrdi : s.rdi = .ofNat 64 dst) (hrcx : s.rcx = .ofNat 64 n &&& 15#64)
    (hl : l = (if BitVec.ofNat 64 n &&& 15#64 == 0#64 then .mdone else .mtail)) :
    ∃ m, Returns l s m ∧ (∀ x, ¬(dst ≤ x ∧ x < dst + 16) → m x = s.mem x) ∧
      (n % 16 = 0 → m = s.mem) := by
  obtain ⟨hrest, hzero⟩ := rest_eq n
  by_cases hr : n % 16 = 0
  · rw [if_pos (hzero.mpr hr)] at hl
    rw [hl]
    exact ⟨_, returns_mdone s, fun _ _ => rfl, fun _ => rfl⟩
  · rw [if_neg (fun hz => hr (hzero.mp hz))] at hl
    obtain ⟨g, hg⟩ := Nat.exists_eq_add_one_of_ne_zero hr
    rw [hrest, hg] at hrcx
    rw [hl]
    refine ⟨filled s.mem dst (.ofNat s.rax.toNat) (g + 1), leadsTo_block rfl ?_,
      fun x hx => filled_outside (by omega), fun h => absurd h hr⟩
    simp only [runBlock, addq, Cpu.read, Cpu.get, Cpu.write, Cpu.set, hrcx, hrdi, ofNat_add_ofNat]
    exact returns_mtail1 (by omega) (by omega) rfl rfl

/-- A pass of the fill loop. -/
theorem st128_twice {s : Cpu} (hd : dst + 32 ≤ 2 ^ 64) (hrdi : s.rdi = .ofNat 64 (dst + 16))
    (hxmm : s.xmm0 = fun _ => b) :
    st128 (st128 s.mem s.rdi s.xmm0) (s.rdi + -16#64) s.xmm0 = filled s.mem dst b 32 := by
  rw [hrdi, hxmm, ofNat_add_neg (by omega), Nat.add_sub_cancel, st128_const (by omega),
    st128_const (by omega), filled_below]

/-- **The fill loop over an even number of vectors.** -/
theorem leadsTo_mloop_even {s : Cpu} {k : ℕ} {Q : Label × Cpu → Prop}
    (hd : dst + (32 * k + 32) ≤ 2 ^ 64) (hk : 32 * k + 32 < 2 ^ 63)
    (hrcx : s.rcx = .ofNat 64 (32 * k + 32)) (hrdi : s.rdi = .ofNat 64 (dst + 32 * k + 16))
    (hxmm : s.xmm0 = fun _ => b)
    (hQ : ∀ s' l, s'.rdi = .ofNat 64 (dst + 16) → s'.rcx = s.rdx &&& 15#64 →
      s'.mem = filled s.mem dst b (32 * k + 32) →
      l = (if s.rdx &&& 15#64 == 0#64 then .mdone else .mtail) → LeadsTo (step code) (l, s') Q) :
    LeadsTo (step code) (.mloop, s) Q := by
  induction k generalizing s with
  | zero =>
    refine leadsTo_mloop_last (by rw [hrcx]; decide) ?_
    intro s' l hrdi' hrcx' _ hmem hl
    refine hQ s' l ?_ hrcx' ?_ hl
    · rw [hrdi', hrdi, BitVec.sub_add_cancel]
    · rw [hmem]
      exact st128_twice (by omega) hrdi hxmm
  | succ k ih =>
    have hpass := @st128_twice (dst + (32 * k + 32)) _ s (by omega)
      (by rw [hrdi]; congr 1) hxmm
    refine leadsTo_mloop ?_ ?_
    · rw [hrcx, toInt_ofNat_of_lt hk, toInt_ofNat_of_lt (by omega)]
      omega
    intro s' hrdi' hrcx' hrdx' _ hxmm' hmem
    refine ih (by omega) (by omega) ?_ ?_ (hxmm'.trans hxmm) ?_
    · rw [hrcx', hrcx, ofNat_sub_ofNat (by omega)]
      congr 1
    · rw [hrdi', hrdi, ofNat_sub_ofNat (by omega)]
      congr 1
    · rw [hmem, hpass, filled_below, hrdx']
      exact hQ

/-- **The fill loop over an odd number of vectors** at the beginning of the address space: the end
of the address space is filled as well. -/
theorem leadsTo_mloop_odd {s : Cpu} {k : ℕ} {Q : Label × Cpu → Prop}
    (hk : 32 * k + 16 < 2 ^ 63) (hrcx : s.rcx = .ofNat 64 (32 * k + 16))
    (hrdi : s.rdi = .ofNat 64 (32 * k)) (hxmm : s.xmm0 = fun _ => b)
    (hQ : ∀ s' l, s'.rdi = .ofNat 64 0 → s'.rcx = s.rdx &&& 15#64 →
      s'.mem = filled (filled s.mem 0 b (32 * k + 16)) (2 ^ 64 - 16) b 16 →
      l = (if s.rdx &&& 15#64 == 0#64 then .mdone else .mtail) → LeadsTo (step code) (l, s') Q) :
    LeadsTo (step code) (.mloop, s) Q := by
  induction k generalizing s with
  | zero =>
    rw [Nat.mul_zero] at hrcx hrdi
    have hwrap : BitVec.ofNat 64 0 + -16#64 = .ofNat 64 (2 ^ 64 - 16) := by decide
    refine leadsTo_mloop_last (by rw [hrcx]; decide) ?_
    intro s' l hrdi' hrcx' _ hmem hl
    refine hQ s' l ?_ hrcx' ?_ hl
    · rw [hrdi', hrdi, BitVec.sub_add_cancel]
    · rw [hmem, hrdi, hxmm, hwrap, st128_const (by omega), st128_const (by omega)]
  | succ k ih =>
    have hpass := @st128_twice (32 * k + 16) _ s (by omega) hrdi hxmm
    refine leadsTo_mloop ?_ ?_
    · rw [hrcx, toInt_ofNat_of_lt hk, toInt_ofNat_of_lt (by omega)]
      omega
    intro s' hrdi' hrcx' hrdx' _ hxmm' hmem
    refine ih (by omega) ?_ ?_ (hxmm'.trans hxmm) ?_
    · rw [hrcx', hrcx, ofNat_sub_ofNat (by omega)]
      congr 1
    · rw [hrdi', hrdi, ofNat_sub_ofNat (by omega)]
      congr 1
    · have hbelow := @filled_below s.mem 0 (32 * k + 16) b 32
      rw [Nat.zero_add] at hbelow
      rw [hmem, hpass, hbelow, hrdx']
      exact hQ

/-! ### Lengths -/

/-- A short fill goes to the byte loop of the copy. -/
theorem leadsTo_memset_short {s : Cpu} {Q : Label × Cpu → Prop} (hrdx : s.rdx = .ofNat 64 n)
    (hn : n < 16)
    (hQ : ∀ s', s'.rsi = s.rsi → s'.rdi = s.rdi → s'.rcx = s.rcx → s'.mem = s.mem →
      LeadsTo (step code) (.tail, s') Q) : LeadsTo (step code) (.qizoMemsetSse2, s) Q := by
  have hlt : n < (16#64).toNat := hn
  refine leadsTo_block rfl ?_
  simp only [runBlock, movl, movd, punpcklbw, punpcklwd, pshufd0, Cpu.set, cmpq, cmpFlags,
    Cpu.read, Cpu.get, jb, hrdx, toNat_ofNat_of_lt (by omega : n < 2 ^ 64), hlt, decide_true,
    if_true]
  exact hQ _ rfl rfl rfl rfl

/-- A longer one starts at the last whole vector, with the value in every byte of the vector
register. -/
theorem leadsTo_memset_long {s : Cpu} {Q : Label × Cpu → Prop} (hrdx : s.rdx = .ofNat 64 n)
    (hn : 16 ≤ n) (hlt : n < 2 ^ 64) (hrdi : s.rdi = .ofNat 64 dst)
    (hQ : ∀ s', s'.rdi = .ofNat 64 (dst + (n / 16 * 16 - 16)) →
      s'.rcx = .ofNat 64 (n / 16 * 16) → s'.rdx = .ofNat 64 n →
      (s'.xmm0 = fun _ => .ofNat (s.rsi.setWidth 32).toNat) → s'.mem = s.mem →
      LeadsTo (step code) (.mloop, s') Q) :
    LeadsTo (step code) (.qizoMemsetSse2, s) Q := by
  have hge : ¬n < (16#64).toNat := by
    change ¬n < 16
    omega
  have hptr : BitVec.ofNat 64 (dst + n / 2 ^ 4 * 2 ^ 4) + -16#64 =
      .ofNat 64 (dst + (n / 16 * 16 - 16)) := by
    rw [ofNat_add_neg (by omega)]
    congr 1
    omega
  refine leadsTo_block rfl ?_
  simp only [runBlock, movl, movd, punpcklbw, punpcklwd, pshufd0, cmpq, cmpFlags, Cpu.read,
    Cpu.get, jb, hrdx, toNat_ofNat_of_lt hlt, hge, decide_false, Bool.false_eq_true, if_false,
    movq, Cpu.write, Cpu.set, andq, logicFlags, ofNat_and_neg_sixteen, addq, hrdi,
    ofNat_add_ofNat, leaq, Cpu.ea, hptr]
  refine hQ _ rfl rfl rfl ?_ rfl
  funext i
  have hi : (i.val % 4 / 4 * 2 + i.val % 4 % 2) / 2 = 0 := by omega
  simp only [hi, pow_zero, Nat.div_one]
  exact if_pos (by omega)

/-- **A fill at the beginning of the address space.** No byte from the last whole vector on is
filled, where the number of vectors is odd the end of the address space is, and from half the
address space on only the last two vectors are. -/
theorem exists_returns_memset {rcx rsi : ℕ} (hn : 16 ≤ n) (hlt : n < 2 ^ 64) :
    ∃ m', Returns .qizoMemsetSse2 (entered rcx n rsi 0 m) m' ∧
      (n < 2 ^ 63 → ∀ x, n / 16 * 16 ≤ x → x < 2 ^ 64 - 16 → m' x = m x) ∧
      (n < 2 ^ 63 → n % 32 = 16 →
        m' (2 ^ 64 - 1) = .ofNat ((BitVec.ofNat 64 rsi).setWidth 32).toNat) ∧
      (2 ^ 63 ≤ n → m' 0 = m 0) := by
  suffices hrun : LeadsTo (step code) (.qizoMemsetSse2, entered rcx n rsi 0 m) fun y =>
      y.1 = .ret ∧
      (n < 2 ^ 63 → ∀ x, n / 16 * 16 ≤ x → x < 2 ^ 64 - 16 → y.2.mem x = m x) ∧
      (n < 2 ^ 63 → n % 32 = 16 →
        y.2.mem (2 ^ 64 - 1) = .ofNat ((BitVec.ofNat 64 rsi).setWidth 32).toNat) ∧
      (2 ^ 63 ≤ n → y.2.mem 0 = m 0) by
    obtain ⟨y, hy, hret, hpost⟩ := hrun
    exact ⟨y.2.mem, ⟨y, hy, hret, rfl⟩, hpost⟩
  refine leadsTo_memset_long rfl hn (by omega) rfl ?_
  intro s₁ hrdi₁ hrcx₁ hrdx₁ hxmm₁ hmem₁
  rw [mem_entered] at hmem₁
  rw [Nat.zero_add] at hrdi₁
  rcases Nat.lt_or_ge n (2 ^ 63) with hhalf | hhalf
  · by_cases hodd : n % 32 < 16
    · -- An even number of vectors, and a byte loop at 16.
      obtain ⟨k, hk⟩ : ∃ k, n / 16 * 16 = 32 * k + 32 := ⟨n / 32 - 1, by omega⟩
      rw [hk] at hrcx₁ hrdi₁
      refine @leadsTo_mloop_even 0 _ _ k _ (by omega) (by omega) hrcx₁ ?_ hxmm₁ ?_
      · rw [hrdi₁]
        congr 1
        omega
      intro s₂ l hrdi₂ hrcx₂ hmem₂ hl
      rw [hrdx₁] at hrcx₂ hl
      rw [Nat.zero_add] at hrdi₂
      obtain ⟨m', hrest, hframe, -⟩ :=
        exists_returns_mrest (by omega) hrdi₂ hrcx₂ hl
      refine hrest.mono ?_
      rintro y ⟨hret, rfl⟩
      refine ⟨hret, fun _ x hx hx' => ?_, fun _ h => absurd h (by omega),
        fun h => absurd h (by omega)⟩
      rw [hframe x (by omega), hmem₂, filled_outside (by omega), hmem₁]
    · -- An odd number, and a byte loop at the beginning.
      obtain ⟨k, hk⟩ : ∃ k, n / 16 * 16 = 32 * k + 16 := ⟨n / 32, by omega⟩
      rw [hk] at hrcx₁
      rw [hk, Nat.add_sub_cancel] at hrdi₁
      refine leadsTo_mloop_odd (k := k) (by omega) hrcx₁ hrdi₁ hxmm₁ ?_
      intro s₂ l hrdi₂ hrcx₂ hmem₂ hl
      rw [hrdx₁] at hrcx₂ hl
      obtain ⟨m', hrest, hframe, -⟩ :=
        exists_returns_mrest (by omega) hrdi₂ hrcx₂ hl
      refine hrest.mono ?_
      rintro y ⟨hret, rfl⟩
      refine ⟨hret, fun _ x hx hx' => ?_, fun _ _ => ?_, fun h => absurd h (by omega)⟩
      · rw [hframe x (by omega), hmem₂, filled_outside (by omega), filled_outside (by omega),
          hmem₁]
      · rw [hframe _ (by omega), hmem₂, filled_inside (by omega)]
        rfl
  · -- As a signed number the count is negative: one pass, and a byte loop at its upper half.
    obtain ⟨c, hc⟩ : ∃ c, n / 16 * 16 = c + 32 := ⟨n / 16 * 16 - 32, by omega⟩
    rw [hc] at hrcx₁
    rw [hc, show c + 32 - 16 = c + 16 by omega] at hrdi₁
    have hpass := st128_twice (by omega) hrdi₁ hxmm₁
    have hneg : ¬(32#64).toInt < s₁.rcx.toInt := by
      rw [hrcx₁, toInt_ofNat_of_lt (by omega), BitVec.toInt_eq_toNat_cond,
        toNat_ofNat_of_lt (by omega), if_neg (by omega)]
      omega
    refine leadsTo_mloop_last hneg ?_
    intro s₂ l hrdi₂ hrcx₂ _ hmem₂ hl
    rw [hrdx₁] at hrcx₂ hl
    rw [hrdi₁, BitVec.sub_add_cancel] at hrdi₂
    obtain ⟨m', hrest, hframe, -⟩ :=
      exists_returns_mrest (by omega) hrdi₂ hrcx₂ hl
    refine hrest.mono ?_
    rintro y ⟨hret, rfl⟩
    refine ⟨hret, fun h => absurd h (by omega), fun h => absurd h (by omega), fun _ => ?_⟩
    rw [hframe 0 (by omega), hmem₂, hpass, filled_outside (by omega), hmem₁]

theorem not_fillOk_memset_short (hn : n < 16) : ¬FillOk .qizoMemsetSse2 n := by
  intro hok
  -- The value 32 is taken for an address, and the counter for the length.
  have hwant := hok 0 (entered (n + 1) n 32 0 (mark (32 + n))) (by omega) rfl rfl
  have hrun : Returns .qizoMemsetSse2 (entered (n + 1) n 32 0 (mark (32 + n)))
      (copied (mark (32 + n)) 0 32 (n + 1)) := by
    refine leadsTo_memset_short rfl hn ?_
    intro s' hrsi hrdi hrcx hmem
    have := returns_tail (s := s') (g := n) (by omega) (by omega) (by omega)
      hrcx hrsi hrdi
    rwa [hmem] at this
  have hbyte := congrFun (hwant.unique hrun) n
  rw [qizoMemset_eq, filled_outside (by omega), copied_inside (by omega), mem_entered,
    Nat.sub_zero, mark_self, mark_of_ne (by omega)] at hbyte
  exact absurd hbyte (by decide)

theorem not_fillOk_memset_long (hn : 16 ≤ n) (hlt : n < 2 ^ 64)
    (hcond : ¬(n % 32 = 0 ∧ n < 2 ^ 63)) : ¬FillOk .qizoMemsetSse2 n := by
  intro hok
  have hwant := hok 0 (entered 0 n 1 0 fun _ => 0) (by omega) rfl rfl
  obtain ⟨m', hrun, hframe, hlast, hhalf⟩ :=
    exists_returns_memset (m := fun _ => 0) hn hlt
  have hone : (UInt8.ofNat ((BitVec.ofNat 64 1).setWidth 32).toNat) ≠ 0 := by decide
  rw [← hwant.unique hrun, qizoMemset_eq, mem_entered] at hframe hlast hhalf
  rcases Nat.lt_or_ge n (2 ^ 63) with hlt' | hge
  · by_cases hr : n % 16 = 0
    · have hbyte := hlast hlt' (by omega)
      rw [filled_outside (by omega)] at hbyte
      exact hone hbyte.symm
    · have hbyte := hframe hlt' (n - 1) (by omega) (by omega)
      rw [filled_inside (by omega)] at hbyte
      exact hone hbyte
  · have hbyte := hhalf hge
    rw [filled_inside (by omega)] at hbyte
    exact hone hbyte

theorem fillOk_memset (hpos : 0 < n) (hmod : n % 32 = 0) (hlt : n < 2 ^ 63) :
    FillOk .qizoMemsetSse2 n := by
  intro dst s hd hrdi hrdx
  rw [qizoMemset_eq]
  obtain ⟨k, rfl⟩ : ∃ k, n = 32 * k + 32 := ⟨n / 32 - 1, by omega⟩
  obtain ⟨-, hzero⟩ := rest_eq (32 * k + 32)
  refine leadsTo_memset_long hrdx (by omega) (by omega) hrdi ?_
  intro s₁ hrdi₁ hrcx₁ hrdx₁ hxmm₁ hmem₁
  refine leadsTo_mloop_even (k := k) (by omega) hlt ?_ ?_ hxmm₁ ?_
  · rw [hrcx₁]
    congr 1
    omega
  · rw [hrdi₁]
    congr 1
    omega
  · rintro s₂ _ - - hmem₂ rfl
    rw [hrdx₁, if_pos (hzero.mpr (by omega))]
    have hdone := returns_mdone s₂
    rwa [hmem₂, hmem₁] at hdone

/-- `qizo_fill_byte` stores what the accumulator holds. -/
theorem returns_fillByte {s : Cpu} (hd : dst + n ≤ 2 ^ 64) (hlt : n < 2 ^ 64)
    (hrdi : s.rdi = .ofNat 64 dst) (hrdx : s.rdx = .ofNat 64 n) :
    Returns .qizoFillByte s (filled s.mem dst (.ofNat s.rax.toNat) n) := by
  have hmem : stBytes (List.replicate n (UInt8.ofNat s.rax.toNat)) (.ofNat 64 dst) s.mem =
      filled s.mem dst (.ofNat s.rax.toNat) n := by
    rw [stBytes_ofNat (by simpa using hd)]
    funext x
    unfold Memory.write
    by_cases hx : dst ≤ x ∧ x < dst + n
    · rw [if_pos hx.1, filled_inside hx, List.getElem?_replicate, if_pos (by omega)]
      rfl
    · rw [filled_outside hx]
      split
      · rw [List.getElem?_replicate, if_neg (by omega)]
        rfl
      · rfl
  refine leadsTo_block rfl ?_
  simp only [runBlock, movq, Cpu.write, Cpu.set, Cpu.read, Cpu.get, repStosb, hrdi, hrdx,
    toNat_ofNat_of_lt hlt, hmem]
  exact .now ⟨rfl, rfl⟩

theorem fillOk_fillByte_iff (hlt : n < 2 ^ 64) : FillOk .qizoFillByte n ↔ n = 0 := by
  constructor
  · intro hok
    by_contra hne
    have hwant := hok 0 (entered 0 n 1 0 fun _ => 0) (by omega) rfl rfl
    have hrun := returns_fillByte (s := entered 0 n 1 0 fun _ => 0) (by omega) hlt rfl rfl
    have hbyte := congrFun (hwant.unique hrun) 0
    rw [qizoMemset_eq, filled_inside (by omega), filled_inside (by omega)] at hbyte
    have hone : UInt8.ofNat ((BitVec.ofNat 64 1).setWidth 32).toNat ≠
        UInt8.ofNat (0#64).toNat := by decide
    exact hone hbyte
  · rintro rfl dst s hd hrdi hrdx
    have hrun := returns_fillByte (n := 0) hd hlt hrdi hrdx
    rw [qizoMemset_eq]
    have heq : ∀ c : UInt8, filled s.mem dst c 0 = s.mem := fun c =>
      funext fun x => filled_outside (by omega)
    rw [heq] at hrun ⊢
    exact hrun

/-- **The lengths that are filled right.** -/
theorem fillOk_iff (n : ℕ) (hlt : n < 2 ^ 64) :
    (FillOk .qizoMemsetSse2 n ↔ 0 < n ∧ n % 32 = 0 ∧ n < 2 ^ 63) ∧
      (FillOk .qizoFillByte n ↔ n = 0) ∧
      ¬(FillOk .qizoMemsetSse2 n ∧ FillOk .qizoFillByte n) := by
  have hmemset : FillOk .qizoMemsetSse2 n ↔ 0 < n ∧ n % 32 = 0 ∧ n < 2 ^ 63 := by
    constructor
    · intro hok
      rcases Nat.lt_or_ge n 16 with h16 | h16
      · exact absurd hok (not_fillOk_memset_short h16)
      · by_contra hcond
        exact not_fillOk_memset_long h16 hlt (fun h => hcond ⟨by omega, h⟩) hok
    · rintro ⟨hpos, hmod, hlt'⟩
      exact fillOk_memset hpos hmod hlt'
  refine ⟨hmemset, fillOk_fillByte_iff hlt, ?_⟩
  rintro ⟨hset, hbyte⟩
  rw [hmemset] at hset
  rw [fillOk_fillByte_iff hlt] at hbyte
  omega

/-- One page. -/
theorem fillOk_iff_page :
    4096 < 2 ^ 64 ∧ (FillOk .qizoMemsetSse2 4096 ↔ 0 < 4096 ∧ 4096 % 32 = 0 ∧ 4096 < 2 ^ 63) ∧
      (FillOk .qizoFillByte 4096 ↔ 4096 = 0) ∧
      ¬(FillOk .qizoMemsetSse2 4096 ∧ FillOk .qizoFillByte 4096) :=
  ⟨by omega, fillOk_iff 4096 (by omega)⟩

/-- The bitmap of the frame allocator has an odd number of vectors. -/
theorem not_fillOk_bitmap :
    ¬(FillOk .qizoMemsetSse2 32784 ∧ FillOk .qizoFillByte 32784) := fun h =>
  not_fillOk_memset_long (by omega) (by omega) (by omega) h.1

end Sse2

end Qizo
