import Qizo.Boot.Stage1Drive

/-!
# Reading the boot area

The loop of the boot sector that reads `total` sectors in packets of at most 64. The counter is
`di`, the sum with the start is `edi`: what the firmware has left in the upper half of the register
is added to the number of every first sector. The destination is not affected, since only the low
bits of the product end up in the segment.

## Main results

* `received_int` — one packet
* `leadsTo_reads` — the loop, and the packets it issues
-/

namespace Qizo

namespace Stage1

open Real Operand Label StateTransition ByteString Memory

variable {fw : Firmware} {cand msg : ℕ} {k : Link Label} {s s' : Cpu} {lba total : ℕ}
  {d : BitVec 8}

/-! ### The firmware -/

/-- A packet: the number of sectors, the linear address of the buffer, and the first sector. -/
structure Packet where
  count : ℕ
  buf : ℕ
  lba : ℕ
  deriving DecidableEq

/-- The packet at `ds:si`. -/
def packetAt (ds : BitVec 16) (c : X86.Cpu) : Packet :=
  let a := lin ds (c.esi.setWidth 16)
  ⟨c.mem.load 2 (a + 2), 16 * c.mem.load 2 (a + 6) + c.mem.load 2 (a + 4), c.mem.load 8 (a + 8)⟩

/-- The packet of a call. -/
def packet (c : Call) : Packet := packetAt c.ds c.before

/-- The drive of a call. -/
def drive (c : Call) : BitVec 8 := c.before.edx.setWidth 8

/-- What function `0x42` leaves alone: every register but `eax`, and memory outside the buffer. -/
structure Transferred (s s' : Cpu) : Prop where
  esi : s'.esi = s.esi
  edi : s'.edi = s.edi
  esp : s'.esp = s.esp
  ds : s'.ds = s.ds
  ss : s'.ss = s.ss
  mem : EqOutside s.mem s'.mem
    [((packetAt s.ds s.toCpu).buf, 512 * (packetAt s.ds s.toCpu).count)]

/-- Firmware that reads what a packet says. -/
def ReadsDisk (fw : Firmware) : Prop := ∀ s, s.read 8 ah = 0x42#8 → Transferred s (fw 0x13 s)

/-! ### One packet -/

/-- The packets from `edi = e` on. -/
def packets (lba total : ℕ) : (fuel e : ℕ) → List Packet
  | 0, _ => []
  | fuel + 1, e =>
    if total ≤ e % 65536 then []
    else
      let n := min 64 (total - e % 65536)
      ⟨n, stage2 + 512 * (e % 65536), (lba + e) % 2 ^ 32⟩ :: packets lba total fuel (e + n)

/-- The size of the next packet. -/
theorem leadsTo_chunkSet (h : Reading cand lba total d s)
    (hlt : s.edi.toNat % 65536 < total) (htotal : total ≤ 1024) :
    LeadsTo (step fw cand msg k) (readChunk, s) fun x => x.1 = chunkSet ∧
      x.2.eax.setWidth 16 = .ofNat 16 (min 64 (total - s.edi.toNat % 65536)) ∧
      Reading cand lba total d x.2 ∧ x.2.edi = s.edi ∧ x.2.calls = s.calls := by
  have hds := h.ds
  have hload : ld s.mem 0#16 (16 / 8) (.ofNat 16 (argAddr + argTotal)) = total := by
    rw [ld_zero (by decide) (by decide)]
    exact h.sector.total_eq
  have hdi : (s.edi.setWidth 16).toNat = s.edi.toNat % 65536 := BitVec.toNat_setWidth 16 s.edi
  have hsub : BitVec.ofNat 16 total - s.edi.setWidth 16 =
      .ofNat 16 (total - s.edi.toNat % 65536) := by
    apply BitVec.eq_of_toNat_eq
    rw [BitVec.toNat_sub, hdi, BitVec.toNat_ofNat, BitVec.toNat_ofNat]
    omega
  refine leadsTo_block rfl ?_
  simp only [runBlock, mov, Real.sub, Real.cmp, jbe, Cpu.read, Cpu.write, Cpu.setReg, Cpu.flags,
    X86.Cpu.get, X86.Cpu.set, hds, hload, setWidth_withLow_16, hsub]
  have hleft : (BitVec.ofNat 16 (total - s.edi.toNat % 65536)).toNat =
      total - s.edi.toNat % 65536 := by
    rw [BitVec.toNat_ofNat]
    omega
  have hzero : BitVec.toNat (0 : BitVec 16) = 0 := rfl
  have hmore : ¬(decide ((BitVec.ofNat 16 total).toNat < (s.edi.setWidth 16).toNat) ||
      BitVec.ofNat 16 (total - s.edi.toNat % 65536) == 0) = true := by
    rw [Bool.or_eq_true, decide_eq_true_eq, beq_iff_eq, ← BitVec.toNat_inj, hleft, hdi,
      BitVec.toNat_ofNat]
    omega
  rw [if_neg hmore]
  refine LeadsTo.ite (fun hle => ?_) fun hgt => ?_
  · rw [Bool.or_eq_true, decide_eq_true_eq, beq_iff_eq, ← BitVec.toNat_inj, hleft] at hle
    have hmin : min 64 (total - s.edi.toNat % 65536) = total - s.edi.toNat % 65536 := by
      have h64 : (BitVec.ofNat 16 64).toNat = 64 := rfl
      omega
    rw [hmin]
    exact .now ⟨rfl, setWidth_withLow_16 _ _, ⟨⟨⟨rfl, h.ss, h.sp, h.sector, h.dap⟩, h.drive⟩, h.si⟩,
      rfl, rfl⟩
  · rw [Bool.or_eq_true, decide_eq_true_eq, beq_iff_eq, ← BitVec.toNat_inj, hleft] at hgt
    have hmin : min 64 (total - s.edi.toNat % 65536) = 64 := by
      have h64 : (BitVec.ofNat 16 64).toNat = 64 := rfl
      omega
    rw [hmin]
    exact .now ⟨rfl, setWidth_withLow_16 _ _, ⟨⟨⟨rfl, h.ss, h.sp, h.sector, h.dap⟩, h.drive⟩, h.si⟩,
      rfl, rfl⟩

/-- The segment of the buffer: what stands above the sixteenth bit of the counter is shifted out. -/
theorem segment_eq (e : BitVec 32) :
    ((e <<< 9 + BitVec.ofNat 32 stage2Seg <<< 4) >>> 4).setWidth 16 =
      BitVec.ofNat 16 (stage2Seg + 32 * (e.toNat % 65536)) := by
  have hlt := e.isLt
  have hbase : (BitVec.ofNat 32 stage2Seg <<< 4).toNat = 0x20000 := rfl
  apply BitVec.eq_of_toNat_eq
  rw [BitVec.toNat_setWidth, BitVec.toNat_ushiftRight, BitVec.toNat_add, BitVec.toNat_shiftLeft,
    hbase, Nat.shiftLeft_eq, Nat.shiftRight_eq_div_pow, BitVec.toNat_ofNat, stage2Seg]
  omega

/-- The offset of the buffer in its segment. -/
theorem offset_eq (e : BitVec 32) :
    ((e <<< 9 + BitVec.ofNat 32 stage2Seg <<< 4) &&&
      BitVec.ofNat 32 0x000F).setWidth 16 = 0#16 := by
  have hlt := e.isLt
  have hbase : (BitVec.ofNat 32 stage2Seg <<< 4).toNat = 0x20000 := rfl
  have hmask (x : ℕ) : x &&& (BitVec.ofNat 32 0x000F).toNat = x % 16 :=
    Nat.and_two_pow_sub_one_eq_mod x 4
  apply BitVec.eq_of_toNat_eq
  rw [BitVec.toNat_setWidth, BitVec.toNat_and, hmask, BitVec.toNat_add, BitVec.toNat_shiftLeft,
    hbase, Nat.shiftLeft_eq, BitVec.toNat_ofNat]
  omega

/-- The memory with a packet in place. -/
def withPacket (m : Memory) (n i first : ℕ) : Memory :=
  ((((m.store 2 (dapAddr + 2) n).store 2 (dapAddr + 6) (stage2Seg + 32 * i)).store 2 (dapAddr + 4)
    0).store 4 (dapAddr + 8) first).store 4 (dapAddr + 12) 0

/-- Only the packet has changed. -/
theorem eqOutside_withPacket (m : Memory) (n i first : ℕ) :
    EqOutside m (withPacket m n i first) [(dapAddr + 2, 14)] := by
  intro x hx
  rw [outside_cons, dapAddr] at hx
  have hstore (m : Memory) (w a v : ℕ) (ha : 0x7E02 ≤ a) (ha' : a + w ≤ 0x7E10) :
      m.store w a v x = m x := by
    refine eqOutside_store m w a v x ?_
    rw [outside_cons]
    exact ⟨by omega, outside_nil x⟩
  rw [withPacket, hstore _ _ _ _ (by decide) (by decide), hstore _ _ _ _ (by decide) (by decide),
    hstore _ _ _ _ (by decide) (by decide), hstore _ _ _ _ (by decide) (by decide),
    hstore _ _ _ _ (by decide) (by decide)]

/-- The packet that is in place. -/
theorem packetAt_withPacket {c : X86.Cpu} {m : Memory} {n i first : ℕ}
    (hmem : c.mem = withPacket m n i first) (hsi : c.esi.setWidth 16 = .ofNat 16 dapAddr)
    (hn : n ≤ 64) (hi : i ≤ 1024) (hfirst : first < 2 ^ 32) :
    packetAt 0#16 c = ⟨n, stage2 + 512 * i, first⟩ := by
  have hlin : lin 0#16 (c.esi.setWidth 16) = dapAddr := by
    rw [hsi]
    exact lin_zero (by decide)
  have hcount : c.mem.load 2 (dapAddr + 2) = n := by
    rw [hmem, withPacket, load_store_of_disjoint (.inl (by decide)),
      load_store_of_disjoint (.inl (by decide)), load_store_of_disjoint (.inl (by decide)),
      load_store_of_disjoint (.inl (by decide)), load_store_self (by omega)]
  have hseg : c.mem.load 2 (dapAddr + 6) = stage2Seg + 32 * i := by
    rw [hmem, withPacket, load_store_of_disjoint (.inl (by decide)),
      load_store_of_disjoint (.inl (by decide)), load_store_of_disjoint (.inr (by decide)),
      load_store_self (by rw [stage2Seg]; omega)]
  have hoff : c.mem.load 2 (dapAddr + 4) = 0 := by
    rw [hmem, withPacket, load_store_of_disjoint (.inl (by decide)),
      load_store_of_disjoint (.inl (by decide)), load_store_self (by decide)]
  have hlba : c.mem.load 8 (dapAddr + 8) = first := by
    rw [hmem, load_eight, withPacket, load_store_of_disjoint (.inl (by decide)),
      load_store_self (by omega), load_store_self (by decide)]
    omega
  have hbuf : 16 * (stage2Seg + 32 * i) + 0 = stage2 + 512 * i := by
    rw [stage2Seg, stage2]
    omega
  rw [packetAt]
  simp only [hlin, hcount, hseg, hoff, hlba, hbuf]

/-- The state before a read. -/
structure Issued (cand lba total : ℕ) (d : BitVec 8) (n : ℕ) (s s' : Cpu) : Prop extends
    Reading cand lba total d s' where
  ah : s'.read 8 ah = 0x42#8
  dl : s'.edx.setWidth 8 = d
  edi : s'.edi = s.edi
  calls : s'.calls = s.calls
  packet : packetAt s'.ds s'.toCpu =
    ⟨n, stage2 + 512 * (s.edi.toNat % 65536), (lba + s.edi.toNat) % 2 ^ 32⟩

/-- The state after the read `c`. -/
structure Received (cand lba total : ℕ) (d : BitVec 8) (n : ℕ) (c : Call) (s s' : Cpu) :
    Prop extends Reading cand lba total d s' where
  edi : s'.edi = s.edi
  count : s'.mem.load 2 (dapAddr + 2) = n
  after : c.after = s'.toCpu
  reads : reads s' = reads s ++ [c]
  drive_eq : Stage1.drive c = d
  packet : Stage1.packet c =
    ⟨n, stage2 + 512 * (s.edi.toNat % 65536), (lba + s.edi.toNat) % 2 ^ 32⟩

/-- Setting up a packet. -/
theorem leadsTo_int {n : ℕ} {Q : Label × Cpu → Prop} (h : Reading cand lba total d s)
    (hax : s.eax.setWidth 16 = .ofNat 16 n) (hn : n ≤ 64) (hi : s.edi.toNat % 65536 ≤ 1024)
    (hrest : ∀ s₁, Issued cand lba total d n s s₁ → LeadsTo (step fw cand msg k)
      (runBlock k readOk [jae readOk, .op (mov 8 ah (abs (argAddr + argErr))), .jmp bootFail]
        (int fw 0x13 s₁)) Q) :
    LeadsTo (step fw cand msg k) (chunkSet, s) Q := by
  have hds := h.ds
  have hn16 : (BitVec.ofNat 16 n).toNat = n := by
    rw [BitVec.toNat_ofNat]
    omega
  have hst2 (m : Memory) (v : ℕ) : st 0#16 (16 / 8) (.ofNat 16 (dapAddr + 2)) v m =
      m.store 2 (dapAddr + 2) v := st_zero (by decide) (by decide)
  have hst4 (m : Memory) (v : ℕ) : st 0#16 (16 / 8) (.ofNat 16 (dapAddr + 4)) v m =
      m.store 2 (dapAddr + 4) v := st_zero (by decide) (by decide)
  have hst6 (m : Memory) (v : ℕ) : st 0#16 (16 / 8) (.ofNat 16 (dapAddr + 6)) v m =
      m.store 2 (dapAddr + 6) v := st_zero (by decide) (by decide)
  have hst8 (m : Memory) (v : ℕ) : st 0#16 (32 / 8) (.ofNat 16 (dapAddr + 8)) v m =
      m.store 4 (dapAddr + 8) v := st_zero (by decide) (by decide)
  have hst12 (m : Memory) (v : ℕ) : st 0#16 (32 / 8) (.ofNat 16 (dapAddr + 12)) v m =
      m.store 4 (dapAddr + 12) v := st_zero (by decide) (by decide)
  have hlba (v v' v'' : ℕ) : ld (((s.mem.store 2 (dapAddr + 2) v).store 2 (dapAddr + 6) v').store 2
      (dapAddr + 4) v'') 0#16 (32 / 8) (.ofNat 16 (argAddr + argLba)) = lba := by
    rw [ld_zero (by decide) (by decide)]
    change Memory.load _ 4 _ = _
    rw [load_store_of_disjoint (.inl (by decide)), load_store_of_disjoint (.inl (by decide)),
      load_store_of_disjoint (.inl (by decide)), h.sector.lba_eq]
  have hseg : (BitVec.ofNat 16 (stage2Seg + 32 * (s.edi.toNat % 65536))).toNat =
      stage2Seg + 32 * (s.edi.toNat % 65536) := by
    rw [BitVec.toNat_ofNat, stage2Seg]
    omega
  have hfirst : (BitVec.ofNat 32 lba + s.edi).toNat = (lba + s.edi.toNat) % 2 ^ 32 := by
    rw [BitVec.toNat_add, BitVec.toNat_ofNat, Nat.mod_add_mod]
  have hzero16 : (0#16).toNat = 0 := rfl
  have hzero32 : (BitVec.ofNat 32 0).toNat = 0 := rfl
  refine leadsTo_block rfl ?_
  simp only [runBlock, mov, shl, shr, Real.add, Real.and, Cpu.read, Cpu.write, Cpu.setReg,
    Cpu.setMem, Cpu.flags, X86.Cpu.get, X86.Cpu.set, hds, hax, withLow_32, BitVec.setWidth_eq,
    segment_eq, offset_eq, hst2, hst4, hst6, hst8, hst12, hlba, hn16, hseg, hfirst, hzero16,
    hzero32]
  refine hrest _ ?_
  have hmem := eqOutside_withPacket s.mem n (s.edi.toNat % 65536) ((lba + s.edi.toNat) % 2 ^ 32)
  have hload {w a : ℕ} (ha : a + w ≤ 0x7E02) : (withPacket s.mem n (s.edi.toNat % 65536)
      ((lba + s.edi.toNat) % 2 ^ 32)).load w a = s.mem.load w a := by
    refine hmem.load_eq fun x hx hx' => ?_
    rw [outside_cons, dapAddr]
    exact ⟨by omega, outside_nil x⟩
  have hdrive : ld (withPacket s.mem n (s.edi.toNat % 65536) ((lba + s.edi.toNat) % 2 ^ 32)) 0#16
      (8 / 8) (.ofNat 16 (argAddr + argDrive)) = d.toNat := by
    rw [ld_zero (by decide) (by decide)]
    exact (hload (by decide)).trans h.drive
  refine ⟨⟨⟨⟨rfl, h.ss, h.sp, ?_, ?_⟩, ?_⟩, h.si⟩, ?_, ?_, rfl, rfl, ?_⟩
  · refine h.sector.of_eqOutside hmem fun x hx => ?_
    simp only [Fixed, outside_cons, outside_nil, and_true, argAddr, argLba, argTotal,
      dapAddr] at hx ⊢
    omega
  · exact (hload (by decide)).trans h.dap
  · exact (hload (by decide)).trans h.drive
  · simp only [Cpu.read, X86.Cpu.get, toNat_withHigh_div]
    rfl
  · rw [setWidth_withLow_8]
    refine (congrArg _ hdrive).trans ?_
    rw [BitVec.ofNat_toNat, BitVec.setWidth_eq]
  · exact packetAt_withPacket rfl h.si hn hi (Nat.mod_lt _ (by decide))

/-- The firmware reads it. -/
theorem received_int {n : ℕ} (hfw : ReadsDisk fw) (h : Issued cand lba total d n s s') :
    Received cand lba total d n ⟨0x13, s'.ds, s'.toCpu, (fw 0x13 s').toCpu⟩ s (int fw 0x13 s') := by
  have ht := hfw s' h.ah
  have hmem : EqOutside s'.mem (fw 0x13 s').mem
      [(stage2 + 512 * (s.edi.toNat % 65536), 512 * n)] := by
    have := ht.mem
    rwa [h.packet] at this
  have hload {w a : ℕ} (ha : a + w ≤ stage2) : (fw 0x13 s').mem.load w a = s'.mem.load w a := by
    refine hmem.load_eq fun x hx hx' => ?_
    rw [outside_cons]
    exact ⟨by omega, outside_nil x⟩
  have hpacket := h.packet
  have hds := h.ds
  have hlin : lin 0#16 (s'.esi.setWidth 16) = dapAddr := by
    rw [h.si]
    exact lin_zero (by decide)
  have hread : isRead ⟨0x13, s'.ds, s'.toCpu, (fw 0x13 s').toCpu⟩ = true := by
    have hah : s'.eax.toNat / 256 % 256 = 0x42 := by
      have := congrArg BitVec.toNat h.ah
      simp only [Cpu.read, X86.Cpu.get, BitVec.toNat_ofNat] at this
      omega
    simp [isRead, hah]
  refine ⟨⟨⟨⟨ht.ds.trans hds, ht.ss.trans h.ss, ?_, ?_, ?_⟩, ?_⟩, ?_⟩, ht.edi.trans h.edi, ?_, rfl,
    ?_, h.dl, h.packet⟩
  · exact (congrArg (BitVec.setWidth 16) ht.esp).trans h.sp
  · refine h.sector.of_eqOutside hmem fun x hx => ?_
    simp only [Fixed, outside_cons, outside_nil, and_true, argAddr, argLba, argTotal,
      stage2] at hx ⊢
    omega
  · exact (hload (by decide)).trans h.dap
  · exact (hload (by decide)).trans h.drive
  · exact (congrArg (BitVec.setWidth 16) ht.esi).trans h.si
  · rw [hds, packetAt, hlin] at hpacket
    exact (hload (by decide)).trans (congrArg Packet.count hpacket)
  · simp only [reads, int, List.filter_append, List.filter_singleton, hread, cond_true, h.calls]

/-- A read is what the firmware makes of a state with the function in `ah`. -/
def Served (fw : Firmware) (c : Call) : Prop :=
  ∃ s, s.read 8 ah = 0x42#8 ∧ c.after = (fw 0x13 s).toCpu

/-- A read has failed: its code is in the arguments, and the drive still is. -/
structure Recorded (cand lba total : ℕ) (d : BitVec 8) (c : Call) (s : Cpu) : Prop extends
    Settled cand lba total d s where
  err : s.mem.load 1 (argAddr + argErr) = c.after.eax.toNat / 256 % 256
  cf : c.after.cf = true

/-- **One packet.** -/
theorem leadsTo_packet {n : ℕ} (hfw : ReadsDisk fw) (h : Reading cand lba total d s)
    (hax : s.eax.setWidth 16 = .ofNat 16 n) (hn : n ≤ 64) (hi : s.edi.toNat % 65536 ≤ 1024) :
    LeadsTo (step fw cand msg k) (chunkSet, s) fun x => ∃ c, reads x.2 = reads s ++ [c] ∧
      Stage1.drive c = d ∧ Served fw c ∧ packet c =
        ⟨n, stage2 + 512 * (s.edi.toNat % 65536), (lba + s.edi.toNat) % 2 ^ 32⟩ ∧
      (x.1 = readChunk ∧ c.after.cf = false ∧ Reading cand lba total d x.2 ∧
          x.2.edi.toNat = s.edi.toNat + n ∨
        x.1 = bootFail ∧ Recorded cand lba total d c x.2) := by
  refine leadsTo_int h hax hn hi fun s₁ hissued => ?_
  have hrec := received_int hfw hissued
  have hserved : Served fw ⟨0x13, s₁.ds, s₁.toCpu, (fw 0x13 s₁).toCpu⟩ := ⟨s₁, hissued.ah, rfl⟩
  generalize hc : (⟨0x13, s₁.ds, s₁.toCpu, (fw 0x13 s₁).toCpu⟩ : Call) = c at hrec hserved
  generalize hs₂ : int fw 0x13 s₁ = s₂ at hrec ⊢
  have hds := hrec.ds
  have hcf : c.after.cf = s₂.cf := congrArg X86.Cpu.cf hrec.after
  have heax : c.after.eax = s₂.eax := congrArg X86.Cpu.eax hrec.after
  simp only [runBlock, jae]
  refine LeadsTo.ite (fun hok => ?_) fun hfail => ?_
  · have hok' : s₂.cf = false := by simpa using hok
    have hcount : ld s₂.mem 0#16 (16 / 8) (.ofNat 16 (dapAddr + 2)) = n := by
      rw [ld_zero (by decide) (by decide)]
      exact hrec.count
    refine leadsTo_block rfl ?_
    simp only [trace, List.cons_append, List.nil_append, runBlock, mov, Real.add, outb, X86.outb,
      Cpu.read, Cpu.write, Cpu.setReg, Cpu.flags, X86.Cpu.get, X86.Cpu.set, X86.Cpu.read8, hds,
      hcount, setWidth_withLow_16]
    refine .now ⟨c, hrec.reads, hrec.drive_eq, hserved, hrec.packet, .inl ⟨rfl, hcf.trans hok',
      ⟨⟨⟨rfl, hrec.ss, hrec.sp, hrec.sector, hrec.dap⟩, hrec.drive⟩, hrec.si⟩, ?_⟩⟩
    dsimp only
    rw [toNat_withLow (by decide), hrec.edi, BitVec.toNat_add, BitVec.toNat_setWidth,
      BitVec.toNat_ofNat]
    omega
  · have hfail' : s₂.cf = true := by simpa using hfail
    have hst (v : ℕ) : st 0#16 (8 / 8) (.ofNat 16 (argAddr + argErr)) v s₂.mem =
      s₂.mem.store 1 (argAddr + argErr) v := st_zero (by decide) (by decide)
    simp only [mov, Cpu.read, Cpu.write, Cpu.setMem, X86.Cpu.get, hds, hst]
    refine .now ⟨c, hrec.reads, hrec.drive_eq, hserved, hrec.packet, .inr ⟨rfl, ⟨⟨rfl, hrec.ss,
      hrec.sp, hrec.sector.store fun x hx => ?_, ?_⟩, ?_⟩, ?_, hcf.trans hfail'⟩⟩
    · simp only [Fixed, argAddr, argLba, argTotal, argErr] at hx ⊢
      omega
    · exact (load_store_of_disjoint (.inr (by decide))).trans hrec.dap
    · exact (load_store_of_disjoint (.inl (by decide))).trans hrec.drive
    · dsimp only
      rw [load_store_self (BitVec.isLt _), heax, BitVec.toNat_ofNat,
        Nat.mod_mod_of_dvd _ (by decide)]

/-- Enough has been read. -/
theorem leadsTo_stage2Entry (h : Reading cand lba total d s)
    (hle : total ≤ s.edi.toNat % 65536) (htotal : total ≤ 1024) :
    LeadsTo (step fw cand msg k) (readChunk, s) fun x => x.1 = stage2Entry ∧
      x.2.mem = s.mem ∧ x.2.calls = s.calls := by
  have hds := h.ds
  have hload : ld s.mem 0#16 (16 / 8) (.ofNat 16 (argAddr + argTotal)) = total := by
    rw [ld_zero (by decide) (by decide)]
    exact h.sector.total_eq
  have hdi : (s.edi.setWidth 16).toNat = s.edi.toNat % 65536 := BitVec.toNat_setWidth 16 s.edi
  have hzero : BitVec.toNat (0 : BitVec 16) = 0 := rfl
  have hend : (decide ((BitVec.ofNat 16 total).toNat < (s.edi.setWidth 16).toNat) ||
      BitVec.ofNat 16 total - s.edi.setWidth 16 == 0) = true := by
    rw [Bool.or_eq_true, decide_eq_true_eq, beq_iff_eq, ← BitVec.toNat_inj, BitVec.toNat_sub, hdi,
      BitVec.toNat_ofNat]
    omega
  refine leadsTo_block rfl ?_
  simp only [runBlock, mov, Real.sub, jbe, Cpu.read, Cpu.write, Cpu.setReg, Cpu.flags,
    X86.Cpu.get, X86.Cpu.set, hds, hload, setWidth_withLow_16]
  rw [if_pos hend]
  refine leadsTo_block rfl ?_
  simp only [trace, List.cons_append, List.nil_append, runBlock, mov, outb, X86.outb, Cpu.read,
    Cpu.write, Cpu.setReg, X86.Cpu.get, X86.Cpu.set, X86.Cpu.read8]
  exact .now ⟨rfl, rfl, rfl⟩

/-! ### Giving up -/

/-- The message, after the code and the drive have gone to the trace. -/
theorem leadsTo_print (hss : s.ss = 0#16) (hsp : s.sp = .ofNat 16 0x7A00) :
    LeadsTo (step fw cand msg k) (bootFail, s) fun x => x.1 = print ∧ Pushed 0x7A00 s x.2 := by
  have h : Pushed 0x7A00 s (mov 8 (imm 0x45) ax s) := ⟨rfl, rfl, rfl, rfl, hsp, fun _ _ => rfl⟩
  refine leadsTo_block rfl ?_
  simp only [runBlock]
  refine LeadsTo.trans (leadsTo_call (p := 0x79FE) (h.ss.trans hss) h.sp (by decide) (by decide)
    leadsTo_qizoTty) ?_
  rintro ⟨_, s₁⟩ ⟨rfl, ht⟩
  refine LeadsTo.trans (leadsTo_traceByte rfl (h.balanced ht (by decide)) hss (by decide)
    (by decide)) ?_
  rintro ⟨_, s₂⟩ ⟨rfl, h₂⟩
  refine LeadsTo.trans (leadsTo_traceByte rfl h₂ hss (by decide) (by decide)) ?_
  rintro ⟨_, s₃⟩ ⟨rfl, h₃⟩
  refine leadsTo_block rfl ?_
  simp only [runBlock, mov, Real.xor, Cpu.read, Cpu.write, Cpu.setReg, Cpu.flags, X86.Cpu.get,
    X86.Cpu.set]
  exact .now ⟨rfl, h₃.ds, h₃.ss, h₃.edi, h₃.calls, h₃.sp, h₃.mem⟩

/-- The loop of the message is left for `halt` only. -/
theorem step_print {x y : Label × Cpu} (hx : x.1 = print ∨ x.1 = halt)
    (hstep : step fw cand msg k x = some y) : y.1 = print ∨ y.1 = halt := by
  obtain ⟨l, s⟩ := x
  dsimp only at hx
  rcases hx with rfl | rfl
  · simp only [step, Real.step, code, Option.map_some, Option.some.injEq, runBlock, je] at hstep
    split at hstep
    · subst hstep
      exact .inr rfl
    · subst hstep
      exact .inl rfl
  · cases hstep

/-- Behind the message nothing is started. -/
theorem ne_stage2Entry_of_print {x y : Label × Cpu} (hx : x.1 = print)
    (hy : Reaches (step fw cand msg k) x y) : y.1 ≠ stage2Entry := by
  have hend : y.1 = print ∨ y.1 = halt :=
    Reaches.invariant (I := fun y => y.1 = print ∨ y.1 = halt) (fun _ _ => step_print) (.inl hx) hy
  rcases hend with h | h <;> rw [h] <;> decide

/-! ### The loop -/

/-- The last read has failed, and its code is in the arguments. -/
def Failed (cs : List Call) (s : Cpu) : Prop :=
  ∃ cs' c, cs = cs' ++ [c] ∧ (∀ c' ∈ cs', c'.after.cf = false) ∧ c.after.cf = true ∧
    s.mem.load 1 (argAddr + argErr) = c.after.eax.toNat / 256 % 256

/-- What the loop has done when it is left: every read was of the drive `d`, and either they have
all succeeded or the last one has not. -/
structure Done (fw : Firmware) (lba total : ℕ) (d : BitVec 8) (fuel : ℕ) (s : Cpu) (cs : List Call)
    (x : Label × Cpu) : Prop where
  reads : reads x.2 = reads s ++ cs
  drive : ∀ c ∈ cs, Stage1.drive c = d
  served : ∀ c ∈ cs, Served fw c
  left : x.2.mem.load 1 (argAddr + argDrive) = d.toNat
  outcome : x.1 = stage2Entry ∧ (∀ c ∈ cs, c.after.cf = false) ∧
      cs.map packet = packets lba total fuel s.edi.toNat ∨
    x.1 = print ∧ Failed cs x.2

/-- **The loop.** -/
theorem leadsTo_reads (hfw : ReadsDisk fw) (htotal : total ≤ 1024) (fuel : ℕ)
    (h : Reading cand lba total d s) (hfuel : total - s.edi.toNat % 65536 ≤ fuel) :
    LeadsTo (step fw cand msg k) (readChunk, s) fun x => ∃ cs, Done fw lba total d fuel s cs x := by
  induction fuel generalizing s with
  | zero =>
    refine (leadsTo_stage2Entry h (by omega) htotal).mono ?_
    rintro ⟨_, s₁⟩ ⟨rfl, hmem, hcalls⟩
    refine ⟨[], ?_, by simp, by simp, ?_, .inl ⟨rfl, by simp, rfl⟩⟩
    · rw [reads, hcalls, List.append_nil, reads]
    · exact hmem ▸ h.drive
  | succ fuel ih =>
    by_cases hle : total ≤ s.edi.toNat % 65536
    · refine (leadsTo_stage2Entry h hle htotal).mono ?_
      rintro ⟨_, s₁⟩ ⟨rfl, hmem, hcalls⟩
      refine ⟨[], ?_, by simp, by simp, ?_, .inl ⟨rfl, by simp, ?_⟩⟩
      · rw [reads, hcalls, List.append_nil, reads]
      · exact hmem ▸ h.drive
      · rw [packets, if_pos hle, List.map_nil]
    · refine LeadsTo.trans (leadsTo_chunkSet h (Nat.not_le.mp hle) htotal) ?_
      rintro ⟨_, s₁⟩ ⟨rfl, hax, h₁, hedi₁, hcalls₁⟩
      dsimp only at hax h₁ hedi₁ hcalls₁
      refine LeadsTo.trans (leadsTo_packet hfw h₁ hax (Nat.min_le_left _ _)
        (by rw [hedi₁]; omega)) ?_
      rintro ⟨l, s₂⟩ ⟨c, hreads₂, hdrive, hserved, hpacket, hnext⟩
      dsimp only at hreads₂ hnext
      have hreads₁ : reads s₂ = reads s ++ [c] := by rw [hreads₂, reads, hcalls₁, reads]
      rw [hedi₁] at hpacket hnext
      rcases hnext with ⟨rfl, hok, h₂, hedi₂⟩ | ⟨rfl, hrec⟩
      · refine (ih h₂ (by omega)).mono ?_
        rintro x ⟨cs, hdone⟩
        refine ⟨c :: cs, ?_, List.forall_mem_cons.mpr ⟨hdrive, hdone.drive⟩,
          List.forall_mem_cons.mpr ⟨hserved, hdone.served⟩, hdone.left, ?_⟩
        · rw [hdone.reads, hreads₁, List.append_assoc, List.singleton_append]
        · rcases hdone.outcome with ⟨hl, hall, hpackets⟩ | ⟨hl, hfailed⟩
          · refine .inl ⟨hl, List.forall_mem_cons.mpr ⟨hok, hall⟩, ?_⟩
            rw [packets, if_neg hle, List.map_cons, hpacket, hpackets, hedi₂]
          · obtain ⟨cs', c', rfl, hcs', hc', herr⟩ := hfailed
            exact .inr ⟨hl, c :: cs', c', rfl, List.forall_mem_cons.mpr ⟨hok, hcs'⟩, hc', herr⟩
      · refine (leadsTo_print hrec.ss hrec.sp).mono ?_
        rintro ⟨_, s₃⟩ ⟨rfl, h₃⟩
        have hload {w a : ℕ} (ha : 0x7A00 ≤ a) : s₃.mem.load w a = s₂.mem.load w a :=
          load_congr fun i _ => h₃.mem (a + i) (.inr (by omega))
        refine ⟨[c], ?_, by simpa using hdrive, by simpa using hserved, ?_,
          .inr ⟨rfl, [], c, rfl, by simp, hrec.cf, ?_⟩⟩
        · rw [← hreads₁, reads, h₃.calls, reads]
        · exact (hload (by decide)).trans hrec.drive
        · exact (hload (by decide)).trans hrec.err

end Stage1

end Qizo
