import Qizo.Boot.Handoff
import Qizo.LzssHistory

/-!
# The decoder of stage2 on any container

`leadsTo_decompBack` is about containers whose back references stay inside the output. The others
are decoded as well: `qizo_decompress` then copies from the memory in front of the scratch area. So
the loop is followed with an output that begins one window earlier, with what memory holds there.

## Main results

* `leadsTo_decompBack_behind` — what is in the scratch area when the header is checked
-/

namespace Qizo

namespace Stage2

open X86 Reg Operand Label StateTransition ByteString Lzss Memory

variable {fst : ℕ} {k : Link Label} {s : Cpu} {blob out : List UInt8} {crc : ℕ}

/-- The window in front of the scratch area. -/
def pastOf (m : Memory) : List UInt8 := m.bytes (scratch - window) window

theorem length_pastOf (m : Memory) : (pastOf m).length = window := length_bytes _ _ _

/-- What the decoder may have written, with the window. -/
def behindWrites (n : ℕ) : List (ℕ × ℕ) := [(scratch - window, window + n), (pmStack - 32, 32)]

/-- The call of the routine, with the window as a part of the output. -/
def callBehind (hlen : out.length < 2 ^ 31) (hsize : blob.length ≤ blobMax)
    (hdeclared : declared blob ≤ out.length) (hholds : (savedMem s).Holds blobPhys blob) :
    DecompCall where
  src := blob
  total := window + declared blob
  inp := blobPhys
  dst := scratch - window
  cap := window + out.length
  sp := pmStack - 20
  mem := savedMem s
  holds := hholds
  total_le := Nat.add_le_add_left hdeclared _
  inp_le := by unfold blobMax at hsize; unfold blobPhys; omega
  dst_lt := by unfold scratch window; omega
  sp_ge := by decide
  sp_lt := by decide
  inp_dst := by unfold blobMax at hsize; unfold blobPhys scratch window; omega
  inp_sp := by unfold blobMax at hsize; unfold blobPhys pmStack; omega
  dst_sp := by unfold scratch window pmStack; omega

/-- **The routine on any container.** -/
theorem leadsTo_qizoDecompress_behind (hdec : decompress blob = .ok out)
    (hlen : out.length < 2 ^ 31) (hboot : BootMem blob crc s.mem)
    (hcall : Called k decompBack (pmStack - 4) s) (hesi : s.esi = .ofNat 32 blobPhys)
    (hedi : s.edi = .ofNat 32 scratch) :
    LeadsTo (step fst k) (qizoDecompress, s) fun x => x.1 = decompBack ∧ x.2.eax = 1#32 ∧
      x.2.esp = .ofNat 32 pmStack ∧ EqOutside s.mem x.2.mem (behindWrites out.length) ∧
      ∃ y, x.2.mem.Holds scratch y ∧ Behind (pastOf s.mem) out y (borrowed blob) := by
  obtain ⟨h8, hmagic, hloop⟩ := decompress_eq_ok_iff.mp hdec
  have hdeclared : declared blob ≤ out.length :=
    le_length_of_decompressLoop (Nat.le_add_left _ _) hloop
  have hsrc : s.esi.toNat = blobPhys := by rw [hesi]; rfl
  have hdst : s.edi.toNat = scratch := by rw [hedi]; rfl
  have hsp : s.esp.toNat = 0x43FFC := by rw [hcall.esp]; rfl
  have hsize := hboot.length_le
  -- the pushes are on the stack, away from the container and from the window
  have hpushed : EqOutside s.mem (savedMem s) [(pmStack - 20, 16)] := by
    have h := @savedMem_frame s (by omega)
    rw [hsp] at h
    exact h
  have hholds : (savedMem s).Holds blobPhys blob := by
    refine hboot.holds.of_eqOutside hpushed fun x hx hx' => outside_singleton.mpr (.inl ?_)
    unfold blobMax at hsize
    unfold blobPhys at hx'
    unfold pmStack
    omega
  have hpast : (savedMem s).Holds (scratch - window) (pastOf s.mem) := by
    have hheld : s.mem.Holds (scratch - window) (pastOf s.mem) := by
      rw [holds_iff_bytes_eq, length_pastOf, pastOf]
    refine hheld.of_eqOutside hpushed fun x hx _ => outside_singleton.mpr (.inr ?_)
    unfold scratch window at hx
    unfold pmStack
    omega
  let c : DecompCall := callBehind hlen hsize hdeclared hholds
  have hret : ld32 s.mem s.esp = k.addr decompBack := by
    rw [hcall.esp, ld32_ofNat hcall.sp_le, hcall.ret, ← eq_ofNat_toNat]
  obtain ⟨y, hy, hbehind⟩ := @exists_behind blob out (pastOf s.mem) hdec (by rw [length_pastOf])
  have hylen := hbehind.length_eq
  rw [length_pastOf] at hy
  have hcontained : Contained (step fst k) c.touched c.written (qizoDecompress, s) := by
    refine contained_qizoDecompress_of (by omega) (by rw [hsrc]; decide) (fun a ha ha' => .inl ?_)
      fun a ha ha' => ⟨.inr (.inr ?_), .inr ?_⟩
    · show blobPhys ≤ a ∧ a < blobPhys + blob.length
      omega
    · show pmStack - 20 - 12 ≤ a ∧ a < pmStack - 20 + 20
      unfold pmStack
      omega
    · show pmStack - 20 - 12 ≤ a ∧ a < pmStack - 20 + 16
      unfold pmStack
      omega
  refine (LeadsTo.trans (leadsTo_header (by omega) (by omega) (by rw [hsrc]; decide)
    (hsrc ▸ hholds) h8 hmagic hcontained) ?_).of_restrict
  rintro ⟨_, s₁⟩ ⟨rfl, hebx, hecx, hesi₁, hedi₁, hedx, hesp, hmem⟩
  dsimp only at hebx hecx hesi₁ hedi₁ hedx hesp hmem
  have hdecoding : Decoding c 8 (pastOf s.mem) s₁ := by
    refine ⟨⟨?_, ?_, ?_, hecx⟩, ⟨hmem ▸ hpast, ?_⟩, ?_⟩
    · rw [hesi₁, hesi, ofNat_add_ofNat]
      rfl
    · rw [hedi₁, hedi, length_pastOf]
      rfl
    · rw [hedx, hedi, ofNat_add_ofNat]
      show _ = BitVec.ofNat 32 (scratch - window + (window + declared blob))
      congr 1
      unfold declared scratch window
      omega
    · rw [hmem]
      exact .refl _ _
    · rw [hesp, hsp]
      rfl
  refine (leadsTo_decompLoop hdecoding (.inl hebx) hy (by rw [length_pastOf]; rfl)
    (loopBackRefs_le (by rw [length_pastOf])) ?_).trans ?_
  · rw [List.length_append, length_pastOf, hylen]
    exact Nat.le_refl _
  rintro ⟨_, s₂⟩ ⟨rfl, i', hd⟩
  have hstack : ∀ x, s.esp.toNat - 16 ≤ x → x < s.esp.toNat + 4 → x ∈ c.touched := by
    intro x hx hx'
    refine .inr (.inr ?_)
    show pmStack - 20 - 12 ≤ x ∧ x < pmStack - 20 + 20
    unfold pmStack
    omega
  refine (leadsTo_decompRet (by omega) (by omega) hret ?_ hd.frame (fun x hx hx' => ?_)
    hstack).mono ?_
  · rw [hd.esp, hsp]
    rfl
  · simp only [c, DecompCall.regions, callBehind, outside_cons, outside_nil, and_true, scratch,
      window, pmStack]
    omega
  rintro ⟨_, s₃⟩ ⟨rfl, heax, hmem₃, -, -, -, -, hesp₃⟩
  dsimp only at heax hmem₃ hesp₃
  refine ⟨rfl, heax, ?_, ?_, y, ?_, hbehind⟩
  · rw [hesp₃, hcall.esp, ofNat_add_ofNat]
    rfl
  · have hframe := hd.frame
    rw [← hmem₃] at hframe
    refine (hpushed.mono fun x hx => ?_).trans (hframe.mono fun x hx => ?_)
    all_goals
      simp only [behindWrites, c, DecompCall.regions, callBehind, outside_cons, outside_nil,
        and_true, scratch, window, pmStack] at hx ⊢
      omega
  · have hheld := hd.out.right
    rw [length_pastOf, ← hmem₃] at hheld
    exact hheld

/-- **Any container**, from the comparison of checksums to the checks on the header. -/
theorem leadsTo_decompBack_behind (h : BootMem blob crc s.mem) (hesp : s.esp = .ofNat 32 pmStack)
    (heax : s.eax = .ofNat 32 crc) (hdec : decompress blob = .ok out)
    (hlen : out.length < 2 ^ 31) :
    LeadsTo (step fst k) (adlerBack, s) fun x => x.1 = decompBack ∧ x.2.eax = 1#32 ∧
      x.2.esp = .ofNat 32 pmStack ∧ EqOutside s.mem x.2.mem (behindWrites out.length) ∧
      ∃ y, x.2.mem.Holds scratch y ∧ Behind (pastOf s.mem) out y (borrowed blob) := by
  refine leadsTo_qizoDecompress_call h hesp heax fun s₁ hcall hboot hframe hesi _ hedi => ?_
  have hpast : pastOf s₁.mem = pastOf s.mem := by
    unfold pastOf Memory.bytes
    refine List.map_congr_left fun i _ => hframe _ (outside_singleton.mpr (.inr ?_))
    unfold pmStack scratch window
    omega
  rw [← hpast]
  refine (leadsTo_qizoDecompress_behind hdec hlen hboot hcall hesi hedi).mono ?_
  rintro ⟨_, s₂⟩ ⟨rfl, heax₂, hesp₂, hframe₂, hout⟩
  refine ⟨rfl, heax₂, hesp₂, (hframe.mono fun x hx => ?_).trans hframe₂, hout⟩
  simp only [behindWrites, outside_cons, outside_nil, and_true, pmStack] at hx ⊢
  omega

end Stage2

end Qizo
