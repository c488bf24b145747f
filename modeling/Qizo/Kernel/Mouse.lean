import Qizo.Lib.Ring
import Mathlib.Data.List.Infix

/-!
# The mouse

`kernel/drivers/mouse.c`: the bytes of the mouse are collected into packets of three, and each
packet becomes a movement. The first byte of a packet has bit 3 set. The handler looks at this bit
of every byte, not only where a packet begins: a byte without it is counted as an error and taken as
the beginning of a packet. The other two bytes of a packet are a distance each, and in half of them
the bit is clear.

The exchange of `qizo_mouse_start` with the controller leaves the variables alone and is not part
of the model. Positions are reduced to 32 bits.

## Main results

* `interrupt_packet` — a packet whose three bytes all have the bit
* `errors_of_clear` — any other packet
* `decodes_iff` — the sequences of packets that are decoded
-/

namespace Qizo

namespace Mouse

/-- `M_QUEUE`. -/
def mQueue : ℕ := 64

/-- A value of type `i32`. -/
def i32 (z : ℤ) : ℤ := z.bmod (2 ^ 32)

/-- `struct qizo_mouse`. -/
structure Movement where
  buttons : UInt32
  x : ℤ
  y : ℤ
  dx : ℤ
  dy : ℤ
  packets : UInt64
  errors : UInt64
  ready : Bool

/-- The static variables. -/
structure State where
  /-- `in_packet`. -/
  inPacket : ℕ → UInt8
  /-- `in_len`. -/
  inLen : ℕ
  /-- `m_irqs`. -/
  mIrqs : UInt64
  /-- `m_dropped`. -/
  mDropped : UInt32
  /-- `last`. -/
  last : Movement
  /-- `queue`. -/
  queue : ℕ → Movement
  /-- `q_head`. -/
  qHead : ℕ
  /-- `q_used`. -/
  qUsed : ℕ
  /-- `reporting`. -/
  reporting : Bool

/-- `qizo_mouse_start`. -/
def mouseStart (s : State) : State :=
  { s with
    reporting := true
    last := ⟨0, 0, 0, 0, 0, 0, 0, true⟩
    qHead := 0
    qUsed := 0
    inLen := 0 }

/-- The last lines of the handler: the movement is remembered and goes into the queue. -/
def pushMove (s : State) (move : Movement) : State :=
  let s := { s with last := move }
  if s.qUsed < mQueue then
    { s with
      queue := Function.update s.queue ((s.qHead + s.qUsed) % mQueue) move
      qUsed := s.qUsed + 1 }
  else
    { s with
      queue := Function.update s.queue s.qHead move
      qHead := (s.qHead + 1) % mQueue
      mDropped := s.mDropped + 1 }

/-- One more error. -/
def countError (s : State) : State := { s with last := { s.last with errors := s.last.errors + 1 } }

/-- `qizo_mouse_interrupt`. -/
def mouseInterrupt (s : State) (b : UInt8) : State :=
  let s := { s with mIrqs := s.mIrqs + 1 }
  if b &&& 0x08 = 0 ∨ s.inLen = 3 then
    countError { s with inPacket := Function.update s.inPacket 0 b, inLen := 1 }
  else
    let s := { s with inPacket := Function.update s.inPacket s.inLen b, inLen := s.inLen + 1 }
    if s.inLen ≠ 3 then s
    else
      let s := { s with inLen := 0 }
      if s.inPacket 0 &&& 0xC0 ≠ 0 then countError s
      else
        let dx : ℤ := (s.inPacket 1).toNat - if s.inPacket 0 &&& 0x10 ≠ 0 then 256 else 0
        let dy : ℤ := (s.inPacket 2).toNat - if s.inPacket 0 &&& 0x20 ≠ 0 then 256 else 0
        pushMove s
          { buttons := (s.inPacket 0 &&& 0x07).toUInt32
            dx := dx
            dy := -dy
            x := i32 (s.last.x + dx)
            y := i32 (s.last.y - dy)
            packets := s.last.packets + 1
            errors := s.last.errors
            ready := true }

/-- The movements waiting to be read. -/
def movements (s : State) : List Movement := Ring.contents mQueue s.queue s.qHead s.qUsed

/-! ### Packets -/

/-- A well-formed packet: the first byte has bit 3 set and reports no overflow. -/
structure Packet where
  flags : UInt8
  xByte : UInt8
  yByte : UInt8
  sync : flags &&& 0x08 ≠ 0
  noOverflow : flags &&& 0xC0 = 0

namespace Packet

/-- The bytes of a packet. -/
def bytes (p : Packet) : List UInt8 := [p.flags, p.xByte, p.yByte]

/-- The number with a sign bit and eight more. -/
def nineBit (sign : Bool) (b : UInt8) : ℤ := (BitVec.ofBool sign ++ b.toBitVec).toInt

/-- The distance to the right. -/
def dx (p : Packet) : ℤ := nineBit (p.flags &&& 0x10 != 0) p.xByte

/-- The distance upwards. -/
def dy (p : Packet) : ℤ := nineBit (p.flags &&& 0x20 != 0) p.yByte

/-- The bytes that are distances have bit 3 set, like the first. -/
def AllSync (p : Packet) : Prop := p.xByte &&& 0x08 ≠ 0 ∧ p.yByte &&& 0x08 ≠ 0

instance (p : Packet) : Decidable p.AllSync := inferInstanceAs (Decidable (_ ∧ _))

end Packet

/-- The handler is called for each byte of the packets. -/
def run (s : State) (ps : List Packet) : State := (ps.flatMap Packet.bytes).foldl mouseInterrupt s

/-- The position after some packets, to the right. -/
def xSum (ps : List Packet) : ℤ := ps.foldl (fun x p => x + p.dx) 0

/-- The position after some packets, downwards. -/
def ySum (ps : List Packet) : ℤ := ps.foldl (fun y p => y - p.dy) 0

/-- The value is one of type `i32`. -/
def InI32 (z : ℤ) : Prop := -2 ^ 31 ≤ z ∧ z < 2 ^ 31

/-- The position has fitted into 32 bits so far. -/
def Fits (ps : List Packet) : Prop := ∀ qs, qs <+: ps → InI32 (xSum qs) ∧ InI32 (ySum qs)

/-- The movement that `p` makes behind the packets `ps`. -/
structure Reports (m : Movement) (ps : List Packet) (p : Packet) : Prop where
  buttons : m.buttons = (p.flags &&& 0x07).toUInt32
  dx : m.dx = p.dx
  dy : m.dy = -p.dy
  packets : m.packets = UInt64.ofNat (ps.length + 1)
  errors : m.errors = 0
  position : Fits (ps ++ [p]) → m.x = xSum (ps ++ [p]) ∧ m.y = ySum (ps ++ [p])

/-- Every packet adds one movement, and the right one. Of more than `M_QUEUE` movements that nobody
reads, the last ones are kept. -/
def Decodes (s₀ : State) (ps : List Packet) : Prop :=
  ∀ qs p, qs ++ [p] <+: ps → ∃ m, Reports m qs p ∧ (run (mouseStart s₀) (qs ++ [p])).last = m ∧
    movements (run (mouseStart s₀) (qs ++ [p])) =
      (movements (run (mouseStart s₀) qs) ++ [m]).rtake mQueue

/-! ### Packets with the bit everywhere -/

variable {s s₀ : State} {p : Packet} {ps : List Packet}

theorem Packet.nineBit_eq (sign : Bool) (b : UInt8) :
    nineBit sign b = (b.toNat : ℤ) - if sign then 256 else 0 := by
  have hb : b.toNat < 256 := b.toNat_lt
  have hbits : b.toBitVec.toNat = b.toNat := rfl
  cases sign with
  | false =>
    have hnat : (BitVec.ofBool false ++ b.toBitVec).toNat = b.toNat := by
      rw [BitVec.toNat_append, hbits, ← Nat.shiftLeft_add_eq_or_of_lt hb]
      exact Nat.zero_add _
    rw [nineBit, BitVec.toInt_eq_toNat_cond, hnat, if_pos (by omega)]
    simp
  | true =>
    have hnat : (BitVec.ofBool true ++ b.toBitVec).toNat = 256 + b.toNat := by
      rw [BitVec.toNat_append, hbits, ← Nat.shiftLeft_add_eq_or_of_lt hb]
      rfl
    rw [nineBit, BitVec.toInt_eq_toNat_cond, hnat, if_neg (by omega)]
    simp
    omega

/-- The movement that follows `last` on a packet. -/
def moveOf (last : Movement) (p : Packet) : Movement where
  buttons := (p.flags &&& 0x07).toUInt32
  dx := p.dx
  dy := -p.dy
  x := i32 (last.x + p.dx)
  y := i32 (last.y - p.dy)
  packets := last.packets + 1
  errors := last.errors
  ready := true

/-- **A packet whose three bytes all have the bit.** -/
theorem interrupt_packet (hlen : s.inLen = 0) (hp : p.AllSync) :
    ∃ buf irqs, p.bytes.foldl mouseInterrupt s =
      pushMove { s with inPacket := buf, mIrqs := irqs } (moveOf s.last p) := by
  have hflag {c : UInt8} {b : UInt8} :
      ((b.toNat : ℤ) - if p.flags &&& c ≠ 0 then 256 else 0) =
        Packet.nineBit (p.flags &&& c != 0) b := by
    rw [Packet.nineBit_eq]
    simp only [bne_iff_ne]
  obtain ⟨buf, _, irqs, dropped, last, queue, head, used, rep⟩ := s
  obtain rfl := hlen
  refine ⟨Function.update (Function.update (Function.update buf 0 p.flags) 1 p.xByte) 2 p.yByte,
    irqs + 1 + 1 + 1, ?_⟩
  simp [Packet.bytes, mouseInterrupt, p.sync, p.noOverflow, hp.1, hp.2, moveOf, Packet.dx,
    Packet.dy, ← hflag, Function.update_of_ne]

/-- The handler has taken in the packets `ps`, each with the bit everywhere. -/
structure Taken (s : State) (ps : List Packet) : Prop where
  inLen : s.inLen = 0
  head_lt : s.qHead < mQueue
  used_le : s.qUsed ≤ mQueue
  packets : s.last.packets = UInt64.ofNat ps.length
  errors : s.last.errors = 0
  x : s.last.x = i32 (xSum ps)
  y : s.last.y = i32 (ySum ps)

theorem pushMove_last (s : State) (m : Movement) : (pushMove s m).last = m := by
  unfold pushMove
  dsimp only
  split <;> rfl

theorem pushMove_inLen (s : State) (m : Movement) : (pushMove s m).inLen = s.inLen := by
  unfold pushMove
  dsimp only
  split <;> rfl

/-- The queue after one more movement. -/
theorem pushMove_queue (m : Movement) (hhead : s.qHead < mQueue) (hused : s.qUsed ≤ mQueue) :
    (pushMove s m).qHead < mQueue ∧ (pushMove s m).qUsed ≤ mQueue ∧
      movements (pushMove s m) = (movements s ++ [m]).rtake mQueue := by
  unfold pushMove
  by_cases hlt : s.qUsed < mQueue
  · rw [if_pos hlt]
    exact ⟨hhead, hlt, Ring.contents_push hlt⟩
  · have hfull : s.qUsed = mQueue := Nat.le_antisymm hused (Nat.not_lt.mp hlt)
    rw [if_neg hlt]
    refine ⟨Nat.mod_lt _ (by decide), hused, ?_⟩
    simp only [movements, hfull]
    exact Ring.contents_push_full hhead

theorem i32_of_inI32 {z : ℤ} (h : InI32 z) : i32 z = z := by
  obtain ⟨hlo, hhi⟩ := h
  exact Int.bmod_eq_of_le (by omega) (by omega)

theorem xSum_concat (ps : List Packet) (p : Packet) : xSum (ps ++ [p]) = xSum ps + p.dx := by
  rw [xSum, List.foldl_append]
  rfl

theorem ySum_concat (ps : List Packet) (p : Packet) : ySum (ps ++ [p]) = ySum ps - p.dy := by
  rw [ySum, List.foldl_append]
  rfl

theorem run_concat (s : State) (ps : List Packet) (p : Packet) :
    run s (ps ++ [p]) = p.bytes.foldl mouseInterrupt (run s ps) := by
  rw [run, List.flatMap_append, List.foldl_append, List.flatMap_singleton, run]

/-- **One more packet with the bit everywhere.** -/
theorem Taken.packet (h : Taken s ps) (hp : p.AllSync) :
    Taken (p.bytes.foldl mouseInterrupt s) (ps ++ [p]) ∧
      Reports (p.bytes.foldl mouseInterrupt s).last ps p ∧
      movements (p.bytes.foldl mouseInterrupt s) =
        (movements s ++ [(p.bytes.foldl mouseInterrupt s).last]).rtake mQueue := by
  obtain ⟨buf, irqs, hrun⟩ := interrupt_packet h.inLen hp
  set s₁ : State := { s with inPacket := buf, mIrqs := irqs }
  have hlast : (p.bytes.foldl mouseInterrupt s).last = moveOf s.last p := by
    rw [hrun, pushMove_last]
  obtain ⟨hhead, hused, hmoves⟩ := @pushMove_queue s₁ (moveOf s.last p) h.head_lt h.used_le
  have hx : i32 (s.last.x + p.dx) = i32 (xSum (ps ++ [p])) := by
    rw [h.x, xSum_concat]
    exact Int.bmod_add_bmod
  have hy : i32 (s.last.y - p.dy) = i32 (ySum (ps ++ [p])) := by
    rw [h.y, ySum_concat]
    exact Int.bmod_sub_bmod
  have hpackets : s.last.packets + 1 = UInt64.ofNat (ps.length + 1) := by
    rw [h.packets, UInt64.ofNat_add]
    rfl
  refine ⟨⟨?_, ?_, ?_, ?_, ?_, ?_, ?_⟩, ?_, ?_⟩
  · rw [hrun, pushMove_inLen]
    exact h.inLen
  · rw [hrun]
    exact hhead
  · rw [hrun]
    exact hused
  · rw [hlast, List.length_append]
    exact hpackets
  · rw [hlast]
    exact h.errors
  · rw [hlast]
    exact hx
  · rw [hlast]
    exact hy
  · rw [hlast]
    refine ⟨rfl, rfl, rfl, hpackets, h.errors, fun hfits => ?_⟩
    obtain ⟨hfx, hfy⟩ := hfits _ (List.prefix_refl _)
    exact ⟨hx.trans (i32_of_inI32 hfx), hy.trans (i32_of_inI32 hfy)⟩
  · rw [hlast, hrun]
    exact hmoves

theorem taken_run (s₀ : State) (h : ∀ p ∈ ps, p.AllSync) : Taken (run (mouseStart s₀) ps) ps := by
  induction ps using List.reverseRecOn with
  | nil => exact ⟨rfl, Nat.zero_lt_succ _, Nat.zero_le _, rfl, rfl, rfl, rfl⟩
  | append_singleton ps p ih =>
    rw [run_concat]
    exact ((ih fun q hq => h q (List.mem_append_left _ hq)).packet (h p (by simp))).1

/-! ### Other packets -/

/-- **A packet without the bit somewhere** is counted as an error. -/
theorem errors_of_clear (h : Taken s ps) (hp : ¬p.AllSync) :
    (p.bytes.foldl mouseInterrupt s).last.errors ≠ 0 := by
  obtain ⟨buf, _, irqs, dropped, last, queue, head, used, rep⟩ := s
  obtain rfl := h.inLen
  have herrors : last.errors = 0 := h.errors
  by_cases hx : p.xByte &&& 0x08 = 0
  · by_cases hy : p.yByte &&& 0x08 = 0
    · simp [Packet.bytes, mouseInterrupt, countError, p.sync, hx, hy, herrors]
    · simp [Packet.bytes, mouseInterrupt, countError, p.sync, hx, hy, herrors]
  · have hy : p.yByte &&& 0x08 = 0 := by
      by_contra hy
      exact hp ⟨hx, hy⟩
    simp [Packet.bytes, mouseInterrupt, countError, p.sync, hx, hy, herrors]

/-- The first packet without the bit somewhere. -/
theorem exists_first_clear (h : ¬∀ p ∈ ps, p.AllSync) :
    ∃ qs p, qs ++ [p] <+: ps ∧ (∀ q ∈ qs, q.AllSync) ∧ ¬p.AllSync := by
  induction ps with
  | nil => simp at h
  | cons q ps ih =>
    by_cases hq : q.AllSync
    · obtain ⟨qs, p, hpre, hqs, hp⟩ := ih fun hall => h (by simpa using ⟨hq, hall⟩)
      refine ⟨q :: qs, p, ?_, by simpa using ⟨hq, hqs⟩, hp⟩
      exact List.cons_prefix_cons.mpr ⟨rfl, hpre⟩
    · exact ⟨[], q, by simp, by simp, hq⟩

/-- **The sequences of packets that are decoded** are those where every byte has bit 3 set. -/
theorem decodes_iff (s₀ : State) (ps : List Packet) :
    Decodes s₀ ps ↔ ∀ p ∈ ps, p.AllSync := by
  constructor
  · intro hdec
    by_contra hclear
    obtain ⟨qs, p, hpre, hqs, hp⟩ := exists_first_clear hclear
    obtain ⟨m, hm, hlast, -⟩ := hdec qs p hpre
    refine errors_of_clear (taken_run s₀ hqs) hp ?_
    rw [← run_concat, hlast]
    exact hm.errors
  · intro hall qs p hpre
    have hqs : ∀ q ∈ qs ++ [p], q.AllSync := fun q hq => hall q (hpre.subset hq)
    obtain ⟨-, hrep, hmoves⟩ := (taken_run s₀ fun q hq =>
      hqs q (List.mem_append_left _ hq)).packet (hqs p (by simp))
    rw [← run_concat] at hrep hmoves
    exact ⟨_, hrep, rfl, hmoves⟩

/-- A packet that moves nowhere. -/
def restPacket : Packet := ⟨0x08, 0, 0, by decide, by decide⟩

/-- The driver before it is started. -/
def State.boot : State :=
  ⟨fun _ => 0, 0, 0, 0, ⟨0, 0, 0, 0, 0, 0, 0, false⟩, fun _ => ⟨0, 0, 0, 0, 0, 0, 0, false⟩, 0, 0,
    false⟩

/-- **No movement, no packet**: its two distances are zero, and each is taken as the beginning of a
packet. -/
theorem not_decodes_rest : ¬Decodes State.boot [restPacket] := by
  intro hdec
  obtain ⟨m, hm, hlast, -⟩ := hdec [] restPacket (by simp)
  have herrors : (run (mouseStart State.boot) [restPacket]).last.errors = 2 := by decide
  have hzero := hm.errors
  rw [← hlast, List.nil_append, herrors] at hzero
  exact absurd hzero (by decide)

end Mouse

end Qizo
