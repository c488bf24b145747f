import Qizo.Kernel.Mouse

/-!
# The mouse queue

The last part of `kernel/drivers/mouse.c`: movements go into a ring of 64 with a head and a count,
`qizo_mouse_read` takes the oldest, and `qizo_mouse_flush` empties the ring. A movement that comes
when 64 are waiting takes the place of the oldest, and `m_dropped` counts it. The counter has 32
bits.

A session records, since the last flush, which movements were decoded and which were read.

## Main results

* `mouseInterrupt_cases` — what one byte does to the queue
* `Kept.step` — what one call keeps
* `movements_kept` — what holds after every run
-/

namespace Qizo

namespace Mouse

/-- `qizo_mouse_read`: the movement that is copied to `*out`, if it returns one. -/
def mouseRead (s : State) : Option Movement × State :=
  if s.qUsed = 0 then (none, s)
  else
    (some (s.queue s.qHead), { s with qHead := (s.qHead + 1) % mQueue, qUsed := s.qUsed - 1 })

/-- `qizo_mouse_flush`. -/
def mouseFlush (s : State) : State :=
  { s with qHead := 0, qUsed := 0, last := { s.last with x := 0, y := 0 } }

/-- The movement that a byte completes. The handler has then counted a packet. -/
def decoded (s : State) (b : UInt8) : Option Movement :=
  if (mouseInterrupt s b).last.packets = s.last.packets then none
  else some (mouseInterrupt s b).last

/-- What can happen: a byte from the mouse, and the two calls. -/
inductive Act where
  | interrupt (b : UInt8)
  | read
  | flush

/-- The driver, and what has happened since the last flush. -/
structure Session where
  /-- The variables of the driver. -/
  mouse : State
  /-- The movements that were decoded. -/
  decoded : List Movement
  /-- The movements that were read. -/
  taken : List Movement
  /-- `m_dropped` at the last flush. -/
  droppedAt : UInt32

/-- One call. -/
def step (w : Session) : Act → Session
  | .interrupt b =>
    { w with
      mouse := mouseInterrupt w.mouse b
      decoded := w.decoded ++ (decoded w.mouse b).toList }
  | .read =>
    { w with
      mouse := (mouseRead w.mouse).2
      taken := w.taken ++ (mouseRead w.mouse).1.toList }
  | .flush => ⟨mouseFlush w.mouse, [], [], w.mouse.mDropped⟩

/-- Several calls. -/
def runs (w : Session) (acts : List Act) : Session := acts.foldl step w

/-- The session behind `qizo_mouse_start`. -/
def Session.start (s : State) : Session := ⟨mouseStart s, [], [], s.mDropped⟩

/-! ### One byte -/

variable {s s' : State} {w : Session} {m : Movement}

/-- The queue and its counter are the same. -/
structure SameQueue (s s' : State) : Prop where
  queue : s'.queue = s.queue
  qHead : s'.qHead = s.qHead
  qUsed : s'.qUsed = s.qUsed
  mDropped : s'.mDropped = s.mDropped

theorem SameQueue.movements_eq (h : SameQueue s s') : movements s' = movements s := by
  rw [movements, movements, h.queue, h.qHead, h.qUsed]

/-- **What one byte does to the queue**: nothing, or it adds the movement it completes. -/
theorem mouseInterrupt_cases (s : State) (b : UInt8) :
    (SameQueue s (mouseInterrupt s b) ∧ decoded s b = none) ∨
      ∃ s' m, SameQueue s s' ∧ mouseInterrupt s b = pushMove s' m ∧ decoded s b = some m := by
  have hnone {s' : State} (h : mouseInterrupt s b = s')
      (hpackets : s'.last.packets = s.last.packets) : decoded s b = none := by
    rw [decoded, h, if_pos hpackets]
  by_cases hsync : b &&& 0x08 = 0 ∨ s.inLen = 3
  · have h : mouseInterrupt s b = countError { s with
        mIrqs := s.mIrqs + 1, inPacket := Function.update s.inPacket 0 b, inLen := 1 } :=
      if_pos hsync
    rw [hnone h rfl, h]
    exact .inl ⟨⟨rfl, rfl, rfl, rfl⟩, rfl⟩
  · by_cases hlen : s.inLen + 1 ≠ 3
    · have h : mouseInterrupt s b = { s with
          mIrqs := s.mIrqs + 1, inPacket := Function.update s.inPacket s.inLen b,
          inLen := s.inLen + 1 } :=
        (if_neg hsync).trans (if_pos hlen)
      rw [hnone h rfl, h]
      exact .inl ⟨⟨rfl, rfl, rfl, rfl⟩, rfl⟩
    · by_cases hover : Function.update s.inPacket s.inLen b 0 &&& 0xC0 ≠ 0
      · have h : mouseInterrupt s b = countError { s with
            mIrqs := s.mIrqs + 1, inPacket := Function.update s.inPacket s.inLen b, inLen := 0 } :=
          (if_neg hsync).trans ((if_neg hlen).trans (if_pos hover))
        rw [hnone h rfl, h]
        exact .inl ⟨⟨rfl, rfl, rfl, rfl⟩, rfl⟩
      · obtain ⟨m, hm, h⟩ : ∃ m : Movement, m.packets = s.last.packets + 1 ∧
            mouseInterrupt s b = pushMove { s with
              mIrqs := s.mIrqs + 1, inPacket := Function.update s.inPacket s.inLen b,
              inLen := 0 } m :=
          ⟨_, rfl, (if_neg hsync).trans ((if_neg hlen).trans (if_neg hover))⟩
        refine .inr ⟨_, m, ?_, h, ?_⟩
        · exact ⟨rfl, rfl, rfl, rfl⟩
        · rw [decoded, h, pushMove_last, hm, if_neg]
          exact fun heq => by simp at heq

/-! ### What every call keeps -/

/-- The movements that are waiting are the newest that were decoded, in order, behind those that
were read. The others were overwritten, and counted. -/
structure Kept (w : Session) : Prop where
  head_lt : w.mouse.qHead < mQueue
  used_le : w.mouse.qUsed ≤ mQueue
  newest : movements w.mouse <:+ w.decoded
  in_order : (w.taken ++ movements w.mouse).Sublist w.decoded
  counted : ∃ d, w.decoded.length = w.taken.length + w.mouse.qUsed + d ∧
    w.mouse.mDropped = w.droppedAt + UInt32.ofNat d

theorem length_movements (s : State) : (movements s).length = s.qUsed := Ring.length_contents ..

/-- The counter goes up when 64 are waiting. -/
theorem pushMove_counters (m : Movement) (hused : s.qUsed ≤ mQueue) :
    (pushMove s m).qUsed = s.qUsed + 1 ∧ (pushMove s m).mDropped = s.mDropped ∧ s.qUsed < mQueue ∨
      (pushMove s m).qUsed = s.qUsed ∧ (pushMove s m).mDropped = s.mDropped + 1 ∧
        s.qUsed = mQueue := by
  unfold pushMove
  by_cases hlt : s.qUsed < mQueue
  · rw [if_pos hlt]
    exact .inl ⟨rfl, rfl, hlt⟩
  · rw [if_neg hlt]
    exact .inr ⟨rfl, rfl, Nat.le_antisymm hused (Nat.not_lt.mp hlt)⟩

/-- The movements after one more: with 64 waiting, without the oldest. -/
theorem rtake_movements (m : Movement) (hused : s.qUsed ≤ mQueue) :
    (movements s ++ [m]).rtake mQueue =
      (if s.qUsed = mQueue then (movements s).tail else movements s) ++ [m] := by
  have hlen := length_movements s
  rw [List.rtake, List.length_append, hlen, List.length_singleton]
  by_cases hfull : s.qUsed = mQueue
  · rw [if_pos hfull, hfull, Nat.add_sub_cancel_left, List.drop_one]
    refine List.tail_append_of_ne_nil fun hnil => ?_
    rw [hnil, hfull] at hlen
    cases hlen
  · rw [if_neg hfull, Nat.sub_eq_zero_of_le (by omega), List.drop_zero]

/-- A movement comes. -/
theorem Kept.push (h : Kept w) (hsame : SameQueue w.mouse s) :
    Kept { w with mouse := pushMove s m, decoded := w.decoded ++ [m] } := by
  have hhead : s.qHead < mQueue := hsame.qHead ▸ h.head_lt
  have hused : s.qUsed ≤ mQueue := hsame.qUsed ▸ h.used_le
  obtain ⟨hhead', hused', hmoves⟩ := @pushMove_queue s m hhead hused
  rw [rtake_movements m hused, hsame.movements_eq] at hmoves
  obtain ⟨d, hcount, hdropped⟩ := h.counted
  have hsuffix : (if s.qUsed = mQueue then (movements w.mouse).tail else movements w.mouse) <:+
      movements w.mouse := by
    split
    · exact List.tail_suffix _
    · exact List.suffix_rfl
  refine ⟨hhead', hused', ?_, ?_, ?_⟩
  · dsimp only
    rw [hmoves]
    obtain ⟨pre, hpre⟩ := hsuffix.trans h.newest
    exact ⟨pre, by rw [← List.append_assoc, hpre]⟩
  · dsimp only
    rw [hmoves, ← List.append_assoc]
    exact ((List.Sublist.append_left hsuffix.sublist _).trans h.in_order).append_right _
  · dsimp only
    rw [List.length_append, List.length_singleton, hcount, ← hsame.qUsed]
    rcases pushMove_counters m hused with ⟨hu, hd, -⟩ | ⟨hu, hd, -⟩
    · exact ⟨d, by omega, by rw [hd, hsame.mDropped, hdropped]⟩
    · refine ⟨d + 1, by omega, ?_⟩
      rw [hd, hsame.mDropped, hdropped, UInt32.ofNat_add, UInt32.add_assoc]
      rfl

/-- `qizo_mouse_read` takes the oldest. -/
theorem mouseRead_eq (hhead : s.qHead < mQueue) :
    (mouseRead s).1 = (movements s).head? ∧ movements (mouseRead s).2 = (movements s).tail ∧
      (mouseRead s).2.qHead < mQueue ∧ (mouseRead s).2.qUsed = s.qUsed - 1 ∧
      (mouseRead s).2.mDropped = s.mDropped := by
  rw [mouseRead]
  by_cases hempty : s.qUsed = 0
  · have hnil : movements s = [] := List.length_eq_zero_iff.mp ((length_movements s).trans hempty)
    rw [if_pos hempty, hnil]
    exact ⟨rfl, rfl, hhead, by rw [hempty], rfl⟩
  · obtain ⟨n, hn⟩ : ∃ n, s.qUsed = n + 1 := ⟨s.qUsed - 1, by omega⟩
    obtain ⟨hfirst, hrest⟩ := @Ring.contents_pop _ mQueue s.qHead n s.queue hhead
    rw [if_neg hempty, movements, hn]
    exact ⟨hfirst.symm, hrest, Nat.mod_lt _ (by decide), rfl, rfl⟩

/-- **One call.** -/
theorem Kept.step (h : Kept w) (a : Act) : Kept (step w a) := by
  cases a with
  | interrupt b =>
    rcases mouseInterrupt_cases w.mouse b with ⟨hsame, hnone⟩ | ⟨s', m, hsame, hpush, hsome⟩
    · rw [Mouse.step, hnone, Option.toList_none, List.append_nil]
      obtain ⟨d, hcount, hdropped⟩ := h.counted
      refine ⟨hsame.qHead ▸ h.head_lt, hsame.qUsed ▸ h.used_le, ?_, ?_, d, ?_, ?_⟩
      · exact hsame.movements_eq ▸ h.newest
      · exact hsame.movements_eq ▸ h.in_order
      · exact hsame.qUsed ▸ hcount
      · exact hsame.mDropped.trans hdropped
    · rw [Mouse.step, hsome, hpush]
      exact h.push hsame
  | read =>
    obtain ⟨hfirst, hrest, hhead, hused, hdropped⟩ := mouseRead_eq h.head_lt
    obtain ⟨d, hcount, hcounter⟩ := h.counted
    have hle := h.used_le
    have hsplit : (movements w.mouse).head?.toList ++ (movements w.mouse).tail =
        movements w.mouse := by
      cases movements w.mouse <;> rfl
    have hlen := congrArg List.length hsplit
    rw [List.length_append, List.length_tail, length_movements] at hlen
    refine ⟨hhead, by rw [Mouse.step, hused]; omega, ?_, ?_, d, ?_, hdropped.trans hcounter⟩
    · rw [Mouse.step, hrest]
      exact (List.tail_suffix _).trans h.newest
    · rw [Mouse.step, hrest, hfirst, List.append_assoc, hsplit]
      exact h.in_order
    · rw [Mouse.step, hfirst, List.length_append, hused, hcount]
      omega
  | flush =>
    refine ⟨show 0 < 64 by decide, Nat.zero_le _, List.nil_suffix, List.Sublist.refl _, 0, rfl, ?_⟩
    exact (UInt32.add_zero _).symm

theorem kept_runs (s : State) (acts : List Act) : Kept (runs (.start s) acts) := by
  induction acts using List.reverseRecOn with
  | nil =>
    refine ⟨show 0 < 64 by decide, Nat.zero_le _, List.nil_suffix, List.Sublist.refl _, 0, rfl, ?_⟩
    exact (UInt32.add_zero _).symm
  | append_singleton acts a ih =>
    rw [runs, List.foldl_append]
    exact ih.step a

/-- The queue keeps the newest movements. -/
structure KeepsNewest (w : Session) : Prop where
  /-- The indices are in range. -/
  in_range : w.mouse.qUsed ≤ 64 ∧ w.mouse.qHead < 64
  /-- What waits is the end of what was decoded, and comes after what was read. -/
  newest : movements w.mouse <:+ w.decoded
  in_order : (w.taken ++ movements w.mouse).Sublist w.decoded
  /-- A read takes the oldest. -/
  read : (mouseRead w.mouse).1 = (movements w.mouse).head? ∧
    movements (mouseRead w.mouse).2 = (movements w.mouse).tail
  /-- A movement that comes when 64 are waiting replaces the oldest. -/
  replaces : ∀ b m, Mouse.decoded w.mouse b = some m → movements (mouseInterrupt w.mouse b) =
    (if w.mouse.qUsed = 64 then (movements w.mouse).tail else movements w.mouse) ++ [m]
  /-- Every decoded movement was read, waits, or was overwritten, and the counter has gone up by the
  number of those, modulo `2 ^ 32`. -/
  counted : ∃ overwritten, w.decoded.length = w.taken.length + w.mouse.qUsed + overwritten ∧
    w.mouse.mDropped = w.droppedAt + UInt32.ofNat overwritten ∧
    (overwritten < 2 ^ 32 → w.decoded.length =
      w.taken.length + w.mouse.qUsed + (w.mouse.mDropped - w.droppedAt).toNat)

/-- **The queue keeps the newest 64 movements**, after any bytes, reads and flushes. -/
theorem movements_kept (s : State) (acts : List Act) : KeepsNewest (runs (.start s) acts) := by
  have h := kept_runs s acts
  generalize runs (.start s) acts = w at h
  obtain ⟨hfirst, hrest, -⟩ := mouseRead_eq h.head_lt
  obtain ⟨d, hcount, hdropped⟩ := h.counted
  refine ⟨⟨h.used_le, h.head_lt⟩, h.newest, h.in_order, ⟨hfirst, hrest⟩, fun b m hm => ?_, d,
    hcount, hdropped, fun hlt => ?_⟩
  · rcases mouseInterrupt_cases w.mouse b with ⟨-, hnone⟩ | ⟨s', m', hsame, hpush, hsome⟩
    · rw [hnone] at hm
      cases hm
    · obtain rfl := Option.some.inj (hsome.symm.trans hm)
      have hused : s'.qUsed ≤ mQueue := hsame.qUsed ▸ h.used_le
      rw [hpush, (pushMove_queue m' (hsame.qHead ▸ h.head_lt) hused).2.2,
        rtake_movements m' hused, hsame.movements_eq, hsame.qUsed]
      rfl
  · rw [hdropped, UInt32.add_comm, UInt32.add_sub_cancel, UInt32.toNat_ofNat_of_lt' hlt, hcount]

/-! ### Too many movements to count -/

/-- A packet of bytes that all have bit 3 set. -/
def syncPacket : List Act := [.interrupt 0x08, .interrupt 0x08, .interrupt 0x08]

theorem runs_append (w : Session) (acts acts' : List Act) :
    runs w (acts ++ acts') = runs (runs w acts) acts' := List.foldl_append

/-- Bytes with bit 3 go into the packet. -/
theorem mouseInterrupt_sync (hlen : s.inLen + 1 ≠ 3) (hlen' : s.inLen ≠ 3) :
    mouseInterrupt s 0x08 = { s with
      mIrqs := s.mIrqs + 1, inPacket := Function.update s.inPacket s.inLen 0x08,
      inLen := s.inLen + 1 } :=
  (if_neg (not_or.mpr ⟨by decide, hlen'⟩)).trans (if_pos hlen)

/-- Such a packet is one movement. -/
theorem runs_syncPacket (hlen : w.mouse.inLen = 0) :
    (runs w syncPacket).mouse.inLen = 0 ∧
      (runs w syncPacket).decoded.length = w.decoded.length + 1 ∧
      (runs w syncPacket).taken = w.taken ∧ (runs w syncPacket).droppedAt = w.droppedAt := by
  -- The first two bytes are collected.
  obtain ⟨s₁, hs₁, hlen₁, hflags⟩ : ∃ s₁, mouseInterrupt w.mouse 0x08 = s₁ ∧ s₁.inLen = 1 ∧
      s₁.inPacket 0 = 0x08 := by
    refine ⟨_, mouseInterrupt_sync (by omega) (by omega), by rw [hlen], ?_⟩
    dsimp only
    rw [hlen, Function.update_self]
  have hnone₁ : decoded w.mouse 0x08 = none := by
    rw [decoded, mouseInterrupt_sync (by omega) (by omega), if_pos rfl]
  obtain ⟨s₂, hs₂, hlen₂, hflags₂⟩ : ∃ s₂, mouseInterrupt s₁ 0x08 = s₂ ∧ s₂.inLen = 2 ∧
      s₂.inPacket 0 = 0x08 := by
    refine ⟨_, mouseInterrupt_sync (by omega) (by omega), by rw [hlen₁], ?_⟩
    dsimp only
    rw [hlen₁, Function.update_of_ne (by decide), hflags]
  have hnone₂ : decoded s₁ 0x08 = none := by
    rw [decoded, mouseInterrupt_sync (by omega) (by omega), if_pos rfl]
  -- The third completes the packet.
  obtain ⟨m, hm, hlast⟩ : ∃ m : Movement, m.packets = s₂.last.packets + 1 ∧
      mouseInterrupt s₂ 0x08 = pushMove { s₂ with
        mIrqs := s₂.mIrqs + 1, inPacket := Function.update s₂.inPacket s₂.inLen 0x08,
        inLen := 0 } m := by
    have hsync : ¬((0x08 : UInt8) &&& 0x08 = 0 ∨ s₂.inLen = 3) :=
      not_or.mpr ⟨by decide, by omega⟩
    have hover : ¬(Function.update s₂.inPacket s₂.inLen 0x08 0 &&& 0xC0 ≠ 0) := by
      rw [hlen₂, Function.update_of_ne (by decide), hflags₂]
      decide
    exact ⟨_, rfl, (if_neg hsync).trans ((if_neg (not_not.mpr (by rw [hlen₂]))).trans
      (if_neg hover))⟩
  have hsome : decoded s₂ 0x08 = some m := by
    rw [decoded, hlast, pushMove_last, hm, if_neg]
    exact fun heq => by simp at heq
  have hrun : runs w syncPacket = { w with
      mouse := mouseInterrupt s₂ 0x08, decoded := w.decoded ++ [m] } := by
    simp only [runs, syncPacket, List.foldl_cons, List.foldl_nil, step, hs₁, hs₂, hnone₁, hnone₂,
      hsome, Option.toList_none, Option.toList_some, List.append_nil]
  rw [hrun, hlast]
  refine ⟨pushMove_inLen .., ?_, rfl, rfl⟩
  rw [List.length_append, List.length_singleton]

/-- `n` such packets. -/
def syncPackets (n : ℕ) : List Act := (List.replicate n syncPacket).flatten

theorem runs_syncPackets (s : State) (n : ℕ) :
    (runs (.start s) (syncPackets n)).mouse.inLen = 0 ∧
      (runs (.start s) (syncPackets n)).decoded.length = n ∧
      (runs (.start s) (syncPackets n)).taken = [] ∧
      (runs (.start s) (syncPackets n)).droppedAt = s.mDropped := by
  induction n with
  | zero => exact ⟨rfl, rfl, rfl, rfl⟩
  | succ n ih =>
    obtain ⟨hlen, hdecoded, htaken, hat⟩ := ih
    have h := runs_syncPacket hlen
    rw [← runs_append, hdecoded, htaken, hat] at h
    rwa [syncPackets, List.replicate_succ', List.flatten_concat]

/-- The counter as it would be without a bound. -/
def CountsAll (w : Session) : Prop :=
  w.decoded.length = w.taken.length + w.mouse.qUsed + (w.mouse.mDropped - w.droppedAt).toNat

/-- After `2 ^ 32 + 64` movements that nobody reads the counter is where it was. -/
theorem not_countsAll_syncPackets :
    ¬CountsAll (runs (.start .boot) (syncPackets (2 ^ 32 + 64))) := by
  obtain ⟨-, hdecoded, htaken, -⟩ := runs_syncPackets .boot (2 ^ 32 + 64)
  have hused := (kept_runs .boot (syncPackets (2 ^ 32 + 64))).used_le
  generalize runs (.start .boot) (syncPackets (2 ^ 32 + 64)) = w at hdecoded htaken hused
  have hlt := (w.mouse.mDropped - w.droppedAt).toNat_lt
  intro hcounts
  rw [CountsAll, hdecoded, htaken, List.length_nil, Nat.zero_add] at hcounts
  rw [mQueue] at hused
  omega

end Mouse

end Qizo
