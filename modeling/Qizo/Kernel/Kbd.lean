import Qizo.Lib.Fifo
import Mathlib.Data.List.Induction

/-!
# The keyboard

`kernel/drivers/kbd.c`: the key queue and the decoders for the two scan code sets. The interrupt
handler feeds the decoder one byte at a time and the decoder puts keys into the queue; the shell
takes them out.

A key is one, two or three bytes in scan code set 2. The decoder remembers in `ext` and
`pending_release` which prefixes it has seen, and both are cleared on several paths. An `Event` is
one complete sequence, and the decoder is shown to be between events whenever one has ended.

The exchange of `qizo_kbd_init` with the controller leaves the variables alone and is not part of
the model.

## Main results

* `pushScancode_spec`, `pushExtended_spec` — what the two branches of the decoder change
* `feed_event` — one event, from a state between events
* `decoder_in_step` — the state after any sequence of events and replies
-/

namespace Qizo

namespace Kbd

/-- `KBD_QUEUE`. -/
def kbdQueue : ℕ := 256

/-- `set1_noshift`. -/
def set1NoShift : String :=
  "\x00\x001234567890-=\x08\tqwertyuiop[]\n\x00asdfghjkl;'`\x00\\zxcvbnm,./\x00*\x00 "

/-- `set1_shift`. -/
def set1Shift : String :=
  "\x00\x00!@#$%^&*()_+\x08\tQWERTYUIOP\x7b\x7d\n\x00ASDFGHJKL:\"~\x00|ZXCVBNM<>?\x00*\x00 "

/-- `set2_noshift`. -/
def set2NoShift : String :=
  "\x00\x00123457890-=\x00\tqwertyuiop[\x00\n\x00asdfghjkl;'`\x00\\zxcvbnm,./\x00*\x00 "

/-- `set2_shift`. -/
def set2Shift : String :=
  "\x00\x00!@#$%^&*()_+\x00\tQWERTYUIOP\x7b\x00\n\x00ASDFGHJKL:\"~\x00|ZXCVBNM<>?\x00*\x00 "

/-- The character for a scan code. The tables have 128 places, and those behind the last character
are zero. -/
def keyAt (map : String) (scan : UInt8) : UInt8 :=
  UInt8.ofNat (map.toList.getD scan.toNat '\x00').toNat

/-- The static variables. -/
structure State where
  /-- `queue`, `head` and `tail`. -/
  queue : Fifo UInt8
  /-- `shift_left`. -/
  shiftLeft : Bool
  /-- `shift_right`. -/
  shiftRight : Bool
  /-- `ctrl_key`. -/
  ctrlKey : Bool
  /-- `caps`. -/
  caps : Bool
  /-- `set2`. -/
  set2 : Bool
  /-- `pending_release`. -/
  pendingRelease : Bool
  /-- `ext`. -/
  ext : Bool

/-! ### The queue -/

/-- `push_key`. -/
def pushKey (s : State) (c : UInt8) : State := { s with queue := s.queue.push kbdQueue c }

/-- `qizo_kbd_init`. -/
def kbdInit (s : State) : State where
  queue := ⟨s.queue.slot, 0, 0⟩
  shiftLeft := false
  shiftRight := false
  ctrlKey := false
  caps := false
  set2 := true
  pendingRelease := false
  ext := false

/-- `qizo_kbd_ready`. -/
def kbdReady (s : State) : Bool := s.queue.head != s.queue.tail

/-- `qizo_kbd_get`, with nothing for `-1`. -/
def kbdGet (s : State) : Option UInt8 × State :=
  if s.queue.head = s.queue.tail then (none, s)
  else (some (s.queue.slot s.queue.tail), { s with queue := s.queue.drop kbdQueue })

/-! ### The decoders -/

/-- The last lines of both decoders: a character of the table, as it is or with the control key. -/
def pushMapped (s : State) (c : UInt8) : State :=
  if c = 0 then s
  else if s.ctrlKey then
    if 97 ≤ c ∧ c ≤ 122 then pushKey s (c - 97 + 1) else s
  else pushKey s c

/-- `push_scancode`. -/
def pushScancode (s : State) (scan : UInt8) : State :=
  let shift := s.shiftLeft || s.shiftRight || s.caps
  let up := s.pendingRelease
  let s := { s with pendingRelease := false }
  if scan = 0x12 ∨ scan = 0x59 ∨ scan = 0xF2 ∨ scan = 0xF5 then
    let s := if scan = 0x12 then { s with shiftLeft := !up } else s
    if scan = 0x59 then { s with shiftRight := !up } else s
  else if scan = 0x14 then { s with ctrlKey := !up }
  else if scan = 0x58 then if !up then { s with caps := !s.caps } else s
  else if up then s
  else if 0x60 ≤ scan then s
  else pushMapped s (keyAt (if shift then set2Shift else set2NoShift) scan)

/-- The branch of `handle_set2` behind the prefix `E0`. -/
def pushExtended (s : State) (code : UInt8) : State :=
  let s := { s with ext := false }
  let s :=
    if !s.pendingRelease then
      if code = 0x5D then pushKey s 10
      else if code = 0x75 then pushKey s 0x01
      else if code = 0x72 then pushKey s 0x02
      else if code = 0x69 then pushKey s 0x06
      else if code = 0x70 then pushKey s 0x05
      else if code = 0x71 then pushKey s 0x02
      else if code = 0x7A then pushKey s 0x01
      else s
    else s
  { s with pendingRelease := false }

/-- `handle_set2`. -/
def handleSet2 (s : State) (code : UInt8) : State :=
  if code = 0xE0 ∨ code = 0xE1 then { s with ext := true }
  else if code = 0xF0 then { s with pendingRelease := true }
  else if code = 0xFA ∨ code = 0xEE ∨ code = 0xFC ∨ code = 0xFE ∨ code = 0xFF then s
  else if code = 0xAA then { s with pendingRelease := false }
  else if s.ext then pushExtended s code
  else pushScancode s code

/-- `handle_set1`. -/
def handleSet1 (s : State) (code : UInt8) : State :=
  let up := code &&& 0x80 != 0
  let scan := code &&& 0x7F
  let shift := s.shiftLeft || s.shiftRight || s.caps
  if scan = 0x2A then { s with shiftLeft := !up }
  else if scan = 0x36 then { s with shiftRight := !up }
  else if scan = 0x1D then { s with ctrlKey := !up }
  else if scan = 0x3A then if !up then { s with caps := !s.caps } else s
  else if up then s
  else if 128 ≤ scan then s
  else pushMapped s (keyAt (if shift then set1Shift else set1NoShift) scan)

/-- `qizo_kbd_interrupt`. -/
def kbdInterrupt (s : State) (code : UInt8) : State :=
  if s.set2 then handleSet2 s code else handleSet1 s code

/-- The bytes of several interrupts. -/
def feed (s : State) (bytes : List UInt8) : State := bytes.foldl kbdInterrupt s

/-! ### Events -/

/-- A reply of the controller to a command: acknowledge, echo, the two self-test failures, or
resend. -/
def IsReply (b : UInt8) : Prop := b = 0xFA ∨ b = 0xEE ∨ b = 0xFC ∨ b = 0xFE ∨ b = 0xFF

/-- The code of a key: no prefix, no reply, and not the report of a self-test that passed. -/
def IsKeyCode (x : UInt8) : Prop := x ≠ 0xE0 ∧ x ≠ 0xE1 ∧ x ≠ 0xF0 ∧ x ≠ 0xAA ∧ ¬IsReply x

instance : DecidablePred IsReply := fun b => by unfold IsReply; infer_instance

instance : DecidablePred IsKeyCode := fun x => by unfold IsKeyCode; infer_instance

/-- The code of a key. -/
abbrev KeyCode := { x : UInt8 // IsKeyCode x }

/-- A complete sequence of bytes: a key goes down or up, with or without the prefix `E0`. -/
inductive Event where
  | make (code : KeyCode)
  | release (code : KeyCode)
  | extMake (code : KeyCode)
  | extRelease (code : KeyCode)
  deriving DecidableEq

namespace Event

/-- The bytes of an event. -/
def bytes : Event → List UInt8
  | make x => [x.1]
  | release x => [0xF0, x.1]
  | extMake x => [0xE0, x.1]
  | extRelease x => [0xE0, 0xF0, x.1]

/-- A key goes up. -/
def IsRelease : Event → Prop
  | make _ => False
  | release _ => True
  | extMake _ => False
  | extRelease _ => True

/-- The event has the prefix. -/
def IsExtended : Event → Prop
  | make _ => False
  | release _ => False
  | extMake _ => True
  | extRelease _ => True

/-- What a plain event says about the key `code`: it is down, or up. -/
def tells (code : UInt8) : Event → Option Bool
  | make x => if x.1 = code then some true else none
  | release x => if x.1 = code then some false else none
  | extMake _ => none
  | extRelease _ => none

end Event

/-- The last plain event for the key `code` was a make. -/
def held (code : UInt8) (es : List Event) : Bool :=
  (es.filterMap (Event.tells code)).getLast?.getD false

/-- The number of plain makes of the key `code`. -/
def makes (code : UInt8) (es : List Event) : ℕ := es.countP fun e => e.tells code = some true

/-- What comes from the keyboard: an event, or a reply. -/
inductive Input where
  | event (e : Event)
  | reply (b : { b : UInt8 // IsReply b })

/-- The bytes of an input. -/
def Input.bytes : Input → List UInt8
  | .event e => e.bytes
  | .reply b => [b.1]

/-- The events among some inputs. -/
def events (inputs : List Input) : List Event :=
  inputs.filterMap fun
    | .event e => some e
    | .reply _ => none

/-- The state after some inputs. -/
def run (s : State) (inputs : List Input) : State := inputs.foldl (fun s i => feed s i.bytes) s

/-! ### One event -/

variable {s : State} {e : Event} {es : List Event}

/-- Nothing was added to the queue, or one key was handed to `push_key`. -/
def AtMostOne (q q' : Fifo UInt8) : Prop := q' = q ∨ ∃ c, q' = q.push kbdQueue c

theorem pushMapped_spec (s : State) (c : UInt8) :
    ∃ q, AtMostOne s.queue q ∧ pushMapped s c = { s with queue := q } := by
  unfold pushMapped
  split
  · exact ⟨_, .inl rfl, rfl⟩
  · split
    · split
      · exact ⟨_, .inr ⟨_, rfl⟩, rfl⟩
      · exact ⟨_, .inl rfl, rfl⟩
    · exact ⟨_, .inr ⟨_, rfl⟩, rfl⟩

/-- **Without the prefix.** Both flags are clear afterwards, each modifier follows its own key, and
a key that goes up adds nothing to the queue. -/
theorem pushScancode_spec (s : State) (x : UInt8) :
    ∃ q, AtMostOne s.queue q ∧ (s.pendingRelease = true → q = s.queue) ∧ pushScancode s x =
      { s with
        queue := q
        pendingRelease := false
        shiftLeft := if x = 0x12 then !s.pendingRelease else s.shiftLeft
        shiftRight := if x = 0x59 then !s.pendingRelease else s.shiftRight
        ctrlKey := if x = 0x14 then !s.pendingRelease else s.ctrlKey
        caps := if x = 0x58 ∧ s.pendingRelease = false then !s.caps else s.caps } := by
  obtain ⟨q, sl, sr, ck, cp, s2, pr, ex⟩ := s
  by_cases h12 : x = 0x12
  · subst h12
    exact ⟨q, .inl rfl, fun _ => rfl, rfl⟩
  by_cases h59 : x = 0x59
  · subst h59
    exact ⟨q, .inl rfl, fun _ => rfl, rfl⟩
  by_cases h14 : x = 0x14
  · subst h14
    exact ⟨q, .inl rfl, fun _ => rfl, rfl⟩
  by_cases h58 : x = 0x58
  · subst h58
    refine ⟨q, .inl rfl, fun _ => rfl, ?_⟩
    cases pr <;> rfl
  simp only [pushScancode, h12, h59, h14, h58, false_or, if_false, false_and]
  by_cases hf : x = 0xF2 ∨ x = 0xF5
  · rw [if_pos hf]
    exact ⟨q, .inl rfl, fun _ => rfl, rfl⟩
  rw [if_neg hf]
  cases pr with
  | true => exact ⟨q, .inl rfl, fun _ => rfl, rfl⟩
  | false =>
    by_cases h60 : 0x60 ≤ x
    · rw [if_neg Bool.false_ne_true, if_pos h60]
      exact ⟨q, .inl rfl, fun _ => rfl, rfl⟩
    · rw [if_neg Bool.false_ne_true, if_neg h60]
      obtain ⟨q', hq', heq⟩ := pushMapped_spec ⟨q, sl, sr, ck, cp, s2, false, ex⟩
        (keyAt (if sl || sr || cp then set2Shift else set2NoShift) x)
      exact ⟨q', hq', nofun, heq⟩

/-- **Behind the prefix.** Both flags are clear afterwards and nothing but the queue has changed. -/
theorem pushExtended_spec (s : State) (x : UInt8) :
    ∃ q, AtMostOne s.queue q ∧ (s.pendingRelease = true → q = s.queue) ∧
      pushExtended s x = { s with queue := q, pendingRelease := false, ext := false } := by
  obtain ⟨q, sl, sr, ck, cp, s2, pr, ex⟩ := s
  cases pr with
  | true => exact ⟨q, .inl rfl, fun _ => rfl, rfl⟩
  | false =>
    unfold pushExtended
    dsimp only
    rw [if_pos (by rfl)]
    split_ifs
    all_goals first
      | exact ⟨_, .inr ⟨_, rfl⟩, nofun, rfl⟩
      | exact ⟨_, .inl rfl, nofun, rfl⟩

/-- A key code is no prefix and no reply. -/
theorem handleSet2_keyCode (s : State) (x : KeyCode) :
    handleSet2 s x.1 = if s.ext then pushExtended s x.1 else pushScancode s x.1 := by
  obtain ⟨x, h0, h1, hf, ha, hr⟩ := x
  rw [IsReply] at hr
  simp only [handleSet2, h0, h1, hf, ha, hr, or_self, if_false]

/-- The decoder is between two events. -/
structure Between (s : State) : Prop where
  set2 : s.set2 = true
  pendingRelease : s.pendingRelease = false
  ext : s.ext = false

/-- The state after an event: the queue is `q`, and each modifier follows its own key. -/
def afterEvent (s : State) (e : Event) (q : Fifo UInt8) : State :=
  { s with
    queue := q
    shiftLeft := (e.tells 0x12).getD s.shiftLeft
    shiftRight := (e.tells 0x59).getD s.shiftRight
    ctrlKey := (e.tells 0x14).getD s.ctrlKey
    caps := if e.tells 0x58 = some true then !s.caps else s.caps }

/-- **One event.** -/
theorem feed_event (h : Between s) (e : Event) :
    ∃ q, AtMostOne s.queue q ∧ (e.IsRelease → q = s.queue) ∧
      feed s e.bytes = afterEvent s e q := by
  obtain ⟨q, sl, sr, ck, cp, s2, pr, ex⟩ := s
  obtain ⟨hs2, hpr, hex⟩ := h
  dsimp only at hs2 hpr hex
  subst hs2 hpr hex
  have htells {x c : UInt8} {b v : Bool} :
      (if x = c then some v else none : Option Bool).getD b = if x = c then v else b := by
    split <;> rfl
  cases e with
  | make x =>
    have hfeed : feed ⟨q, sl, sr, ck, cp, true, false, false⟩ (Event.make x).bytes =
        pushScancode ⟨q, sl, sr, ck, cp, true, false, false⟩ x.1 :=
      handleSet2_keyCode ⟨q, sl, sr, ck, cp, true, false, false⟩ x
    obtain ⟨q', hq', -, heq⟩ := pushScancode_spec ⟨q, sl, sr, ck, cp, true, false, false⟩ x.1
    refine ⟨q', hq', nofun, ?_⟩
    rw [hfeed, heq]
    simp [afterEvent, Event.tells, htells]
  | release x =>
    have hfeed : feed ⟨q, sl, sr, ck, cp, true, false, false⟩ (Event.release x).bytes =
        pushScancode ⟨q, sl, sr, ck, cp, true, true, false⟩ x.1 :=
      handleSet2_keyCode ⟨q, sl, sr, ck, cp, true, true, false⟩ x
    obtain ⟨q', hq', hup, heq⟩ := pushScancode_spec ⟨q, sl, sr, ck, cp, true, true, false⟩ x.1
    refine ⟨q', hq', fun _ => hup rfl, ?_⟩
    rw [hfeed, heq]
    simp [afterEvent, Event.tells, htells]
  | extMake x =>
    have hfeed : feed ⟨q, sl, sr, ck, cp, true, false, false⟩ (Event.extMake x).bytes =
        pushExtended ⟨q, sl, sr, ck, cp, true, false, true⟩ x.1 :=
      handleSet2_keyCode ⟨q, sl, sr, ck, cp, true, false, true⟩ x
    obtain ⟨q', hq', -, heq⟩ := pushExtended_spec ⟨q, sl, sr, ck, cp, true, false, true⟩ x.1
    exact ⟨q', hq', nofun, hfeed.trans heq⟩
  | extRelease x =>
    have hfeed : feed ⟨q, sl, sr, ck, cp, true, false, false⟩ (Event.extRelease x).bytes =
        pushExtended ⟨q, sl, sr, ck, cp, true, true, true⟩ x.1 :=
      handleSet2_keyCode ⟨q, sl, sr, ck, cp, true, true, true⟩ x
    obtain ⟨q', hq', hup, heq⟩ := pushExtended_spec ⟨q, sl, sr, ck, cp, true, true, true⟩ x.1
    exact ⟨q', hq', fun _ => hup rfl, hfeed.trans heq⟩

/-- **A reply** between events changes nothing. -/
theorem feed_reply (h : Between s) {b : UInt8} (hb : IsReply b) : feed s [b] = s := by
  have hint : kbdInterrupt s b = handleSet2 s b := by rw [kbdInterrupt, if_pos h.set2]
  rw [feed, List.foldl_cons, List.foldl_nil, hint]
  rcases hb with rfl | rfl | rfl | rfl | rfl
  all_goals rfl

/-! ### Any sequence of events -/

theorem held_concat (code : UInt8) (es : List Event) (e : Event) :
    held code (es ++ [e]) = (e.tells code).getD (held code es) := by
  rw [held, List.filterMap_append, held]
  cases h : e.tells code with
  | none => simp [h]
  | some v => simp [h]

theorem makes_concat (code : UInt8) (es : List Event) (e : Event) :
    makes code (es ++ [e]) = makes code es + if e.tells code = some true then 1 else 0 := by
  rw [makes, List.countP_append, List.countP_singleton, makes]
  simp

/-- The decoder after the events `es`: between two events, with each modifier as its own key
says. -/
structure InStep (s : State) (es : List Event) : Prop extends Between s where
  shiftLeft : s.shiftLeft = held 0x12 es
  shiftRight : s.shiftRight = held 0x59 es
  ctrlKey : s.ctrlKey = held 0x14 es
  caps : s.caps = decide (makes 0x58 es % 2 = 1)

theorem InStep.event (h : InStep s es) (e : Event) : InStep (feed s e.bytes) (es ++ [e]) := by
  obtain ⟨q, -, -, heq⟩ := feed_event h.toBetween e
  rw [heq]
  refine ⟨⟨h.set2, h.pendingRelease, h.ext⟩, ?_, ?_, ?_, ?_⟩
  · rw [held_concat, ← h.shiftLeft]
    rfl
  · rw [held_concat, ← h.shiftRight]
    rfl
  · rw [held_concat, ← h.ctrlKey]
    rfl
  · rw [makes_concat]
    dsimp only [afterEvent]
    rw [h.caps]
    by_cases htells : e.tells 0x58 = some true
    · rw [if_pos htells, if_pos htells, ← decide_not, decide_eq_decide]
      omega
    · rw [if_neg htells, if_neg htells, Nat.add_zero]

theorem inStep_run (s : State) (inputs : List Input) :
    InStep (run (kbdInit s) inputs) (events inputs) := by
  induction inputs using List.reverseRecOn with
  | nil => exact ⟨⟨rfl, rfl, rfl⟩, rfl, rfl, rfl, rfl⟩
  | append_singleton inputs i ih =>
    rw [run, List.foldl_append, events, List.filterMap_append]
    cases i with
    | event e => exact ih.event e
    | reply b =>
      have hrest : feed (run (kbdInit s) inputs) [b.1] = run (kbdInit s) inputs :=
        feed_reply ih.toBetween b.2
      simp only [List.filterMap_cons, List.filterMap_nil, List.append_nil]
      exact (congrArg (InStep · (events inputs)) hrest).mpr ih

/-- **The decoder stays in step.** After any sequence of events with replies between them both
prefix flags are clear, and each modifier is what the plain events of its own key say. The next
event hands at most one key to the queue, none if a key goes up; it changes no modifier if it has
the prefix; and a reply changes nothing. -/
theorem decoder_in_step (s₀ : State) (inputs : List Input) :
    InStep (run (kbdInit s₀) inputs) (events inputs) ∧
    (∀ e : Event,
      AtMostOne (run (kbdInit s₀) inputs).queue (feed (run (kbdInit s₀) inputs) e.bytes).queue ∧
      (e.IsRelease →
        (feed (run (kbdInit s₀) inputs) e.bytes).queue = (run (kbdInit s₀) inputs).queue) ∧
      (e.IsExtended → ∃ q, feed (run (kbdInit s₀) inputs) e.bytes =
        { run (kbdInit s₀) inputs with queue := q })) ∧
    ∀ b, IsReply b → feed (run (kbdInit s₀) inputs) [b] = run (kbdInit s₀) inputs := by
  have hstep := inStep_run s₀ inputs
  refine ⟨hstep, fun e => ?_, fun b hb => feed_reply hstep.toBetween hb⟩
  obtain ⟨q, hq, hup, heq⟩ := feed_event hstep.toBetween e
  rw [heq]
  refine ⟨hq, hup, fun hext => ⟨q, ?_⟩⟩
  cases e with
  | make x => exact hext.elim
  | release x => exact hext.elim
  | extMake x => rfl
  | extRelease x => rfl

end Kbd

end Qizo
