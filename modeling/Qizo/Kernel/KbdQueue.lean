import Qizo.Kernel.Kbd
import Mathlib.Data.List.ReduceOption

/-!
# The key queue under interrupts

The interrupt handler puts keys into the queue and the shell takes them out, with nothing between
them but the two indices. The handler runs to its end; `qizo_kbd_get` can be interrupted between the
test for an empty queue, the read of the slot and the update of the index. So the taker has a
program counter, and a run is any sequence of its steps and of calls of `push_key`.

The world records which keys were accepted and what `qizo_kbd_get` has returned. That the queue is
a queue is one equation between these two and the keys that are waiting.

## Main results

* `Inv.step` — what one step keeps
* `keys_in_order` — what holds after every run
* `runs_get` — a call that is not interrupted
-/

namespace Qizo

namespace Kbd

/-- Where the taker is in `qizo_kbd_get`: outside, behind the test, or behind the read. -/
inductive Pc where
  | idle
  | tested
  | fetched (c : UInt8)

/-- The driver, the taker, and what has happened so far. -/
structure World where
  /-- The variables of the driver. -/
  kbd : State
  /-- Where the taker is. -/
  pc : Pc
  /-- The keys that were accepted. -/
  accepted : List UInt8
  /-- What `qizo_kbd_get` has returned, with nothing for `-1`. -/
  returned : List (Option UInt8)

/-- What can happen: the handler pushes a key, or the taker does one step of `qizo_kbd_get`. -/
inductive Act where
  | push (c : UInt8)
  | get

/-- One step. A key was accepted if the upper index has moved. -/
def step (w : World) : Act → World
  | .push c =>
    { w with
      kbd := pushKey w.kbd c
      accepted :=
        if (pushKey w.kbd c).queue.head = w.kbd.queue.head then w.accepted else w.accepted ++ [c] }
  | .get =>
    match w.pc with
    | .idle =>
      if w.kbd.queue.head = w.kbd.queue.tail then { w with returned := w.returned ++ [none] }
      else { w with pc := .tested }
    | .tested => { w with pc := .fetched (w.kbd.queue.slot w.kbd.queue.tail) }
    | .fetched c =>
      { w with
        kbd := { w.kbd with queue := w.kbd.queue.drop kbdQueue }
        pc := .idle
        returned := w.returned ++ [some c] }

/-- Several steps. -/
def runs (w : World) (acts : List Act) : World := acts.foldl step w

/-- The world behind `qizo_kbd_init`. -/
def World.start (s : State) : World := ⟨kbdInit s, .idle, [], []⟩

variable {w : World} {l : List UInt8}

/-- The keys `l` are waiting: they are those that were accepted and not returned. A taker behind the
test has one to take, and behind the read it has the first of them. -/
structure Inv (w : World) (l : List UInt8) : Prop where
  holds : w.kbd.queue.Holds kbdQueue l
  accepted_eq : w.accepted = w.returned.reduceOption ++ l
  tested : w.pc = .tested → l ≠ []
  fetched : ∀ c, w.pc = .fetched c → l.head? = some c

theorem Inv.push_of_full (h : Inv w l) (hfull : l.length = 255) (c : UInt8) :
    step w (.push c) = w := by
  have hpush : pushKey w.kbd c = w.kbd := by
    rw [pushKey, h.holds.push_of_full (by rw [hfull]; rfl)]
  simp only [step, hpush, if_true]

theorem Inv.push_of_lt (h : Inv w l) (hroom : l.length < 255) (c : UInt8) :
    Inv (step w (.push c)) (l ++ [c]) ∧ (step w (.push c)).accepted = w.accepted ++ [c] := by
  have hlt : l.length + 1 < kbdQueue := by unfold kbdQueue; omega
  have hmoved : (pushKey w.kbd c).queue.head ≠ w.kbd.queue.head := by
    rw [pushKey, h.holds.push_of_lt hlt]
    intro heq
    have := (Fifo.add_mod_eq_self_iff h.holds.head_lt (Nat.lt_of_le_of_lt (by omega) hlt)).mp heq
    omega
  have hacc : (step w (.push c)).accepted = w.accepted ++ [c] := by
    simp only [step, if_neg hmoved]
  refine ⟨⟨h.holds.push hlt, ?_, fun _ => by simp, fun d hd => ?_⟩, hacc⟩
  · rw [hacc, h.accepted_eq, List.append_assoc]
    rfl
  · have hhead := h.fetched d hd
    rw [List.head?_append, hhead]
    rfl

/-- **One step.** -/
theorem Inv.step (h : Inv w l) (a : Act) : ∃ l', Inv (step w a) l' := by
  cases a with
  | push c =>
    have hlen : l.length < 256 := h.holds.length_lt
    by_cases hfull : l.length = 255
    · rw [h.push_of_full hfull]
      exact ⟨l, h⟩
    · exact ⟨_, (h.push_of_lt (by omega) c).1⟩
  | get =>
    cases hpc : w.pc with
    | idle =>
      by_cases hempty : w.kbd.queue.head = w.kbd.queue.tail
      · refine ⟨l, ?_⟩
        simp only [Kbd.step, hpc, if_pos hempty]
        refine ⟨h.holds, ?_, fun hp => h.tested (hpc ▸ hp), fun c hp => h.fetched c (hpc ▸ hp)⟩
        rw [List.reduceOption_append, List.reduceOption_singleton, h.accepted_eq]
        simp
      · refine ⟨l, ?_⟩
        simp only [Kbd.step, hpc, if_neg hempty]
        exact ⟨h.holds, h.accepted_eq, fun _ hl => hempty (h.holds.head_eq_tail_iff.mpr hl), nofun⟩
    | tested =>
      obtain ⟨c, l, rfl⟩ := List.exists_cons_of_ne_nil (h.tested hpc)
      refine ⟨c :: l, ?_⟩
      simp only [Kbd.step, hpc, h.holds.front]
      refine ⟨h.holds, h.accepted_eq, nofun, fun d hd => ?_⟩
      rw [Pc.fetched.inj hd]
      rfl
    | fetched c =>
      obtain ⟨l, rfl⟩ := List.head?_eq_some_iff.mp (h.fetched c hpc)
      refine ⟨l, ?_⟩
      simp only [Kbd.step, hpc]
      refine ⟨h.holds.drop, ?_, nofun, nofun⟩
      rw [List.reduceOption_append, List.reduceOption_singleton, h.accepted_eq, List.append_assoc]
      rfl

theorem inv_runs (s : State) (acts : List Act) : ∃ l, Inv (runs (.start s) acts) l := by
  induction acts using List.reverseRecOn with
  | nil => exact ⟨[], .nil rfl (show 0 < 256 by decide), rfl, nofun, nofun⟩
  | append_singleton acts a ih =>
    obtain ⟨l, hl⟩ := ih
    rw [runs, List.foldl_append]
    exact hl.step a

/-- **The keys come out as they went in.** After any steps of the handler and the taker, what was
accepted is what was returned followed by what is waiting. A key is refused if 255 are waiting and
accepted otherwise; the test of `qizo_kbd_get` fails, and `qizo_kbd_ready` is zero, if none is; and
both indices are those of slots. -/
theorem keys_in_order (s : State) (acts : List Act) :
    ∃ waiting, (runs (.start s) acts).accepted =
        (runs (.start s) acts).returned.reduceOption ++ waiting ∧
      (∀ c, (step (runs (.start s) acts) (.push c)).accepted =
        (runs (.start s) acts).accepted ++ if waiting.length = 255 then [] else [c]) ∧
      ((runs (.start s) acts).pc = .idle →
        ((step (runs (.start s) acts) .get).returned =
          (runs (.start s) acts).returned ++ [none] ↔ waiting = [])) ∧
      (kbdGet (runs (.start s) acts).kbd).1 = waiting.head? ∧
      (kbdReady (runs (.start s) acts).kbd = false ↔ waiting = []) ∧
      (runs (.start s) acts).kbd.queue.head < 256 ∧
      (runs (.start s) acts).kbd.queue.tail < 256 := by
  obtain ⟨l, h⟩ := inv_runs s acts
  generalize runs (.start s) acts = w at h
  have hempty := h.holds.head_eq_tail_iff
  refine ⟨l, h.accepted_eq, fun c => ?_, fun hpc => ?_, ?_, ?_, h.holds.head_lt, h.holds.tail_lt⟩
  · have hlen : l.length < 256 := h.holds.length_lt
    by_cases hfull : l.length = 255
    · rw [h.push_of_full hfull, if_pos hfull, List.append_nil]
    · rw [(h.push_of_lt (by omega) c).2, if_neg hfull]
  · by_cases hl : w.kbd.queue.head = w.kbd.queue.tail
    · simp only [step, hpc, if_pos hl]
      exact ⟨fun _ => hempty.mp hl, fun _ => trivial⟩
    · simp only [step, hpc, if_neg hl]
      constructor
      · intro heq
        simp at heq
      · exact fun hnil => absurd (hempty.mpr hnil) hl
  · cases l with
    | nil => rw [kbdGet, if_pos (hempty.mpr rfl)]; rfl
    | cons c l =>
      rw [kbdGet, if_neg fun heq => List.cons_ne_nil c l (hempty.mp heq), h.holds.front]
      rfl
  · rw [kbdReady, bne_eq_false_iff_eq, hempty]

/-- **A call that is not interrupted** is `qizo_kbd_get`. -/
theorem runs_get (hpc : w.pc = .idle) :
    ∃ n, runs w (List.replicate n .get) =
      { w with kbd := (kbdGet w.kbd).2, returned := w.returned ++ [(kbdGet w.kbd).1] } := by
  obtain ⟨kbd, pc, accepted, returned⟩ := w
  obtain rfl : pc = .idle := hpc
  by_cases hempty : kbd.queue.head = kbd.queue.tail
  · refine ⟨1, ?_⟩
    simp only [List.replicate, runs, List.foldl_cons, List.foldl_nil, step, kbdGet, if_pos hempty]
  · refine ⟨3, ?_⟩
    simp only [List.replicate, runs, List.foldl_cons, List.foldl_nil, step, kbdGet, if_neg hempty]

end Kbd

end Qizo
