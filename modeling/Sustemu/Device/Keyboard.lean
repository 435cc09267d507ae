import Sustemu.Memory.Mmio
import Sustemu.Lib.Ring

/-!
# The keyboard

`keyboard.c`: a ring of `KEY_QUEUE_LEN` codes between `send_key` and the data
register of the i8042. One slot stays free, and the overflow is only noticed
after the write. As long as no more codes are unread than fit, the ring is a
first-in first-out queue.
-/

set_option autoImplicit false

namespace Sustemu

open Lib

def keydownMask : BitVec 32 := 0x8000

/-- `CONFIG_I8042_DATA_MMIO`. -/
def i8042DataMmio : Nat := 0xa0000060

def keyQueueLen : Nat := 1024

/-- `_KEY_NONE`. -/
def keyNone : BitVec 32 := 0

/-- The keys of `_KEYS`; their codes count from one. -/
abbrev Key := Fin 82

def Key.code (k : Key) : BitVec 32 := BitVec.ofNat 32 (k.val + 1)

/-- `init_keymap`, given the scancodes of the keys. -/
def initKeymap (sdlScancode : Key → BitVec 8) : BitVec 8 → BitVec 32 :=
  (List.finRange 82).foldl (fun keymap k => setAt keymap (sdlScancode k) (Key.code k)) fun _ => keyNone

structure Keyboard where
  keyQueue : Nat → BitVec 32
  keyF : Nat
  keyR : Nat

namespace Keyboard

def init : Keyboard := ⟨fun _ => 0, 0, 0⟩

/-- `key_enqueue`. The assertion comes after the write. -/
def keyEnqueue (k : Keyboard) (amScancode : BitVec 32) : Option Keyboard :=
  let r := (k.keyR + 1) % keyQueueLen
  if r ≠ k.keyF then some ⟨setAt k.keyQueue k.keyR amScancode, k.keyF, r⟩ else none

/-- `key_dequeue`. -/
def keyDequeue (k : Keyboard) : BitVec 32 × Keyboard :=
  if k.keyF ≠ k.keyR then (k.keyQueue k.keyF, { k with keyF := (k.keyF + 1) % keyQueueLen }) else (keyNone, k)

/-- The code that `send_key` queues, if it accepts the key. -/
def accepts (keymap : BitVec 8 → BitVec 32) (running : Bool) (scancode : BitVec 8) (isKeydown : Bool) : Option (BitVec 32) :=
  if running && keymap scancode != keyNone then some (keymap scancode ||| if isKeydown then keydownMask else 0) else none

/-- `send_key`; `running` is `state == NEMU_RUNNING`. -/
def sendKey (keymap : BitVec 8 → BitVec 32) (k : Keyboard) (running : Bool) (scancode : BitVec 8) (isKeydown : Bool) :
    Option Keyboard :=
  match accepts keymap running scancode isKeydown with
  | some amScancode => k.keyEnqueue amScancode
  | none => some k

end Keyboard

/-- `i8042_data_io_handler`, with the number of its space. -/
def i8042DataIoHandler (port : Nat) (offset _len : Nat) (isWrite : Bool) (s : IoState Keyboard) : Option (IoState Keyboard) :=
  if isWrite then none
  else if offset ≠ 0 then none
  else
    let (key, keyboard) := s.rest.keyDequeue
    some { s with
      space := setAt s.space port (storeLE (s.space port) 0 4 (key.setWidth 64))
      rest := keyboard }

/-- The window that `init_i8042` registers. -/
def keyboardMap (port : Nat) : IOMap Keyboard := ⟨i8042DataMmio, i8042DataMmio + 3, i8042DataIoHandler port⟩

/-- A guest reads the data register, a word of four bytes. -/
def readKey (port : Nat) (s : IoState Keyboard) : Option (Word × IoState Keyboard) :=
  Io.mapRead port (keyboardMap port) s i8042DataMmio 4

/-! ## The queue -/

/-- What happens to the keyboard. -/
inductive KeyEvent where
  | send (running : Bool) (scancode : BitVec 8) (isKeydown : Bool)
  | read

/-- The values read and the state after a sequence of events. -/
def runKeys (keymap : BitVec 8 → BitVec 32) (port : Nat) : List KeyEvent → IoState Keyboard → Option (List Word × IoState Keyboard)
  | [], s => some ([], s)
  | .send running scancode isKeydown :: rest, s => do
      let keyboard ← s.rest.sendKey keymap running scancode isKeydown
      runKeys keymap port rest { s with rest := keyboard }
  | .read :: rest, s => do
      let (value, s) ← readKey port s
      let (values, s) ← runKeys keymap port rest s
      return (value :: values, s)

section Specification

variable (keymap : BitVec 8 → BitVec 32)

/-- The codes accepted. -/
def accepted (events : List KeyEvent) : List (BitVec 32) :=
  events.filterMap fun event => match event with
    | .send running scancode isKeydown => Keyboard.accepts keymap running scancode isKeydown
    | .read => none

/-- The codes that are still to be read. -/
def unread (pending : List (BitVec 32)) : List KeyEvent → List (BitVec 32)
  | [] => pending
  | .send running scancode isKeydown :: rest =>
      unread (pending ++ (Keyboard.accepts keymap running scancode isKeydown).toList) rest
  | .read :: rest => unread pending.tail rest

end Specification

namespace Keyboard

/-- The ring holds the pending codes, oldest first. -/
structure Holds (k : Keyboard) (pending : List (BitVec 32)) : Prop where
  front : k.keyF < keyQueueLen
  rear : k.keyR = (k.keyF + pending.length) % keyQueueLen
  fits : pending.length < keyQueueLen
  content : queued keyQueueLen k.keyQueue k.keyF pending.length = pending

variable {k : Keyboard} {pending : List (BitVec 32)}

theorem init_holds : init.Holds [] := ⟨by decide, rfl, by decide, rfl⟩

theorem Holds.enqueue (holds : k.Holds pending) (room : pending.length + 1 < keyQueueLen) (code : BitVec 32) :
    ∃ k', k.keyEnqueue code = some k' ∧ k'.Holds (pending ++ [code]) := by
  have next : (k.keyR + 1) % keyQueueLen = (k.keyF + (pending.length + 1)) % keyQueueLen := by
    rw [holds.rear, Nat.mod_add_mod, Nat.add_assoc]
  have apart : (k.keyR + 1) % keyQueueLen ≠ k.keyF := by
    intro full
    rw [next] at full
    have same := ring_inj k.keyF room (Nat.zero_lt_of_lt room)
      (full.trans (by rw [Nat.add_zero, Nat.mod_eq_of_lt holds.front]))
    exact absurd same (Nat.succ_ne_zero _)
  unfold keyEnqueue
  rw [if_pos apart]
  refine ⟨_, rfl, holds.front, ?_, by simpa using room, ?_⟩
  · simpa using next
  · rw [List.length_append, List.length_singleton]
    dsimp only
    rw [holds.rear, queued_push holds.fits, holds.content]

theorem Holds.dequeue_nil (holds : k.Holds []) : k.keyDequeue = (keyNone, k) := by
  have same : k.keyR = k.keyF := holds.rear.trans (Nat.mod_eq_of_lt holds.front)
  unfold keyDequeue
  rw [if_neg (not_not.mpr same.symm)]

theorem Holds.dequeue_cons {code : BitVec 32} {rest : List (BitVec 32)} (holds : k.Holds (code :: rest)) :
    ∃ k', k.keyDequeue = (code, k') ∧ k'.Holds rest := by
  have content := holds.content
  have fits := holds.fits
  rw [List.length_cons] at fits
  rw [List.length_cons, queued_pop, Nat.mod_eq_of_lt holds.front, List.cons.injEq] at content
  have apart : k.keyF ≠ k.keyR := by
    intro empty
    rw [holds.rear, List.length_cons] at empty
    have same := ring_inj k.keyF fits (Nat.zero_lt_of_lt fits)
      (empty.symm.trans (by rw [Nat.add_zero, Nat.mod_eq_of_lt holds.front]))
    exact absurd same (Nat.succ_ne_zero _)
  unfold keyDequeue
  rw [if_pos apart, content.1]
  refine ⟨_, rfl, Nat.mod_lt _ (by decide), ?_, Nat.lt_of_succ_lt fits, content.2⟩
  rw [holds.rear, List.length_cons, Nat.mod_add_mod, Nat.add_comm rest.length, Nat.add_assoc]

theorem accepts_ne_none {keymap : BitVec 8 → BitVec 32} {running : Bool} {scancode : BitVec 8} {isKeydown : Bool}
    {code : BitVec 32} (taken : accepts keymap running scancode isKeydown = some code) : code ≠ keyNone := by
  unfold accepts at taken
  split at taken
  · next mapped =>
      rw [← Option.some.inj taken]
      intro zero
      have both := BitVec.or_eq_zero_iff.mp zero
      rw [both.1] at mapped
      simp [keyNone] at mapped
  · cases taken

end Keyboard

/-! ## The data register -/

variable {keymap : BitVec 8 → BitVec 32} {port : Nat} {s : IoState Keyboard} {pending : List (BitVec 32)}

theorem loadLE_storeLE_code (mem : ByteMem) (key : BitVec 32) : loadLE (storeLE mem 0 4 (key.setWidth 64)) 0 4 = key.setWidth 64 := by
  apply BitVec.eq_of_getLsbD_eq
  intro bit inside
  by_cases low : bit < 32
  · rw [getLsbD_loadLE_storeLE_covers mem _ ⟨Nat.le_refl 0, Nat.le_refl 4⟩ (by decide) low]
    simp
  · rw [getLsbD_loadLE _ _ _ _ (by decide), decide_eq_false low, Bool.false_and, BitVec.getLsbD_setWidth]
    simp [BitVec.getLsbD_of_ge key bit (Nat.le_of_not_lt low)]

theorem readKey_eq (port : Nat) (s : IoState Keyboard) : ∃ s', readKey port s = some (s.rest.keyDequeue.1.setWidth 64, s') ∧
    s'.rest = s.rest.keyDequeue.2 := by
  let after : IoState Keyboard := { s with
    space := setAt s.space port (storeLE (s.space port) 0 4 (s.rest.keyDequeue.1.setWidth 64))
    rest := s.rest.keyDequeue.2 }
  have value : hostRead (after.space port) 0 4 = s.rest.keyDequeue.1.setWidth 64 := by
    unfold hostRead after
    dsimp only
    rw [if_pos (by decide), setAt_self]
    exact loadLE_storeLE_code ..
  have called : i8042DataIoHandler port 0 4 false s = some after := rfl
  refine ⟨after, ?_, rfl⟩
  unfold readKey Io.mapRead keyboardMap
  dsimp only
  rw [Nat.sub_self, called, ← value]
  rfl

variable (port) in
/-- A read returns the oldest code, or nothing. -/
theorem readKey_holds (holds : s.rest.Holds pending) : ∃ s',
    readKey port s = some ((pending.head?.getD keyNone).setWidth 64, s') ∧ s'.rest.Holds pending.tail := by
  obtain ⟨s', read, rest⟩ := readKey_eq port s
  cases pending with
  | nil =>
      rw [holds.dequeue_nil] at read rest
      exact ⟨s', read, rest ▸ holds⟩
  | cons code pending =>
      obtain ⟨k, dequeued, kept⟩ := holds.dequeue_cons
      rw [dequeued] at read rest
      exact ⟨s', read, rest ▸ kept⟩

theorem setWidth_code_ne_zero {code : BitVec 32} (shown : code ≠ keyNone) : code.setWidth 64 ≠ 0 := by
  intro zero
  apply shown
  have narrow := congrArg (BitVec.setWidth 32) zero
  rwa [BitVec.setWidth_setWidth_of_le _ (by decide), BitVec.setWidth_eq] at narrow

/-! ## Sequences of events -/

theorem unread_append (keymap : BitVec 8 → BitVec 32) (pending : List (BitVec 32)) (before after : List KeyEvent) :
    unread keymap pending (before ++ after) = unread keymap (unread keymap pending before) after := by
  induction before generalizing pending with
  | nil => rfl
  | cons event before ih =>
      cases event with
      | send running scancode isKeydown => exact ih _
      | read => exact ih _

theorem length_unread_le (keymap : BitVec 8 → BitVec 32) (pending : List (BitVec 32)) (events : List KeyEvent) :
    (unread keymap pending events).length ≤ pending.length + events.length := by
  induction events generalizing pending with
  | nil => exact Nat.le_refl _
  | cons event rest ih =>
      rw [List.length_cons]
      cases event with
      | send running scancode isKeydown =>
          have queued := ih (pending ++ (Keyboard.accepts keymap running scancode isKeydown).toList)
          have single : (Keyboard.accepts keymap running scancode isKeydown).toList.length ≤ 1 := by
            cases Keyboard.accepts keymap running scancode isKeydown <;> simp
          rw [List.length_append] at queued
          exact queued.trans (by omega)
      | read =>
          have shorter := ih pending.tail
          rw [List.length_tail] at shorter
          exact shorter.trans (by omega)

variable (keymap) in
theorem unread_ne_none (events : List KeyEvent) (codes : ∀ code ∈ pending, code ≠ keyNone) :
    ∀ code ∈ unread keymap pending events, code ≠ keyNone := by
  induction events generalizing pending with
  | nil => exact codes
  | cons event rest ih =>
      cases event with
      | send running scancode isKeydown =>
          apply ih
          intro code member
          rcases List.mem_append.mp member with old | new
          · exact codes code old
          · exact Keyboard.accepts_ne_none (Option.mem_toList.mp new)
      | read => exact ih fun code member => codes code (List.mem_of_mem_tail member)

variable (port) in
/-- The codes that reads returned and those still unread are those that were pending and those accepted since. -/
theorem runKeys_holds (events : List KeyEvent) (holds : s.rest.Holds pending) (codes : ∀ code ∈ pending, code ≠ keyNone)
    (room : ∀ before, before <+: events → (unread keymap pending before).length ≤ 1023) :
    ∃ values s', runKeys keymap port events s = some (values, s') ∧ s'.rest.Holds (unread keymap pending events) ∧
      values.filter (· ≠ 0) ++ (unread keymap pending events).map (BitVec.setWidth 64) =
        (pending ++ accepted keymap events).map (BitVec.setWidth 64) := by
  induction events generalizing s pending with
  | nil => exact ⟨[], s, rfl, holds, by simp [unread, accepted]⟩
  | cons event rest ih =>
      have later : ∀ before, before <+: rest → (unread keymap (unread keymap pending [event]) before).length ≤ 1023 := by
        intro before prior
        rw [← unread_append]
        exact room _ ((List.prefix_cons_inj event).mpr prior)
      cases event with
      | send running scancode isKeydown =>
          unfold runKeys Keyboard.sendKey
          have fits := room [.send running scancode isKeydown] (by simp)
          unfold accepted
          rw [List.filterMap_cons]
          simp only [unread] at later fits ⊢
          cases taken : Keyboard.accepts keymap running scancode isKeydown with
          | none =>
              simp only [taken, Option.toList_none, List.append_nil] at later ⊢
              exact ih holds codes later
          | some code =>
              simp only [taken, Option.toList_some, List.length_append, List.length_singleton] at later fits ⊢
              obtain ⟨keyboard, queued, after⟩ := holds.enqueue (Nat.lt_succ_of_le fits) code
              have next : ∀ other ∈ pending ++ [code], other ≠ keyNone := by
                intro other member
                rcases List.mem_append.mp member with old | new
                · exact codes other old
                · rw [List.mem_singleton.mp new]
                  exact Keyboard.accepts_ne_none taken
              obtain ⟨values, s', ran, final, sequence⟩ := ih (s := { s with rest := keyboard }) after next later
              refine ⟨values, s', ?_, final, ?_⟩
              · rw [queued]
                exact ran
              · rw [sequence, List.append_assoc]
                rfl
      | read =>
          unfold runKeys
          obtain ⟨s₁, read, after⟩ := readKey_holds port holds
          have next : ∀ other ∈ pending.tail, other ≠ keyNone := fun other member => codes other (List.mem_of_mem_tail member)
          obtain ⟨values, s', ran, final, sequence⟩ := ih after next later
          refine ⟨(pending.head?.getD keyNone).setWidth 64 :: values, s', ?_, final, ?_⟩
          · rw [read]
            simp only [Option.bind_eq_bind, Option.bind_some, ran]
            rfl
          · cases pending with
            | nil => exact sequence
            | cons code pending =>
                have shown : code.setWidth 64 ≠ 0 := setWidth_code_ne_zero (codes code List.mem_cons_self)
                rw [List.head?_cons, Option.getD_some, List.filter_cons_of_pos (by simpa using shown)]
                exact congrArg (List.cons _) sequence

/-! ## The keyboard of the emulator -/

/-- As long as at most 1023 codes are unread, no code is lost, repeated or overtaken. -/
theorem keyboard_fifo (sdlScancode : Key → BitVec 8) (port : Nat) (s₀ : IoState Keyboard) (events : List KeyEvent)
    (fresh : s₀.rest = Keyboard.init)
    (room : ∀ before, before <+: events → (unread (initKeymap sdlScancode) [] before).length ≤ 1023) :
    ∃ values s, runKeys (initKeymap sdlScancode) port events s₀ = some (values, s) ∧
      values.filter (· ≠ 0) ++ (unread (initKeymap sdlScancode) [] events).map (BitVec.setWidth 64) =
        (accepted (initKeymap sdlScancode) events).map (BitVec.setWidth 64) ∧
      ∃ key s', readKey port s = some (key, s') ∧ (key = 0 ↔ unread (initKeymap sdlScancode) [] events = []) := by
  have empty : s₀.rest.Holds [] := fresh ▸ Keyboard.init_holds
  obtain ⟨values, s, ran, holds, sequence⟩ := runKeys_holds port events empty (by simp) room
  obtain ⟨s', read, -⟩ := readKey_holds port holds
  refine ⟨values, s, ran, sequence, _, s', read, ?_⟩
  have codes : ∀ code ∈ unread (initKeymap sdlScancode) [] events, code ≠ keyNone :=
    unread_ne_none (initKeymap sdlScancode) events (by simp)
  cases left : unread (initKeymap sdlScancode) [] events with
  | nil => simp [keyNone]
  | cons code rest =>
      rw [left] at codes
      have shown := setWidth_code_ne_zero (codes code List.mem_cons_self)
      simpa using shown

/-- The scancodes of SDL, in the order of `_KEYS`. -/
def sdlScancodes (k : Key) : BitVec 8 := [
  41, 58, 59, 60, 61, 62, 63, 64, 65, 66, 67, 68, 69,
  53, 30, 31, 32, 33, 34, 35, 36, 37, 38, 39, 45, 46, 42,
  43, 20, 26, 8, 21, 23, 28, 24, 12, 18, 19, 47, 48, 49,
  57, 4, 22, 7, 9, 10, 11, 13, 14, 15, 51, 52, 40,
  225, 29, 27, 6, 25, 5, 17, 16, 54, 55, 56, 229,
  224, 101, 226, 44, 230, 228,
  82, 81, 80, 79, 73, 76, 74, 77, 75, 78].getD k.val 0

/-- The key A is pressed and released, and the guest reads three times. -/
def typedKey : List KeyEvent := [.send true 4 true, .send true 4 false, .read, .read, .read]

theorem keyboard_fifo_typed : ∃ values s, runKeys (initKeymap sdlScancodes) 0 typedKey
    ⟨fun _ _ => 0, fun _ => 0, Keyboard.init⟩ = some (values, s) ∧ values.filter (· ≠ 0) = [0x802b, 0x2b] := by
  have short : ∀ before, before <+: typedKey → (unread (initKeymap sdlScancodes) [] before).length ≤ 1023 := by
    intro before prior
    have bound := length_unread_le (initKeymap sdlScancodes) [] before
    exact bound.trans (Nat.le_trans (Nat.add_le_add_left prior.length_le _) (by decide))
  obtain ⟨values, s, ran, sequence, -⟩ := keyboard_fifo sdlScancodes 0 ⟨fun _ _ => 0, fun _ => 0, Keyboard.init⟩ typedKey rfl short
  refine ⟨values, s, ran, ?_⟩
  have codes : accepted (initKeymap sdlScancodes) typedKey = [0x802b, 0x2b] := by decide +kernel
  have none_left : unread (initKeymap sdlScancodes) [] typedKey = [] := by decide +kernel
  rw [none_left, codes, List.map_nil, List.append_nil] at sequence
  exact sequence

end Sustemu
