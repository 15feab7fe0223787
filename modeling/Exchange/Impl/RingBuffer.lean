import Exchange.Impl.Types

/-!
# The ring between two threads

`ring_buffer.hpp`, one memory access at a time: the pusher and the popper are each a
program counter with the locals of `push` and `pop`, and a step of either makes its next
load, store or slot access, in any order the schedule gives (`SharedRing.run`). What a call
returns, it returns with its last access. An access outside of `buffer` is undefined
(`none`).
-/

namespace Exchange

structure RingBuffer (T : Type) where
  writeIdx : UInt64 := 0
  cachedReadIdx : UInt64 := 0
  readIdx : UInt64 := 0
  cachedWriteIdx : UInt64 := 0
  buffer : List T
  mask : UInt32

namespace RingBuffer

variable {T : Type}

/-- `RingBuffer::RingBuffer`; `none` if the assertion fails. -/
def new [Inhabited T] (N : UInt32) : Option (RingBuffer T) :=
  if N &&& (N - 1) = 0 then some { buffer := List.replicate N.toNat default, mask := N - 1 } else none

/-- `(idx + 1) & mask`. -/
def next (ring : RingBuffer T) (idx : UInt64) : UInt64 := (idx + 1) &&& ring.mask.toUInt64

/-- `RingBuffer::size`. -/
def size (ring : RingBuffer T) : UInt64 :=
  if ring.writeIdx ≥ ring.readIdx then ring.writeIdx - ring.readIdx
  else (ring.mask + 1).toUInt64 + (ring.writeIdx - ring.readIdx)

/-- `buffer[idx] = item`. -/
def store (ring : RingBuffer T) (idx : UInt64) (item : T) : Option (RingBuffer T) :=
  if idx.toNat < ring.buffer.length then some { ring with buffer := ring.buffer.set idx.toNat item } else none

end RingBuffer

/-- Where the pushing thread is in `RingBuffer::push`. -/
inductive PushPc (T : Type)
  /-- Not in a call. -/
  | idle
  /-- About to load `write_idx_`. -/
  | call (item : T)
  /-- About to load `cached_read_idx_`. -/
  | compare (item : T) (writeIdx : UInt64)
  /-- About to load `read_idx_`. -/
  | reread (item : T) (writeIdx : UInt64)
  /-- About to store `cached_read_idx_`. -/
  | cache (item : T) (writeIdx readIdx : UInt64)
  /-- About to load `cached_read_idx_` again. -/
  | recheck (item : T) (writeIdx : UInt64)
  /-- About to write the slot. -/
  | write (item : T) (writeIdx : UInt64)
  /-- About to store `write_idx_`. -/
  | publish (item : T) (writeIdx : UInt64)

/-- Where the popping thread is in `RingBuffer::pop`. -/
inductive PopPc (T : Type)
  /-- Not in a call. -/
  | idle
  /-- About to load `read_idx_`. -/
  | call
  /-- About to load `cached_write_idx_`. -/
  | compare (readIdx : UInt64)
  /-- About to load `write_idx_`. -/
  | reread (readIdx : UInt64)
  /-- About to store `cached_write_idx_`. -/
  | cache (readIdx writeIdx : UInt64)
  /-- About to load `cached_write_idx_` again. -/
  | recheck (readIdx : UInt64)
  /-- About to move out of the slot. -/
  | take (readIdx : UInt64)
  /-- About to store `read_idx_`. -/
  | publish (readIdx : UInt64) (item : T)

/-- What the calls returned so far. -/
structure RingHistory (T : Type) where
  /-- The items whose `push` returned true. -/
  pushed : List T := []
  /-- The items `pop` returned. -/
  popped : List T := []
  /-- How many items were held when `push` last loaded `read_idx_`. -/
  pushReread : ℕ := 0
  /-- How many were held when `pop` last loaded `write_idx_`. -/
  popReread : ℕ := 0
  /-- For each `push` that returned false, how many items it saw held. -/
  refused : List ℕ := []
  /-- For each `pop` that returned `nullopt`, how many items it saw held. -/
  empty : List ℕ := []

/-- A ring, the two threads that use it and what they did. -/
structure SharedRing (T : Type) where
  ring : RingBuffer T
  pusher : PushPc T := .idle
  popper : PopPc T := .idle
  history : RingHistory T := {}

/-- What happens next. -/
inductive RingAction (T : Type)
  | push (item : T)
  | pop
  | pusher
  | popper

namespace RingHistory

variable {T : Type}

/-- How many items the ring holds: pushed and not popped. -/
def held (h : RingHistory T) : ℕ := h.pushed.length - h.popped.length

end RingHistory

namespace SharedRing

variable {T : Type}

def new [Inhabited T] (N : UInt32) : Option (SharedRing T) := do
  let ring ← RingBuffer.new N
  some { ring := ring }

/-- The next access of `RingBuffer::push`. -/
def pusherStep (s : SharedRing T) : Option (SharedRing T) :=
  match s.pusher with
  | .idle => some s
  | .call item => some { s with pusher := .compare item s.ring.writeIdx }
  | .compare item writeIdx =>
    if s.ring.next writeIdx = s.ring.cachedReadIdx then some { s with pusher := .reread item writeIdx }
    else some { s with pusher := .write item writeIdx }
  | .reread item writeIdx =>
    some { s with
      pusher := .cache item writeIdx s.ring.readIdx
      history := { s.history with pushReread := s.history.held } }
  | .cache item writeIdx readIdx =>
    some { s with ring := { s.ring with cachedReadIdx := readIdx }, pusher := .recheck item writeIdx }
  | .recheck item writeIdx =>
    if s.ring.next writeIdx = s.ring.cachedReadIdx then
      some { s with
        pusher := .idle
        history := { s.history with refused := s.history.refused ++ [s.history.pushReread] } }
    else some { s with pusher := .write item writeIdx }
  | .write item writeIdx => do
    let ring ← s.ring.store writeIdx item
    some { s with ring := ring, pusher := .publish item writeIdx }
  | .publish item writeIdx =>
    some { s with
      ring := { s.ring with writeIdx := s.ring.next writeIdx }
      pusher := .idle
      history := { s.history with pushed := s.history.pushed ++ [item] } }

/-- The next access of `RingBuffer::pop`; `moved` is what moving out of a slot leaves there. -/
def popperStep (moved : T → T) (s : SharedRing T) : Option (SharedRing T) :=
  match s.popper with
  | .idle => some s
  | .call => some { s with popper := .compare s.ring.readIdx }
  | .compare readIdx =>
    if readIdx = s.ring.cachedWriteIdx then some { s with popper := .reread readIdx }
    else some { s with popper := .take readIdx }
  | .reread readIdx =>
    some { s with
      popper := .cache readIdx s.ring.writeIdx
      history := { s.history with popReread := s.history.held } }
  | .cache readIdx writeIdx =>
    some { s with ring := { s.ring with cachedWriteIdx := writeIdx }, popper := .recheck readIdx }
  | .recheck readIdx =>
    if readIdx = s.ring.cachedWriteIdx then
      some { s with
        popper := .idle
        history := { s.history with empty := s.history.empty ++ [s.history.popReread] } }
    else some { s with popper := .take readIdx }
  | .take readIdx => do
    let item ← s.ring.buffer[readIdx.toNat]?
    let ring ← s.ring.store readIdx (moved item)
    some { s with ring := ring, popper := .publish readIdx item }
  | .publish readIdx item =>
    some { s with
      ring := { s.ring with readIdx := s.ring.next readIdx }
      popper := .idle
      history := { s.history with popped := s.history.popped ++ [item] } }

/-- A thread that is in a call makes no other one. -/
def step (moved : T → T) (s : SharedRing T) : RingAction T → Option (SharedRing T)
  | .push item =>
    match s.pusher with
    | .idle => some { s with pusher := .call item }
    | _ => some s
  | .pop =>
    match s.popper with
    | .idle => some { s with popper := .call }
    | _ => some s
  | .pusher => s.pusherStep
  | .popper => s.popperStep moved

/-- The accesses of the two threads, in the order `schedule` gives. -/
def run (moved : T → T) (s : SharedRing T) (schedule : List (RingAction T)) : Option (SharedRing T) :=
  schedule.foldlM (step moved) s

end SharedRing

end Exchange
