import Mathlib.Data.Nat.Notation

/-!
# The session log

`session_log.hpp`: a ring of the last bytes of a session's stream of Sequenced Data
packets. Offsets are positions in the whole stream.
-/

namespace Exchange

/-- `SessionLog`. -/
structure SessionLog where
  capacity : ℕ
  indexCapacity : ℕ
  bytes : ℕ → UInt8 := fun _ => 0
  index : ℕ → ℕ := fun _ => 0
  firstSeq : ℕ := 1
  nextSeq : ℕ := 1
  endOffset : ℕ := 0

namespace SessionLog

/-- `kBytesPerIndexEntry`. -/
def bytesPerIndexEntry : ℕ := 32

/-- The constructor. -/
def new (capacityBytes : ℕ) : SessionLog where
  capacity := capacityBytes
  indexCapacity := capacityBytes / bytesPerIndexEntry

/-- The slot of sequence number `seq` in the index. -/
def slot (l : SessionLog) (seq : ℕ) : ℕ := seq &&& (l.indexCapacity - 1)

/-- The place of stream offset `offset` in the ring. -/
def place (l : SessionLog) (offset : ℕ) : ℕ := offset &&& (l.capacity - 1)

/-- `SessionLog::offset_of`. -/
def offsetOf (l : SessionLog) (seq : ℕ) : Option ℕ :=
  if seq < l.firstSeq ∨ seq > l.nextSeq then none
  else if seq = l.nextSeq then some l.endOffset
  else some (l.index (l.slot seq))

/-- `SessionLog::would_overwrite`. -/
def wouldOverwrite (l : SessionLog) (offset len : ℕ) : Bool := l.endOffset + len - offset > l.capacity

/-- The loop of `SessionLog::append` that drops the oldest messages, from message
`first` on; `fuel` is at least the number of messages held. -/
def dropOldest (l : SessionLog) (len : ℕ) : ℕ → ℕ → ℕ
  | 0, first => first
  | fuel + 1, first =>
    if first < l.nextSeq ∧
        (l.endOffset + len - l.index (l.slot first) > l.capacity ∨ l.nextSeq - first ≥ l.indexCapacity) then
      l.dropOldest len fuel (first + 1)
    else first

/-- `memcpy` of `data` to place `i` of the ring. -/
def copyTo (bytes : ℕ → UInt8) (i : ℕ) (data : List UInt8) : ℕ → UInt8 :=
  fun j => if i ≤ j ∧ j < i + data.length then data.getD (j - i) 0 else bytes j

/-- `SessionLog::append`, of a packet smaller than the capacity. -/
def append (l : SessionLog) (packet : List UInt8) : SessionLog :=
  let first := l.dropOldest packet.length (l.nextSeq - l.firstSeq) l.firstSeq
  let i := l.place l.endOffset
  let n := min packet.length (l.capacity - i)
  { l with
    firstSeq := first
    index := fun k => if k = l.slot l.nextSeq then l.endOffset else l.index k
    bytes := copyTo (copyTo l.bytes i (packet.take n)) 0 (packet.drop n)
    endOffset := l.endOffset + packet.length
    nextSeq := l.nextSeq + 1 }

/-- `SessionLog::contiguous_from`. -/
def contiguousFrom (l : SessionLog) (offset : ℕ) : List UInt8 :=
  let i := l.place offset
  let len := min (l.endOffset - offset) (l.capacity - i)
  (List.range len).map fun k => l.bytes (i + k)

end SessionLog

end Exchange
