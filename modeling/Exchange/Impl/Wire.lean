import Mathlib.Algebra.Ring.Nat

/-!
# Wire fields

`wire_codec.hpp`. Every field has a fixed width: an integer is big-endian at its own
width, an array is its bytes. A message lists its fields once, and `WireSizer`,
`WireWriter` and `WireReader` go through that list: a field of a message is a `Hook`.
-/

namespace Exchange

/-- The low `w` bytes of `v`, big-endian. -/
def bigEndian : ℕ → ℕ → List UInt8
  | 0, _ => []
  | w + 1, v => UInt8.ofNat (v >>> (8 * w)) :: bigEndian w v

@[simp] theorem length_bigEndian (w v : ℕ) : (bigEndian w v).length = w := by
  induction w with
  | zero => rfl
  | succ w ih => rw [bigEndian, List.length_cons, ih]

/-- `WireReader::load`: the integer whose big-endian bytes are given. -/
def ofBigEndian (bytes : List UInt8) : ℕ := bytes.foldl (fun v b => v * 256 + b.toNat) 0

/-- `WireField`: a type with a width on the wire. -/
class WireField (α : Type) where
  /-- `wire_size_v`. -/
  size : ℕ
  bytes : α → List UInt8
  ofBytes : List UInt8 → α
  length_bytes : ∀ v, (bytes v).length = size

namespace WireField

attribute [simp] length_bytes

instance : WireField UInt8 := ⟨1, fun v => [v], fun bs => UInt8.ofNat (ofBigEndian bs), fun _ => rfl⟩

instance : WireField UInt16 :=
  ⟨2, fun v => bigEndian 2 v.toNat, fun bs => UInt16.ofNat (ofBigEndian bs), fun _ => length_bigEndian _ _⟩

instance : WireField UInt32 :=
  ⟨4, fun v => bigEndian 4 v.toNat, fun bs => UInt32.ofNat (ofBigEndian bs), fun _ => length_bigEndian _ _⟩

instance : WireField Int32 :=
  ⟨4, fun v => bigEndian 4 v.toUInt32.toNat, fun bs => (UInt32.ofNat (ofBigEndian bs)).toInt32,
    fun _ => length_bigEndian _ _⟩

instance : WireField UInt64 :=
  ⟨8, fun v => bigEndian 8 v.toNat, fun bs => UInt64.ofNat (ofBigEndian bs), fun _ => length_bigEndian _ _⟩

instance {n : ℕ} : WireField (Vector UInt8 n) :=
  ⟨n, Vector.toList, fun bs => Vector.ofFn fun i => bs.getD i 0, fun v => by simp⟩

end WireField

/-- The bytes of a field. -/
def field {α : Type} [WireField α] (v : α) : List UInt8 := WireField.bytes v

@[simp] theorem length_field {α : Type} [WireField α] (v : α) : (field v).length = WireField.size α :=
  WireField.length_bytes v

/-- A field of a message struct, as an IO object meets it. -/
structure Hook (M : Type) where
  size : ℕ
  get : M → List UInt8
  set : M → List UInt8 → M
  length_get : ∀ m, (get m).length = size

/-- The field that `get` reads and `set` writes. -/
def hook {M α : Type} [WireField α] (get : M → α) (set : M → α → M) : Hook M where
  size := WireField.size α
  get m := field (get m)
  set m bytes := set m (WireField.ofBytes bytes)
  length_get m := length_field (get m)

/-- `WireSizer` over the fields. -/
def wireSize (fields : List (List UInt8)) : ℕ := (fields.map List.length).sum

/-- `WireWriter` over a buffer of `room` bytes: what it has written, and whether
everything fit so far. -/
structure WireWriter where
  room : ℕ
  written : List UInt8 := []
  ok : Bool := true

namespace WireWriter

/-- `operator()`, of a field's bytes. -/
def put (w : WireWriter) (bytes : List UInt8) : WireWriter :=
  if !w.ok || w.room - w.written.length < bytes.length then { w with ok := false }
  else { w with written := w.written ++ bytes }

def puts (w : WireWriter) (fields : List (List UInt8)) : WireWriter := fields.foldl put w

/-- What fits is written. -/
theorem put_eq {w : WireWriter} {bytes : List UInt8} (hok : w.ok = true)
    (h : w.written.length + bytes.length ≤ w.room) : w.put bytes = ⟨w.room, w.written ++ bytes, true⟩ := by
  have hlt : ¬ w.room - w.written.length < bytes.length := by omega
  simp only [put, hok, Bool.not_true, Bool.false_or, decide_eq_true_eq, if_neg hlt]

theorem puts_eq {w : WireWriter} {fields : List (List UInt8)} (hok : w.ok = true)
    (h : w.written.length + wireSize fields ≤ w.room) :
    w.puts fields = ⟨w.room, w.written ++ fields.flatten, true⟩ := by
  induction fields generalizing w with
  | nil =>
    obtain ⟨room, written, ok⟩ := w
    obtain rfl : ok = true := hok
    simp [puts]
  | cons bytes fields ih =>
    simp only [wireSize, List.map_cons, List.sum_cons] at h
    have hput : w.put bytes = ⟨w.room, w.written ++ bytes, true⟩ := put_eq hok (by omega)
    have := ih (w := ⟨w.room, w.written ++ bytes, true⟩) rfl
      (by simp only [List.length_append, wireSize]; omega)
    rw [puts, List.foldl_cons, hput]
    rw [puts] at this
    rw [this, List.flatten_cons, List.append_assoc]

end WireWriter

/-- `WireReader` over the fields: the message and the bytes left, none once a field is
missing bytes. -/
def readFields {M : Type} : List (Hook M) → M → List UInt8 → Option (M × List UInt8)
  | [], msg, bytes => some (msg, bytes)
  | h :: hooks, msg, bytes =>
    if bytes.length < h.size then none else readFields hooks (h.set msg (bytes.take h.size)) (bytes.drop h.size)

theorem length_flatten_eq_wireSize (fields : List (List UInt8)) : fields.flatten.length = wireSize fields :=
  List.length_flatten

end Exchange
