import Exchange.Framework.Record
import Exchange.Impl.Wire
import Mathlib.Tactic.Ring

/-!
# Fields on the wire

Integers and arrays are read back from their bytes, and every string of bytes of the right
width is the bytes of one value (`LawfulWireField`). So what `WireReader` leaves in a
message, field by field, is the bytes it has read (`readFields_spec`).
-/

namespace Exchange

/-! ## Integers -/

theorem foldl_bigEndian (w v a : ℕ) :
    (bigEndian w v).foldl (fun v b => v * 256 + b.toNat) a = a * 256 ^ w + v % 256 ^ w := by
  induction w generalizing a with
  | zero => rw [bigEndian, List.foldl_nil, Nat.pow_zero, Nat.mod_one, Nat.mul_one, Nat.add_zero]
  | succ w ih =>
    have hpow : (2 : ℕ) ^ (8 * w) = 256 ^ w := by rw [Nat.pow_mul]
    have hsplit : v % 256 ^ (w + 1) = v % 256 ^ w + 256 ^ w * (v / 256 ^ w % 256) := by rw [Nat.pow_succ, Nat.mod_mul]
    rw [bigEndian, List.foldl_cons, ih, UInt8.toNat_ofNat', Nat.shiftRight_eq_div_pow, hpow, hsplit]
    ring

/-- An integer is read back from its low bytes. -/
theorem ofBigEndian_bigEndian (w v : ℕ) : ofBigEndian (bigEndian w v) = v % 256 ^ w := by
  rw [ofBigEndian, foldl_bigEndian, Nat.zero_mul, Nat.zero_add]

theorem bigEndian_mod (w v : ℕ) : bigEndian w (v % 256 ^ w) = bigEndian w v := by
  suffices ∀ k, w ≤ k → bigEndian w (v % 256 ^ k) = bigEndian w v from this w (Nat.le_refl w)
  intro k hk
  induction w with
  | zero => rfl
  | succ w ih =>
    have hpow : (2 : ℕ) ^ (8 * w) = 256 ^ w := by rw [Nat.pow_mul]
    have hsplit : 256 ^ k = 256 ^ w * (256 * 256 ^ (k - w - 1)) := by
      rw [← Nat.pow_succ', ← Nat.pow_add]
      congr 1
      omega
    have hbyte : UInt8.ofNat ((v % 256 ^ k) >>> (8 * w)) = UInt8.ofNat (v >>> (8 * w)) := by
      refine UInt8.toNat_inj.mp ?_
      rw [UInt8.toNat_ofNat', UInt8.toNat_ofNat', Nat.shiftRight_eq_div_pow, Nat.shiftRight_eq_div_pow, hpow, hsplit,
        Nat.mod_mul_right_div_self, Nat.mod_mul_right_mod]
    rw [bigEndian, bigEndian, hbyte, ih (by omega)]

theorem foldl_ofBigEndian (bytes : List UInt8) (a : ℕ) :
    bytes.foldl (fun v b => v * 256 + b.toNat) a = a * 256 ^ bytes.length + ofBigEndian bytes := by
  rw [ofBigEndian]
  induction bytes generalizing a with
  | nil => simp
  | cons b bytes ih =>
    rw [List.foldl_cons, List.foldl_cons, ih, ih (0 * 256 + b.toNat), List.length_cons]
    ring

theorem ofBigEndian_cons (b : UInt8) (bytes : List UInt8) :
    ofBigEndian (b :: bytes) = b.toNat * 256 ^ bytes.length + ofBigEndian bytes := by
  rw [ofBigEndian, List.foldl_cons, foldl_ofBigEndian, Nat.zero_mul, Nat.zero_add]

theorem ofBigEndian_lt (bytes : List UInt8) : ofBigEndian bytes < 256 ^ bytes.length := by
  induction bytes with
  | nil => exact Nat.one_pos
  | cons b bytes ih =>
    have hb : b.toNat + 1 ≤ 256 := b.toNat_lt
    have := Nat.mul_le_mul_right (256 ^ bytes.length) hb
    rw [ofBigEndian_cons, List.length_cons, Nat.pow_succ]
    rw [Nat.add_mul, Nat.one_mul] at this
    omega

/-- Bytes are the integer they are read as. -/
theorem bigEndian_ofBigEndian (bytes : List UInt8) : bigEndian bytes.length (ofBigEndian bytes) = bytes := by
  induction bytes with
  | nil => rfl
  | cons b bytes ih =>
    have hpow : (2 : ℕ) ^ (8 * bytes.length) = 256 ^ bytes.length := by rw [Nat.pow_mul]
    have hpos : 0 < 256 ^ bytes.length := Nat.pow_pos (by decide)
    have hhigh : UInt8.ofNat (ofBigEndian (b :: bytes) >>> (8 * bytes.length)) = b := by
      rw [Nat.shiftRight_eq_div_pow, hpow, ofBigEndian_cons, Nat.mul_comm, Nat.mul_add_div hpos,
        Nat.div_eq_of_lt (ofBigEndian_lt bytes), Nat.add_zero, UInt8.ofNat_toNat]
    have hlow : bigEndian bytes.length (ofBigEndian (b :: bytes)) = bytes := by
      rw [← bigEndian_mod, ofBigEndian_cons, Nat.mul_add_mod_self_right, Nat.mod_eq_of_lt (ofBigEndian_lt bytes), ih]
    rw [List.length_cons, bigEndian, hhigh, hlow]

theorem bigEndian_of_length {bytes : List UInt8} {w : ℕ} (h : bytes.length = w) :
    bigEndian w (ofBigEndian bytes) = bytes := h ▸ bigEndian_ofBigEndian bytes

/-! ## Writing -/

namespace WireWriter

theorem puts_append (w : WireWriter) (fields fields' : List (List UInt8)) :
    w.puts (fields ++ fields') = (w.puts fields).puts fields' := List.foldl_append

/-- A writer that has run out of room stays so. -/
theorem puts_of_not_ok {w : WireWriter} (h : w.ok = false) (fields : List (List UInt8)) : (w.puts fields).ok = false := by
  induction fields generalizing w with
  | nil => exact h
  | cons bytes fields ih => exact ih (by simp [put, h])

/-- What does not fit is not written. -/
theorem puts_overflow {w : WireWriter} (hok : w.ok = true) (hle : w.written.length ≤ w.room)
    {fields : List (List UInt8)} (h : w.room < w.written.length + wireSize fields) : (w.puts fields).ok = false := by
  induction fields generalizing w with
  | nil =>
    simp only [wireSize, List.map_nil, List.sum_nil] at h
    omega
  | cons bytes fields ih =>
    rw [puts, List.foldl_cons, ← puts]
    by_cases hfits : w.written.length + bytes.length ≤ w.room
    · rw [put_eq hok hfits]
      refine ih rfl (by rw [List.length_append]; exact hfits) ?_
      simp only [wireSize, List.map_cons, List.sum_cons] at h
      simp only [List.length_append, wireSize]
      omega
    · have hlt : w.room - w.written.length < bytes.length := by omega
      exact puts_of_not_ok (by simp [put, hlt]) fields

end WireWriter

/-! ## Fields -/

/-- Values are read back from their bytes, and all bytes of the right width are a value's. -/
class LawfulWireField (α : Type) [WireField α] : Prop where
  ofBytes_bytes : ∀ v : α, WireField.ofBytes (WireField.bytes v) = v
  bytes_ofBytes : ∀ b, b.length = WireField.size α → WireField.bytes (WireField.ofBytes b : α) = b

namespace LawfulWireField

/-- The integers of `w` bytes. -/
theorem ofInteger {α : Type} [WireField α] {w : ℕ} {toNat : α → ℕ} {ofNat : ℕ → α}
    (hsize : WireField.size α = w) (hbytes : ∀ v : α, WireField.bytes v = bigEndian w (toNat v))
    (hofBytes : ∀ b, (WireField.ofBytes b : α) = ofNat (ofBigEndian b)) (hlt : ∀ v, toNat v < 256 ^ w)
    (hofNat : ∀ v, ofNat (toNat v) = v) (htoNat : ∀ n < 256 ^ w, toNat (ofNat n) = n) : LawfulWireField α where
  ofBytes_bytes v := by rw [hofBytes, hbytes, ofBigEndian_bigEndian, Nat.mod_eq_of_lt (hlt v), hofNat]
  bytes_ofBytes b h := by
    have hb : b.length = w := h.trans hsize
    rw [hbytes, hofBytes, htoNat _ (hb ▸ ofBigEndian_lt b), bigEndian_of_length hb]

instance : LawfulWireField UInt8 :=
  ofInteger rfl (fun _ => congrArg (fun x => [x]) UInt8.ofNat_toNat.symm) (fun _ => rfl) (fun v => v.toNat_lt)
    (fun _ => UInt8.ofNat_toNat) fun _ => UInt8.toNat_ofNat_of_lt'

instance : LawfulWireField UInt16 :=
  ofInteger rfl (fun _ => rfl) (fun _ => rfl) (fun v => v.toNat_lt) (fun _ => UInt16.ofNat_toNat)
    fun _ => UInt16.toNat_ofNat_of_lt'

instance : LawfulWireField UInt32 :=
  ofInteger rfl (fun _ => rfl) (fun _ => rfl) (fun v => v.toNat_lt) (fun _ => UInt32.ofNat_toNat)
    fun _ => UInt32.toNat_ofNat_of_lt'

instance : LawfulWireField Int32 where
  ofBytes_bytes v := congrArg UInt32.toInt32 (ofBytes_bytes v.toUInt32)
  bytes_ofBytes b h := bytes_ofBytes (α := UInt32) b h

instance : LawfulWireField UInt64 :=
  ofInteger rfl (fun _ => rfl) (fun _ => rfl) (fun v => v.toNat_lt) (fun _ => UInt64.ofNat_toNat)
    fun _ => UInt64.toNat_ofNat_of_lt'

instance {n : ℕ} : LawfulWireField (Vector UInt8 n) where
  ofBytes_bytes v := by
    refine Vector.ext fun i hi => ?_
    show (Vector.ofFn fun i => v.toList.getD i 0)[i] = v[i]
    rw [Vector.getElem_ofFn]
    simp [List.getD_eq_getElem?_getD, hi]
  bytes_ofBytes b h := by
    refine List.ext_getElem (by simpa [WireField.bytes, WireField.size] using h.symm) fun i h₁ h₂ => ?_
    show (Vector.ofFn fun i : Fin n => b.getD i 0).toList[i] = b[i]
    rw [Vector.getElem_toList, Vector.getElem_ofFn, List.getD_eq_getElem?_getD, List.getElem?_eq_getElem h₂]
    rfl

end LawfulWireField

theorem field_injective {α : Type} [WireField α] [LawfulWireField α] {v v' : α} (h : field v = field v') : v = v' := by
  rw [← LawfulWireField.ofBytes_bytes v, ← LawfulWireField.ofBytes_bytes v']
  exact congrArg WireField.ofBytes h

@[simp] theorem field_inj {α : Type} [WireField α] [LawfulWireField α] {v v' : α} : field v = field v' ↔ v = v' :=
  ⟨field_injective, congrArg field⟩

namespace Hook

variable {M : Type}

/-- Writing one of the fields of a message leaves the other as it is. -/
abbrev Apart : Hook M → Hook M → Prop := Record.Apart Hook.get Hook.set

/-- What is written into a field is in it. -/
def Keeps (h : Hook M) : Prop := ∀ m b, b.length = h.size → h.get (h.set m b) = b

theorem keeps_hook {α : Type} [WireField α] [LawfulWireField α] {get : M → α} {set : M → α → M}
    (h : ∀ m v, get (set m v) = v) : (hook get set).Keeps := fun m b hb => by
  show field (get (set m (WireField.ofBytes b))) = b
  rw [h]
  exact LawfulWireField.bytes_ofBytes b hb

section Hook

-- The value is arbitrary here, so that comparing two messages never unfolds `ofBytes`.
variable {α : Type} [WireField α] {get : M → α} {set : M → α → M}

theorem writes_hook {all l : List (Hook M)} {i : ℕ}
    (h : ∀ m v, all.map (·.get (set m v)) = (all.map (·.get m)).set i (field (get (set m v))))
    (hl : Record.Writes Hook.get Hook.set all (i + 1) l) :
    Record.Writes Hook.get Hook.set all i (hook get set :: l) :=
  ⟨fun m b => h m (WireField.ofBytes b), hl⟩

theorem set_hook {β : Type} {f : M → β} (h : ∀ m v, f (set m v) = f m) (m : M) (b : List UInt8) :
    f ((hook get set).set m b) = f m :=
  h m (WireField.ofBytes b)

end Hook

end Hook

section Read

variable {M : Type} {hooks : List (Hook M)}

theorem map_length_get (hooks : List (Hook M)) (m : M) :
    (hooks.map (·.get m)).map List.length = hooks.map (·.size) := by
  rw [List.map_map]
  exact List.map_congr_left fun f _ => f.length_get m

theorem readFields_eq_none {m : M} {bytes : List UInt8} :
    readFields hooks m bytes = none ↔ bytes.length < (hooks.map (·.size)).sum := by
  induction hooks generalizing m bytes with
  | nil => exact iff_of_false nofun (Nat.not_lt_zero _)
  | cons h hooks ih =>
    rw [readFields, List.map_cons, List.sum_cons]
    split
    · exact iff_of_true rfl (by omega)
    · rw [ih, List.length_drop]
      omega

/-- What has been read: the fields are the bytes they were read from, and what is apart from
them is as before. -/
theorem readFields_spec (hapart : hooks.Pairwise Hook.Apart) (hkeeps : ∀ h ∈ hooks, h.Keeps) {m m' : M}
    {bytes rest : List UInt8} (h : readFields hooks m bytes = some (m', rest)) :
    bytes = (hooks.map (·.get m')).flatten ++ rest ∧
      ∀ (α : Type) (see : M → α), (∀ h ∈ hooks, ∀ m b, see (h.set m b) = see m) → see m' = see m := by
  induction hooks generalizing m bytes with
  | nil =>
    obtain ⟨rfl, rfl⟩ := Prod.mk.inj (Option.some.inj h)
    exact ⟨rfl, fun _ _ _ => rfl⟩
  | cons f hooks ih =>
    obtain ⟨hf, hapart⟩ := List.pairwise_cons.mp hapart
    obtain ⟨hkeep, hkeeps⟩ := List.forall_mem_cons.mp hkeeps
    rw [readFields] at h
    split at h
    · cases h
    · next hlen =>
      obtain ⟨hbytes, hsee⟩ := ih hapart hkeeps h
      -- the fields after it leave the first one alone
      have hget : f.get m' = bytes.take f.size := by
        rw [hsee _ f.get fun g hg => (hf g hg).1]
        exact hkeep _ _ (by rw [List.length_take]; omega)
      refine ⟨?_, fun α see hall => ?_⟩
      · rw [List.map_cons, List.flatten_cons, List.append_assoc, hget, ← hbytes, List.take_append_drop]
      · obtain ⟨hsf, hall⟩ := List.forall_mem_cons.mp hall
        rw [hsee α see hall, hsf]

/-- What each field keeps, reading keeps. -/
theorem readFields_invariant {P : M → Prop} (hP : ∀ h ∈ hooks, ∀ m b, b.length = h.size → P m → P (h.set m b))
    {m m' : M} {bytes rest : List UInt8} (hm : P m) (h : readFields hooks m bytes = some (m', rest)) : P m' := by
  induction hooks generalizing m bytes with
  | nil =>
    obtain ⟨rfl, -⟩ := Prod.mk.inj (Option.some.inj h)
    exact hm
  | cons f hooks ih =>
    obtain ⟨hf, hP⟩ := List.forall_mem_cons.mp hP
    rw [readFields] at h
    split at h
    · cases h
    · next hlen => exact ih hP (hf m _ (by rw [List.length_take]; omega) hm) h

end Read

end Exchange
