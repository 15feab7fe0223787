import Exchange.Framework.Ring
import Exchange.Impl.Server.SessionLog
import Mathlib.Algebra.Order.Ring.Nat

/-!
# The session log

`SessionLog.Ok l packets`: the log `l` was appended `packets`. It numbers them from 1,
has the last bytes of their concatenation, and knows where each message it still holds
starts. `Ok.append` is that appending keeps it. The messages it holds are the most that
fit (`session_log_holds_longest`).
-/

namespace Exchange

namespace SessionLog

variable {l : SessionLog} {packets : List (List UInt8)} {packet : List UInt8}

/-- Where message `seq` starts in the stream of the packets. -/
def startOf (packets : List (List UInt8)) (seq : ℕ) : ℕ := (packets.take (seq - 1)).flatten.length

theorem startOf_mono (packets : List (List UInt8)) {seq seq' : ℕ} (h : seq ≤ seq') :
    startOf packets seq ≤ startOf packets seq' := by
  have hp : packets.take (seq - 1) <+: packets.take (seq' - 1) :=
    List.take_prefix_take_left (by omega)
  obtain ⟨t, ht⟩ := hp
  rw [startOf, startOf, ← ht, List.flatten_append, List.length_append]
  exact Nat.le_add_right _ _

theorem startOf_next (packets : List (List UInt8)) : startOf packets (packets.length + 1) = packets.flatten.length := by
  rw [startOf, Nat.add_sub_cancel, List.take_length]

theorem startOf_concat {seq : ℕ} (packet : List UInt8) (h : seq ≤ packets.length + 1) :
    startOf (packets ++ [packet]) seq = startOf packets seq := by
  rw [startOf, startOf, List.take_append_of_le_length (by omega)]

/-- The stream from message `seq` on. -/
theorem drop_startOf (packets : List (List UInt8)) (seq : ℕ) :
    packets.flatten.drop (startOf packets seq) = (packets.drop (seq - 1)).flatten := by
  have h : packets.flatten = (packets.take (seq - 1)).flatten ++ (packets.drop (seq - 1)).flatten := by
    rw [← List.flatten_append, List.take_append_drop]
  rw [h, startOf, List.drop_left]

/-- The log holds what it can of the packets. -/
structure Ok (l : SessionLog) (packets : List (List UInt8)) : Prop where
  size : ∃ k, l.capacity = 2 ^ (k + 5) ∧ l.indexCapacity = 2 ^ k
  next : l.nextSeq = packets.length + 1
  length : l.endOffset = packets.flatten.length
  first_pos : 1 ≤ l.firstSeq
  first_le : l.firstSeq ≤ l.nextSeq
  count_le : l.nextSeq ≤ l.firstSeq + l.indexCapacity
  index : ∀ seq, l.firstSeq ≤ seq → seq < l.nextSeq → l.index (l.slot seq) = startOf packets seq
  held : ∀ seq, l.firstSeq ≤ seq → seq < l.nextSeq → l.endOffset ≤ startOf packets seq + l.capacity
  ring : Ring.Holds l.capacity l.bytes packets.flatten

theorem Ok.slot_eq (h : l.Ok packets) (seq : ℕ) : l.slot seq = seq % l.indexCapacity := by
  obtain ⟨k, -, hk⟩ := h.size
  rw [slot, hk, Nat.and_two_pow_sub_one_eq_mod]

theorem Ok.place_eq (h : l.Ok packets) (offset : ℕ) : l.place offset = offset % l.capacity := by
  obtain ⟨k, hk, -⟩ := h.size
  rw [place, hk, Nat.and_two_pow_sub_one_eq_mod]

theorem Ok.capacity_pos (h : l.Ok packets) : 0 < l.capacity := by
  obtain ⟨k, hk, -⟩ := h.size
  rw [hk]
  exact Nat.two_pow_pos _

theorem Ok.new {capacityBytes k : ℕ} (h : capacityBytes = 2 ^ (k + 5)) : (SessionLog.new capacityBytes).Ok [] where
  size := ⟨k, h, by rw [h, Nat.pow_add]; exact Nat.mul_div_cancel _ (by decide)⟩
  next := rfl
  length := rfl
  first_pos := le_refl 1
  first_le := le_refl 1
  count_le := Nat.le_add_right _ _
  index seq h₁ h₂ := absurd h₂ (Nat.not_lt.mpr h₁)
  held seq h₁ h₂ := absurd h₂ (Nat.not_lt.mpr h₁)
  ring := Ring.holds_nil _ _

/-- Where the replay of a message that is held, or of the next one, starts. -/
theorem Ok.offsetOf_eq (h : l.Ok packets) {seq : ℕ} (h₁ : l.firstSeq ≤ seq) (h₂ : seq ≤ l.nextSeq) :
    l.offsetOf seq = some (startOf packets seq) := by
  rw [offsetOf, if_neg (by omega)]
  split
  · next e => rw [e, h.next, startOf_next, h.length]
  · rw [h.index seq h₁ (by omega)]

theorem Ok.offsetOf_some (h : l.Ok packets) {seq offset : ℕ} (ho : l.offsetOf seq = some offset) :
    l.firstSeq ≤ seq ∧ seq ≤ l.nextSeq ∧ offset = startOf packets seq ∧ offset ≤ l.endOffset ∧
      l.endOffset ≤ offset + l.capacity := by
  have hb : ¬ (seq < l.firstSeq ∨ seq > l.nextSeq) := fun hb => by
    rw [offsetOf, if_pos hb] at ho
    cases ho
  have h₁ : l.firstSeq ≤ seq := by omega
  have h₂ : seq ≤ l.nextSeq := by omega
  rw [h.offsetOf_eq h₁ h₂] at ho
  obtain rfl := Option.some.inj ho
  have hle : startOf packets seq ≤ l.endOffset := by
    rw [h.length, ← startOf_next]
    exact startOf_mono packets (h.next ▸ h₂)
  refine ⟨h₁, h₂, rfl, hle, ?_⟩
  rcases Nat.lt_or_eq_of_le h₂ with hlt | rfl
  · exact h.held seq h₁ hlt
  · rw [h.next, startOf_next, h.length]
    exact Nat.le_add_right _ _

/-- The bytes up to the end, or to the end of the ring. -/
theorem Ok.contiguousFrom_take (h : l.Ok packets) {offset : ℕ} (h₁ : offset ≤ l.endOffset)
    (h₂ : l.endOffset ≤ offset + l.capacity) : l.contiguousFrom offset =
      (packets.flatten.drop offset).take (min (l.endOffset - offset) (l.capacity - offset % l.capacity)) := by
  have hmod : offset % l.capacity < l.capacity := Nat.mod_lt _ h.capacity_pos
  unfold contiguousFrom
  dsimp only
  rw [h.place_eq]
  exact h.ring.read (h.length ▸ h₂) (by rw [← h.length]; omega) (by omega)

/-- At least one byte is read if there is one left. -/
theorem Ok.contiguousFrom_eq (h : l.Ok packets) {offset : ℕ} (h₁ : offset ≤ l.endOffset)
    (h₂ : l.endOffset ≤ offset + l.capacity) :
    ∃ len, l.contiguousFrom offset = (packets.flatten.drop offset).take len ∧
      offset + len ≤ l.endOffset ∧ (offset < l.endOffset → 0 < len) := by
  have hmod : offset % l.capacity < l.capacity := Nat.mod_lt _ h.capacity_pos
  exact ⟨_, h.contiguousFrom_take h₁ h₂, by omega, by omega⟩

/-! ## Appending -/

/-- The loop drops messages until the packet fits and an index entry is free. -/
theorem dropOldest_spec (l : SessionLog) (len : ℕ) {fuel first : ℕ} (hf : l.nextSeq ≤ first + fuel)
    (hle : first ≤ l.nextSeq) :
    first ≤ l.dropOldest len fuel first ∧ l.dropOldest len fuel first ≤ l.nextSeq ∧
      (l.dropOldest len fuel first < l.nextSeq →
        l.endOffset + len - l.index (l.slot (l.dropOldest len fuel first)) ≤ l.capacity ∧
        l.nextSeq < l.dropOldest len fuel first + l.indexCapacity) := by
  induction fuel generalizing first with
  | zero => exact ⟨le_refl _, hle, fun h => by rw [dropOldest] at h; omega⟩
  | succ fuel ih =>
    unfold dropOldest
    split
    · next h =>
      obtain ⟨h₁, h₂, h₃⟩ := @ih (first + 1) (by omega) h.1
      exact ⟨by omega, h₂, h₃⟩
    · next h => exact ⟨le_refl _, hle, fun hlt => by omega⟩

theorem copyTo_of_mem {bytes : ℕ → UInt8} {i j : ℕ} {data : List UInt8} (h : i ≤ j) (hd : j - i < data.length) :
    copyTo bytes i data j = data[j - i] := by
  rw [copyTo, if_pos ⟨h, by omega⟩, ← List.getElem_eq_getD 0]

theorem copyTo_of_notMem {bytes : ℕ → UInt8} {i j : ℕ} {data : List UInt8} (h : ¬ (i ≤ j ∧ j < i + data.length)) :
    copyTo bytes i data j = bytes j := by
  rw [copyTo, if_neg h]

/-- The two copies write the packet behind the stream. -/
theorem holds_copy {n : ℕ} {bytes : ℕ → UInt8} {s : List UInt8} (h : Ring.Holds n bytes s) (hn : packet.length < n) :
    Ring.Holds n (copyTo (copyTo bytes (s.length % n) (packet.take (min packet.length (n - s.length % n)))) 0
      (packet.drop (min packet.length (n - s.length % n)))) (s ++ packet) := by
  have hi : s.length % n < n := Nat.mod_lt _ (by omega)
  refine h.append (fun k hk => ?_) fun j hj hne => ?_
  · rcases Nat.lt_or_ge (s.length % n + k) n with hlt | hge
    · rw [Ring.mod_add_of_lt hlt, copyTo_of_notMem (by simp only [List.length_drop]; omega),
        copyTo_of_mem (Nat.le_add_right _ _) (by simp only [List.length_take]; omega)]
      simp only [List.getElem_take, Nat.add_sub_cancel_left]
    · rw [Ring.mod_add_of_le hge (by omega) (by omega),
        copyTo_of_mem (Nat.zero_le _) (by simp only [List.length_drop]; omega)]
      simp only [List.getElem_drop]
      congr 1
      omega
  · rw [copyTo_of_notMem, copyTo_of_notMem]
    · rintro ⟨h₁, h₂⟩
      simp only [List.length_take] at h₂
      refine hne (j - s.length % n) (by omega) ?_
      rw [Ring.mod_add_of_lt (by omega)]
      omega
    · rintro ⟨-, h₂⟩
      simp only [List.length_drop] at h₂
      refine hne (j + n - s.length % n) (by omega) ?_
      rw [Ring.mod_add_of_le (by omega) (by omega) (by omega)]
      omega

theorem Ok.append (h : l.Ok packets) (hlt : packet.length < l.capacity) :
    (l.append packet).Ok (packets ++ [packet]) := by
  obtain ⟨hge, hle, hroom⟩ := @dropOldest_spec l packet.length (l.nextSeq - l.firstSeq) l.firstSeq
    (by omega) h.first_le
  have hnext := h.next
  have hpos := h.first_pos
  have hlength : (packets ++ [packet]).flatten = packets.flatten ++ packet := by
    rw [List.flatten_append, List.flatten_singleton]
  generalize hfirst : l.dropOldest packet.length (l.nextSeq - l.firstSeq) l.firstSeq = first at hge hle hroom
  -- the messages kept have room, and an index entry that is not overwritten
  have hheld : ∀ seq, first ≤ seq → seq < l.nextSeq → l.endOffset + packet.length ≤ startOf packets seq + l.capacity :=
    fun seq h₁ h₂ => by
      have hfit := (hroom (by omega)).1
      rw [h.index first hge (by omega)] at hfit
      have hmono := startOf_mono packets h₁
      omega
  have hindex : ∀ seq, first ≤ seq → seq < l.nextSeq → l.slot seq ≠ l.slot l.nextSeq := fun seq h₁ h₂ => by
    rw [h.slot_eq, h.slot_eq]
    have hentry := (hroom (by omega)).2
    exact Ring.mod_ne h₂ (by omega)
  exact {
    size := h.size
    next := by
      show l.nextSeq + 1 = _
      rw [List.length_append, hnext, List.length_singleton]
    length := by
      show l.endOffset + packet.length = _
      rw [hlength, List.length_append, h.length]
    first_pos := by
      show 1 ≤ l.dropOldest _ _ _
      omega
    first_le := by
      show l.dropOldest _ _ _ ≤ l.nextSeq + 1
      omega
    count_le := by
      show l.nextSeq + 1 ≤ l.dropOldest _ _ _ + l.indexCapacity
      have : 0 < l.indexCapacity := by
        obtain ⟨k, -, hk⟩ := h.size
        rw [hk]
        exact Nat.two_pow_pos _
      rw [hfirst]
      rcases Nat.lt_or_eq_of_le hle with hlt' | e
      · have hentry := (hroom hlt').2
        omega
      · omega
    index := fun seq h₁ h₂ => by
      change l.dropOldest _ _ _ ≤ seq at h₁
      change seq < l.nextSeq + 1 at h₂
      rw [hfirst] at h₁
      show (if l.slot seq = l.slot l.nextSeq then l.endOffset else l.index (l.slot seq)) = _
      rw [startOf_concat packet (by omega)]
      rcases Nat.lt_or_eq_of_le (Nat.le_of_lt_succ h₂) with hlt' | rfl
      · rw [if_neg (hindex seq h₁ hlt'), h.index seq (by omega) hlt']
      · rw [if_pos rfl, hnext, startOf_next, h.length]
    held := fun seq h₁ h₂ => by
      change l.dropOldest _ _ _ ≤ seq at h₁
      change seq < l.nextSeq + 1 at h₂
      rw [hfirst] at h₁
      show l.endOffset + packet.length ≤ _ + l.capacity
      rw [startOf_concat packet (by omega)]
      rcases Nat.lt_or_eq_of_le (Nat.le_of_lt_succ h₂) with hlt' | rfl
      · exact hheld seq h₁ hlt'
      · rw [hnext, startOf_next, ← h.length]
        omega
    ring := by
      rw [hlength]
      have hcopy := holds_copy h.ring hlt
      rw [← h.length, ← h.place_eq] at hcopy
      exact hcopy }

/-! ## What is held is the most that fits -/

/-- Messages the log has room for. -/
def Fits (l : SessionLog) (messages : List (List UInt8)) : Prop :=
  messages.flatten.length ≤ l.capacity ∧ messages.length ≤ l.indexCapacity

theorem Fits.of_append {messages more : List (List UInt8)} (h : l.Fits (messages ++ more)) : l.Fits messages := by
  obtain ⟨h₁, h₂⟩ := h
  rw [List.flatten_append, List.length_append] at h₁
  rw [List.length_append] at h₂
  exact ⟨by omega, by omega⟩

/-- The messages from `seq` on take the bytes from its start to the end. -/
theorem Ok.length_drop (h : l.Ok packets) (m : ℕ) :
    startOf packets (m + 1) + (packets.drop m).flatten.length = l.endOffset := by
  rw [startOf, Nat.add_sub_cancel, ← List.length_append, ← List.flatten_append, List.take_append_drop, h.length]

theorem Ok.fits (h : l.Ok packets) : l.Fits (packets.drop (l.firstSeq - 1)) := by
  have hpos := h.first_pos
  have hlen := h.length_drop (l.firstSeq - 1)
  rw [Nat.sub_add_cancel hpos] at hlen
  have hcount := h.count_le
  have hnext := h.next
  refine ⟨?_, by rw [List.length_drop]; omega⟩
  rcases Nat.lt_or_eq_of_le h.first_le with hlt | e
  · have := h.held _ (Nat.le_refl _) hlt
    omega
  · rw [List.drop_of_length_le (by omega)]
    exact Nat.zero_le _

/-- A message the loop drops does not fit with the packet. -/
theorem dropOldest_dropped (l : SessionLog) (len : ℕ) {fuel first seq : ℕ} (h₁ : first ≤ seq)
    (h₂ : seq < l.dropOldest len fuel first) : seq < l.nextSeq ∧
      (l.endOffset + len - l.index (l.slot seq) > l.capacity ∨ l.nextSeq - seq ≥ l.indexCapacity) := by
  induction fuel generalizing first with
  | zero =>
    rw [dropOldest] at h₂
    omega
  | succ fuel ih =>
    unfold dropOldest at h₂
    split at h₂
    · next h =>
      rcases Nat.lt_or_eq_of_le h₁ with hlt | rfl
      · exact ih hlt h₂
      · exact h
    · omega

/-- No more messages would fit than the log holds. -/
def Longest (l : SessionLog) (packets : List (List UInt8)) : Prop :=
  ∀ m, m + 1 < l.firstSeq → ¬ l.Fits (packets.drop m)

theorem Longest.new (capacityBytes : ℕ) : (SessionLog.new capacityBytes).Longest [] := fun m hm =>
  absurd (show m + 1 < 1 from hm) (by omega)

theorem Longest.append (hl : l.Longest packets) (h : l.Ok packets) (packet : List UInt8) :
    (l.append packet).Longest (packets ++ [packet]) := by
  intro m hm hfits
  have hfirst : m + 1 < l.dropOldest packet.length (l.nextSeq - l.firstSeq) l.firstSeq := hm
  have hle := (@dropOldest_spec l packet.length (l.nextSeq - l.firstSeq) l.firstSeq (by omega) h.first_le).2.1
  have hnext := h.next
  rw [List.drop_append_of_le_length (by omega)] at hfits
  have hfits : l.Fits (packets.drop m ++ [packet]) := hfits
  rcases Nat.lt_or_ge (m + 1) l.firstSeq with hlt | hge
  · exact hl m hlt hfits.of_append
  · obtain ⟨hseq, hfull⟩ := dropOldest_dropped l packet.length hge hfirst
    rw [h.index (m + 1) hge hseq] at hfull
    have hlen := h.length_drop m
    obtain ⟨hbytes, hcount⟩ := hfits
    rw [List.flatten_append, List.flatten_singleton, List.length_append] at hbytes
    rw [List.length_append, List.length_singleton, List.length_drop] at hcount
    omega

/-- A suffix that fits is among the messages held. -/
theorem Longest.suffix (hl : l.Longest packets) (h : l.Ok packets) {messages : List (List UInt8)}
    (hs : messages <:+ packets) (hfits : l.Fits messages) : messages <:+ packets.drop (l.firstSeq - 1) := by
  obtain ⟨before, rfl⟩ := hs
  have hpos := h.first_pos
  have hge : l.firstSeq ≤ before.length + 1 := by
    by_contra hlt
    exact hl before.length (by omega) (by rwa [List.drop_left])
  rw [List.drop_append_of_le_length (by omega)]
  exact List.suffix_append _ _

/-! ## Reading -/

/-- The bytes from `offset` on, by calls of `contiguousFrom`, each from where the last one
ended. -/
def readFrom (l : SessionLog) : ℕ → ℕ → List UInt8
  | 0, _ => []
  | calls + 1, offset => l.contiguousFrom offset ++ l.readFrom calls (offset + (l.contiguousFrom offset).length)

theorem contiguousFrom_end (l : SessionLog) : l.contiguousFrom l.endOffset = [] := by
  unfold contiguousFrom
  dsimp only
  rw [Nat.sub_self, Nat.zero_min]
  rfl

theorem readFrom_end (l : SessionLog) (calls : ℕ) : l.readFrom calls l.endOffset = [] := by
  induction calls with
  | zero => rfl
  | succ calls ih =>
    rw [readFrom, contiguousFrom_end]
    exact ih

/-- A call that reaches the end. -/
theorem Ok.readFrom_last (h : l.Ok packets) {offset : ℕ} (h₁ : offset ≤ l.endOffset)
    (h₂ : l.endOffset ≤ offset + (l.capacity - offset % l.capacity)) (calls : ℕ) :
    l.readFrom (calls + 1) offset = packets.flatten.drop offset := by
  have e : l.contiguousFrom offset = packets.flatten.drop offset := by
    rw [h.contiguousFrom_take h₁ (by omega), Nat.min_eq_left (by omega),
      List.take_of_length_le (by rw [List.length_drop, h.length])]
  have hend : offset + (packets.flatten.drop offset).length = l.endOffset := by
    rw [List.length_drop, ← h.length]
    omega
  rw [readFrom, e, hend, readFrom_end, List.append_nil]

/-- Two calls read all there is. -/
theorem Ok.readFrom_eq (h : l.Ok packets) {offset : ℕ} (h₁ : offset ≤ l.endOffset)
    (h₂ : l.endOffset ≤ offset + l.capacity) (calls : ℕ) :
    l.readFrom (calls + 2) offset = packets.flatten.drop offset := by
  rcases Nat.le_total l.endOffset (offset + (l.capacity - offset % l.capacity)) with hle | hlt
  · exact h.readFrom_last h₁ hle (calls + 1)
  · -- the second call starts at the beginning of the ring
    have hmod : offset % l.capacity < l.capacity := Nat.mod_lt _ h.capacity_pos
    have hwrap : (offset + (l.capacity - offset % l.capacity)) % l.capacity = 0 := by
      rw [Ring.mod_add_of_le (by omega) (by omega) h.capacity_pos]
      omega
    have e := h.contiguousFrom_take h₁ h₂
    rw [Nat.min_eq_right (by omega)] at e
    have hlen : (l.contiguousFrom offset).length = l.capacity - offset % l.capacity := by
      rw [e, List.length_take, List.length_drop, ← h.length]
      omega
    rw [readFrom, hlen, h.readFrom_last hlt (by rw [hwrap]; omega), e, ← List.drop_drop, List.take_append_drop]

theorem foldl_append_nextSeq (packets : List (List UInt8)) (l : SessionLog) :
    (packets.foldl append l).nextSeq = l.nextSeq + packets.length := by
  induction packets generalizing l with
  | nil => rfl
  | cons packet packets ih =>
    rw [List.foldl_cons, ih, List.length_cons, Nat.add_comm packets.length, ← Nat.add_assoc]
    rfl

theorem foldl_append_ok (packets : List (List UInt8)) {done : List (List UInt8)} (h : l.Ok done)
    (hl : l.Longest done) (hp : ∀ p ∈ packets, p.length < l.capacity) :
    (packets.foldl append l).Ok (done ++ packets) ∧ (packets.foldl append l).Longest (done ++ packets) ∧
      (packets.foldl append l).capacity = l.capacity ∧ (packets.foldl append l).indexCapacity = l.indexCapacity := by
  induction packets generalizing l done with
  | nil => exact ⟨by rwa [List.append_nil], by rwa [List.append_nil], rfl, rfl⟩
  | cons packet packets ih =>
    obtain ⟨hpacket, hpackets⟩ := List.forall_mem_cons.mp hp
    have := ih (h.append hpacket) (hl.append h packet) hpackets
    rwa [List.append_assoc, List.singleton_append] at this

end SessionLog

/-- A log of 2^(k+5) bytes that packets smaller than it were appended to numbers them
from 1, holds the longest suffix of them that has at most as many bytes as the log and at
most one message for each 32 of them, knows the offsets of these and of the next message
and of no other, and gives back all the bytes it can hold. -/
theorem session_log_holds_longest (k : ℕ) (packets : List (List UInt8)) (h : ∀ p ∈ packets, p.length < 2 ^ (k + 5)) :
    ∃ l, l = packets.foldl SessionLog.append (.new (2 ^ (k + 5))) ∧ l.capacity = 2 ^ (k + 5) ∧
      l.nextSeq = packets.length + 1 ∧ 1 ≤ l.firstSeq ∧ l.firstSeq ≤ l.nextSeq ∧
      (packets.drop (l.firstSeq - 1)).flatten.length ≤ l.capacity ∧
      (packets.drop (l.firstSeq - 1)).length ≤ l.capacity / 32 ∧
      (∀ messages, messages <:+ packets → messages.flatten.length ≤ l.capacity →
        messages.length ≤ l.capacity / 32 → messages <:+ packets.drop (l.firstSeq - 1)) ∧
      (∀ seq, l.offsetOf seq = if l.firstSeq ≤ seq ∧ seq ≤ l.nextSeq then
        some (packets.take (seq - 1)).flatten.length else none) ∧
      l.endOffset = packets.flatten.length ∧
      ∀ offset calls, l.endOffset ≤ offset + l.capacity → offset ≤ l.endOffset →
        l.readFrom (calls + 2) offset = packets.flatten.drop offset := by
  obtain ⟨hok, hlongest, hcap, hindex⟩ :=
    SessionLog.foldl_append_ok packets (SessionLog.Ok.new rfl) (SessionLog.Longest.new (2 ^ (k + 5))) h
  rw [List.nil_append] at hok hlongest
  generalize packets.foldl SessionLog.append (.new (2 ^ (k + 5))) = l at hok hlongest hcap hindex
  have hcap : l.capacity = 2 ^ (k + 5) := hcap
  have hindex : l.indexCapacity = l.capacity / 32 := hindex.trans (congrArg (· / 32) hcap.symm)
  obtain ⟨hbytes, hcount⟩ := hok.fits
  refine ⟨l, rfl, hcap, hok.next, hok.first_pos, hok.first_le, hbytes, hindex ▸ hcount,
    fun messages hs hb hc => hlongest.suffix hok hs ⟨hb, hindex ▸ hc⟩, fun seq => ?_, hok.length,
    fun offset calls h₁ h₂ => hok.readFrom_eq h₂ h₁ calls⟩
  split
  · next hseq => exact hok.offsetOf_eq hseq.1 hseq.2
  · next hseq => rw [SessionLog.offsetOf, if_pos (by omega)]

/-- Three small packets, of which a log of 64 bytes has index entries for two. -/
def samplePackets : List (List UInt8) := [List.replicate 23 65, List.replicate 10 66, List.replicate 5 67]

theorem session_log_holds_longest_sample : (∀ p ∈ samplePackets, p.length < 2 ^ (1 + 5)) ∧
    ∃ l, l = samplePackets.foldl SessionLog.append (.new (2 ^ (1 + 5))) ∧ l.capacity = 2 ^ (1 + 5) ∧
      l.nextSeq = samplePackets.length + 1 ∧ 1 ≤ l.firstSeq ∧ l.firstSeq ≤ l.nextSeq ∧
      (samplePackets.drop (l.firstSeq - 1)).flatten.length ≤ l.capacity ∧
      (samplePackets.drop (l.firstSeq - 1)).length ≤ l.capacity / 32 ∧
      (∀ messages, messages <:+ samplePackets → messages.flatten.length ≤ l.capacity →
        messages.length ≤ l.capacity / 32 → messages <:+ samplePackets.drop (l.firstSeq - 1)) ∧
      (∀ seq, l.offsetOf seq = if l.firstSeq ≤ seq ∧ seq ≤ l.nextSeq then
        some (samplePackets.take (seq - 1)).flatten.length else none) ∧
      l.endOffset = samplePackets.flatten.length ∧
      ∀ offset calls, l.endOffset ≤ offset + l.capacity → offset ≤ l.endOffset →
        l.readFrom (calls + 2) offset = samplePackets.flatten.drop offset :=
  ⟨by decide, session_log_holds_longest 1 samplePackets (by decide)⟩

end Exchange
