import Mathlib.Data.List.Infix
import Exchange.Framework.Ring
import Exchange.Impl.RingBuffer
import Exchange.Impl.Server.Threads

/-!
# The ring is a bounded queue

Item `o` of all that are pushed has slot `o % N`. Each index is the place of an offset: the
ring's own of how many items were pushed and popped, a cached one of how many had been when
it was loaded, which can only be less (`Inv`). That keeps the ring from overflowing when
the pusher decides by an old `read_idx_`, and from underflowing when the popper decides by
an old `write_idx_`.
-/

namespace Exchange

variable {T : Type} {n : ℕ}

namespace RingBuffer

/-- The ring has `n` slots, a power of two. -/
structure Sized (n : ℕ) (ring : RingBuffer T) : Prop where
  pow : ∃ k, n = 2 ^ k
  lt : n < 2 ^ 32
  two_le : 2 ≤ n
  mask : ring.mask.toNat = n - 1
  length : ring.buffer.length = n

variable {ring : RingBuffer T} {i : UInt64} {o : ℕ}

theorem Sized.next (h : Sized n ring) (hi : i.toNat = o % n) : (ring.next i).toNat = (o + 1) % n := by
  obtain ⟨k, hk⟩ := h.pow
  have hlt := h.lt
  have hmod : o % n < n := Nat.mod_lt o (by have := h.two_le; omega)
  have hsucc : (i + 1).toNat = o % n + 1 := by
    rw [UInt64.toNat_add, hi, UInt64.toNat_one]
    omega
  rw [RingBuffer.next, UInt64.toNat_and, UInt32.toNat_toUInt64, h.mask, hsucc, hk,
    Nat.and_two_pow_sub_one_eq_mod, Nat.mod_add_mod]

/-- A slot is written, and the slots of the offsets less than a turn away keep their items. -/
theorem Sized.store (h : Sized n ring) (hi : i.toNat = o % n) (item : T) : ∃ ring', ring.store i item = some ring' ∧
    ring' = { ring with buffer := ring.buffer.set (o % n) item } ∧ Sized n ring' ∧
    ring'.buffer[o % n]? = some item ∧
    (∀ p, o ≠ p → o < p + n → p < o + n → ring'.buffer[p % n]? = ring.buffer[p % n]?) := by
  have hlt : o % n < ring.buffer.length := by
    rw [h.length]
    exact Nat.mod_lt o (by have := h.two_le; omega)
  refine ⟨_, by rw [RingBuffer.store, hi, if_pos hlt], rfl, ?_, List.getElem?_set_self hlt, fun p hne h1 h2 => ?_⟩
  · exact { h with length := by rw [List.length_set, h.length] }
  · refine List.getElem?_set_ne ?_
    rcases Nat.lt_or_gt_of_ne hne with hlt | hlt
    · exact Ring.mod_ne hlt h2
    · exact (Ring.mod_ne hlt h1).symm

theorem new_eq [Inhabited T] {N : UInt32} (hpow : ∃ k, N.toNat = 2 ^ k) :
    new (T := T) N = some { buffer := List.replicate N.toNat default, mask := N - 1 } := by
  obtain ⟨k, hk⟩ := hpow
  have hone : (1 : UInt32) ≤ N := by
    rw [UInt32.le_iff_toNat_le, hk]
    exact Nat.one_le_two_pow
  refine if_pos (UInt32.toNat_inj.mp ?_)
  rw [UInt32.toNat_and, UInt32.toNat_sub_of_le _ _ hone, UInt32.toNat_one, hk, Nat.and_two_pow_sub_one_eq_mod,
    Nat.mod_self]
  rfl

/-- `size` between two calls. -/
theorem Sized.size (h : Sized n ring) {p c : ℕ} (hw : ring.writeIdx.toNat = p % n) (hr : ring.readIdx.toNat = c % n)
    (hcp : c ≤ p) (hpc : p < c + n) : ring.size.toNat = p - c := by
  have hlt := h.lt
  have htwo := h.two_le
  have hc : c % n < n := Nat.mod_lt c (by omega)
  obtain ⟨d, rfl⟩ := Nat.exists_eq_add_of_le hcp
  have hmask : (ring.mask + 1).toUInt64.toNat = n := by
    rw [UInt32.toNat_toUInt64, UInt32.toNat_add, h.mask, UInt32.toNat_one]
    omega
  rw [RingBuffer.size]
  by_cases hwrap : c % n + d < n
  · rw [Ring.mod_add_of_lt hwrap] at hw
    have hle : ring.readIdx ≤ ring.writeIdx := UInt64.le_iff_toNat_le.mpr (by omega)
    rw [if_pos hle, UInt64.toNat_sub_of_le _ _ hle]
    omega
  · rw [Ring.mod_add_of_le (by omega) (by omega) (by omega)] at hw
    have hnle : ¬ ring.readIdx ≤ ring.writeIdx := fun hle => by
      have := UInt64.le_iff_toNat_le.mp hle
      omega
    rw [if_neg hnle, UInt64.toNat_add, hmask, UInt64.toNat_sub]
    omega

end RingBuffer

/-- An index the pusher loaded from `read_idx_`, and how full the ring then was. -/
def PushSaw (n : ℕ) (h : RingHistory T) (readIdx : UInt64) : Prop :=
  ∃ c ≤ h.popped.length, readIdx.toNat = c % n ∧ h.pushed.length < c + n ∧ h.pushReread = h.pushed.length - c

/-- There is a free slot, by `cached_read_idx_`. -/
def HasRoom (n : ℕ) (ring : RingBuffer T) (h : RingHistory T) : Prop :=
  ∃ c ≤ h.popped.length, ring.cachedReadIdx.toNat = c % n ∧ h.pushed.length + 1 < c + n

/-- What the pusher knows. -/
def PushPc.Ok (n : ℕ) (ring : RingBuffer T) (h : RingHistory T) : PushPc T → Prop
  | .idle | .call _ => True
  | .compare _ writeIdx | .reread _ writeIdx => writeIdx = ring.writeIdx
  | .cache _ writeIdx readIdx => writeIdx = ring.writeIdx ∧ PushSaw n h readIdx
  | .recheck _ writeIdx => writeIdx = ring.writeIdx ∧ PushSaw n h ring.cachedReadIdx
  | .write _ writeIdx => writeIdx = ring.writeIdx ∧ HasRoom n ring h
  | .publish item writeIdx => writeIdx = ring.writeIdx ∧ HasRoom n ring h ∧
      ring.buffer[h.pushed.length % n]? = some item

/-- An index the popper loaded from `write_idx_`, and how full the ring then was. -/
def PopSaw (n : ℕ) (h : RingHistory T) (writeIdx : UInt64) : Prop :=
  ∃ p ≤ h.pushed.length, h.popped.length ≤ p ∧ writeIdx.toNat = p % n ∧ h.popReread = p - h.popped.length

/-- There is an item, by `cached_write_idx_`. -/
def HasItem (n : ℕ) (ring : RingBuffer T) (h : RingHistory T) : Prop :=
  ∃ p ≤ h.pushed.length, h.popped.length < p ∧ ring.cachedWriteIdx.toNat = p % n

/-- What the popper knows. -/
def PopPc.Ok (n : ℕ) (ring : RingBuffer T) (h : RingHistory T) : PopPc T → Prop
  | .idle | .call => True
  | .compare readIdx | .reread readIdx => readIdx = ring.readIdx
  | .cache readIdx writeIdx => readIdx = ring.readIdx ∧ PopSaw n h writeIdx
  | .recheck readIdx => readIdx = ring.readIdx ∧ PopSaw n h ring.cachedWriteIdx
  | .take readIdx => readIdx = ring.readIdx ∧ HasItem n ring h
  | .publish readIdx item => readIdx = ring.readIdx ∧ HasItem n ring h ∧ h.pushed[h.popped.length]? = some item

/-- The first offset whose item is still in its slot. -/
def PopPc.front (h : RingHistory T) : PopPc T → ℕ
  | .publish _ _ => h.popped.length + 1
  | _ => h.popped.length

variable {ring : RingBuffer T} {h : RingHistory T} {readIdx writeIdx : UInt64} {item : T}

theorem PopPc.le_front (pc : PopPc T) : h.popped.length ≤ pc.front h := by
  cases pc with
  | publish => exact Nat.le_succ _
  | _ => exact Nat.le_refl _

/-- A push does not concern the popper. -/
theorem PopPc.Ok.push {pc : PopPc T} (hpc : pc.Ok n ring h) :
    pc.Ok n { ring with writeIdx := writeIdx } { h with pushed := h.pushed ++ [item] } := by
  have hlen : h.pushed.length ≤ (h.pushed ++ [item]).length := (List.prefix_append _ _).length_le
  have saw : ∀ {i : UInt64}, PopSaw n h i → PopSaw n { h with pushed := h.pushed ++ [item] } i := by
    rintro i ⟨p, hp, hle, hi, hre⟩
    exact ⟨p, hp.trans hlen, hle, hi, hre⟩
  have has : HasItem n ring h → HasItem n { ring with writeIdx } { h with pushed := h.pushed ++ [item] } := by
    rintro ⟨p, hp, hlt, hi⟩
    exact ⟨p, hp.trans hlen, hlt, hi⟩
  cases pc with
  | idle | call | compare | reread => exact hpc
  | cache r w => exact ⟨hpc.1, saw hpc.2⟩
  | recheck r => exact ⟨hpc.1, saw hpc.2⟩
  | take r => exact ⟨hpc.1, has hpc.2⟩
  | publish r taken =>
    obtain ⟨hr, hitem, hget⟩ := hpc
    obtain ⟨hlt, -⟩ := List.getElem?_eq_some_iff.mp hget
    exact ⟨hr, has hitem, (List.getElem?_append_left hlt).trans hget⟩

/-- A pop only makes room. -/
theorem PushPc.Ok.pop {pc : PushPc T} (hpc : pc.Ok n ring h) :
    pc.Ok n { ring with readIdx := readIdx } { h with popped := h.popped ++ [item] } := by
  have hlen : h.popped.length ≤ (h.popped ++ [item]).length := (List.prefix_append _ _).length_le
  have saw : ∀ {i : UInt64}, PushSaw n h i → PushSaw n { h with popped := h.popped ++ [item] } i := by
    rintro i ⟨c, hc, hi, hlt, hre⟩
    exact ⟨c, hc.trans hlen, hi, hlt, hre⟩
  have room : HasRoom n ring h → HasRoom n { ring with readIdx } { h with popped := h.popped ++ [item] } := by
    rintro ⟨c, hc, hi, hlt⟩
    exact ⟨c, hc.trans hlen, hi, hlt⟩
  cases pc with
  | idle | call | compare | reread => exact hpc
  | cache x w r => exact ⟨hpc.1, saw hpc.2⟩
  | recheck x w => exact ⟨hpc.1, saw hpc.2⟩
  | write x w => exact ⟨hpc.1, room hpc.2⟩
  | publish x w => exact ⟨hpc.1, room hpc.2.1, hpc.2.2⟩

/-- Nor does a write to another slot concern the pusher. -/
theorem PushPc.Ok.store {pc : PushPc T} {buffer : List T} (hpc : pc.Ok n ring h)
    (hb : buffer[h.pushed.length % n]? = ring.buffer[h.pushed.length % n]?) :
    pc.Ok n { ring with buffer := buffer } h := by
  cases pc with
  | idle | call | compare | reread | cache | recheck | write => exact hpc
  | publish x w => exact ⟨hpc.1, hpc.2.1, hb.trans hpc.2.2⟩

namespace SharedRing

structure Inv (n : ℕ) (s : SharedRing T) : Prop where
  sized : s.ring.Sized n
  write : s.ring.writeIdx.toNat = s.history.pushed.length % n
  read : s.ring.readIdx.toNat = s.history.popped.length % n
  /-- The popped items are the first ones pushed. -/
  fifo : s.history.popped <+: s.history.pushed
  /-- An old `read_idx_` still leaves room for all that were pushed. -/
  cachedRead : ∃ c ≤ s.history.popped.length, s.ring.cachedReadIdx.toNat = c % n ∧ s.history.pushed.length < c + n
  /-- An old `write_idx_` is not behind `read_idx_`. -/
  cachedWrite : ∃ p ≤ s.history.pushed.length, s.history.popped.length ≤ p ∧ s.ring.cachedWriteIdx.toNat = p % n
  slots : ∀ o, s.popper.front s.history ≤ o → o < s.history.pushed.length →
    s.ring.buffer[o % n]? = s.history.pushed[o]?
  pusher : s.pusher.Ok n s.ring s.history
  popper : s.popper.Ok n s.ring s.history
  refused : ∀ held ∈ s.history.refused, held = n - 1
  empty : ∀ held ∈ s.history.empty, held = 0

variable {s : SharedRing T}

theorem Inv.le (h : Inv n s) : s.history.popped.length ≤ s.history.pushed.length := h.fifo.length_le

theorem Inv.lt (h : Inv n s) : s.history.pushed.length < s.history.popped.length + n := by
  obtain ⟨c, hc, -, hlt⟩ := h.cachedRead
  omega

/-- `next_write == cached_read_idx_` says that the ring was full when `read_idx_` was loaded. -/
theorem Inv.next_write_eq_iff (h : Inv n s) {c : ℕ} (hc : c ≤ s.history.popped.length)
    (hr : readIdx.toNat = c % n) (hlt : s.history.pushed.length < c + n) :
    s.ring.next s.ring.writeIdx = readIdx ↔ s.history.pushed.length + 1 = c + n := by
  rw [← UInt64.toNat_inj, h.sized.next h.write, hr]
  exact Ring.succ_mod_eq_iff (hc.trans h.le) hlt

/-- `read_idx == cached_write_idx_` says that it was empty when `write_idx_` was loaded. -/
theorem Inv.read_eq_iff (h : Inv n s) {p : ℕ} (hp : p ≤ s.history.pushed.length) (hle : s.history.popped.length ≤ p)
    (hw : writeIdx.toNat = p % n) : s.ring.readIdx = writeIdx ↔ s.history.popped.length = p := by
  rw [← UInt64.toNat_inj, h.read, hw]
  exact Ring.mod_eq_iff hle (hp.trans_lt h.lt)

theorem Inv.pusherStep (h : Inv n s) : ∃ s', s.pusherStep = some s' ∧ Inv n s' := by
  have hpc := h.pusher
  have hle := h.le
  unfold SharedRing.pusherStep
  cases hs : s.pusher with
  | idle => exact ⟨_, rfl, h⟩
  | call item => exact ⟨_, rfl, { h with pusher := rfl }⟩
  | compare item w =>
    rw [hs] at hpc
    obtain rfl := hpc
    obtain ⟨c, hc, hr, hlt⟩ := h.cachedRead
    by_cases heq : s.ring.next s.ring.writeIdx = s.ring.cachedReadIdx
    · exact ⟨_, if_pos heq, { h with pusher := rfl }⟩
    · have := mt (h.next_write_eq_iff hc hr hlt).mpr heq
      exact ⟨_, if_neg heq, { h with pusher := ⟨rfl, c, hc, hr, by dsimp only; omega⟩ }⟩
  | reread item w =>
    rw [hs] at hpc
    exact ⟨_, rfl, { h with pusher := ⟨hpc, _, Nat.le_refl _, h.read, h.lt, rfl⟩ }⟩
  | cache item w r =>
    rw [hs] at hpc
    obtain ⟨hw, c, hc, hr, hlt, hre⟩ := hpc
    exact ⟨_, rfl, { h with
      sized := { h.sized with }, cachedRead := ⟨c, hc, hr, hlt⟩, pusher := ⟨hw, c, hc, hr, hlt, hre⟩ }⟩
  | recheck item w =>
    rw [hs] at hpc
    obtain ⟨rfl, c, hc, hr, hlt, hre⟩ := hpc
    by_cases heq : s.ring.next s.ring.writeIdx = s.ring.cachedReadIdx
    · have hfull := (h.next_write_eq_iff hc hr hlt).mp heq
      refine ⟨_, if_pos heq, { h with pusher := trivial, refused := fun held hheld => ?_ }⟩
      rcases List.mem_append.mp hheld with hold | hnew
      · exact h.refused held hold
      · rw [List.mem_singleton.mp hnew, hre]
        omega
    · have := mt (h.next_write_eq_iff hc hr hlt).mpr heq
      exact ⟨_, if_neg heq, { h with pusher := ⟨rfl, c, hc, hr, by dsimp only; omega⟩ }⟩
  | write item w =>
    rw [hs] at hpc
    obtain ⟨rfl, hroom⟩ := hpc
    have hlt := h.lt
    obtain ⟨ring', hstore, rfl, hsized, hself, hother⟩ := h.sized.store h.write item
    simp only [hstore, Option.bind_eq_bind, Option.bind_some]
    refine ⟨_, rfl, { h with sized := hsized, slots := ?_, pusher := ⟨rfl, hroom, hself⟩ }⟩
    intro o (ho : s.popper.front s.history ≤ o) (hold : o < s.history.pushed.length)
    have := s.popper.le_front.trans ho
    exact (hother o (by omega) (by omega) (by omega)).trans (h.slots o ho hold)
  | publish item w =>
    rw [hs] at hpc
    obtain ⟨rfl, ⟨c, hc, hr, hlt⟩, hget⟩ := hpc
    have hlen : (s.history.pushed ++ [item]).length = s.history.pushed.length + 1 := List.length_append
    obtain ⟨p, hp, hle', hw⟩ := h.cachedWrite
    refine ⟨_, rfl, { h with
      sized := { h.sized with }
      write := by rw [hlen]; exact h.sized.next h.write
      fifo := h.fifo.trans (List.prefix_append _ _)
      cachedRead := ⟨c, hc, hr, by rw [hlen]; exact hlt⟩
      cachedWrite := ⟨p, by rw [hlen]; omega, hle', hw⟩
      slots := ?_
      pusher := trivial
      popper := h.popper.push }⟩
    intro o ho (hold : o < (s.history.pushed ++ [item]).length)
    by_cases hlast : o < s.history.pushed.length
    · exact (h.slots o ho hlast).trans (List.getElem?_append_left hlast).symm
    · obtain rfl : o = s.history.pushed.length := by omega
      exact hget.trans List.getElem?_concat_length.symm

theorem Inv.popperStep (h : Inv n s) (moved : T → T) : ∃ s', s.popperStep moved = some s' ∧ Inv n s' := by
  have hpc := h.popper
  have hslots := h.slots
  have hfull := h.lt
  unfold SharedRing.popperStep
  cases hs : s.popper with
  | idle => exact ⟨_, rfl, h⟩
  | call =>
    rw [hs] at hslots
    exact ⟨_, rfl, { h with slots := hslots, popper := rfl }⟩
  | compare r =>
    rw [hs] at hpc hslots
    obtain rfl := hpc
    obtain ⟨p, hp, hle, hw⟩ := h.cachedWrite
    by_cases heq : s.ring.readIdx = s.ring.cachedWriteIdx
    · exact ⟨_, if_pos heq, { h with slots := hslots, popper := rfl }⟩
    · have := mt (h.read_eq_iff hp hle hw).mpr heq
      exact ⟨_, if_neg heq, { h with slots := hslots, popper := ⟨rfl, p, hp, by dsimp only; omega, hw⟩ }⟩
  | reread r =>
    rw [hs] at hpc hslots
    exact ⟨_, rfl, { h with slots := hslots, popper := ⟨hpc, _, Nat.le_refl _, h.le, h.write, rfl⟩ }⟩
  | cache r w =>
    rw [hs] at hpc hslots
    obtain ⟨hr, p, hp, hle, hw, hre⟩ := hpc
    exact ⟨_, rfl, { h with
      sized := { h.sized with }
      cachedWrite := ⟨p, hp, hle, hw⟩
      slots := hslots
      popper := ⟨hr, p, hp, hle, hw, hre⟩ }⟩
  | recheck r =>
    rw [hs] at hpc hslots
    obtain ⟨rfl, p, hp, hle, hw, hre⟩ := hpc
    by_cases heq : s.ring.readIdx = s.ring.cachedWriteIdx
    · have hempty := (h.read_eq_iff hp hle hw).mp heq
      refine ⟨_, if_pos heq, { h with slots := hslots, popper := trivial, empty := fun held hheld => ?_ }⟩
      rcases List.mem_append.mp hheld with hold | hnew
      · exact h.empty held hold
      · rw [List.mem_singleton.mp hnew, hre]
        omega
    · have := mt (h.read_eq_iff hp hle hw).mpr heq
      exact ⟨_, if_neg heq, { h with slots := hslots, popper := ⟨rfl, p, hp, by dsimp only; omega, hw⟩ }⟩
  | take r =>
    rw [hs] at hpc hslots
    obtain ⟨rfl, p, hp, hlt, hw⟩ := hpc
    obtain ⟨item, hitem⟩ : ∃ item, s.history.pushed[s.history.popped.length]? = some item :=
      ⟨_, List.getElem?_eq_getElem (hlt.trans_le hp)⟩
    have hread : s.ring.buffer[s.ring.readIdx.toNat]? = some item := by
      rw [h.read, hslots s.history.popped.length (Nat.le_refl _) (hlt.trans_le hp), hitem]
    obtain ⟨ring', hstore, rfl, hsized, -, hother⟩ := h.sized.store h.read (moved item)
    simp only [hread, hstore, Option.bind_eq_bind, Option.bind_some]
    refine ⟨_, rfl, { h with
      sized := hsized
      slots := ?_
      pusher := h.pusher.store (hother _ (by omega) (by omega) (by omega))
      popper := ⟨rfl, ⟨p, hp, hlt, hw⟩, hitem⟩ }⟩
    intro o (ho : s.history.popped.length + 1 ≤ o) (hold : o < s.history.pushed.length)
    exact (hother o (by omega) (by omega) (by omega)).trans (hslots o (Nat.le_of_succ_le ho) hold)
  | publish r item =>
    rw [hs] at hpc hslots
    obtain ⟨rfl, ⟨p, hp, hlt, hw⟩, hitem⟩ := hpc
    obtain ⟨hget, rfl⟩ := List.getElem?_eq_some_iff.mp hitem
    have hlen : (s.history.popped ++ [s.history.pushed[s.history.popped.length]]).length = s.history.popped.length + 1 :=
      List.length_append
    obtain ⟨c, hc, hr, hroom⟩ := h.cachedRead
    refine ⟨_, rfl, { h with
      sized := { h.sized with }
      read := by rw [hlen]; exact h.sized.next h.read
      fifo := List.concat_get_prefix h.fifo hget
      cachedRead := ⟨c, by rw [hlen]; omega, hr, hroom⟩
      cachedWrite := ⟨p, hp, by rw [hlen]; exact hlt, hw⟩
      slots := fun o ho => hslots o (hlen.symm.trans_le ho)
      pusher := h.pusher.pop
      popper := trivial }⟩

theorem Inv.step (h : Inv n s) (moved : T → T) (action : RingAction T) :
    ∃ s', s.step moved action = some s' ∧ Inv n s' := by
  cases action with
  | push item =>
    cases hs : s.pusher with
    | idle => exact ⟨{ s with pusher := .call item }, by simp only [SharedRing.step, hs], { h with pusher := trivial }⟩
    | _ => exact ⟨s, by simp only [SharedRing.step, hs], h⟩
  | pop =>
    have hslots := h.slots
    cases hs : s.popper with
    | idle =>
      rw [hs] at hslots
      exact ⟨{ s with popper := .call }, by simp only [SharedRing.step, hs],
        { h with slots := hslots, popper := trivial }⟩
    | _ => exact ⟨s, by simp only [SharedRing.step, hs], h⟩
  | pusher => exact h.pusherStep
  | popper => exact h.popperStep moved

theorem Inv.run (h : Inv n s) (moved : T → T) (schedule : List (RingAction T)) :
    ∃ s', s.run moved schedule = some s' ∧ Inv n s' := by
  induction schedule generalizing s with
  | nil => exact ⟨s, rfl, h⟩
  | cons action schedule ih =>
    obtain ⟨s₁, hstep, h₁⟩ := h.step moved action
    obtain ⟨s', hrun, h'⟩ := ih h₁
    refine ⟨s', ?_, h'⟩
    rw [SharedRing.run, List.foldlM_cons, hstep]
    exact hrun

theorem inv_new [Inhabited T] {N : UInt32} (hpow : ∃ k, N.toNat = 2 ^ k) (hN : 2 ≤ N.toNat) :
    ∃ s : SharedRing T, new N = some s ∧ Inv N.toNat s := by
  have hone : (1 : UInt32) ≤ N := UInt32.le_iff_toNat_le.mpr (Nat.le_of_succ_le hN)
  refine ⟨_, by rw [SharedRing.new, RingBuffer.new_eq hpow]; rfl, ?_⟩
  constructor
  case sized =>
    exact ⟨hpow, N.toNat_lt, hN, UInt32.toNat_sub_of_le _ _ hone, List.length_replicate⟩
  case write | read => exact (Nat.zero_mod _).symm
  case fifo => exact List.prefix_refl _
  case cachedRead => exact ⟨0, Nat.le_refl _, (Nat.zero_mod _).symm, by rw [Nat.zero_add]; exact Nat.zero_lt_of_lt hN⟩
  case cachedWrite => exact ⟨0, Nat.le_refl _, Nat.le_refl _, (Nat.zero_mod _).symm⟩
  case slots => exact fun o _ ho => absurd ho (Nat.not_lt_zero o)
  case pusher | popper => trivial
  case refused | empty => exact fun held hheld => absurd hheld List.not_mem_nil

/-- `push` adds its item with its last access, and nothing else the pusher does is seen. -/
theorem pusherStep_history {s' : SharedRing T} (hstep : s.pusherStep = some s') :
    s'.history.popped = s.history.popped ∧ (s'.history.pushed = s.history.pushed ∨
      ∃ item w, s.pusher = .publish item w ∧ s'.history.pushed = s.history.pushed ++ [item]) := by
  unfold SharedRing.pusherStep at hstep
  cases hs : s.pusher with
  | idle | call | reread | cache =>
    rw [hs] at hstep
    obtain rfl := Option.some.inj hstep
    exact ⟨rfl, .inl rfl⟩
  | compare | recheck =>
    rw [hs] at hstep
    dsimp only at hstep
    split_ifs at hstep <;> obtain rfl := Option.some.inj hstep <;> exact ⟨rfl, .inl rfl⟩
  | write item w =>
    rw [hs] at hstep
    obtain ⟨ring, -, hring⟩ := Option.bind_eq_some_iff.mp hstep
    obtain rfl := Option.some.inj hring
    exact ⟨rfl, .inl rfl⟩
  | publish item w =>
    rw [hs] at hstep
    obtain rfl := Option.some.inj hstep
    exact ⟨rfl, .inr ⟨item, w, rfl, rfl⟩⟩

/-- And `pop` takes its item with its last access. -/
theorem popperStep_history {s' : SharedRing T} {moved : T → T} (hstep : s.popperStep moved = some s') :
    s'.history.pushed = s.history.pushed ∧ (s'.history.popped = s.history.popped ∨
      ∃ r item, s.popper = .publish r item ∧ s'.history.popped = s.history.popped ++ [item]) := by
  unfold SharedRing.popperStep at hstep
  cases hs : s.popper with
  | idle | call | reread | cache =>
    rw [hs] at hstep
    obtain rfl := Option.some.inj hstep
    exact ⟨rfl, .inl rfl⟩
  | compare | recheck =>
    rw [hs] at hstep
    dsimp only at hstep
    split_ifs at hstep <;> obtain rfl := Option.some.inj hstep <;> exact ⟨rfl, .inl rfl⟩
  | take r =>
    rw [hs] at hstep
    obtain ⟨item, -, hitem⟩ := Option.bind_eq_some_iff.mp hstep
    obtain ⟨ring, -, hring⟩ := Option.bind_eq_some_iff.mp hitem
    obtain rfl := Option.some.inj hring
    exact ⟨rfl, .inl rfl⟩
  | publish r item =>
    rw [hs] at hstep
    obtain rfl := Option.some.inj hstep
    exact ⟨rfl, .inr ⟨r, item, rfl, rfl⟩⟩

/-- The items in the ring. -/
def contents (s : SharedRing T) : List T := s.history.pushed.drop s.history.popped.length

/-- To the threads the ring is the list of its items: each access of `push` and `pop` does
nothing, is `RingBuffer.push`, or takes the first item. -/
theorem Inv.refines (h : Inv communicationRingCount s) {moved : T → T} {action : RingAction T} {s' : SharedRing T}
    (hstep : s.step moved action = some s') : s'.contents = s.contents ∨
      (∃ item, RingBuffer.push s.contents item = some s'.contents) ∨ ∃ item, s.contents = item :: s'.contents := by
  have hsame : ∀ {s' : SharedRing T}, s'.history = s.history → s'.contents = s.contents := fun heq => by
    rw [contents, contents, heq]
  cases action with
  | push item =>
    left
    simp only [SharedRing.step] at hstep
    split at hstep <;> obtain rfl := Option.some.inj hstep <;> exact hsame rfl
  | pop =>
    left
    simp only [SharedRing.step] at hstep
    split at hstep <;> obtain rfl := Option.some.inj hstep <;> exact hsame rfl
  | pusher =>
    obtain ⟨hpopped, hpushed | ⟨item, w, hs, hpushed⟩⟩ := pusherStep_history hstep
    · exact .inl (by rw [contents, contents, hpopped, hpushed])
    · have hpc := h.pusher
      rw [hs] at hpc
      obtain ⟨-, ⟨c, hc, -, hroom⟩, -⟩ := hpc
      have hle := h.le
      refine .inr (.inl ⟨item, ?_⟩)
      rw [RingBuffer.push, contents, contents, hpopped, hpushed, if_pos (by rw [List.length_drop]; omega),
        List.drop_append_of_le_length hle]
  | popper =>
    obtain ⟨hpushed, hpopped | ⟨r, item, hs, hpopped⟩⟩ := popperStep_history hstep
    · exact .inl (by rw [contents, contents, hpopped, hpushed])
    · have hpc := h.popper
      rw [hs] at hpc
      obtain ⟨hlt, hget⟩ := List.getElem?_eq_some_iff.mp hpc.2.2
      refine .inr (.inr ⟨item, ?_⟩)
      rw [contents, contents, hpopped, hpushed, List.length_append, List.drop_eq_getElem_cons hlt, hget]
      rfl

end SharedRing

/-- Under every schedule of the accesses of `push` and `pop`, the ring is a queue of at most
`N - 1` items: nothing is lost, doubled, reordered or read while it is written, a push is
only refused when it saw the ring full, and a pop only when it saw it empty. -/
theorem ringBuffer_is_bounded_queue [Inhabited T] (moved : T → T) (N : UInt32) (hpow : ∃ k, N.toNat = 2 ^ k)
    (hN : 2 ≤ N.toNat) (schedule : List (RingAction T)) :
    ∃ s₀ s, SharedRing.new N = some s₀ ∧ s₀.run moved schedule = some s ∧
      s.history.popped <+: s.history.pushed ∧
      (∀ item writeIdx readIdx, s.pusher = .write item writeIdx → s.popper = .take readIdx → writeIdx ≠ readIdx) ∧
      s.history.held ≤ N.toNat - 1 ∧
      (∀ held ∈ s.history.refused, held = N.toNat - 1) ∧
      (∀ held ∈ s.history.empty, held = 0) ∧
      (s.pusher = .idle → s.popper = .idle → s.ring.size.toNat = s.history.held) := by
  obtain ⟨s₀, hnew, h₀⟩ := SharedRing.inv_new (T := T) hpow hN
  obtain ⟨s, hrun, h⟩ := h₀.run moved schedule
  have hlt := h.lt
  refine ⟨s₀, s, hnew, hrun, h.fifo, ?_, ?_, h.refused, h.empty, fun _ _ => h.sized.size h.write h.read h.le h.lt⟩
  · intro item w r hw hr heq
    have hpush := h.pusher
    have hpop := h.popper
    rw [hw] at hpush
    rw [hr] at hpop
    obtain ⟨p, hp, hitem, -⟩ := hpop.2
    -- the slots are those of two offsets less than a turn apart
    refine Ring.mod_ne (hitem.trans_le hp) hlt ?_
    rw [← h.read, ← h.write, ← hpush.1, ← hpop.1, heq]
  · rw [RingHistory.held]
    omega

/-- Two pushes into a ring for one item, and a pop between the first one's accesses. -/
def ringSchedule : List (RingAction ℕ) :=
  [.push 7, .pusher, .pop, .popper, .popper, .pusher, .popper, .popper, .pusher, .pusher, .popper,
    .push 8, .pusher, .pusher, .pusher, .pusher, .pusher, .pop, .popper, .popper, .popper, .popper, .popper,
    .popper, .popper]

theorem ringBuffer_is_bounded_queue_two : ∃ s₀ s, SharedRing.new 2 = some s₀ ∧ s₀.run id ringSchedule = some s ∧
    s.history.popped <+: s.history.pushed := by
  obtain ⟨s₀, s, hnew, hrun, hfifo, -⟩ :=
    ringBuffer_is_bounded_queue id (2 : UInt32) ⟨1, rfl⟩ (by decide) ringSchedule
  exact ⟨s₀, s, hnew, hrun, hfifo⟩

-- the first pop finds nothing, the second push no room
example : ((SharedRing.new 2).bind fun s => s.run id ringSchedule).map
    (fun s => (s.history.pushed, s.history.popped, s.history.empty, s.history.refused)) =
    some ([7], [7], [0], [1]) := by decide

end Exchange
