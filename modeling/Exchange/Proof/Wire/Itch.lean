import Exchange.Proof.Wire.OuchFrames

/-!
# ITCH messages on the wire

An ITCH message has a fixed length and no two encodings: what `decode` accepts is the bytes
of what it returns (`decode_eq_some`), and a message is read back with the 48 bits of its
timestamp that are on the wire (`decodeItch_encodeItch`).
-/

namespace Exchange

open Spec (low48 frameLow48 timestamp)

namespace ItchDetail

/-! ## Message structs -/

/-- The timestamp is one that was read. -/
def Small {M : Type} [ItchMessage M] (m : M) : Prop := (ItchMessage.header m).timestamp.toNat < 2 ^ 48

theorem toNat_u48 {b : List UInt8} (h : b.length = 6) : (UInt64.ofNat (ofBigEndian b)).toNat = ofBigEndian b ∧
    ofBigEndian b < 2 ^ 48 := by
  have hlt := ofBigEndian_lt b
  rw [h] at hlt
  exact ⟨UInt64.toNat_ofNat_of_lt' (Nat.lt_trans hlt (by decide)), hlt⟩

theorem keeps_u48 {M : Type} {get : M → UInt64} {set : M → UInt64 → M} (h : ∀ m v, get (set m v) = v) :
    (u48 get set).Keeps := fun m b hb => by
  show bigEndian 6 (get (set m (UInt64.ofNat (ofBigEndian b)))).toNat = b
  rw [h, (toNat_u48 hb).1]
  exact bigEndian_of_length hb

theorem bigEndian_inj48 {v v' : UInt64} (hv : v.toNat < 2 ^ 48) (hv' : v'.toNat < 2 ^ 48) :
    bigEndian 6 v.toNat = bigEndian 6 v'.toNat ↔ v = v' := by
  refine ⟨fun h => UInt64.toNat_inj.mp ?_, fun h => by rw [h]⟩
  have hread := congrArg ofBigEndian h
  rw [ofBigEndian_bigEndian, ofBigEndian_bigEndian] at hread
  exact (Nat.mod_eq_of_lt hv).symm.trans (hread.trans (Nat.mod_eq_of_lt hv'))

theorem bigEndian_low48 (v : UInt64) : bigEndian 6 (UInt64.ofNat (v.toNat % 2 ^ 48)).toNat = bigEndian 6 v.toNat := by
  rw [UInt64.toNat_ofNat_of_lt' (Nat.lt_trans (Nat.mod_lt _ (by decide)) (by decide))]
  exact bigEndian_mod 6 v.toNat

/-- The fields of a message struct are all there is to it, but for the timestamp, of which
they have the low 48 bits. -/
structure Lawful (M : Type) [ItchMessage M] : Prop where
  writes : Record.Writes Hook.get Hook.set (ItchMessage.fields M) 0 (ItchMessage.fields M) := by
    simp only [ItchMessage.fields, ItchMessage.headerFields, ItchMessage.body, List.cons_append, List.nil_append]
    repeat' first
      | exact True.intro
      | refine Hook.writes_hook (fun _ _ => rfl) ?_
      | refine ⟨fun _ _ => rfl, ?_⟩
  keeps : ∀ h ∈ ItchMessage.fields M, h.Keeps := by
    simp only [ItchMessage.fields, ItchMessage.headerFields, ItchMessage.body, List.cons_append, List.nil_append]
    repeat' first
      | exact List.forall_mem_nil _
      | refine List.forall_mem_cons.mpr ⟨Hook.keeps_hook fun _ _ => rfl, ?_⟩
      | refine List.forall_mem_cons.mpr ⟨keeps_u48 fun _ _ => rfl, ?_⟩
  small_set : ∀ h ∈ ItchMessage.fields M, ∀ m b, b.length = h.size → Small m → Small (h.set m b) := by
    simp only [ItchMessage.fields, ItchMessage.headerFields, ItchMessage.body, List.cons_append, List.nil_append]
    repeat' first
      | exact List.forall_mem_nil _
      | refine List.forall_mem_cons.mpr ⟨fun _ _ _ h => h, ?_⟩
      | refine List.forall_mem_cons.mpr ⟨fun _ _ hb _ => lt_of_eq_of_lt (toNat_u48 hb).1 (toNat_u48 hb).2, ?_⟩
  header_blank : ItchMessage.header (ItchMessage.blank (M := M)) = {} := by rfl
  header_setHeader : ∀ (m : M) header, ItchMessage.header (ItchMessage.setHeader m header) = header := by
    intro m header
    rfl
  setHeader_header : ∀ m : M, ItchMessage.setHeader m (ItchMessage.header m) = m := by
    intro m
    rfl
  get_low48 : ∀ h ∈ ItchMessage.fields M, ∀ m, h.get (low48 m) = h.get m := by
    simp only [ItchMessage.fields, ItchMessage.headerFields, ItchMessage.body, List.cons_append, List.nil_append]
    repeat' first
      | exact List.forall_mem_nil _
      | refine List.forall_mem_cons.mpr ⟨fun _ => rfl, ?_⟩
      | refine List.forall_mem_cons.mpr ⟨fun _ => bigEndian_low48 _, ?_⟩
  ext : ∀ m m' : M, Small m → Small m' →
      (ItchMessage.fields M).map (·.get m) = (ItchMessage.fields M).map (·.get m') → m = m' := by
    intro m m' hm hm' hf
    obtain ⟨⟨⟩⟩ := m
    obtain ⟨⟨⟩⟩ := m'
    simp only [Small, ItchMessage.header] at hm hm'
    simp only [ItchMessage.fields, ItchMessage.headerFields, ItchMessage.body, ItchMessage.header, List.map_cons,
      List.map_nil, List.cons_append, List.nil_append, hook, u48, List.cons.injEq, field_inj,
      bigEndian_inj48 hm hm'] at hf
    simp_all

theorem lawful_messages :
    Lawful ItchAddOrder ∧ Lawful ItchOrderExecuted ∧ Lawful ItchOrderExecutedWithPrice ∧ Lawful ItchOrderCancel ∧
      Lawful ItchOrderDelete ∧ Lawful ItchOrderReplace ∧ Lawful ItchTrade :=
  ⟨{}, {}, {}, {}, {}, {}, {}⟩

/-! ## Decoding -/

variable {M : Type} [ItchMessage M]

/-- What is written. -/
def wireBytes (msg : M) : List UInt8 := (coreBytes msg).flatten

theorem wireBytes_eq (msg : M) :
    wireBytes msg = chr (ItchMessage.type M) :: ((ItchMessage.fields M).map (·.get msg)).flatten := rfl

theorem Lawful.small_low48 (h : Lawful M) (m : M) : Small (low48 m) := by
  have hlt : (ItchMessage.header m).timestamp.toNat % 2 ^ 48 < 2 ^ 48 := Nat.mod_lt _ (by decide)
  rw [Small, low48, h.header_setHeader]
  exact lt_of_eq_of_lt (UInt64.toNat_ofNat_of_lt' (Nat.lt_trans hlt (by decide))) hlt

theorem Lawful.low48_eq (h : Lawful M) {m : M} (hm : Small m) : low48 m = m := by
  rw [low48, Nat.mod_eq_of_lt hm, UInt64.ofNat_toNat]
  exact h.setHeader_header m

theorem Lawful.wireBytes_low48 (h : Lawful M) (m : M) : wireBytes (low48 m) = wireBytes m := by
  rw [wireBytes_eq, wireBytes_eq, List.map_congr_left fun f hf => h.get_low48 f hf m]

theorem decode_cons (b : UInt8) (bytes : List UInt8) {m : M} : decode M (b :: bytes) = some m ↔
    readFields (ItchMessage.fields M) ItchMessage.blank bytes = some (m, []) := by
  rw [decode, ItchMessage.core, OuchDetail.readFields_messageType]
  cases readFields (ItchMessage.fields M) ItchMessage.blank bytes with
  | none => exact iff_of_false nofun nofun
  | some r =>
    obtain ⟨m', rest⟩ := r
    show (if rest = [] then some m' else none) = some m ↔ _
    rw [Option.ite_none_right_eq_some, Option.some.injEq, Option.some.injEq, Prod.mk.injEq, and_comm]

/-- What is decoded is what was written for it. -/
theorem Lawful.decode_eq_some (h : Lawful M) {bytes : List UInt8} {m : M} :
    bytes.head? = some (chr (ItchMessage.type M)) ∧ decode M bytes = some m ↔ Small m ∧ bytes = wireBytes m := by
  have hspec : ∀ {bytes rest m'}, readFields (ItchMessage.fields M) ItchMessage.blank bytes = some (m', rest) →
      bytes = ((ItchMessage.fields M).map (·.get m')).flatten ++ rest := fun hread =>
    (readFields_spec h.writes.pairwise_apart h.keeps hread).1
  have hsmall : ∀ {bytes rest m'}, readFields (ItchMessage.fields M) ItchMessage.blank bytes = some (m', rest) →
      Small m' := readFields_invariant h.small_set (by rw [Small, h.header_blank]; decide)
  constructor
  · rintro ⟨hhead, hd⟩
    obtain ⟨bytes, rfl⟩ := List.head?_eq_some_iff.mp hhead
    have hread := (decode_cons _ bytes).mp hd
    refine ⟨hsmall hread, ?_⟩
    rw [wireBytes_eq, hspec hread, List.append_nil]
  · rintro ⟨hm, rfl⟩
    rw [wireBytes_eq]
    refine ⟨rfl, (decode_cons _ _).mpr ?_⟩
    have hlen : ∀ m : M, ((ItchMessage.fields M).map (·.get m)).flatten.length =
        ((ItchMessage.fields M).map (·.size)).sum := fun m => by rw [List.length_flatten, map_length_get]
    cases hread : readFields (ItchMessage.fields M) ItchMessage.blank ((ItchMessage.fields M).map (·.get m)).flatten with
    | none => exact absurd (readFields_eq_none.mp hread) (by rw [hlen]; exact Nat.lt_irrefl _)
    | some r =>
      obtain ⟨m', rest⟩ := r
      have hflat := hspec hread
      -- both messages have fields of the same widths
      obtain rfl : rest = [] := by
        have := congrArg List.length hflat
        rw [List.length_append, hlen, hlen] at this
        exact List.length_eq_zero_iff.mp (by omega)
      rw [List.append_nil] at hflat
      have hmap := List.eq_iff_flatten_eq.mpr ⟨hflat, (map_length_get _ m).trans (map_length_get _ m').symm⟩
      rw [h.ext m m' hm (hsmall hread) hmap]

/-! ## Encoding -/

theorem length_wireBytes (msg : M) : (wireBytes msg).length = encodedSize msg := length_flatten_eq_wireSize _

theorem encode_eq (msg : M) {room : ℕ} (h : encodedSize msg ≤ room) : encode msg room = wireBytes msg := by
  have hputs : WireWriter.puts { room := room } (coreBytes msg) = ⟨room, wireBytes msg, true⟩ := by
    rw [WireWriter.puts_eq rfl (by rw [List.length_nil, Nat.zero_add]; exact h), List.nil_append]
    rfl
  rw [encode, hputs]
  rfl

end ItchDetail

open ItchDetail

/-! ## Frames -/

section Frames

variable {p q : (M : Type) → [ItchMessage M] → M → Prop}

theorem visit_imp (h : ∀ M [ItchMessage M], Lawful M → ∀ m : M, p M m → q M m) {frame : ItchFrame}
    (hp : frame.visit p False) : frame.visit q False := by
  obtain ⟨hadd, hexecuted, hprice, hcancel, hdelete, hreplace, htrade⟩ := lawful_messages
  cases frame with
  | none => exact hp
  | addOrder m => exact h _ hadd m hp
  | orderExecuted m => exact h _ hexecuted m hp
  | orderExecutedWithPrice m => exact h _ hprice m hp
  | orderCancel m => exact h _ hcancel m hp
  | orderDelete m => exact h _ hdelete m hp
  | orderReplace m => exact h _ hreplace m hp
  | trade m => exact h _ htrade m hp

end Frames

/-- The type byte picks the decoder. -/
theorem decodeItch_decodes {bytes : List UInt8} {frame : ItchFrame} (h : frame ≠ .none) : decodeItch bytes = frame ↔
    frame.visit (fun M _ m => bytes.head? = some (chr (ItchMessage.type M)) ∧ decode M bytes = some m) False := by
  have hne : [chr 'A', chr 'E', chr 'C', chr 'X', chr 'D', chr 'U', chr 'P'].Nodup := by decide
  cases bytes with
  | nil => cases frame <;> simp_all [decodeItch, ItchFrame.visit]
  | cons type bytes =>
    simp only [decodeItch, ite_elim_eq_iff h]
    cases frame <;> simp [ItchFrame.visit, ItchMessage.type] at h ⊢ <;> grind

/-- A decoded frame is what was written for it. -/
theorem decodeItch_eq_iff {bytes : List UInt8} {frame : ItchFrame} : decodeItch bytes = frame ∧ frame ≠ .none ↔
    frame.visit (fun _ _ m => Small m ∧ bytes = wireBytes m) False := by
  constructor
  · rintro ⟨hd, hne⟩
    exact visit_imp (fun _ _ hl _ => hl.decode_eq_some.mp) ((decodeItch_decodes hne).mp hd)
  · intro hr
    have hne : frame ≠ .none := fun e => by rw [e] at hr; exact hr
    exact ⟨(decodeItch_decodes hne).mpr (visit_imp (fun _ _ hl _ => hl.decode_eq_some.mpr) hr), hne⟩

theorem encodeItch_of_visit {bytes : List UInt8} {frame : ItchFrame}
    (h : frame.visit (fun _ _ m => Small m ∧ bytes = wireBytes m) False) {room : ℕ} (hroom : frame.encodedSize ≤ room) :
    encodeItch frame room = bytes := by
  cases frame with
  | none => exact h.elim
  | addOrder m => exact (encode_eq m hroom).trans h.2.symm
  | orderExecuted m => exact (encode_eq m hroom).trans h.2.symm
  | orderExecutedWithPrice m => exact (encode_eq m hroom).trans h.2.symm
  | orderCancel m => exact (encode_eq m hroom).trans h.2.symm
  | orderDelete m => exact (encode_eq m hroom).trans h.2.symm
  | orderReplace m => exact (encode_eq m hroom).trans h.2.symm
  | trade m => exact (encode_eq m hroom).trans h.2.symm

/-- What is written is the frame with the low bits of its timestamp. -/
theorem frameLow48_visit {frame : ItchFrame} (hne : frame ≠ .none) {room : ℕ} (hroom : frame.encodedSize ≤ room) :
    (frameLow48 frame).visit (fun _ _ m => Small m ∧ encodeItch frame room = wireBytes m) False := by
  obtain ⟨hadd, hexecuted, hprice, hcancel, hdelete, hreplace, htrade⟩ := lawful_messages
  have hlow : ∀ M [ItchMessage M], Lawful M → ∀ m : M, ItchDetail.encodedSize m ≤ room →
      Small (low48 m) ∧ encode m room = wireBytes (low48 m) := fun M _ hl m hm =>
    ⟨hl.small_low48 m, by rw [encode_eq m hm, hl.wireBytes_low48]⟩
  cases frame with
  | none => exact absurd rfl hne
  | addOrder m => exact hlow _ hadd m hroom
  | orderExecuted m => exact hlow _ hexecuted m hroom
  | orderExecutedWithPrice m => exact hlow _ hprice m hroom
  | orderCancel m => exact hlow _ hcancel m hroom
  | orderDelete m => exact hlow _ hdelete m hroom
  | orderReplace m => exact hlow _ hreplace m hroom
  | trade m => exact hlow _ htrade m hroom

theorem frameLow48_eq {frame : ItchFrame} (h : timestamp frame < 2 ^ 48) : frameLow48 frame = frame := by
  obtain ⟨hadd, hexecuted, hprice, hcancel, hdelete, hreplace, htrade⟩ := lawful_messages
  cases frame with
  | none => rfl
  | addOrder m => exact congrArg _ (hadd.low48_eq h)
  | orderExecuted m => exact congrArg _ (hexecuted.low48_eq h)
  | orderExecutedWithPrice m => exact congrArg _ (hprice.low48_eq h)
  | orderCancel m => exact congrArg _ (hcancel.low48_eq h)
  | orderDelete m => exact congrArg _ (hdelete.low48_eq h)
  | orderReplace m => exact congrArg _ (hreplace.low48_eq h)
  | trade m => exact congrArg _ (htrade.low48_eq h)

theorem length_encodeItch {frame : ItchFrame} {room : ℕ} (hroom : frame.encodedSize ≤ room) :
    (encodeItch frame room).length = frame.encodedSize := by
  have hlen : ∀ M [ItchMessage M] (m : M), ItchDetail.encodedSize m ≤ room →
      (encode m room).length = ItchDetail.encodedSize m := fun M _ m hm => by rw [encode_eq m hm, length_wireBytes]
  cases frame with
  | none => rfl
  | addOrder m => exact hlen _ m hroom
  | orderExecuted m => exact hlen _ m hroom
  | orderExecutedWithPrice m => exact hlen _ m hroom
  | orderCancel m => exact hlen _ m hroom
  | orderDelete m => exact hlen _ m hroom
  | orderReplace m => exact hlen _ m hroom
  | trade m => exact hlen _ m hroom

/-- Any frame is decoded from its encoding with the low 48 bits of its timestamp. -/
theorem decodeItch_encodeItch (frame : ItchFrame) {room : ℕ} (hroom : frame.encodedSize ≤ room) :
    decodeItch (encodeItch frame room) = frameLow48 frame := by
  rcases eq_or_ne frame .none with rfl | hne
  · rfl
  · exact (decodeItch_eq_iff.mpr (frameLow48_visit hne hroom)).1

/-- Encoding and decoding ITCH are inverse to each other, for timestamps that fit the wire. -/
theorem itch_codec_inverse :
    (∀ frame, timestamp frame < 2 ^ 48 → ∀ room, frame.encodedSize ≤ room →
      decodeItch (encodeItch frame room) = frame ∧ (encodeItch frame room).length = frame.encodedSize) ∧
    (∀ bytes, decodeItch bytes ≠ .none → ∀ room, (decodeItch bytes).encodedSize ≤ room →
      encodeItch (decodeItch bytes) room = bytes) ∧
    ∀ frame room, frame.encodedSize ≤ room → decodeItch (encodeItch frame room) = frameLow48 frame := by
  refine ⟨fun frame hts room hroom => ⟨?_, length_encodeItch hroom⟩, fun bytes hne room hroom => ?_,
    fun frame room hroom => decodeItch_encodeItch frame hroom⟩
  · rw [decodeItch_encodeItch frame hroom, frameLow48_eq hts]
  · exact encodeItch_of_visit (decodeItch_eq_iff.mp ⟨rfl, hne⟩) hroom

end Exchange
