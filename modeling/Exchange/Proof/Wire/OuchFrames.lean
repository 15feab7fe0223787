import Exchange.Proof.Wire.Ouch

/-!
# OUCH frames

The eight messages have lawful hooks, so what holds of one message holds of a frame in
either direction. `decodeInboundOuch_eq_iff` and `decodeOutboundOuch_eq_iff` turn a decoded
frame into what its bytes say; with them decoding accepts exactly the grammar, and a
regular frame is read back from any buffer that it was written into.
-/

namespace Exchange

open Spec OuchDetail

section Direction

variable {p q : Char → (M : Type) → [OuchMessage M] → M → Prop}

theorem ofInbound_imp (h : ∀ type M [OuchMessage M], Lawful M type → ∀ m : M, p type M m → q type M m)
    {frame : OuchInboundFrame} (hp : ofInbound p frame) : ofInbound q frame := by
  obtain ⟨henter, hreplace, hcancel⟩ := lawful_inbound
  cases frame with
  | none => exact hp
  | enterOrder m => exact h _ _ henter m hp
  | replaceOrder m => exact h _ _ hreplace m hp
  | cancelOrder m => exact h _ _ hcancel m hp

theorem ofOutbound_imp (h : ∀ type M [OuchMessage M], Lawful M type → ∀ m : M, p type M m → q type M m)
    {frame : OuchOutboundFrame} (hp : ofOutbound p frame) : ofOutbound q frame := by
  obtain ⟨haccepted, hreplaced, hcanceled, hexecuted, hrejected⟩ := lawful_outbound
  cases frame with
  | none => exact hp
  | orderAccepted m => exact h _ _ haccepted m hp
  | orderReplaced m => exact h _ _ hreplaced m hp
  | orderCanceled m => exact h _ _ hcanceled m hp
  | orderExecuted m => exact h _ _ hexecuted m hp
  | orderRejected m => exact h _ _ hrejected m hp

end Direction

/-! ## Decoding a frame -/

/-- `bytes` start with the type byte and decode to the message. -/
def Decodes (bytes : List UInt8) (type : Char) (M : Type) [OuchMessage M] (msg : M) : Prop :=
  bytes.head? = some (chr type) ∧ decode M bytes = some msg

/-- A decoder that is tried for one type byte, before the rest `e`. -/
theorem ite_elim_eq_iff {α β : Type} {p : Prop} [Decidable p] {x : Option α} {d e b : β} {f : α → β} (hb : b ≠ d) :
    (if p then x.elim d f else e) = b ↔ p ∧ (∃ a, x = some a ∧ f a = b) ∨ ¬p ∧ e = b := by
  split_ifs with hp
  · cases x with
    | none => simp [hp, hb.symm]
    | some a => simp [hp]
  · simp [hp]

/-- The type byte picks the decoder. -/
theorem decodeInboundOuch_decodes {bytes : List UInt8} {frame : OuchInboundFrame} (h : frame ≠ .none) :
    decodeInboundOuch bytes = frame ↔ ofInbound (Decodes bytes) frame := by
  have hne : [chr 'O', chr 'U', chr 'X'].Nodup := by decide
  cases bytes with
  | nil => cases frame <;> simp_all [decodeInboundOuch, ofInbound, Decodes]
  | cons type bytes =>
    simp only [decodeInboundOuch, ite_elim_eq_iff h]
    cases frame <;> simp [ofInbound, Decodes] at h ⊢ <;> grind

theorem decodeOutboundOuch_decodes {bytes : List UInt8} {frame : OuchOutboundFrame} (h : frame ≠ .none) :
    decodeOutboundOuch bytes = frame ↔ ofOutbound (Decodes bytes) frame := by
  have hne : [chr 'A', chr 'U', chr 'C', chr 'E', chr 'J'].Nodup := by decide
  cases bytes with
  | nil => cases frame <;> simp_all [decodeOutboundOuch, ofOutbound, Decodes]
  | cons type bytes =>
    simp only [decodeOutboundOuch, ite_elim_eq_iff h]
    cases frame <;> simp [ofOutbound, Decodes] at h ⊢ <;> grind

/-- A decoded frame is what the bytes say. -/
theorem decodeInboundOuch_eq_iff {bytes : List UInt8} {frame : OuchInboundFrame} :
    decodeInboundOuch bytes = frame ∧ frame ≠ .none ↔ ofInbound (ReadAs bytes) frame := by
  constructor
  · rintro ⟨hd, hne⟩
    exact ofInbound_imp (fun _ _ _ hl _ => hl.decode_iff_readAs.mp) ((decodeInboundOuch_decodes hne).mp hd)
  · intro hr
    have hne : frame ≠ .none := fun e => by rw [e] at hr; exact hr
    exact ⟨(decodeInboundOuch_decodes hne).mpr (ofInbound_imp (fun _ _ _ hl _ => hl.decode_iff_readAs.mpr) hr), hne⟩

theorem decodeOutboundOuch_eq_iff {bytes : List UInt8} {frame : OuchOutboundFrame} :
    decodeOutboundOuch bytes = frame ∧ frame ≠ .none ↔ ofOutbound (ReadAs bytes) frame := by
  constructor
  · rintro ⟨hd, hne⟩
    exact ofOutbound_imp (fun _ _ _ hl _ => hl.decode_iff_readAs.mp) ((decodeOutboundOuch_decodes hne).mp hd)
  · intro hr
    have hne : frame ≠ .none := fun e => by rw [e] at hr; exact hr
    exact ⟨(decodeOutboundOuch_decodes hne).mpr (ofOutbound_imp (fun _ _ _ hl _ => hl.decode_iff_readAs.mpr) hr), hne⟩

theorem inboundGrammar_iff {bytes : List UInt8} : InboundGrammar bytes ↔ ∃ frame, ofInbound (ReadAs bytes) frame := by
  obtain ⟨henter, hreplace, hcancel⟩ := lawful_inbound
  rw [InboundGrammar, henter.accepts_iff, hreplace.accepts_iff, hcancel.accepts_iff]
  constructor
  · rintro (⟨m, hm⟩ | ⟨m, hm⟩ | ⟨m, hm⟩)
    · exact ⟨.enterOrder m, hm⟩
    · exact ⟨.replaceOrder m, hm⟩
    · exact ⟨.cancelOrder m, hm⟩
  · rintro ⟨frame, hm⟩
    cases frame with
    | none => exact hm.elim
    | enterOrder m => exact .inl ⟨m, hm⟩
    | replaceOrder m => exact .inr (.inl ⟨m, hm⟩)
    | cancelOrder m => exact .inr (.inr ⟨m, hm⟩)

theorem outboundGrammar_iff {bytes : List UInt8} :
    OutboundGrammar bytes ↔ ∃ frame, ofOutbound (ReadAs bytes) frame := by
  obtain ⟨haccepted, hreplaced, hcanceled, hexecuted, hrejected⟩ := lawful_outbound
  rw [OutboundGrammar, haccepted.accepts_iff, hreplaced.accepts_iff,
    hcanceled.accepts_iff, hexecuted.accepts_iff, hrejected.accepts_iff]
  constructor
  · rintro (⟨m, hm⟩ | ⟨m, hm⟩ | ⟨m, hm⟩ | ⟨m, hm⟩ | ⟨m, hm⟩)
    · exact ⟨.orderAccepted m, hm⟩
    · exact ⟨.orderReplaced m, hm⟩
    · exact ⟨.orderCanceled m, hm⟩
    · exact ⟨.orderExecuted m, hm⟩
    · exact ⟨.orderRejected m, hm⟩
  · rintro ⟨frame, hm⟩
    cases frame with
    | none => exact hm.elim
    | orderAccepted m => exact .inl ⟨m, hm⟩
    | orderReplaced m => exact .inr (.inl ⟨m, hm⟩)
    | orderCanceled m => exact .inr (.inr (.inl ⟨m, hm⟩))
    | orderExecuted m => exact .inr (.inr (.inr (.inl ⟨m, hm⟩)))
    | orderRejected m => exact .inr (.inr (.inr (.inr ⟨m, hm⟩)))

/-! ## Encoding a frame -/

/-- A message without optional fields is regular. -/
theorem regular_of_blank {M : Type} [OuchMessage M] {m : M} (ha : OuchMessage.appendage m = {})
    (hd : ∀ t ∈ OuchMessage.tags (M := M), t.2.get m = t.2.get OuchMessage.blank) : Regular m where
  supported i hi := by
    rw [ha] at hi
    simp at hi
  default t ht _ := hd t ht

theorem encodeInboundOuch_spec {frame : OuchInboundFrame} (hr : ofInbound (fun _ _ _ => Regular) frame) {room : ℕ}
    (hroom : frame.encodedSize ≤ room) : (encodeInboundOuch frame room).length = frame.encodedSize ∧
      ofInbound (ReadAs (encodeInboundOuch frame room)) frame ∧
      ofInbound (fun _ _ _ => Written (encodeInboundOuch frame room)) frame := by
  obtain ⟨henter, hreplace, hcancel⟩ := lawful_inbound
  cases frame with
  | none => exact hr.elim
  | enterOrder m => exact henter.encode_spec hr hroom
  | replaceOrder m => exact hreplace.encode_spec hr hroom
  | cancelOrder m => exact hcancel.encode_spec hr hroom

theorem encodeInboundOuch_eq_nil {frame : OuchInboundFrame} {room : ℕ} (h : room < frame.encodedSize) :
    encodeInboundOuch frame room = [] := by
  cases frame with
  | none => rfl
  | enterOrder m => exact encode_eq_nil h
  | replaceOrder m => exact encode_eq_nil h
  | cancelOrder m => exact encode_eq_nil h

theorem encodeOutboundOuch_spec {frame : OuchOutboundFrame} (hr : ofOutbound (fun _ _ _ => Regular) frame) {room : ℕ}
    (hroom : encodedSize frame ≤ room) : (encodeOutboundOuch frame room).length = encodedSize frame ∧
      ofOutbound (ReadAs (encodeOutboundOuch frame room)) frame ∧
      ofOutbound (fun _ _ _ => Written (encodeOutboundOuch frame room)) frame := by
  obtain ⟨haccepted, hreplaced, hcanceled, hexecuted, hrejected⟩ := lawful_outbound
  cases frame with
  | none => exact hr.elim
  | orderAccepted m => exact haccepted.encode_spec hr hroom
  | orderReplaced m => exact hreplaced.encode_spec hr hroom
  | orderCanceled m => exact hcanceled.encode_spec hr hroom
  | orderExecuted m => exact hexecuted.encode_spec hr hroom
  | orderRejected m => exact hrejected.encode_spec hr hroom

theorem encodeOutboundOuch_eq_nil {frame : OuchOutboundFrame} {room : ℕ} (h : room < encodedSize frame) :
    encodeOutboundOuch frame room = [] := by
  cases frame with
  | none => rfl
  | orderAccepted m => exact encode_eq_nil h
  | orderReplaced m => exact encode_eq_nil h
  | orderCanceled m => exact encode_eq_nil h
  | orderExecuted m => exact encode_eq_nil h
  | orderRejected m => exact encode_eq_nil h

/-- Any message is decoded, regular or not. -/
theorem sameInbound_decode {frame : OuchInboundFrame} {room : ℕ} (hne : frame ≠ .none)
    (hroom : frame.encodedSize ≤ room) : SameInbound frame (decodeInboundOuch (encodeInboundOuch frame room)) := by
  obtain ⟨henter, hreplace, hcancel⟩ := lawful_inbound
  have hdecode : ∀ frame', ofInbound (ReadAs (encodeInboundOuch frame room)) frame' → SameInbound frame frame' →
      SameInbound frame (decodeInboundOuch (encodeInboundOuch frame room)) := fun frame' hr hsame => by
    rwa [(decodeInboundOuch_eq_iff.mpr hr).1]
  cases frame with
  | none => exact absurd rfl hne
  | enterOrder m =>
    obtain ⟨m', hr, hsame⟩ := henter.exists_readAs_encode m hroom
    exact hdecode (.enterOrder m') hr hsame
  | replaceOrder m =>
    obtain ⟨m', hr, hsame⟩ := hreplace.exists_readAs_encode m hroom
    exact hdecode (.replaceOrder m') hr hsame
  | cancelOrder m =>
    obtain ⟨m', hr, hsame⟩ := hcancel.exists_readAs_encode m hroom
    exact hdecode (.cancelOrder m') hr hsame

theorem sameOutbound_decode {frame : OuchOutboundFrame} {room : ℕ} (hne : frame ≠ .none)
    (hroom : encodedSize frame ≤ room) : SameOutbound frame (decodeOutboundOuch (encodeOutboundOuch frame room)) := by
  obtain ⟨haccepted, hreplaced, hcanceled, hexecuted, hrejected⟩ := lawful_outbound
  have hdecode : ∀ frame', ofOutbound (ReadAs (encodeOutboundOuch frame room)) frame' → SameOutbound frame frame' →
      SameOutbound frame (decodeOutboundOuch (encodeOutboundOuch frame room)) := fun frame' hr hsame => by
    rwa [(decodeOutboundOuch_eq_iff.mpr hr).1]
  cases frame with
  | none => exact absurd rfl hne
  | orderAccepted m =>
    obtain ⟨m', hr, hsame⟩ := haccepted.exists_readAs_encode m hroom
    exact hdecode (.orderAccepted m') hr hsame
  | orderReplaced m =>
    obtain ⟨m', hr, hsame⟩ := hreplaced.exists_readAs_encode m hroom
    exact hdecode (.orderReplaced m') hr hsame
  | orderCanceled m =>
    obtain ⟨m', hr, hsame⟩ := hcanceled.exists_readAs_encode m hroom
    exact hdecode (.orderCanceled m') hr hsame
  | orderExecuted m =>
    obtain ⟨m', hr, hsame⟩ := hexecuted.exists_readAs_encode m hroom
    exact hdecode (.orderExecuted m') hr hsame
  | orderRejected m =>
    obtain ⟨m', hr, hsame⟩ := hrejected.exists_readAs_encode m hroom
    exact hdecode (.orderRejected m') hr hsame

theorem decodeOutboundOuch_ne_none {frame : OuchOutboundFrame} (h : frame ≠ .none) :
    decodeOutboundOuch (encodeOutboundOuch frame (encodedSize frame)) ≠ .none := by
  have hsame := sameOutbound_decode h (Nat.le_refl (encodedSize frame))
  intro e
  rw [e] at hsame
  cases frame <;> exact hsame

/-! ## Round trips -/

/-- A regular message is written into every buffer that has room for it, with the lengths
of what follows them, and read back; into a smaller one it is not written. -/
theorem ouch_round_trip :
    (∀ frame, ofInbound (fun _ _ _ => Regular) frame → ∀ room,
      (frame.encodedSize ≤ room → (encodeInboundOuch frame room).length = frame.encodedSize ∧
        decodeInboundOuch (encodeInboundOuch frame room) = frame ∧
        ofInbound (fun _ _ _ => Written (encodeInboundOuch frame room)) frame) ∧
      (room < frame.encodedSize → encodeInboundOuch frame room = [])) ∧
    (∀ frame, ofOutbound (fun _ _ _ => Regular) frame → ∀ room,
      (encodedSize frame ≤ room → (encodeOutboundOuch frame room).length = encodedSize frame ∧
        decodeOutboundOuch (encodeOutboundOuch frame room) = frame ∧
        ofOutbound (fun _ _ _ => Written (encodeOutboundOuch frame room)) frame) ∧
      (room < encodedSize frame → encodeOutboundOuch frame room = [])) := by
  refine ⟨fun frame hr room => ⟨fun hroom => ?_, encodeInboundOuch_eq_nil⟩,
    fun frame hr room => ⟨fun hroom => ?_, encodeOutboundOuch_eq_nil⟩⟩
  · obtain ⟨hlen, hread, hwritten⟩ := encodeInboundOuch_spec hr hroom
    exact ⟨hlen, (decodeInboundOuch_eq_iff.mpr hread).1, hwritten⟩
  · obtain ⟨hlen, hread, hwritten⟩ := encodeOutboundOuch_spec hr hroom
    exact ⟨hlen, (decodeOutboundOuch_eq_iff.mpr hread).1, hwritten⟩

/-- What is decoded is the grammar, as the bytes say it, and the result is decoded again from
its own encoding. -/
theorem decodeOuch_accepts_grammar (bytes : List UInt8) :
    ((decodeInboundOuch bytes ≠ .none ↔ InboundGrammar bytes) ∧ ∀ frame,
      (decodeInboundOuch bytes = frame ∧ frame ≠ .none ↔ ofInbound (ReadAs bytes) frame) ∧
      (decodeInboundOuch bytes = frame → ∀ room, frame.encodedSize ≤ room →
        decodeInboundOuch (encodeInboundOuch frame room) = frame)) ∧
    ((decodeOutboundOuch bytes ≠ .none ↔ OutboundGrammar bytes) ∧ ∀ frame,
      (decodeOutboundOuch bytes = frame ∧ frame ≠ .none ↔ ofOutbound (ReadAs bytes) frame) ∧
      (decodeOutboundOuch bytes = frame → ∀ room, encodedSize frame ≤ room →
        decodeOutboundOuch (encodeOutboundOuch frame room) = frame)) := by
  have hregular : ∀ type M [OuchMessage M], Lawful M type → ∀ m : M, ReadAs bytes type M m → Regular m := by
    rintro type M _ - m ⟨core, elements, -, hr⟩
    exact regular_of_denotes hr
  refine ⟨⟨?_, fun frame => ⟨decodeInboundOuch_eq_iff, fun hd room hroom => ?_⟩⟩,
    ⟨?_, fun frame => ⟨decodeOutboundOuch_eq_iff, fun hd room hroom => ?_⟩⟩⟩
  · rw [inboundGrammar_iff]
    exact ⟨fun h => ⟨_, decodeInboundOuch_eq_iff.mp ⟨rfl, h⟩⟩, fun ⟨frame, h⟩ =>
      have h := decodeInboundOuch_eq_iff.mpr h
      h.1 ▸ h.2⟩
  · rcases eq_or_ne frame .none with rfl | hne
    · rfl
    · have hr := ofInbound_imp hregular (decodeInboundOuch_eq_iff.mp ⟨hd, hne⟩)
      exact (decodeInboundOuch_eq_iff.mpr (encodeInboundOuch_spec hr hroom).2.1).1
  · rw [outboundGrammar_iff]
    exact ⟨fun h => ⟨_, decodeOutboundOuch_eq_iff.mp ⟨rfl, h⟩⟩, fun ⟨frame, h⟩ =>
      have h := decodeOutboundOuch_eq_iff.mpr h
      h.1 ▸ h.2⟩
  · rcases eq_or_ne frame .none with rfl | hne
    · rfl
    · have hr := ofOutbound_imp hregular (decodeOutboundOuch_eq_iff.mp ⟨hd, hne⟩)
      exact (decodeOutboundOuch_eq_iff.mpr (encodeOutboundOuch_spec hr hroom).2.1).1

end Exchange
