import Exchange.Impl.OuchCodec

/-!
# SoupBinTCP packets

`soupbintcp_proto.hpp`. A packet is a 2-byte big-endian length, which counts everything
after it, a type byte and the payload. The encoders return the bytes written, none if
they did not fit.
-/

namespace Exchange

/-- `kSoupHeaderLen`. -/
def soupHeaderLen : ℕ := 3

inductive SoupPacketType
  | debug
  | loginAccepted
  | loginRejected
  | sequencedData
  | serverHeartbeat
  | endOfSession
  | loginRequest
  | unsequencedData
  | clientHeartbeat
  | logoutRequest
  deriving DecidableEq, Repr

def SoupPacketType.byte : SoupPacketType → UInt8
  | .debug => chr '+'
  | .loginAccepted => chr 'A'
  | .loginRejected => chr 'J'
  | .sequencedData => chr 'S'
  | .serverHeartbeat => chr 'H'
  | .endOfSession => chr 'Z'
  | .loginRequest => chr 'L'
  | .unsequencedData => chr 'U'
  | .clientHeartbeat => chr 'R'
  | .logoutRequest => chr 'O'

/-- The enumerator a type byte stands for, if any. -/
def SoupPacketType.ofByte (b : UInt8) : Option SoupPacketType :=
  [.debug, .loginAccepted, .loginRejected, .sequencedData, .serverHeartbeat, .endOfSession, .loginRequest,
    .unsequencedData, .clientHeartbeat, .logoutRequest].find? fun type => type.byte = b

/-- `soup_reject`. -/
inductive SoupReject
  | notAuthorized
  | sessionNotAvailable
  deriving DecidableEq, Repr

def SoupReject.byte : SoupReject → UInt8
  | .notAuthorized => chr 'A'
  | .sessionNotAvailable => chr 'S'

/-- `SoupLoginRequest`. -/
structure SoupLoginRequest where
  username : Vector UInt8 6
  password : Vector UInt8 10
  /-- All blanks: the currently active session. -/
  requestedSession : Vector UInt8 10
  /-- The next one wanted; 0 is the most recent. -/
  requestedSequenceNumber : ℕ
  deriving DecidableEq

/-- `SoupLoginAccepted`. -/
structure SoupLoginAccepted where
  session : Vector UInt8 10
  /-- Of the next Sequenced Data packet. -/
  sequenceNumber : ℕ
  deriving DecidableEq

/-- `kSoupNumericLen`. -/
def soupNumericLen : ℕ := 20

/-- `kSoupLoginRequestLen`. -/
def soupLoginRequestLen : ℕ := 6 + 10 + 10 + 20

/-- `kSoupLoginAcceptedLen`. -/
def soupLoginAcceptedLen : ℕ := 10 + 20

/-- `soup_session_id`: right-justified. -/
def soupSessionId (id : List Char) : Vector UInt8 10 :=
  let n := min id.length 10
  Vector.ofFn fun i => if i.val < 10 - n then chr ' ' else (id.map chr).getD (i.val - (10 - n)) (chr ' ')

/-! ## Encoding -/

/-- `soup_detail::write_header`, of a packet with `payloadLen` bytes of payload in a
buffer of `room` bytes. -/
def writeHeader (type : SoupPacketType) (payloadLen room : ℕ) : Option (List UInt8) :=
  if room < soupHeaderLen + payloadLen ∨ payloadLen + 1 > 65535 then none
  else some (bigEndian 2 (payloadLen + 1) ++ [type.byte])

/-- `soup_detail::write_numeric` into `n` bytes, the last one first: decimal digits,
padded on the left with spaces. -/
def writeNumericFrom : Bool → ℕ → ℕ → List UInt8
  | _, 0, _ => []
  | last, n + 1, value =>
    writeNumericFrom false n (value / 10) ++
      [if value = 0 ∧ !last then chr ' ' else UInt8.ofNat (48 + value % 10)]

def writeNumeric (value : ℕ) : List UInt8 := writeNumericFrom true soupNumericLen value

/-- `encode_soup_empty`. -/
def encodeSoupEmpty (type : SoupPacketType) (room : ℕ) : List UInt8 :=
  match writeHeader type 0 room with
  | none => []
  | some header => header

/-- `encode_soup_login_request`. -/
def encodeSoupLoginRequest (login : SoupLoginRequest) (room : ℕ) : List UInt8 :=
  match writeHeader .loginRequest soupLoginRequestLen room with
  | none => []
  | some header => header ++ login.username.toList ++ login.password.toList ++ login.requestedSession.toList ++
      writeNumeric login.requestedSequenceNumber

/-- `encode_soup_login_accepted`. -/
def encodeSoupLoginAccepted (accepted : SoupLoginAccepted) (room : ℕ) : List UInt8 :=
  match writeHeader .loginAccepted soupLoginAcceptedLen room with
  | none => []
  | some header => header ++ accepted.session.toList ++ writeNumeric accepted.sequenceNumber

/-- `encode_soup_login_rejected`, for any reason code. -/
def encodeSoupLoginRejected (reason : UInt8) (room : ℕ) : List UInt8 :=
  match writeHeader .loginRejected 1 room with
  | none => []
  | some header => header ++ [reason]

/-- `encode_soup_unsequenced`. -/
def encodeSoupUnsequenced (msg : OuchInboundFrame) (room : ℕ) : List UInt8 :=
  let len := msg.encodedSize
  if len = 0 then []
  else
    match writeHeader .unsequencedData len room with
    | none => []
    | some header =>
      let payload := encodeInboundOuch msg len
      if payload.length = len then header ++ payload else []

/-- `encode_soup_sequenced`. -/
def encodeSoupSequenced (msg : OuchOutboundFrame) (room : ℕ) : List UInt8 :=
  let len := encodedSize msg
  if len = 0 then []
  else
    match writeHeader .sequencedData len room with
    | none => []
    | some header =>
      let payload := encodeOutboundOuch msg len
      if payload.length = len then header ++ payload else []

/-! ## Decoding -/

/-- `SoupPacket`: `type` is the byte on the wire. -/
structure SoupPacket where
  type : UInt8
  payload : List UInt8
  deriving DecidableEq

/-- `SoupParseResult`. -/
inductive SoupParse
  | packet (packet : SoupPacket) (consumed : ℕ)
  | incomplete
  | malformed
  deriving DecidableEq

/-- `parse_soup_packet`. -/
def parseSoupPacket (stream : List UInt8) : SoupParse :=
  if stream.length < 2 then .incomplete
  else
    let length := ofBigEndian (stream.take 2)
    if length = 0 then .malformed
    else if stream.length < 2 + length then .incomplete
    else .packet { type := stream.getD 2 0, payload := (stream.drop soupHeaderLen).take (length - 1) } (2 + length)

/-- The loop of `read_numeric` over the digits, up to a space: the value is kept in 64
bits. -/
def readDigits : ℕ → List UInt8 → Option (ℕ × List UInt8)
  | value, [] => some (value, [])
  | value, c :: cs =>
    if c = chr ' ' then some (value, c :: cs)
    else if c < chr '0' ∨ c > chr '9' then none
    else readDigits ((value * 10 + (c.toNat - 48)) % 2 ^ 64) cs

/-- `soup_detail::read_numeric`. -/
def readNumeric (field : List UInt8) : Option ℕ :=
  match field.dropWhile (· = chr ' ') with
  | [] => none
  | digits => do
    let (value, rest) ← readDigits 0 digits
    if rest.all (· = chr ' ') then some value else none

/-- `soup_detail::read_alpha`. -/
def readAlpha (n : ℕ) (bytes : List UInt8) : Vector UInt8 n := Vector.ofFn fun i => bytes.getD i 0

/-- `decode_soup_login_request`. -/
def decodeSoupLoginRequest (payload : List UInt8) : Option SoupLoginRequest :=
  if payload.length ≠ soupLoginRequestLen then none
  else (readNumeric ((payload.drop 26).take soupNumericLen)).map fun sequence => {
    username := readAlpha 6 payload
    password := readAlpha 10 (payload.drop 6)
    requestedSession := readAlpha 10 (payload.drop 16)
    requestedSequenceNumber := sequence }

/-- `decode_soup_login_accepted`. -/
def decodeSoupLoginAccepted (payload : List UInt8) : Option SoupLoginAccepted :=
  if payload.length ≠ soupLoginAcceptedLen then none
  else (readNumeric ((payload.drop 10).take soupNumericLen)).map fun sequence => {
    session := readAlpha 10 payload
    sequenceNumber := sequence }

/-! ## What the encoders write -/

@[simp] theorem length_writeNumericFrom (last : Bool) (n value : ℕ) :
    (writeNumericFrom last n value).length = n := by
  induction n generalizing last value with
  | zero => rfl
  | succ n ih => rw [writeNumericFrom, List.length_append, ih, List.length_singleton]

/-- A message that fits is framed as one packet. -/
theorem encodeSoupSequenced_eq {msg : OuchOutboundFrame} {room : ℕ} (h₀ : encodedSize msg ≠ 0)
    (h : soupHeaderLen + encodedSize msg ≤ room) (hmax : encodedSize msg + 1 ≤ 65535) :
    encodeSoupSequenced msg room = bigEndian 2 (encodedSize msg + 1) ++ [SoupPacketType.sequencedData.byte] ++
      encodeOutboundOuch msg (encodedSize msg) := by
  simp only [encodeSoupSequenced, if_neg h₀, writeHeader, if_neg (show ¬ (room < soupHeaderLen + encodedSize msg ∨
    encodedSize msg + 1 > 65535) by omega), length_encodeOutboundOuch, if_true]

/-- No more is written than there is room for. -/
theorem length_encodeSoupSequenced_le (msg : OuchOutboundFrame) (room : ℕ) :
    (encodeSoupSequenced msg room).length ≤ room := by
  unfold encodeSoupSequenced
  dsimp only
  split
  · exact Nat.zero_le _
  · split
    · exact Nat.zero_le _
    · next header hh =>
      unfold writeHeader at hh
      split_ifs at hh with hroom
      obtain rfl := Option.some.inj hh
      split
      · next hp =>
        simp only [List.length_append, length_bigEndian, List.length_singleton, hp]
        simp only [soupHeaderLen] at hroom
        omega
      · exact Nat.zero_le _

end Exchange
