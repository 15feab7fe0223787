import Mathlib.Data.List.GetD
import Exchange.Framework.PrefixCode
import Exchange.Impl.Soup
import Exchange.Proof.Wire.Fields
import Exchange.Spec.Wire

/-!
# SoupBinTCP framing

What a numeric field is read as (`readNumeric_eq_some`), and what is read off what was
written: the numeric fields, the logins, and the packets themselves. A packet is recognised from its own bytes, so packets
are a prefix code (`prefixFree_framed`).
-/

namespace Exchange

open Spec (Numeric decimal)

/-! ## Numeric fields -/

/-- The value of a string of digits read after `value`. -/
def valueOf (value : ℕ) (digits : List UInt8) : ℕ := digits.foldl (fun v c => v * 10 + (c.toNat - 48)) value

/-- `c` is a digit. -/
def IsDigit (c : UInt8) : Prop := 48 ≤ c.toNat ∧ c.toNat ≤ 57

theorem isDigit_iff {c : UInt8} : IsDigit c ↔ chr '0' ≤ c ∧ c ≤ chr '9' := by
  rw [UInt8.le_iff_toNat_le, UInt8.le_iff_toNat_le]
  rfl

theorem valueOf_eq_decimal (digits : List UInt8) : valueOf 0 digits = decimal digits := by
  rw [valueOf, decimal, Nat.ofDigits_eq_foldr, List.map_reverse, List.foldr_reverse, List.foldl_map]
  congr 1
  funext v c
  rw [Nat.mul_comm, Nat.add_comm]
  rfl

theorem IsDigit.ne_space {c : UInt8} (h : IsDigit c) : c ≠ chr ' ' := by
  rintro rfl
  exact absurd h.1 (by decide)

theorem isDigit_ofNat (value : ℕ) : IsDigit (UInt8.ofNat (48 + value % 10)) := by
  rw [IsDigit, UInt8.toNat_ofNat']
  omega

/-- The last digit is written last. -/
theorem valueOf_concat {digits : List UInt8} {value : ℕ} (h : valueOf 0 digits = value / 10) :
    valueOf 0 (digits ++ [UInt8.ofNat (48 + value % 10)]) = value := by
  have hc : (UInt8.ofNat (48 + value % 10)).toNat - 48 = value % 10 := by
    rw [UInt8.toNat_ofNat']
    omega
  rw [valueOf, List.foldl_append]
  show valueOf 0 digits * 10 + ((UInt8.ofNat (48 + value % 10)).toNat - 48) = value
  rw [h, hc]
  omega

theorem readDigits_digit {c : UInt8} (h : IsDigit c) (value : ℕ) (cs : List UInt8) :
    readDigits (value % 2 ^ 64) (c :: cs) = readDigits ((value * 10 + (c.toNat - 48)) % 2 ^ 64) cs := by
  obtain ⟨h0, h9⟩ := isDigit_iff.mp h
  have hmod : (value % 2 ^ 64 * 10 + (c.toNat - 48)) % 2 ^ 64 = (value * 10 + (c.toNat - 48)) % 2 ^ 64 := by omega
  rw [readDigits, if_neg h.ne_space, if_neg (by simp [h0, h9]), hmod]

/-- The digits are read up to a space, and nothing else is. -/
theorem readDigits_eq_some {value v : ℕ} {cs rest : List UInt8} :
    readDigits (value % 2 ^ 64) cs = some (v, rest) ↔ ∃ digits, cs = digits ++ rest ∧ (∀ c ∈ digits, IsDigit c) ∧
      (∀ c ∈ rest.head?, c = chr ' ') ∧ v = valueOf value digits % 2 ^ 64 := by
  induction cs generalizing value with
  | nil =>
    constructor
    · intro h
      cases h
      exact ⟨[], rfl, nofun, nofun, rfl⟩
    · rintro ⟨digits, happ, -, -, rfl⟩
      obtain ⟨rfl, rfl⟩ := List.append_eq_nil_iff.mp happ.symm
      rfl
  | cons c cs ih =>
    by_cases hc : IsDigit c
    · rw [readDigits_digit hc, ih]
      constructor
      · rintro ⟨digits, rfl, hd, hrest, rfl⟩
        exact ⟨c :: digits, rfl, List.forall_mem_cons.mpr ⟨hc, hd⟩, hrest, rfl⟩
      · rintro ⟨digits, happ, hd, hrest, rfl⟩
        rcases List.cons_eq_append_iff.mp happ with ⟨rfl, rfl⟩ | ⟨digits, rfl, rfl⟩
        · exact absurd (hrest c rfl) hc.ne_space
        · exact ⟨digits, rfl, (List.forall_mem_cons.mp hd).2, hrest, rfl⟩
    · -- the loop stops at a space and fails at anything else
      rw [readDigits]
      split_ifs with hs hrange
      · constructor
        · intro h
          cases h
          exact ⟨[], rfl, nofun, fun _ e => by cases e; exact hs, rfl⟩
        · rintro ⟨digits, happ, hd, -, rfl⟩
          rcases List.cons_eq_append_iff.mp happ with ⟨rfl, rfl⟩ | ⟨digits, rfl, rfl⟩
          · rfl
          · exact absurd (hd c List.mem_cons_self) hc
      · refine iff_of_false nofun ?_
        rintro ⟨digits, happ, hd, hrest, -⟩
        rcases List.cons_eq_append_iff.mp happ with ⟨rfl, rfl⟩ | ⟨digits, rfl, rfl⟩
        · exact hs (hrest c rfl)
        · exact hc (hd c List.mem_cons_self)
      · rw [isDigit_iff, not_and_or, UInt8.not_le, UInt8.not_le] at hc
        exact absurd hc hrange

/-- A field is read as the number that is written in it, in 64 bits. -/
theorem readNumeric_eq_some {field : List UInt8} {v : ℕ} :
    readNumeric field = some v ↔ ∃ n, Numeric field n ∧ v = n % 2 ^ 64 := by
  have hread : ∀ c cs, field.dropWhile (· = chr ' ') = c :: cs →
      readNumeric field = (readDigits (0 % 2 ^ 64) (c :: cs)).bind fun r =>
        if r.2.all (· = chr ' ') then some r.1 else none := fun c cs e => by rw [readNumeric, e, Nat.zero_mod]; rfl
  constructor
  · intro h
    have hsplit := List.takeWhile_append_dropWhile (p := (· = chr ' ')) (l := field)
    cases hds : field.dropWhile (· = chr ' ') with
    | nil =>
      rw [readNumeric, hds] at h
      cases h
    | cons c cs =>
      rw [hread c cs hds] at h
      obtain ⟨⟨value, rest⟩, hr, hall⟩ := Option.bind_eq_some_iff.mp h
      obtain ⟨digits, happ, hd, -, rfl⟩ := readDigits_eq_some.mp hr
      split at hall
      · next hspaces =>
        cases hall
        refine ⟨valueOf 0 digits, ⟨_, digits, rest, by rw [← happ, ← hds, hsplit], ?_, ?_, ?_, ?_, ?_⟩, rfl⟩
        · exact fun x hx => of_decide_eq_true (List.all_eq_true.mp List.all_takeWhile x hx)
        · rintro rfl
          -- the first byte that is not a space is neither a digit nor at the end
          have hc : c ≠ chr ' ' := by
            have := List.head?_dropWhile_not (fun x : UInt8 => decide (x = chr ' ')) field
            rw [hds] at this
            simpa using this
          rw [List.nil_append] at happ
          subst happ
          simp [hc] at hspaces
        · exact fun x hx => isDigit_iff.mp (hd x hx)
        · simpa using hspaces
        · exact (valueOf_eq_decimal digits).symm
      · cases hall
  · rintro ⟨n, ⟨before, digits, after, rfl, hbefore, hne, hd, hafter, rfl⟩, rfl⟩
    obtain ⟨c, cs, rfl⟩ := List.exists_cons_of_ne_nil hne
    have hd : ∀ x ∈ c :: cs, IsDigit x := fun x hx => isDigit_iff.mpr (hd x hx)
    have hdrop : (before ++ (c :: cs ++ after)).dropWhile (· = chr ' ') = c :: (cs ++ after) := by
      rw [List.dropWhile_append_of_pos (by simpa using hbefore), List.cons_append,
        List.dropWhile_cons_of_neg (by simpa using (hd c List.mem_cons_self).ne_space)]
    have hr : readDigits (0 % 2 ^ 64) (c :: (cs ++ after)) = some (valueOf 0 (c :: cs) % 2 ^ 64, after) :=
      readDigits_eq_some.mpr ⟨c :: cs, rfl, hd, fun x hx => hafter x (List.mem_of_mem_head? hx), rfl⟩
    rw [hread _ _ hdrop, hr, valueOf_eq_decimal]
    exact if_pos (by simpa using hafter)

/-- Spaces, then the digits of the value. -/
theorem writeNumericFrom_eq (n : ℕ) {value : ℕ} (h : value < 10 ^ n) :
    ∃ k digits, writeNumericFrom false n value = List.replicate k (chr ' ') ++ digits ∧
      (∀ c ∈ digits, IsDigit c) ∧ valueOf 0 digits = value ∧ (value = 0 → digits = []) := by
  induction n generalizing value with
  | zero =>
    have h0 : value = 0 := by simpa using h
    exact ⟨0, [], rfl, nofun, h0.symm, fun _ => rfl⟩
  | succ n ih =>
    have hdiv : value / 10 < 10 ^ n := by rw [Nat.pow_succ] at h; omega
    obtain ⟨k, digits, he, hd, hv, h0⟩ := ih hdiv
    rw [writeNumericFrom, he]
    by_cases hz : value = 0
    · subst hz
      refine ⟨k + 1, [], ?_, nofun, rfl, fun _ => rfl⟩
      rw [h0 rfl, List.append_nil, List.append_nil, List.replicate_succ']
      rfl
    · refine ⟨k, digits ++ [UInt8.ofNat (48 + value % 10)], ?_, ?_, ?_, fun e => absurd e hz⟩
      · rw [if_neg (fun hc => hz hc.1), List.append_assoc]
      · exact List.forall_mem_append.mpr ⟨hd, List.forall_mem_singleton.mpr (isDigit_ofNat value)⟩
      · exact valueOf_concat hv

/-- Only one number is written in a field. -/
theorem numeric_eq_decimal {field : List UInt8} {n : ℕ} (h : Numeric field n) :
    n = decimal (field.filter (· ≠ chr ' ')) := by
  obtain ⟨before, digits, after, rfl, hbefore, -, hd, hafter, rfl⟩ := h
  have hb : before.filter (· ≠ chr ' ') = [] := List.filter_eq_nil_iff.mpr (by simpa using hbefore)
  have ha : after.filter (· ≠ chr ' ') = [] := List.filter_eq_nil_iff.mpr (by simpa using hafter)
  have hds : digits.filter (· ≠ chr ' ') = digits :=
    List.filter_eq_self.mpr fun c hc => by simpa using (isDigit_iff.mpr (hd c hc)).ne_space
  rw [List.filter_append, List.filter_append, hb, hds, ha, List.nil_append, List.append_nil]

/-- Numbers that are equal in 64 bits are the same number if one of them is in the field. -/
theorem forall_numeric_mod_iff {field : List UInt8} :
    (∀ n, Numeric field n → Numeric field (n % 2 ^ 64)) ↔ ∀ n, Numeric field n → n < 2 ^ 64 := by
  constructor
  · intro h n hn
    have heq := (numeric_eq_decimal hn).trans (numeric_eq_decimal (h n hn)).symm
    rw [heq]
    exact Nat.mod_lt _ (by decide)
  · intro h n hn
    rwa [Nat.mod_eq_of_lt (h n hn)]

theorem numeric_writeNumeric {value : ℕ} (h : value < 10 ^ 20) : Numeric (writeNumeric value) value := by
  have hdiv : value / 10 < 10 ^ 19 := by omega
  obtain ⟨k, digits, he, hd, hv, -⟩ := writeNumericFrom_eq 19 hdiv
  refine ⟨List.replicate k (chr ' '), digits ++ [UInt8.ofNat (48 + value % 10)], [], ?_,
    fun c hc => List.eq_of_mem_replicate hc, by simp, fun c hc => isDigit_iff.mp ?_, nofun, ?_⟩
  · rw [writeNumeric, soupNumericLen, writeNumericFrom, he, if_neg (by simp), List.append_nil, List.append_assoc]
  · exact List.forall_mem_append.mpr ⟨hd, List.forall_mem_singleton.mpr (isDigit_ofNat value)⟩ c hc
  · rw [← valueOf_eq_decimal, valueOf_concat hv]

/-- A numeric field is read as the number that was written. -/
theorem readNumeric_writeNumeric {value : ℕ} (h : value < 2 ^ 64) : readNumeric (writeNumeric value) = some value :=
  readNumeric_eq_some.mpr ⟨value, numeric_writeNumeric (by omega), (Nat.mod_eq_of_lt h).symm⟩

/-! ## Logins -/

theorem readAlpha_append {n : ℕ} (v : Vector UInt8 n) (rest : List UInt8) : readAlpha n (v.toList ++ rest) = v := by
  refine Vector.ext fun i hi => ?_
  rw [readAlpha, Vector.getElem_ofFn]
  show (v.toList ++ rest).getD i 0 = v[i]
  rw [List.getD_append _ _ _ _ (by simpa using hi)]
  simp [List.getD_eq_getElem?_getD, hi]

/-- The payload of Login Request. -/
def loginRequestPayload (login : SoupLoginRequest) : List UInt8 :=
  login.username.toList ++ (login.password.toList ++ (login.requestedSession.toList ++
    writeNumeric login.requestedSequenceNumber))

/-- The payload of Login Accepted. -/
def loginAcceptedPayload (accepted : SoupLoginAccepted) : List UInt8 :=
  accepted.session.toList ++ writeNumeric accepted.sequenceNumber

@[simp] theorem length_writeNumeric (value : ℕ) : (writeNumeric value).length = 20 := length_writeNumericFrom ..

theorem length_loginRequestPayload (login : SoupLoginRequest) :
    (loginRequestPayload login).length = soupLoginRequestLen := by
  simp [loginRequestPayload, soupLoginRequestLen]

theorem length_loginAcceptedPayload (accepted : SoupLoginAccepted) :
    (loginAcceptedPayload accepted).length = soupLoginAcceptedLen := by
  simp [loginAcceptedPayload, soupLoginAcceptedLen]

theorem drop_toList_append {n : ℕ} (v : Vector UInt8 n) (rest : List UInt8) : (v.toList ++ rest).drop n = rest := by
  rw [List.drop_append_of_le_length (by simp), List.drop_of_length_le (by simp), List.nil_append]

theorem decodeSoupLoginRequest_payload {login : SoupLoginRequest} (h : login.requestedSequenceNumber < 2 ^ 64) :
    decodeSoupLoginRequest (loginRequestPayload login) = some login := by
  have h6 : (loginRequestPayload login).drop 6 = login.password.toList ++ (login.requestedSession.toList ++
      writeNumeric login.requestedSequenceNumber) := drop_toList_append ..
  have h16 : (loginRequestPayload login).drop 16 = login.requestedSession.toList ++
      writeNumeric login.requestedSequenceNumber := by
    rw [show 16 = 6 + 10 from rfl, ← List.drop_drop, h6, drop_toList_append]
  have h26 : (loginRequestPayload login).drop 26 = writeNumeric login.requestedSequenceNumber := by
    rw [show 26 = 16 + 10 from rfl, ← List.drop_drop, h16, drop_toList_append]
  have h0 : readAlpha 6 (loginRequestPayload login) = login.username := readAlpha_append ..
  rw [decodeSoupLoginRequest, if_neg (fun hne => hne (length_loginRequestPayload login)), h0, h6, h16, h26,
    List.take_of_length_le (by simp [soupNumericLen]), readNumeric_writeNumeric h, readAlpha_append, readAlpha_append]
  rfl

/-- The numeric field of a Login Request. -/
theorem decodeSoupLoginRequest_sequence {payload : List UInt8} (hlen : payload.length = soupLoginRequestLen) {v : ℕ} :
    (∃ login, decodeSoupLoginRequest payload = some login ∧ login.requestedSequenceNumber = v) ↔
      readNumeric ((payload.drop 26).take soupNumericLen) = some v := by
  rw [decodeSoupLoginRequest, if_neg (not_not.mpr hlen)]
  cases readNumeric ((payload.drop 26).take soupNumericLen) <;> simp

/-- A numeric field is read as the number written in it if that fits in 64 bits; otherwise
as its residue, also in a Login Request. -/
theorem readNumeric_means_iff (field : List UInt8) :
    (∀ v, readNumeric field = some v ↔ ∃ n, Numeric field n ∧ v = n % 2 ^ 64) ∧
    ((∀ v, readNumeric field = some v ↔ Numeric field v ∧ v < 2 ^ 64) ↔ ∀ n, Numeric field n → n < 2 ^ 64) ∧
    ∀ payload, payload.length = soupLoginRequestLen → (payload.drop 26).take soupNumericLen = field →
      ((∀ login, decodeSoupLoginRequest payload = some login → Numeric field login.requestedSequenceNumber) ↔
        ∀ n, Numeric field n → n < 2 ^ 64) := by
  refine ⟨fun v => readNumeric_eq_some, ?_, fun payload hlen hfield => ?_⟩
  · rw [← forall_numeric_mod_iff]
    constructor
    · exact fun h n hn => ((h _).mp (readNumeric_eq_some.mpr ⟨n, hn, rfl⟩)).1
    · intro h v
      rw [readNumeric_eq_some]
      constructor
      · rintro ⟨n, hn, rfl⟩
        exact ⟨h n hn, Nat.mod_lt _ (by decide)⟩
      · rintro ⟨hv, hlt⟩
        exact ⟨v, hv, (Nat.mod_eq_of_lt hlt).symm⟩
  · have hdecode := fun v => decodeSoupLoginRequest_sequence hlen (v := v)
    rw [hfield] at hdecode
    rw [← forall_numeric_mod_iff]
    constructor
    · intro h n hn
      obtain ⟨login, hd, hv⟩ := (hdecode _).mpr (readNumeric_eq_some.mpr ⟨n, hn, rfl⟩)
      exact hv ▸ h login hd
    · intro h login hd
      obtain ⟨n, hn, hv⟩ := readNumeric_eq_some.mp ((hdecode _).mp ⟨login, hd, rfl⟩)
      exact hv ▸ h n hn

/-- 2⁶⁴ + 1 has 20 digits, and asks for message 1. -/
theorem loginRequest_asks_for_one :
    Numeric ("18446744073709551617".toList.map chr) (2 ^ 64 + 1) ∧
    (decodeSoupLoginRequest (List.replicate 26 (chr ' ') ++ "18446744073709551617".toList.map chr)).map
      (·.requestedSequenceNumber) = some 1 :=
  ⟨⟨[], "18446744073709551617".toList.map chr, [], by decide, nofun, by decide, by decide +kernel, nofun, by decide⟩,
    by decide⟩

theorem decodeSoupLoginAccepted_payload {accepted : SoupLoginAccepted} (h : accepted.sequenceNumber < 2 ^ 64) :
    decodeSoupLoginAccepted (loginAcceptedPayload accepted) = some accepted := by
  have h10 : (loginAcceptedPayload accepted).drop 10 = writeNumeric accepted.sequenceNumber := drop_toList_append ..
  have h0 : readAlpha 10 (loginAcceptedPayload accepted) = accepted.session := readAlpha_append ..
  rw [decodeSoupLoginAccepted, if_neg (fun hne => hne (length_loginAcceptedPayload accepted)), h0, h10,
    List.take_of_length_le (by simp [soupNumericLen]), readNumeric_writeNumeric h]
  rfl

/-! ## Packets -/

theorem SoupPacketType.ofByte_eq_some {b : UInt8} {type : SoupPacketType} :
    SoupPacketType.ofByte b = some type ↔ b = type.byte := by
  constructor
  · intro h
    have hb := List.find?_some h
    exact (of_decide_eq_true hb).symm
  · rintro rfl
    cases type <;> rfl

/-- What a stream begins with, if it begins with a packet of length `length`. -/
theorem parseSoupPacket_eq_packet {stream : List UInt8} {packet : SoupPacket} {n : ℕ} :
    parseSoupPacket stream = .packet packet n ↔ ∃ length, 0 < length ∧ 2 + length ≤ stream.length ∧
      ofBigEndian (stream.take 2) = length ∧ stream.getD 2 0 = packet.type ∧
      (stream.drop 3).take (length - 1) = packet.payload ∧ 2 + length = n := by
  unfold parseSoupPacket
  constructor
  · intro h
    split at h
    · cases h
    · dsimp only at h
      split at h
      · cases h
      · split at h
        · cases h
        · next h₁ h₂ =>
          injection h with hp hn
          subst hp
          exact ⟨_, Nat.pos_of_ne_zero h₁, by omega, rfl, rfl, rfl, hn⟩
  · rintro ⟨length, h0, hlen, hl, ht, hp, hn⟩
    rw [if_neg (by omega)]
    dsimp only
    rw [hl, if_neg (by omega), if_neg (by omega), ht, soupHeaderLen, hp, hn]

/-- The packet at the beginning of a stream. -/
theorem parseSoupPacket_take {stream : List UInt8} {packet : SoupPacket} {n : ℕ}
    (h : parseSoupPacket stream = .packet packet n) :
    3 ≤ n ∧ n ≤ stream.length ∧ parseSoupPacket (stream.take n) = .packet packet n := by
  obtain ⟨length, h0, hlen, hl, ht, hp, rfl⟩ := parseSoupPacket_eq_packet.mp h
  refine ⟨by omega, hlen, parseSoupPacket_eq_packet.mpr ⟨length, h0, ?_, ?_, ?_, ?_, rfl⟩⟩
  · rw [List.length_take]
    omega
  · rw [List.take_take, Nat.min_eq_left (by omega), hl]
  · rw [← ht, List.getD_eq_getElem?_getD, List.getD_eq_getElem?_getD, List.getElem?_take_of_lt (by omega)]
  · rw [List.drop_take, List.take_take, Nat.min_eq_left (by omega), hp]

/-- A packet is known once its bytes are there. -/
theorem parseSoupPacket_append {stream : List UInt8} {packet : SoupPacket} {n : ℕ}
    (h : parseSoupPacket stream = .packet packet n) (rest : List UInt8) :
    parseSoupPacket (stream ++ rest) = .packet packet n := by
  obtain ⟨length, h0, hlen, hl, ht, hp, hn⟩ := parseSoupPacket_eq_packet.mp h
  refine parseSoupPacket_eq_packet.mpr ⟨length, h0, ?_, ?_, ?_, ?_, hn⟩
  · rw [List.length_append]
    omega
  · rw [List.take_append_of_le_length (by omega), hl]
  · rw [List.getD_append _ _ _ _ (by omega), ht]
  · rw [List.drop_append_of_le_length (by omega), List.take_append_of_le_length (by rw [List.length_drop]; omega), hp]

theorem parseSoupPacket_eq_incomplete {stream : List UInt8} : parseSoupPacket stream = .incomplete ↔
    stream.length < 2 ∨ ofBigEndian (stream.take 2) ≠ 0 ∧ stream.length < 2 + ofBigEndian (stream.take 2) := by
  unfold parseSoupPacket
  dsimp only
  split
  · next h2 => simp [h2]
  · next h2 =>
    split
    · next h0 => simp [h2, h0]
    · next h0 => split <;> simp [*]

theorem parseSoupPacket_eq_malformed {stream : List UInt8} : parseSoupPacket stream = .malformed ↔
    2 ≤ stream.length ∧ ofBigEndian (stream.take 2) = 0 := by
  unfold parseSoupPacket
  dsimp only
  split
  · next h2 => simp [h2]
  · next h2 =>
    split
    · next h0 => simp [h0, Nat.not_lt.mp h2]
    · next h0 => split <;> simp [h0]

/-- A length that no packet has stays one. -/
theorem parseSoupPacket_malformed_append {stream : List UInt8} (h : parseSoupPacket stream = .malformed)
    (rest : List UInt8) : parseSoupPacket (stream ++ rest) = .malformed := by
  obtain ⟨h2, h0⟩ := parseSoupPacket_eq_malformed.mp h
  refine parseSoupPacket_eq_malformed.mpr ⟨?_, ?_⟩
  · rw [List.length_append]
    omega
  · rw [List.take_append_of_le_length h2, h0]

/-- The bytes of one packet. -/
def Framed (bytes : List UInt8) : Prop := ∃ packet, parseSoupPacket bytes = .packet packet bytes.length

theorem prefixFree_framed : PrefixFree Framed := by
  rintro f g x ⟨p, hf⟩ ⟨q, hg⟩ ⟨r, rfl⟩ ⟨r', hx⟩
  have e := (parseSoupPacket_append hg r').symm.trans (hx ▸ parseSoupPacket_append hf r)
  injection e with _ e
  exact List.append_inj_left hx.symm e.symm

/-- What an encoder writes is the packet it was given. -/
theorem parseSoupPacket_encoded (type : UInt8) {payload : List UInt8} (h : payload.length + 1 ≤ 65535) :
    parseSoupPacket (bigEndian 2 (payload.length + 1) ++ [type] ++ payload) =
      .packet ⟨type, payload⟩ (bigEndian 2 (payload.length + 1) ++ [type] ++ payload).length := by
  refine parseSoupPacket_eq_packet.mpr ⟨payload.length + 1, by omega, ?_, ?_, ?_, ?_, ?_⟩
  · simp only [List.length_append, length_bigEndian, List.length_singleton]
    omega
  · rw [List.append_assoc, List.take_left' (length_bigEndian 2 _), ofBigEndian_bigEndian]
    omega
  · rfl
  · exact List.take_length
  · simp only [List.length_append, length_bigEndian, List.length_singleton]
    omega

end Exchange
