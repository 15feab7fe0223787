import Exchange.Proof.Wire.Soup
import Exchange.Spec.Wire
import Mathlib.Algebra.Order.BigOperators.Group.List
import Mathlib.Data.List.Nodup
import Mathlib.Data.Nat.Bitwise

/-!
# The OUCH grammar

`decode` takes a message of type `M` apart as the grammar says and puts what it finds into
`M{}` (`decode_eq_some`), so it accepts exactly the grammar, and reads what the bytes say
(`decode_iff_readAs`). What `encode` writes is in the grammar and says the message that was
written (`encode_spec`), and the two are inverse to each other.

All of this rests on what `Lawful` says of a message struct: its fields are independent of
each other, and they are all there is to it.
-/

namespace Exchange

open Spec (Element elementBytes Appended Fits Grammar lastValue Denotes Regular SameMessage Written ReadAs Accepts)

/-! ## Tag sets -/

namespace OuchTag

theorem toNat_bit (tag : OuchTag) : ((1 : UInt32) <<< tag.value.toUInt32).toNat = 2 ^ tag.value.toNat := by
  cases tag <;> rfl

theorem value_inj {tag tag' : OuchTag} (h : tag.value = tag'.value) : tag = tag' := by
  revert h
  cases tag <;> cases tag' <;> decide

end OuchTag

namespace OuchTagSet

theorem has_eq (s : OuchTagSet) (tag : OuchTag) : s.has tag = s.bits.toNat.testBit tag.value.toNat := by
  have hand : (s.bits &&& (1 <<< tag.value.toUInt32)).toNat =
      (s.bits.toNat.testBit tag.value.toNat).toNat * 2 ^ tag.value.toNat := by
    rw [UInt32.toNat_and, tag.toNat_bit, Nat.and_two_pow]
  rw [has, bne_eq, Bool.eq_iff_iff, Bool.not_eq_true', beq_eq_false_iff_ne, Ne, ← UInt32.toNat_inj, hand]
  cases s.bits.toNat.testBit tag.value.toNat <;> simp

theorem testBit_set (s : OuchTagSet) (tag : OuchTag) (i : ℕ) :
    (s.set tag).bits.toNat.testBit i = (s.bits.toNat.testBit i || decide (tag.value.toNat = i)) := by
  rw [set, UInt32.toNat_or, tag.toNat_bit, Nat.testBit_or, Nat.testBit_two_pow]

theorem ext_testBit {s s' : OuchTagSet} (h : ∀ i, s.bits.toNat.testBit i = s'.bits.toNat.testBit i) : s = s' := by
  obtain ⟨bits⟩ := s
  obtain ⟨bits'⟩ := s'
  exact congrArg OuchTagSet.mk (UInt32.toNat_inj.mp (Nat.eq_of_testBit_eq h))

end OuchTagSet

namespace OuchDetail

/-! ## Message structs -/

theorem readFields_messageType {M : Type} (c : Char) (hooks : List (Hook M)) (m : M) (b : UInt8) (bytes : List UInt8) :
    readFields (messageType c :: hooks) m (b :: bytes) = readFields hooks m bytes := by
  rw [readFields, if_neg (by simp [messageType])]
  rfl

/-- The core fields after `message_type`. -/
def coreFields (M : Type) [OuchMessage M] : List (Hook M) := (OuchMessage.core (M := M)).tail

def tagFields (M : Type) [OuchMessage M] : List (Hook M) := (OuchMessage.tags (M := M)).map (·.2)

/-- All fields but `message_type` and `appendage`. -/
def fields (M : Type) [OuchMessage M] : List (Hook M) := coreFields M ++ tagFields M

/-- The hooks of a message struct are its fields: `message_type` leads them, each can be
written on its own, and together with the appendage they are the message. The structs
differ only in their fields, so one script goes through all of them. -/
structure Lawful (M : Type) [OuchMessage M] (type : Char) : Prop where
  core_eq : OuchMessage.core (M := M) = messageType type :: coreFields M := by rfl
  writes : Record.Writes Hook.get Hook.set (fields M) 0 (fields M) := by
    simp only [fields, coreFields, tagFields, OuchMessage.core, OuchMessage.tags, List.tail_cons, List.map_cons,
      List.map_nil, List.cons_append, List.nil_append]
    repeat' first | exact True.intro | refine Hook.writes_hook (fun _ _ => rfl) ?_
  keeps : ∀ h ∈ fields M, h.Keeps ∧ (∀ m s, h.get (OuchMessage.setAppendage m s) = h.get m) ∧
      ∀ m b, OuchMessage.appendage (h.set m b) = OuchMessage.appendage m := by
    simp only [fields, coreFields, tagFields, OuchMessage.core, OuchMessage.tags, List.tail_cons, List.map_cons,
      List.map_nil, List.cons_append, List.nil_append]
    repeat' first
      | exact List.forall_mem_nil _
      | refine List.forall_mem_cons.mpr
          ⟨⟨Hook.keeps_hook fun _ _ => rfl, fun _ _ => rfl, Hook.set_hook fun _ _ => rfl⟩, ?_⟩
  appendage_setAppendage : ∀ (m : M) s, OuchMessage.appendage (OuchMessage.setAppendage m s) = s := by
    intro m s
    rfl
  appendage_blank : OuchMessage.appendage (OuchMessage.blank (M := M)) = {} := by rfl
  ext : ∀ m m' : M, (fields M).map (·.get m) = (fields M).map (·.get m') →
      OuchMessage.appendage m = OuchMessage.appendage m' → m = m' := by
    intro m m' hf ha
    obtain ⟨⟩ := m
    obtain ⟨⟩ := m'
    simp only [fields, coreFields, tagFields, OuchMessage.core, OuchMessage.tags, List.tail_cons, List.map_cons,
      List.map_nil, List.cons_append, List.nil_append, hook, List.cons.injEq, field_inj] at hf
    simp_all [OuchMessage.appendage]
  tags_nodup : ((OuchMessage.tags (M := M)).map (·.1)).Nodup := by decide
  size_lt : ∀ t ∈ OuchMessage.tags (M := M), 1 + t.2.size < 256 := by decide
  appendage_lt : ((OuchMessage.tags (M := M)).map fun t => 2 + t.2.size).sum < 256 ^ 2 := by decide

theorem lawful_inbound :
    Lawful OuchEnterOrder 'O' ∧ Lawful OuchReplaceOrder 'U' ∧ Lawful OuchCancelOrder 'X' :=
  ⟨{}, {}, {}⟩

theorem lawful_outbound :
    Lawful OuchOrderAccepted 'A' ∧ Lawful OuchOrderReplaced 'U' ∧ Lawful OuchOrderCanceled 'C' ∧
      Lawful OuchOrderExecuted 'E' ∧ Lawful OuchOrderRejected 'J' :=
  ⟨{}, {}, {}, {}, {}⟩

variable {M : Type} [OuchMessage M] {type : Char}

theorem mem_fields {t : OuchTag × Hook M} (ht : t ∈ OuchMessage.tags (M := M)) : t.2 ∈ fields M :=
  List.mem_append_right _ (List.mem_map_of_mem ht)

theorem Lawful.apart (h : Lawful M type) : (fields M).Pairwise Hook.Apart := h.writes.pairwise_apart

theorem Lawful.pairwise_tags (h : Lawful M type) : (OuchMessage.tags (M := M)).Pairwise fun t t' =>
    t.1.value ≠ t'.1.value ∧ Hook.Apart t.2 t'.2 :=
  ((List.pairwise_map.mp h.tags_nodup).imp fun hne e => hne (OuchTag.value_inj e)).and
    (List.pairwise_map.mp (List.pairwise_append.mp h.apart).2.1)

/-! ## One element -/

/-- What `decode` makes of a value for the tag it is for. -/
def store (m : M) (e : Element) : M :=
  match (OuchMessage.tags (M := M)).find? (·.1.value = e.tag) with
  | none => m
  | some t => OuchMessage.setAppendage (t.2.set m e.value) ((OuchMessage.appendage (t.2.set m e.value)).set t.1)

/-- Whether the width of a value is wrong. -/
theorem foldl_storeTag_fst (rawTag : UInt8) (value : List UInt8) (tags : List (OuchTag × Hook M)) (r : Bool × M) :
    (tags.foldl (storeTag rawTag value) r).1 = true ↔
      r.1 = true ∨ ∃ t ∈ tags, t.1.value = rawTag ∧ value.length ≠ t.2.size := by
  induction tags generalizing r with
  | nil => simp
  | cons t tags ih =>
    rw [List.foldl_cons, ih, List.exists_mem_cons_iff, storeTag, ← or_assoc]
    refine or_congr_left ?_
    by_cases htag : t.1.value = rawTag <;> by_cases hlen : value.length = t.2.size <;> simp [htag, hlen]

/-- A tag that is not there stores nothing. -/
theorem foldl_storeTag_of_ne {rawTag : UInt8} {value : List UInt8} {tags : List (OuchTag × Hook M)}
    (h : ∀ t ∈ tags, t.1.value ≠ rawTag) (r : Bool × M) : tags.foldl (storeTag rawTag value) r = r := by
  induction tags generalizing r with
  | nil => rfl
  | cons t tags ih =>
    obtain ⟨ht, hts⟩ := List.forall_mem_cons.mp h
    rw [List.foldl_cons, storeTag, if_pos ht, ih hts]

/-- An element of the right width is stored. -/
theorem Lawful.foldl_storeTag (h : Lawful M type) {e : Element} (hfits : Fits M e) (m : M) :
    (OuchMessage.tags (M := M)).foldl (storeTag e.tag e.value) (false, m) = (false, store m e) := by
  rw [store]
  have hpair := h.pairwise_tags
  rw [Fits] at hfits
  generalize OuchMessage.tags (M := M) = tags at hpair hfits
  induction tags with
  | nil => rfl
  | cons t tags ih =>
    obtain ⟨hne, hpair⟩ := List.pairwise_cons.mp hpair
    obtain ⟨ht, hfits⟩ := List.forall_mem_cons.mp hfits
    rw [List.foldl_cons, storeTag]
    by_cases htag : t.1.value = e.tag
    · rw [if_neg (not_not.mpr htag), if_neg (not_not.mpr (ht htag)),
        foldl_storeTag_of_ne fun t' ht' => htag ▸ (hne t' ht').1.symm, List.find?_cons_of_pos (by simpa using htag)]
    · rw [if_pos htag, List.find?_cons_of_neg (by simpa using htag)]
      exact ih hpair hfits

theorem Lawful.apart_tags (h : Lawful M type) {t t' : OuchTag × Hook M} (ht : t ∈ OuchMessage.tags (M := M))
    (ht' : t' ∈ OuchMessage.tags (M := M)) (hne : t.1.value ≠ t'.1.value) : Hook.Apart t.2 t'.2 := by
  have : Std.Symm fun t t' : OuchTag × Hook M => t.1.value ≠ t'.1.value ∧ Hook.Apart t.2 t'.2 :=
    ⟨fun _ _ hr => ⟨hr.1.symm, hr.2.symm⟩⟩
  exact (h.pairwise_tags.forall ht ht' fun e => hne (e ▸ rfl)).2

/-- An element that is for no tag of the message is skipped; one that is changes the field of
that tag, and the appendage. -/
theorem store_cases (m : M) (e : Element) :
    (∀ t ∈ OuchMessage.tags (M := M), t.1.value ≠ e.tag) ∧ store m e = m ∨
      ∃ t ∈ OuchMessage.tags (M := M), t.1.value = e.tag ∧ store m e =
        OuchMessage.setAppendage (t.2.set m e.value) ((OuchMessage.appendage (t.2.set m e.value)).set t.1) := by
  rw [store]
  cases hfind : (OuchMessage.tags (M := M)).find? (·.1.value = e.tag) with
  | none => exact .inl ⟨by simpa using hfind, rfl⟩
  | some t => exact .inr ⟨t, List.mem_of_find?_eq_some hfind, by simpa using List.find?_some hfind, rfl⟩

theorem Lawful.get_store_core (h : Lawful M type) {f : Hook M} (hf : f ∈ coreFields M) (m : M) (e : Element) :
    f.get (store m e) = f.get m := by
  obtain ⟨-, heq⟩ | ⟨t, ht, -, heq⟩ := store_cases m e
  · rw [heq]
  · have hapart := (List.pairwise_append.mp h.apart).2.2 f hf t.2 (List.mem_map_of_mem ht)
    rw [heq, (h.keeps f (List.mem_append_left _ hf)).2.1, hapart.1]

theorem Lawful.get_store_tag (h : Lawful M type) {t : OuchTag × Hook M} (ht : t ∈ OuchMessage.tags (M := M))
    {e : Element} (hfits : Fits M e) (m : M) :
    t.2.get (store m e) = if e.tag = t.1.value then e.value else t.2.get m := by
  obtain ⟨hnone, heq⟩ | ⟨t', ht', htag, heq⟩ := store_cases m e
  · rw [heq, if_neg (hnone t ht).symm]
  · rw [heq, (h.keeps t.2 (mem_fields ht)).2.1]
    by_cases hv : t'.1.value = t.1.value
    · have hapart := List.inj_on_of_nodup_map h.tags_nodup ht' ht (OuchTag.value_inj hv)
      subst hapart
      rw [if_pos htag.symm, (h.keeps t'.2 (mem_fields ht')).1 _ _ (hfits t' ht' htag)]
    · rw [if_neg (htag ▸ hv), (h.apart_tags ht ht' (Ne.symm hv)).1]

theorem Lawful.testBit_store (h : Lawful M type) (m : M) (e : Element) (i : ℕ) :
    (OuchMessage.appendage (store m e)).bits.toNat.testBit i = true ↔
      (OuchMessage.appendage m).bits.toNat.testBit i = true ∨
        ∃ t ∈ OuchMessage.tags (M := M), t.1.value.toNat = i ∧ e.tag = t.1.value := by
  obtain ⟨hnone, heq⟩ | ⟨t, ht, htag, heq⟩ := store_cases m e
  · rw [heq]
    exact (or_iff_left fun ⟨t, ht, _, htag⟩ => hnone t ht htag.symm).symm
  · rw [heq, h.appendage_setAppendage, OuchTagSet.testBit_set, (h.keeps t.2 (mem_fields ht)).2.2, Bool.or_eq_true,
      decide_eq_true_eq]
    refine or_congr_right ⟨fun hi => ⟨t, ht, hi, htag.symm⟩, fun ⟨t', _, hi, htag'⟩ => ?_⟩
    rw [htag, htag', hi]

/-! ## The elements of an appendage -/

theorem Lawful.get_foldl_store_core (h : Lawful M type) {f : Hook M} (hf : f ∈ coreFields M) (m : M)
    (elements : List Element) : f.get (elements.foldl store m) = f.get m := by
  induction elements generalizing m with
  | nil => rfl
  | cons e elements ih => rw [List.foldl_cons, ih, h.get_store_core hf]

theorem lastValue_cons (tag : UInt8) (e : Element) (elements : List Element) (value : List UInt8) :
    (lastValue tag (e :: elements)).getD value =
      (lastValue tag elements).getD (if e.tag = tag then e.value else value) := by
  unfold lastValue
  by_cases htag : e.tag = tag
  · rw [List.filter_cons_of_pos (by simpa using htag), List.getLast?_cons, if_pos htag]
    cases (elements.filter (·.tag = tag)).getLast? <;> rfl
  · rw [List.filter_cons_of_neg (by simpa using htag), if_neg htag]

/-- The last element with a tag is what its field is left with. -/
theorem Lawful.get_foldl_store_tag (h : Lawful M type) {t : OuchTag × Hook M} (ht : t ∈ OuchMessage.tags (M := M))
    {elements : List Element} (hfits : ∀ e ∈ elements, Fits M e) (m : M) :
    t.2.get (elements.foldl store m) = (lastValue t.1.value elements).getD (t.2.get m) := by
  induction elements generalizing m with
  | nil => rfl
  | cons e elements ih =>
    obtain ⟨he, hfits⟩ := List.forall_mem_cons.mp hfits
    rw [List.foldl_cons, ih hfits, h.get_store_tag ht he, lastValue_cons]

theorem Lawful.testBit_foldl_store (h : Lawful M type) (m : M) (elements : List Element) (i : ℕ) :
    (OuchMessage.appendage (elements.foldl store m)).bits.toNat.testBit i = true ↔
      (OuchMessage.appendage m).bits.toNat.testBit i = true ∨
        ∃ t ∈ OuchMessage.tags (M := M), t.1.value.toNat = i ∧ ∃ e ∈ elements, e.tag = t.1.value := by
  induction elements generalizing m with
  | nil => simp
  | cons e elements ih =>
    rw [List.foldl_cons, ih, h.testBit_store, or_assoc]
    refine or_congr_right ?_
    simp only [List.exists_mem_cons_iff]
    constructor
    · rintro (⟨t, ht, hi, he⟩ | ⟨t, ht, hi, he⟩)
      · exact ⟨t, ht, hi, .inl he⟩
      · exact ⟨t, ht, hi, .inr he⟩
    · rintro ⟨t, ht, hi, he | he⟩
      · exact .inl ⟨t, ht, hi, he⟩
      · exact .inr ⟨t, ht, hi, he⟩

theorem length_elementBytes_cons (e : Element) (elements : List Element) :
    (elementBytes (e :: elements)).length = 1 + e.length.toNat + (elementBytes elements).length := by
  have hlen := e.length_eq
  simp only [elementBytes, List.flatMap_cons, List.length_append, Element.bytes, List.length_cons]
  omega

/-- One turn of the loop, at an element of the right width. -/
theorem Lawful.decodeTags_element (h : Lawful M type) {e : Element} (hfits : Fits M e) (fuel : ℕ) (m : M)
    (rest : List UInt8) :
    decodeTags (fuel + 1) m (e.length :: e.tag :: (e.value ++ rest)) = decodeTags fuel (store m e) rest := by
  have hlen := e.length_eq
  have hne : e.length ≠ 0 := fun e0 => by
    rw [e0, UInt8.toNat_zero] at hlen
    omega
  have hle : ¬ e.length.toNat > (e.tag :: (e.value ++ rest)).length := by
    rw [List.length_cons, List.length_append]
    omega
  rw [decodeTags, if_neg (not_or.mpr ⟨hne, hle⟩), hlen, Nat.add_sub_cancel_left, Nat.add_comm 1,
    List.drop_succ_cons, List.drop_succ_cons, List.drop_zero, List.take_left, List.drop_left, List.headD_cons]
  dsimp only
  rw [h.foldl_storeTag hfits]
  rfl

/-- A turn that does not fail is at such an element. -/
theorem exists_element_of_decodeTags {fuel : ℕ} {m m' : M} {length : UInt8} {bytes : List UInt8}
    (hd : decodeTags (fuel + 1) m (length :: bytes) = some m') :
    ∃ (e : Element) (rest : List UInt8), length :: bytes = e.length :: e.tag :: (e.value ++ rest) ∧ Fits M e := by
  rw [decodeTags] at hd
  split at hd
  · cases hd
  · next hlen =>
    obtain ⟨hne, hle⟩ := not_or.mp hlen
    have hpos : length.toNat ≠ 0 := fun e => hne (UInt8.toNat_inj.mp e)
    obtain ⟨tag, bytes, rfl⟩ : ∃ tag rest, bytes = tag :: rest := List.exists_cons_of_length_pos (by omega)
    rw [List.length_cons] at hle
    let e : Element := {
      length := length, tag := tag, value := bytes.take (length.toNat - 1)
      length_eq := by rw [List.length_take]; omega }
    refine ⟨e, bytes.drop (length.toNat - 1), ?_, fun t ht htag => not_not.mp fun hwidth => ?_⟩
    · show length :: tag :: bytes = length :: tag :: (bytes.take _ ++ bytes.drop _)
      rw [List.take_append_drop]
    · have hbad := (foldl_storeTag_fst e.tag e.value (OuchMessage.tags (M := M)) (false, m)).mpr
        (.inr ⟨t, ht, htag, hwidth⟩)
      exact absurd ((if_pos hbad).symm.trans hd) (Option.some_ne_none m').symm

/-- The loop over the elements reads a string of elements of the right widths, and nothing
else. -/
theorem Lawful.decodeTags_eq_some (h : Lawful M type) {fuel : ℕ} {m m' : M} {bytes : List UInt8}
    (hfuel : bytes.length ≤ fuel) : decodeTags fuel m bytes = some m' ↔
      ∃ elements, bytes = elementBytes elements ∧ (∀ e ∈ elements, Fits M e) ∧ m' = elements.foldl store m := by
  constructor
  · intro hd
    induction fuel generalizing m bytes with
    | zero =>
      obtain rfl := List.length_eq_zero_iff.mp (Nat.le_zero.mp hfuel)
      exact ⟨[], rfl, nofun, (Option.some.inj hd).symm⟩
    | succ fuel ih =>
      cases bytes with
      | nil => exact ⟨[], rfl, nofun, (Option.some.inj hd).symm⟩
      | cons length bytes =>
        obtain ⟨e, rest, hbytes, hfits⟩ := exists_element_of_decodeTags hd
        rw [hbytes] at hd hfuel ⊢
        rw [h.decodeTags_element hfits] at hd
        simp only [List.length_cons, List.length_append] at hfuel
        obtain ⟨elements, rfl, hall, rfl⟩ := ih (by omega) hd
        exact ⟨e :: elements, rfl, List.forall_mem_cons.mpr ⟨hfits, hall⟩, rfl⟩
  · rintro ⟨elements, rfl, hall, rfl⟩
    induction elements generalizing fuel m with
    | nil => cases fuel <;> rfl
    | cons e elements ih =>
      obtain ⟨hfits, hall⟩ := List.forall_mem_cons.mp hall
      rw [length_elementBytes_cons] at hfuel
      obtain ⟨fuel, rfl⟩ : ∃ f, fuel = f + 1 := ⟨fuel - 1, by omega⟩
      exact (h.decodeTags_element hfits fuel m (elementBytes elements)).trans (ih (by omega) hall)

/-! ## Decoding -/

/-- What `decode` does with a message of its type. -/
theorem Lawful.decode_eq_some (h : Lawful M type) {bytes : List UInt8} {msg : M} :
    decode M (chr type :: bytes) = some msg ↔
      ∃ m rest elements, readFields (coreFields M) OuchMessage.blank bytes = some (m, rest) ∧
        (rest = [] ∧ elements = [] ∨ ∃ length, length.length = 2 ∧
          ofBigEndian length = (elementBytes elements).length ∧ rest = length ++ elementBytes elements) ∧
        (∀ e ∈ elements, Fits M e) ∧ msg = elements.foldl store m := by
  rw [decode, h.core_eq, readFields_messageType]
  cases hread : readFields (coreFields M) OuchMessage.blank bytes with
  | none => exact iff_of_false nofun nofun
  | some r =>
    obtain ⟨m, rest⟩ := r
    show (if rest = [] then some m else if rest.length < 2 ∨ rest.length - 2 ≠ ofBigEndian (rest.take 2) then none
      else decodeTags (rest.length - 2) m (rest.drop 2)) = some msg ↔ _
    have hdrop := List.length_drop (i := 2) (l := rest)
    constructor
    · intro hd
      split at hd
      · next hnil => exact ⟨m, rest, [], rfl, .inl ⟨hnil, rfl⟩, nofun, (Option.some.inj hd).symm⟩
      · split at hd
        · cases hd
        · next hlen =>
          obtain ⟨hlt, heq⟩ := not_or.mp hlen
          obtain ⟨elements, hbytes, hfits, hmsg⟩ := (h.decodeTags_eq_some (by omega)).mp hd
          refine ⟨m, rest, elements, rfl, .inr ⟨rest.take 2, ?_, ?_, ?_⟩, hfits, hmsg⟩
          · rw [List.length_take]
            omega
          · rw [← hbytes, hdrop]
            exact (not_not.mp heq).symm
          · rw [← hbytes, List.take_append_drop]
    · rintro ⟨m', rest', elements, hr, hshape, hfits, rfl⟩
      obtain ⟨rfl, rfl⟩ := Prod.mk.inj (Option.some.inj hr)
      rcases hshape with ⟨rfl, rfl⟩ | ⟨length, hlen, hcount, rfl⟩
      · rfl
      · have hlength : (length ++ elementBytes elements).length = 2 + (elementBytes elements).length := by
          rw [List.length_append, hlen]
        rw [if_neg (fun e => by rw [e] at hlength; simp at hlength; omega), hlength, Nat.add_sub_cancel_left,
          List.take_left' hlen, List.drop_left' hlen, hcount, if_neg (by omega)]
        exact (h.decodeTags_eq_some (Nat.le_refl _)).mpr ⟨elements, rfl, hfits, rfl⟩

/-- What the elements leave of a message whose core fields have been read. -/
theorem Lawful.denotes_foldl_store (h : Lawful M type) {m : M}
    (htags : ∀ t ∈ OuchMessage.tags (M := M), t.2.get m = t.2.get OuchMessage.blank)
    (happ : OuchMessage.appendage m = {}) {elements : List Element} (hfits : ∀ e ∈ elements, Fits M e) :
    Denotes ([chr type] :: (coreFields M).map (·.get m)) elements (elements.foldl store m) where
  core := by
    rw [h.core_eq, List.map_cons]
    exact congrArg ([chr type] :: ·) (List.map_congr_left fun f hf => h.get_foldl_store_core hf m elements)
  tags t ht := by rw [h.get_foldl_store_tag ht hfits, htags t ht]
  appendage i := by
    rw [h.testBit_foldl_store, happ]
    exact or_iff_right (by simp)

/-- Bytes say one message. -/
theorem Lawful.denotes_unique (h : Lawful M type) {core : List (List UInt8)} {elements : List Element} {msg msg' : M}
    (hr : Denotes core elements msg) (hr' : Denotes core elements msg') : msg = msg' := by
  refine h.ext msg msg' ?_ (OuchTagSet.ext_testBit fun i => ?_)
  · have hcore := hr.core.trans hr'.core.symm
    rw [h.core_eq, List.map_cons, List.map_cons, List.cons.injEq] at hcore
    rw [fields, List.map_append, List.map_append, hcore.2, tagFields, List.map_map, List.map_map]
    exact congrArg _ (List.map_congr_left fun t ht => (hr.tags t ht).trans (hr'.tags t ht).symm)
  · rw [Bool.eq_iff_iff, hr.appendage, hr'.appendage]

/-- Reading the core fields leaves the others as they are in `M{}`. -/
theorem Lawful.denotes_of_readFields (h : Lawful M type) {bytes rest : List UInt8} {m : M}
    (hread : readFields (coreFields M) OuchMessage.blank bytes = some (m, rest)) :
    bytes = ((coreFields M).map (·.get m)).flatten ++ rest ∧ ∀ elements, (∀ e ∈ elements, Fits M e) →
      Denotes ([chr type] :: (coreFields M).map (·.get m)) elements (elements.foldl store m) := by
  obtain ⟨hcore, -, hcross⟩ := List.pairwise_append.mp h.apart
  obtain ⟨hbytes, hsee⟩ := readFields_spec hcore (fun f hf => (h.keeps f (List.mem_append_left _ hf)).1) hread
  refine ⟨hbytes, fun elements hfits => h.denotes_foldl_store (fun t ht => ?_) ?_ hfits⟩
  · exact hsee _ t.2.get fun f hf => (hcross f hf t.2 (List.mem_map_of_mem ht)).2
  · rw [hsee _ OuchMessage.appendage fun f hf => (h.keeps f (List.mem_append_left _ hf)).2.2, h.appendage_blank]

/-- What is decoded is in the grammar, and what it says is what is read. -/
theorem Lawful.readAs_of_decode (h : Lawful M type) {bytes : List UInt8} {msg : M}
    (hd : decode M (chr type :: bytes) = some msg) : ReadAs (chr type :: bytes) type M msg := by
  obtain ⟨m, rest, elements, hread, hshape, hfits, rfl⟩ := h.decode_eq_some.mp hd
  obtain ⟨hbytes, hall⟩ := h.denotes_of_readFields hread
  refine ⟨_, elements, ⟨rfl, ?_, ?_, hfits⟩, hall elements hfits⟩
  · rw [h.core_eq, List.map_cons, List.map_cons, map_length_get]
    rfl
  · rcases hshape with ⟨rfl, rfl⟩ | ⟨length, hlen, hcount, rfl⟩
    · rw [List.append_nil] at hbytes
      exact .inl ⟨congrArg _ hbytes, rfl⟩
    · refine .inr ⟨length, hlen, hcount, ?_⟩
      rw [List.flatten_cons, List.append_assoc, List.append_assoc, ← hbytes]
      rfl

/-- A message of the grammar, taken apart as `decode` does. -/
theorem Lawful.grammar_cases (h : Lawful M type) {bytes : List UInt8} {core : List (List UInt8)}
    {elements : List Element} (hg : Grammar M type bytes core elements) : ∃ fs rest, core = [chr type] :: fs ∧
      fs.map List.length = (coreFields M).map (·.size) ∧ bytes = chr type :: (fs.flatten ++ rest) ∧
      (rest = [] ∧ elements = [] ∨ ∃ length, length.length = 2 ∧
        ofBigEndian length = (elementBytes elements).length ∧ rest = length ++ elementBytes elements) := by
  obtain ⟨fs, rfl⟩ : ∃ fs, core = [chr type] :: fs := by
    have htype := hg.type
    cases core with
    | nil => cases htype
    | cons f fs => exact ⟨fs, by rw [Option.some.inj htype]⟩
  have hwidths := hg.widths
  rw [h.core_eq, List.map_cons, List.map_cons, List.cons.injEq] at hwidths
  rcases hg.bytes with ⟨rfl, hnil⟩ | ⟨length, hlen, hcount, rfl⟩
  · exact ⟨fs, [], rfl, hwidths.2, by rw [List.append_nil]; rfl, .inl ⟨rfl, hnil⟩⟩
  · refine ⟨fs, _, rfl, hwidths.2, ?_, .inr ⟨length, hlen, hcount, rfl⟩⟩
    rw [List.flatten_cons, List.append_assoc, List.append_assoc]
    rfl

/-- What is in the grammar is decoded. -/
theorem Lawful.decode_of_grammar (h : Lawful M type) {bytes : List UInt8} {core : List (List UInt8)}
    {elements : List Element} (hg : Grammar M type bytes core elements) :
    ∃ msg, decode M bytes = some msg ∧ Denotes core elements msg := by
  obtain ⟨fs, rest, rfl, hwidths, rfl, hshape⟩ := h.grammar_cases hg
  have hsum : fs.flatten.length = ((coreFields M).map (·.size)).sum := by rw [List.length_flatten, hwidths]
  cases hread : readFields (coreFields M) OuchMessage.blank (fs.flatten ++ rest) with
  | none =>
    have hlt := readFields_eq_none.mp hread
    rw [List.length_append, hsum] at hlt
    omega
  | some r =>
    obtain ⟨m, rest'⟩ := r
    obtain ⟨hbytes, hall⟩ := h.denotes_of_readFields hread
    -- the core fields have been read where the grammar has them
    obtain ⟨hflat, rfl⟩ := List.append_inj hbytes (by rw [hsum, List.length_flatten, map_length_get])
    obtain rfl : fs = (coreFields M).map (·.get m) :=
      List.eq_iff_flatten_eq.mpr ⟨hflat, hwidths.trans (map_length_get _ m).symm⟩
    exact ⟨_, h.decode_eq_some.mpr ⟨m, rest, elements, hread, hshape, hg.fits, rfl⟩, hall elements hg.fits⟩

/-- `decode` reads what the bytes say. -/
theorem Lawful.decode_iff_readAs (h : Lawful M type) {bytes : List UInt8} {msg : M} :
    bytes.head? = some (chr type) ∧ decode M bytes = some msg ↔ ReadAs bytes type M msg := by
  constructor
  · rintro ⟨hhead, hd⟩
    obtain ⟨bytes, rfl⟩ := List.head?_eq_some_iff.mp hhead
    exact h.readAs_of_decode hd
  · rintro ⟨core, elements, hg, hr⟩
    obtain ⟨msg', hd, hr'⟩ := h.decode_of_grammar hg
    obtain ⟨fs, rest, -, -, rfl, -⟩ := h.grammar_cases hg
    exact ⟨rfl, by rw [hd, h.denotes_unique hr hr']⟩

theorem Lawful.accepts_iff (h : Lawful M type) {bytes : List UInt8} :
    Accepts M type bytes ↔ ∃ msg, ReadAs bytes type M msg := by
  constructor
  · rintro ⟨core, elements, hg⟩
    obtain ⟨msg, -, hr⟩ := h.decode_of_grammar hg
    exact ⟨msg, core, elements, hg, hr⟩
  · rintro ⟨msg, core, elements, hg, -⟩
    exact ⟨core, elements, hg⟩

/-! ## Encoding -/

/-- A buffer that is too small is not written. -/
theorem encode_eq_nil {msg : M} {room : ℕ} (h : room < encodedSize msg) : encode msg room = [] := by
  have hok : (((WireWriter.puts { room := room } (coreBytes msg)).put (bigEndian 2 0)).puts
      ((present msg).flatMap tagValue)).ok = false := by
    have hput : ∀ w : WireWriter, w.put (bigEndian 2 0) = w.puts [bigEndian 2 0] := fun _ => rfl
    rw [hput, ← WireWriter.puts_append, ← WireWriter.puts_append]
    refine WireWriter.puts_overflow rfl (Nat.zero_le _) ?_
    rw [encodedSize, ← wireSize_tagValues] at h
    simp only [wireSize, List.map_append, List.sum_append, List.map_singleton, List.sum_singleton, length_bigEndian,
      List.length_nil] at h ⊢
    omega
  simp only [encode, hok, Bool.not_false, if_true]

/-- The elements of the tags that are written. -/
theorem exists_elements {ts : List (OuchTag × List UInt8)} (h : ∀ t ∈ ts, 1 + t.2.length < 256) :
    ∃ elements : List Element, elements.map (fun e => (e.tag, e.value)) = ts.map (fun t => (t.1.value, t.2)) ∧
      elementBytes elements = (ts.flatMap tagValue).flatten := by
  induction ts with
  | nil => exact ⟨[], rfl, rfl⟩
  | cons t ts ih =>
    obtain ⟨ht, hts⟩ := List.forall_mem_cons.mp h
    obtain ⟨elements, hmap, hbytes⟩ := ih hts
    refine ⟨⟨UInt8.ofNat (1 + t.2.length), t.1.value, t.2, UInt8.toNat_ofNat_of_lt' ht⟩ :: elements, ?_, ?_⟩
    · rw [List.map_cons, List.map_cons, hmap]
    · rw [elementBytes, List.flatMap_cons, ← elementBytes, hbytes, List.flatMap_cons, List.flatten_append]
      simp [tagValue, Element.bytes]

theorem mem_present {msg : M} {t : OuchTag × List UInt8} : t ∈ present msg ↔
    ∃ t' ∈ OuchMessage.tags (M := M), (OuchMessage.appendage msg).has t'.1 = true ∧ t = (t'.1, t'.2.get msg) := by
  simp only [present, tagBytes, List.mem_filter, List.mem_map]
  constructor
  · rintro ⟨⟨t', ht', rfl⟩, hhas⟩
    exact ⟨t', ht', hhas, rfl⟩
  · rintro ⟨t', ht', hhas, rfl⟩
    exact ⟨⟨t', ht', rfl⟩, hhas⟩

theorem Lawful.wireSize_present_lt (h : Lawful M type) (msg : M) :
    wireSize ((present msg).flatMap tagValue) < 256 ^ 2 := by
  rw [wireSize_tagValues]
  refine Nat.lt_of_le_of_lt ?_ h.appendage_lt
  have hsub := (List.filter_sublist (p := fun t => (OuchMessage.appendage msg).has t.1) (l := tagBytes msg)).map
    fun t => 2 + t.2.length
  refine (hsub.sum_le_sum fun _ _ => Nat.zero_le _).trans_eq ?_
  rw [tagBytes, List.map_map]
  exact congrArg _ (List.map_congr_left fun t _ => congrArg (2 + ·) (t.2.length_get msg))

/-- What is written is in the grammar: its core fields, and an element for each tag of its
appendage. -/
theorem Lawful.grammar_wireBytes (h : Lawful M type) (msg : M) : ∃ elements,
    elements.map (fun e => (e.tag, e.value)) = (present msg).map (fun t => (t.1.value, t.2)) ∧
      Appended (coreBytes msg) elements (wireBytes msg) ∧ Grammar M type (wireBytes msg) (coreBytes msg) elements := by
  have hlen : ∀ t ∈ present msg, 1 + t.2.length < 256 := fun t ht => by
    obtain ⟨t', ht', -, rfl⟩ := mem_present.mp ht
    rw [t'.2.length_get]
    exact h.size_lt t' ht'
  obtain ⟨elements, hmap, hbytes⟩ := exists_elements hlen
  have happ : Appended (coreBytes msg) elements (wireBytes msg) := by
    refine ⟨bigEndian 2 (wireSize ((present msg).flatMap tagValue)), length_bigEndian .., ?_, ?_⟩
    · rw [ofBigEndian_bigEndian, Nat.mod_eq_of_lt (h.wireSize_present_lt msg), hbytes, length_flatten_eq_wireSize]
    · rw [wireBytes, hbytes]
  refine ⟨elements, hmap, happ, ?_, ?_, .inr happ, fun e he t ht htag => ?_⟩
  · rw [coreBytes, h.core_eq]
    rfl
  · exact map_length_get _ msg
  · -- the tag of the element is one of the message, and no other has its value
    have hpair : (e.tag, e.value) ∈ (present msg).map fun t => (t.1.value, t.2) := hmap ▸ List.mem_map_of_mem he
    obtain ⟨t', ht', e'⟩ := List.mem_map.mp hpair
    obtain ⟨t'', ht'', -, rfl⟩ := mem_present.mp ht'
    obtain ⟨h₁, h₂⟩ := Prod.mk.inj e'
    obtain rfl := List.inj_on_of_nodup_map h.tags_nodup ht'' ht (OuchTag.value_inj (h₁.trans htag.symm))
    rw [← h₂]
    exact t''.2.length_get msg

theorem lastValue_eq_some {tag : UInt8} {elements : List Element} {value : List UInt8}
    (hmem : ∃ e ∈ elements, e.tag = tag) (hall : ∀ e ∈ elements, e.tag = tag → e.value = value) :
    lastValue tag elements = some value := by
  obtain ⟨e, he, htag⟩ := hmem
  have hne : elements.filter (·.tag = tag) ≠ [] :=
    List.ne_nil_of_mem (List.mem_filter.mpr ⟨he, by simpa using htag⟩)
  have hlast := List.mem_filter.mp (List.getLast_mem hne)
  rw [lastValue, List.getLast?_eq_some_getLast hne, Option.map_some, hall _ hlast.1 (by simpa using hlast.2)]

theorem lastValue_eq_none {tag : UInt8} {elements : List Element} (h : ∀ e ∈ elements, e.tag ≠ tag) :
    lastValue tag elements = none := by
  have hnil : elements.filter (·.tag = tag) = [] := List.filter_eq_nil_iff.mpr fun e he => by simpa using h e he
  rw [lastValue, hnil]
  rfl

section Elements

variable {msg : M} {elements : List Element}
  (hmap : elements.map (fun e => (e.tag, e.value)) = (present msg).map fun t => (t.1.value, t.2))
include hmap

theorem mem_elements_iff {tag : UInt8} {value : List UInt8} : (∃ e ∈ elements, e.tag = tag ∧ e.value = value) ↔
    ∃ t ∈ OuchMessage.tags (M := M), (OuchMessage.appendage msg).has t.1 = true ∧ t.1.value = tag ∧
      t.2.get msg = value := by
  have hpair : (tag, value) ∈ elements.map (fun e => (e.tag, e.value)) ↔
      (tag, value) ∈ (present msg).map fun t => (t.1.value, t.2) := by rw [hmap]
  simp only [List.mem_map, Prod.mk.injEq, mem_present] at hpair
  rw [hpair]
  constructor
  · rintro ⟨_, ⟨t, ht, hhas, rfl⟩, h₁, h₂⟩
    exact ⟨t, ht, hhas, h₁, h₂⟩
  · rintro ⟨t, ht, hhas, h₁, h₂⟩
    exact ⟨_, ⟨t, ht, hhas, rfl⟩, h₁, h₂⟩

/-- The elements with the tag of a field have its value. -/
theorem Lawful.of_mem_elements (h : Lawful M type) {t : OuchTag × Hook M} (ht : t ∈ OuchMessage.tags (M := M))
    {e : Element} (he : e ∈ elements) (htag : e.tag = t.1.value) :
    (OuchMessage.appendage msg).has t.1 = true ∧ t.2.get msg = e.value := by
  obtain ⟨t', ht', hhas, htag', hvalue⟩ := (mem_elements_iff hmap).mp ⟨e, he, htag, rfl⟩
  obtain rfl := List.inj_on_of_nodup_map h.tags_nodup ht' ht (OuchTag.value_inj htag')
  exact ⟨hhas, hvalue⟩

theorem Lawful.exists_element_iff (h : Lawful M type) {t : OuchTag × Hook M} (ht : t ∈ OuchMessage.tags (M := M)) :
    (∃ e ∈ elements, e.tag = t.1.value) ↔ (OuchMessage.appendage msg).has t.1 = true := by
  constructor
  · rintro ⟨e, he, htag⟩
    exact (h.of_mem_elements hmap ht he htag).1
  · intro hhas
    obtain ⟨e, he, htag, -⟩ := (mem_elements_iff hmap).mpr ⟨t, ht, hhas, rfl, rfl⟩
    exact ⟨e, he, htag⟩

theorem Lawful.lastValue_present (h : Lawful M type) {t : OuchTag × Hook M} (ht : t ∈ OuchMessage.tags (M := M)) :
    lastValue t.1.value elements = if (OuchMessage.appendage msg).has t.1 then some (t.2.get msg) else none := by
  split
  · next hhas =>
    exact lastValue_eq_some ((h.exists_element_iff hmap ht).mpr hhas)
      fun e he htag => (h.of_mem_elements hmap ht he htag).2.symm
  · next hhas => exact lastValue_eq_none fun e he htag => hhas (h.of_mem_elements hmap ht he htag).1

/-- A regular message is what its bytes say. -/
theorem Lawful.denotes_of_regular (h : Lawful M type) (hr : Regular msg) : Denotes (coreBytes msg) elements msg := by
  refine ⟨rfl, fun t ht => ?_, fun i => ⟨fun hi => ?_, ?_⟩⟩
  · rw [h.lastValue_present hmap ht]
    split
    · rfl
    · next hhas => exact hr.default t ht hhas
  · obtain ⟨t, ht, rfl⟩ := hr.supported i hi
    rw [← OuchTagSet.has_eq] at hi
    exact ⟨t, ht, rfl, (h.exists_element_iff hmap ht).mpr hi⟩
  · rintro ⟨t, ht, rfl, he⟩
    rw [← OuchTagSet.has_eq]
    exact (h.exists_element_iff hmap ht).mp he

/-- The message that is read has the fields that were on the wire. -/
theorem Lawful.same_of_denotes (h : Lawful M type) {msg' : M} (hr : Denotes (coreBytes msg) elements msg') :
    SameMessage msg msg' := by
  have hhas : ∀ t ∈ OuchMessage.tags (M := M),
      (OuchMessage.appendage msg').has t.1 = (OuchMessage.appendage msg).has t.1 := fun t ht => by
    rw [Bool.eq_iff_iff, ← h.exists_element_iff hmap ht, OuchTagSet.has_eq, hr.appendage]
    constructor
    · rintro ⟨t', ht', htag, he⟩
      rwa [← UInt8.toNat_inj.mp htag]
    · exact fun he => ⟨t, ht, rfl, he⟩
  refine ⟨hr.core.symm, ?_⟩
  rw [present, present, tagBytes, tagBytes, List.filter_map, List.filter_map]
  show ((OuchMessage.tags (M := M)).filter fun t => (OuchMessage.appendage msg).has t.1).map _ =
    ((OuchMessage.tags (M := M)).filter fun t => (OuchMessage.appendage msg').has t.1).map _
  rw [List.filter_congr hhas]
  refine List.map_congr_left fun t ht => ?_
  obtain ⟨ht, ht'⟩ := List.mem_filter.mp ht
  rw [hr.tags t ht, h.lastValue_present hmap ht, if_pos ht', Option.getD_some]

end Elements

/-- What is read is regular. -/
theorem regular_of_denotes {core : List (List UInt8)} {elements : List Element} {msg : M}
    (hr : Denotes core elements msg) : Regular msg where
  supported i hi := by
    obtain ⟨t, ht, hv, -⟩ := (hr.appendage i).mp hi
    exact ⟨t, ht, hv⟩
  default t ht hhas := by
    rw [hr.tags t ht, lastValue_eq_none fun e he htag => hhas ?_, Option.getD_none]
    rw [OuchTagSet.has_eq]
    exact (hr.appendage _).mpr ⟨t, ht, rfl, e, he, htag⟩

/-- A regular message that fits is written, and is read back. -/
theorem Lawful.encode_spec (h : Lawful M type) {msg : M} (hr : Regular msg) {room : ℕ} (hroom : encodedSize msg ≤ room) :
    (encode msg room).length = encodedSize msg ∧ ReadAs (encode msg room) type M msg ∧
      Written (encode msg room) msg := by
  obtain ⟨elements, hmap, happ, hg⟩ := h.grammar_wireBytes msg
  rw [encode_eq msg hroom]
  exact ⟨length_wireBytes msg, ⟨_, elements, hg, h.denotes_of_regular hmap hr⟩, elements, happ, hmap⟩

/-- Of any other message, what is on the wire is read back. -/
theorem Lawful.exists_readAs_encode (h : Lawful M type) (msg : M) {room : ℕ} (hroom : encodedSize msg ≤ room) :
    ∃ msg', ReadAs (encode msg room) type M msg' ∧ SameMessage msg msg' := by
  obtain ⟨elements, hmap, -, hg⟩ := h.grammar_wireBytes msg
  obtain ⟨msg', -, hr⟩ := h.decode_of_grammar hg
  rw [encode_eq msg hroom]
  exact ⟨msg', ⟨_, elements, hg, hr⟩, h.same_of_denotes hmap hr⟩

end OuchDetail
end Exchange
