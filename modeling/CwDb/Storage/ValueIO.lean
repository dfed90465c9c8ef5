import CwDb.Core.Value
import CwDb.Foundation.LittleEndian

/-! Index keys as bytes.

An index stores a key as a tag byte followed by eight little-endian bytes for an
integer, or by a four-byte length and the bytes for a string. `encodeValue`
refuses to make a key longer than `kMaxIndexKeyBytes`; `decodeValue` reads one
back from the front of a buffer and says how many bytes it took. Keys are always
compared by decoding both (`compareEncodedKeys`). The keys form a prefix code in
which every value has one word, and on keys of one type the comparison is the order
of the values (`encodeValue_prefixCode`). -/
namespace CwDb.Storage
open Foundation

abbrev Bytes := List UInt8

def kMaxIndexKeyBytes : Nat := 512

def encodedValueSize : Value → Nat
  | .null => 1
  | .int _ => 1 + 8
  | .str s => 1 + 4 + s.length

/-- The bytes `encode_value` appends. -/
def valueBytes : Value → Bytes
  | .null => [0]
  | .int i => 1 :: LittleEndian.encode 8 i.toUInt64.toNat
  | .str s => 2 :: (LittleEndian.encode 4 s.length ++ s)

def encodeValue (out : Bytes) (v : Value) : Except Exn Bytes :=
  if out.length + encodedValueSize v > kMaxIndexKeyBytes then
    .error (.runtimeError "Index key too large for disk page")
  else
    .ok (out ++ valueBytes v)

/-- The value at the front of `data`, and how many bytes it takes. -/
def decodeValue (data : Bytes) : Except Exn (Value × Nat) :=
  match data with
  | [] => .error (.runtimeError "Corrupt encoded value")
  | tag :: rest =>
    if tag = 0 then .ok (.null, 1)
    else if tag = 1 then
      if data.length < 1 + 8 then .error (.runtimeError "Corrupt encoded int")
      else .ok (.int (UInt64.ofNat (LittleEndian.decode (rest.take 8))).toInt64, 1 + 8)
    else if tag = 2 then
      if data.length < 1 + 4 then .error (.runtimeError "Corrupt encoded string")
      else
        let n := LittleEndian.decode (rest.take 4)
        if data.length < 1 + 4 + n then
          .error (.runtimeError "Corrupt encoded string payload")
        else .ok (.str ((rest.drop 4).take n), 1 + 4 + n)
    else .error (.runtimeError "Unknown value tag on disk")

def compareEncodedKeys (a b : Bytes) : Except Exn Int := do
  let (va, _) ← decodeValue a
  let (vb, _) ← decodeValue b
  return (va.compare vb).1

theorem valueBytes_length (v : Value) : (valueBytes v).length = encodedValueSize v := by
  cases v with
  | null => rfl
  | int i => simp [valueBytes, encodedValueSize]
  | str s =>
    simp only [valueBytes, encodedValueSize, List.length_cons, List.length_append,
      LittleEndian.encode_length]
    omega

theorem encodeValue_nil (v : Value) :
    encodeValue [] v = if encodedValueSize v > kMaxIndexKeyBytes then
      .error (.runtimeError "Index key too large for disk page") else .ok (valueBytes v) := by
  simp [encodeValue]

theorem encodeValue_ok_iff {v : Value} {key : Bytes} :
    encodeValue [] v = .ok key ↔ encodedValueSize v ≤ kMaxIndexKeyBytes ∧ key = valueBytes v := by
  rw [encodeValue_nil]
  by_cases h : encodedValueSize v > kMaxIndexKeyBytes
  · simp [if_pos h, not_le.mpr h]
  · simp [if_neg h, not_lt.mp h, eq_comm]

/-- Decoding undoes encoding, whatever follows the key. -/
theorem decodeValue_valueBytes (v : Value) (r : Bytes)
    (h : encodedValueSize v ≤ kMaxIndexKeyBytes) :
    decodeValue (valueBytes v ++ r) = .ok (v, encodedValueSize v) := by
  cases v with
  | null => simp [valueBytes, decodeValue, encodedValueSize]
  | int i =>
    have hlen : (LittleEndian.encode 8 i.toUInt64.toNat).length = 8 := by simp
    have htake : (LittleEndian.encode 8 i.toUInt64.toNat ++ r).take 8 =
        LittleEndian.encode 8 i.toUInt64.toNat := by
      rw [List.take_append_of_le_length (by omega), List.take_of_length_le (by omega)]
    have hval : LittleEndian.decode (LittleEndian.encode 8 i.toUInt64.toNat) = i.toUInt64.toNat :=
      LittleEndian.decode_encode i.toUInt64.toNat_lt
    simp [valueBytes, decodeValue, htake, hval, encodedValueSize]
  | str s =>
    have hs : s.length < 256 ^ 4 := by
      simp only [encodedValueSize, kMaxIndexKeyBytes] at h
      omega
    have hlen : (LittleEndian.encode 4 s.length).length = 4 := by simp
    have htake : (LittleEndian.encode 4 s.length ++ s ++ r).take 4 =
        LittleEndian.encode 4 s.length := by
      rw [List.append_assoc, List.take_append_of_le_length (by omega),
        List.take_of_length_le (by omega)]
    have hdrop : (LittleEndian.encode 4 s.length ++ s ++ r).drop 4 = s ++ r := by
      rw [List.append_assoc, List.drop_append_of_le_length (by omega),
        List.drop_of_length_le (by omega), List.nil_append]
    rw [List.append_assoc] at htake hdrop
    simp [valueBytes, decodeValue, htake, hdrop, LittleEndian.decode_encode hs, encodedValueSize]
    rw [if_neg (by omega), if_neg (by omega)]

/-- Keys compare as the values they encode. -/
theorem compareEncodedKeys_eq {a b : Value} (ha : encodedValueSize a ≤ kMaxIndexKeyBytes)
    (hb : encodedValueSize b ≤ kMaxIndexKeyBytes) :
    compareEncodedKeys (valueBytes a) (valueBytes b) = .ok (a.compare b).1 := by
  have hda := decodeValue_valueBytes a [] ha
  have hdb := decodeValue_valueBytes b [] hb
  rw [List.append_nil] at hda hdb
  simp only [compareEncodedKeys, hda, hdb]
  rfl

/-- A key that decodes is the encoding of what it decodes to. -/
theorem valueBytes_of_decodeValue {data : Bytes} {v : Value} {n : Nat}
    (h : decodeValue data = .ok (v, n)) : n ≤ data.length ∧ valueBytes v = data.take n := by
  cases data with
  | nil => exact absurd h (by simp [decodeValue])
  | cons tag rest =>
    unfold decodeValue at h
    dsimp only at h
    by_cases hnull : tag = 0
    · rw [if_pos hnull] at h
      cases h
      exact ⟨Nat.le_add_left _ _, by simp [valueBytes, hnull]⟩
    rw [if_neg hnull] at h
    by_cases hint : tag = 1
    · rw [if_pos hint] at h
      by_cases hshort : (tag :: rest).length < 1 + 8
      · rw [if_pos hshort] at h
        exact absurd h nofun
      rw [if_neg hshort, Except.ok.injEq, Prod.mk.injEq] at h
      obtain ⟨rfl, rfl⟩ := h
      rw [List.length_cons] at hshort ⊢
      have height : (rest.take 8).length = 8 := List.length_take_of_le (by omega)
      have hlt : LittleEndian.decode (rest.take 8) < 2 ^ 64 := by
        have hbound := LittleEndian.decode_lt (rest.take 8)
        rwa [height] at hbound
      have hback := LittleEndian.encode_decode (rest.take 8)
      rw [height] at hback
      refine ⟨by omega, ?_⟩
      simp only [valueBytes, UInt64.toUInt64_toInt64, UInt64.toNat_ofNat_of_lt' hlt, hback, hint,
        Nat.add_comm 1 8, List.take_succ_cons]
    rw [if_neg hint] at h
    by_cases hstr : tag = 2
    · rw [if_pos hstr] at h
      by_cases hshort : (tag :: rest).length < 1 + 4
      · rw [if_pos hshort] at h
        exact absurd h nofun
      rw [if_neg hshort] at h
      by_cases hbody : (tag :: rest).length < 1 + 4 + LittleEndian.decode (rest.take 4)
      · rw [if_pos hbody] at h
        exact absurd h nofun
      rw [if_neg hbody, Except.ok.injEq, Prod.mk.injEq] at h
      obtain ⟨rfl, rfl⟩ := h
      rw [List.length_cons] at hshort hbody ⊢
      have hfour : (rest.take 4).length = 4 := List.length_take_of_le (by omega)
      have hlength : ((rest.drop 4).take (LittleEndian.decode (rest.take 4))).length =
          LittleEndian.decode (rest.take 4) :=
        List.length_take_of_le (by rw [List.length_drop]; omega)
      have hback := LittleEndian.encode_decode (rest.take 4)
      rw [hfour] at hback
      refine ⟨by omega, ?_⟩
      simp only [valueBytes, hlength, hback, hstr]
      rw [show 1 + 4 + LittleEndian.decode (rest.take 4) =
        4 + LittleEndian.decode (rest.take 4) + 1 by omega, List.take_succ_cons, List.take_add]
    rw [if_neg hstr] at h
    exact absurd h nofun

/-- The keys of an index are the words of a prefix code: a key is read back from the
front of whatever it stands before, and nothing else decodes to its value. On keys of
one type the comparison is the one of the values, and it is a total order. -/
theorem encodeValue_prefixCode :
    (∀ v key r, encodeValue [] v = .ok key → decodeValue (key ++ r) = .ok (v, key.length)) ∧
    (∀ data v n, decodeValue data = .ok (v, n) → n ≤ data.length ∧
      (encodedValueSize v ≤ kMaxIndexKeyBytes → encodeValue [] v = .ok (data.take n))) ∧
    ∀ t a b c ka kb kc, Value.HasType t a → Value.HasType t b → Value.HasType t c →
      encodeValue [] a = .ok ka → encodeValue [] b = .ok kb → encodeValue [] c = .ok kc →
      ∃ ab ba bc ac, compareEncodedKeys ka kb = .ok ab ∧ compareEncodedKeys kb ka = .ok ba ∧
        compareEncodedKeys kb kc = .ok bc ∧ compareEncodedKeys ka kc = .ok ac ∧
        a.compare b = (ab, true) ∧ (ab = 0 ↔ a = b) ∧ ba = -ab ∧
        (ab ≤ 0 → bc ≤ 0 → ac ≤ 0) ∧ (ab < 0 → bc ≤ 0 → ac < 0) ∧ (ab ≤ 0 → bc < 0 → ac < 0) := by
  refine ⟨fun v key r h => ?_, fun data v n h => ?_, ?_⟩
  · obtain ⟨hlength, rfl⟩ := encodeValue_ok_iff.mp h
    rw [decodeValue_valueBytes v r hlength, valueBytes_length]
  · obtain ⟨hn, hbytes⟩ := valueBytes_of_decodeValue h
    exact ⟨hn, fun hlength => encodeValue_ok_iff.mpr ⟨hlength, hbytes.symm⟩⟩
  · intro t a b c ka kb kc ha hb hc hka hkb hkc
    obtain ⟨hla, rfl⟩ := encodeValue_ok_iff.mp hka
    obtain ⟨hlb, rfl⟩ := encodeValue_ok_iff.mp hkb
    obtain ⟨hlc, rfl⟩ := encodeValue_ok_iff.mp hkc
    refine ⟨_, _, _, _, compareEncodedKeys_eq hla hlb, compareEncodedKeys_eq hlb hla,
      compareEncodedKeys_eq hlb hlc, compareEncodedKeys_eq hla hlc,
      Prod.ext rfl (Value.compare_valid ha hb), Value.compare_zero_iff ha hb,
      Value.compare_neg ha hb, ?_, ?_, ?_⟩
    · rw [Value.compare_nonpos_iff ha hb, Value.compare_nonpos_iff hb hc,
        Value.compare_nonpos_iff ha hc]
      exact le_trans
    · rw [Value.compare_neg_iff ha hb, Value.compare_nonpos_iff hb hc, Value.compare_neg_iff ha hc]
      exact lt_of_lt_of_le
    · rw [Value.compare_nonpos_iff ha hb, Value.compare_neg_iff hb hc, Value.compare_neg_iff ha hc]
      exact lt_of_le_of_lt

end CwDb.Storage
