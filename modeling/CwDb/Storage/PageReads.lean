import CwDb.Storage.PageCodec

/-! Which bytes of a page the reader touches.

`pageReads` lists the byte ranges `read_page` copies out of a page, in its order;
the node it makes depends on those bytes only (`parsePage_eq_of_reads`). The reader
trusts the key lengths it finds: a leaf entry is started when its length and record
id would fit without the key, and a separator is not looked at before it is read. So
the ranges stay inside the page exactly when the header is followed by complete
entries (`pageReads_within_iff`), as in every page written from a node of at most
255 entries (`encodePage_wholeNode`). -/
namespace CwDb.Storage
open Foundation

/-- An offset and a number of bytes. -/
abbrev Range := Nat × Nat

def Range.Within (r : Range) : Prop := r.1 + r.2 ≤ kPageSize

instance (r : Range) : Decidable r.Within := inferInstanceAs (Decidable (_ ≤ _))

def leafReads (raw : Bytes) : Nat → Nat → List Range
  | 0, _ => []
  | n + 1, off =>
    if off + 2 + 8 > kPageSize then []
    else
      let klen := word raw off 2
      (off, 2) :: (off + 2, klen) :: (off + 2 + klen, 8) ::
        leafReads raw n (off + 2 + klen + 8)

def childReads : Nat → Nat → List Range
  | 0, _ => []
  | n + 1, off => (off, 4) :: childReads n (off + 4)

def separatorReads (raw : Bytes) : Nat → Nat → List Range
  | 0, _ => []
  | n + 1, off =>
    let klen := word raw off 2
    (off, 2) :: (off + 2, klen) :: separatorReads raw n (off + 2 + klen)

/-- The magic number, and after a good one the type, the count, the next leaf and
what the type byte and the count ask for. -/
def pageReads (raw : Bytes) : List Range :=
  (0, 4) ::
    if word raw 0 4 ≠ kPageMagic then []
    else
      let count := (raw.getD 5 0).toNat
      (4, 1) :: (5, 1) :: (8, 4) ::
        if NodeType.ofByte (raw.getD 4 0) = .leaf then leafReads raw count kLeafHeader
        else if kInnerHeader + (count + 1) * 4 > kPageSize then []
        else childReads (count + 1) kInnerHeader ++
          separatorReads raw count (kInnerHeader + (count + 1) * 4)

/-! ### The node depends on these bytes -/

section Agree
variable {raw raw' : Bytes}

/-- The two pages have the same bytes in the range. -/
def SameOn (raw raw' : Bytes) (r : Range) : Prop := slice raw r.1 r.2 = slice raw' r.1 r.2

theorem SameOn.word {off n : Nat} (h : SameOn raw raw' (off, n)) :
    word raw off n = Storage.word raw' off n := congrArg LittleEndian.decode h

theorem SameOn.getD {i : Nat} (h : SameOn raw raw' (i, 1)) : raw.getD i 0 = raw'.getD i 0 := by
  have hhead : ∀ bs : Bytes, (slice bs i 1).headD 0 = bs.getD i 0 := by
    intro bs
    rw [slice, List.getD_eq_getElem?_getD, ← List.head?_drop]
    cases bs.drop i <;> rfl
  rw [← hhead, ← hhead]
  exact congrArg (List.headD · 0) h

theorem parseLeafEntries_eq_of_reads (n off : Nat)
    (h : ∀ r ∈ leafReads raw n off, SameOn raw raw' r) :
    parseLeafEntries raw n off = parseLeafEntries raw' n off := by
  induction n generalizing off with
  | zero => rfl
  | succ n ih =>
    rw [leafReads] at h
    rw [parseLeafEntries, parseLeafEntries]
    split
    · rfl
    · rename_i hstart
      rw [if_neg hstart] at h
      simp only [List.forall_mem_cons] at h
      obtain ⟨hlen, hkey, hrid, hrest⟩ := h
      have hkey' : slice raw (off + 2) (word raw off 2) = slice raw' (off + 2) (word raw off 2) := hkey
      rw [← hlen.word]
      simp only [hkey', hrid.word, ih _ hrest]

theorem parseChildren_eq_of_reads (n off : Nat) (h : ∀ r ∈ childReads n off, SameOn raw raw' r) :
    parseChildren raw n off = parseChildren raw' n off := by
  induction n generalizing off with
  | zero => rfl
  | succ n ih =>
    rw [childReads, List.forall_mem_cons] at h
    rw [parseChildren, parseChildren, h.1.word, ih _ h.2]

theorem parseSeparators_eq_of_reads (n off : Nat)
    (h : ∀ r ∈ separatorReads raw n off, SameOn raw raw' r) :
    parseSeparators raw n off = parseSeparators raw' n off := by
  induction n generalizing off with
  | zero => rfl
  | succ n ih =>
    rw [separatorReads] at h
    simp only [List.forall_mem_cons] at h
    obtain ⟨hlen, hkey, hrest⟩ := h
    have hkey' : slice raw (off + 2) (word raw off 2) = slice raw' (off + 2) (word raw off 2) := hkey
    rw [parseSeparators, parseSeparators, ← hlen.word]
    simp only [hkey', ih _ hrest]

/-- Pages that agree on what is read give the same node. -/
theorem parsePage_eq_of_reads (id : PageId) (h : ∀ r ∈ pageReads raw, SameOn raw raw' r) :
    parsePage id raw = parsePage id raw' := by
  rw [pageReads, List.forall_mem_cons] at h
  obtain ⟨hmagic, h⟩ := h
  unfold parsePage
  rw [← hmagic.word]
  by_cases hbad : word raw 0 4 ≠ kPageMagic
  · rw [if_pos hbad, if_pos hbad]
  rw [if_neg hbad, if_neg hbad]
  rw [if_neg hbad] at h
  simp only [List.forall_mem_cons] at h
  obtain ⟨htype, hcount, hnext, h⟩ := h
  rw [← htype.getD, ← hcount.getD, ← hnext.word]
  by_cases hleaf : NodeType.ofByte (raw.getD 4 0) = .leaf
  · rw [if_pos hleaf] at h
    simp only [if_pos hleaf, parseLeafEntries_eq_of_reads _ _ h]
  rw [if_neg hleaf] at h
  simp only [if_neg hleaf]
  split
  · rfl
  · rename_i hroom
    rw [if_neg hroom, List.forall_mem_append] at h
    rw [parseChildren_eq_of_reads _ _ h.1, parseSeparators_eq_of_reads _ _ h.2]

end Agree

/-! ### Pages of complete entries -/

/-- Bytes that begin with complete leaf entries: as many as are counted, or as many
as there are before less than an empty entry is left. -/
def LeafImage (raw : Bytes) (n off : Nat) : Prop :=
  ∃ es : List LeafEntry, (∀ e ∈ es, e.keyLen.toNat = e.key.length) ∧
    es.flatMap leafEntryImage <+: raw.drop off ∧
    (es.length = n ∨
      es.length < n ∧ kPageSize < off + (es.flatMap leafEntryImage).length + 2 + 8)

/-- Bytes that begin with the separators that are counted. -/
def SeparatorsImage (raw : Bytes) (n off : Nat) : Prop :=
  ∃ ks : List LeafEntry, (∀ k ∈ ks, k.keyLen.toNat = k.key.length) ∧
    ks.flatMap separatorImage <+: raw.drop off ∧ ks.length = n

/-- After a good magic number, the header is followed by the entries it counts. -/
def WholeNode (raw : Bytes) : Prop :=
  word raw 0 4 = kPageMagic →
    if NodeType.ofByte (raw.getD 4 0) = .leaf then
      LeafImage raw (raw.getD 5 0).toNat kLeafHeader
    else
      SeparatorsImage raw (raw.getD 5 0).toNat (kInnerHeader + ((raw.getD 5 0).toNat + 1) * 4)

section Whole
variable {raw : Bytes}

theorem slice_append_drop (raw : Bytes) (off n : Nat) :
    slice raw off n ++ raw.drop (off + n) = raw.drop off := by
  rw [slice, ← List.drop_drop, List.take_append_drop]

theorem slice_length {off n : Nat} (h : off + n ≤ raw.length) : (slice raw off n).length = n := by
  rw [slice, List.length_take, List.length_drop]
  omega

/-- A number in the page, written again. -/
theorem encode_word {off n : Nat} (h : off + n ≤ raw.length) :
    LittleEndian.encode n (word raw off n) = slice raw off n := by
  have hback := LittleEndian.encode_decode (slice raw off n)
  rwa [slice_length h] at hback

theorem word_of_prefix {off w n : Nat} {rest : Bytes} (hn : n < 256 ^ w)
    (h : LittleEndian.encode w n ++ rest <+: raw.drop off) : word raw off w = n := by
  obtain ⟨t, ht⟩ := h
  rw [word, slice, ← ht, List.append_assoc, List.take_left' (LittleEndian.encode_length w n),
    LittleEndian.decode_encode hn]

/-- What is left of a page after a part of it. -/
theorem prefix_drop {off : Nat} {part rest : Bytes} (h : part ++ rest <+: raw.drop off) :
    rest <+: raw.drop (off + part.length) := by
  obtain ⟨t, ht⟩ := h
  refine ⟨t, ?_⟩
  rw [← List.drop_drop, ← ht, List.append_assoc, List.drop_left]

theorem prefix_length {off : Nat} {part : Bytes} (hraw : raw.length = kPageSize)
    (hoff : off ≤ kPageSize) (h : part <+: raw.drop off) : off + part.length ≤ kPageSize := by
  have hle := h.length_le
  rw [List.length_drop] at hle
  omega

theorem leafEntryImage_keyLen {e : LeafEntry} (h : e.keyLen.toNat = e.key.length) :
    (leafEntryImage e).length = 2 + e.keyLen.toNat + 8 := by
  rw [leafEntryImage, List.take_of_length_le h.ge]
  simp only [List.length_append, LittleEndian.encode_length, ← h]

theorem separatorImage_keyLen {k : LeafEntry} (h : k.keyLen.toNat = k.key.length) :
    (separatorImage k).length = 2 + k.keyLen.toNat := by
  rw [separatorImage, List.take_of_length_le h.ge]
  simp only [List.length_append, LittleEndian.encode_length, ← h]

variable (hraw : raw.length = kPageSize)
include hraw

/-- A complete entry in the page, and what follows it. -/
theorem leafEntryImage_drop {off : Nat} (h : off + 2 + word raw off 2 + 8 ≤ kPageSize) :
    ∃ e : LeafEntry, e.keyLen.toNat = e.key.length ∧ e.keyLen.toNat = word raw off 2 ∧
      leafEntryImage e ++ raw.drop (off + 2 + word raw off 2 + 8) = raw.drop off := by
  have hklen : (UInt16.ofNat (word raw off 2)).toNat = word raw off 2 :=
    UInt16.toNat_ofNat_of_lt' (word_lt raw off 2)
  have hrid : (UInt64.ofNat (word raw (off + 2 + word raw off 2) 8)).toNat =
      word raw (off + 2 + word raw off 2) 8 :=
    UInt64.toNat_ofNat_of_lt' (word_lt raw _ 8)
  have hkey : (slice raw (off + 2) (word raw off 2)).length = word raw off 2 :=
    slice_length (by omega)
  refine ⟨{ key := slice raw (off + 2) (word raw off 2), keyLen := .ofNat (word raw off 2)
            rid := .ofNat (word raw (off + 2 + word raw off 2) 8) }, ?_, hklen, ?_⟩
  · rw [hklen, hkey]
  · simp only [leafEntryImage, hklen, hrid, List.take_of_length_le hkey.le]
    rw [encode_word (by omega), encode_word (by omega), List.append_assoc, List.append_assoc,
      slice_append_drop, slice_append_drop, slice_append_drop]

theorem separatorImage_drop {off : Nat} (h : off + 2 + word raw off 2 ≤ kPageSize) :
    ∃ k : LeafEntry, k.keyLen.toNat = k.key.length ∧ k.keyLen.toNat = word raw off 2 ∧
      separatorImage k ++ raw.drop (off + 2 + word raw off 2) = raw.drop off := by
  have hklen : (UInt16.ofNat (word raw off 2)).toNat = word raw off 2 :=
    UInt16.toNat_ofNat_of_lt' (word_lt raw off 2)
  have hkey : (slice raw (off + 2) (word raw off 2)).length = word raw off 2 :=
    slice_length (by omega)
  refine ⟨{ key := slice raw (off + 2) (word raw off 2), keyLen := .ofNat (word raw off 2) },
    ?_, hklen, ?_⟩
  · rw [hklen, hkey]
  · simp only [separatorImage, hklen, List.take_of_length_le hkey.le]
    rw [encode_word (by omega), List.append_assoc, slice_append_drop, slice_append_drop]

theorem leafReads_within_iff (n off : Nat) (hoff : off ≤ kPageSize) :
    (∀ r ∈ leafReads raw n off, r.Within) ↔ LeafImage raw n off := by
  induction n generalizing off with
  | zero => exact iff_of_true nofun ⟨[], nofun, List.nil_prefix, .inl rfl⟩
  | succ n ih =>
    rw [leafReads]
    by_cases hstart : off + 2 + 8 > kPageSize
    · rw [if_pos hstart]
      exact iff_of_true nofun ⟨[], nofun, List.nil_prefix, .inr ⟨Nat.succ_pos n, hstart⟩⟩
    rw [if_neg hstart]
    simp only [List.forall_mem_cons, Range.Within]
    constructor
    · rintro ⟨-, -, hend, hrest⟩
      obtain ⟨es, hes, hpre, hcount⟩ := (ih _ hend).mp hrest
      obtain ⟨e, he, hlen, hcut⟩ := leafEntryImage_drop hraw hend
      refine ⟨e :: es, List.forall_mem_cons.mpr ⟨he, hes⟩, ?_, ?_⟩
      · rw [List.flatMap_cons, ← hcut]
        exact (List.prefix_append_right_inj _).mpr hpre
      · rw [List.flatMap_cons, List.length_append, leafEntryImage_keyLen he, hlen, List.length_cons]
        omega
    · rintro ⟨es, hes, hpre, hcount⟩
      cases es with
      | nil =>
        rw [List.flatMap_nil, List.length_nil, List.length_nil] at hcount
        omega
      | cons e es =>
        rw [List.forall_mem_cons] at hes
        rw [List.flatMap_cons] at hpre hcount
        have hword : word raw off 2 = e.keyLen.toNat := by
          have hpre' := hpre
          rw [leafEntryImage, List.append_assoc, List.append_assoc] at hpre'
          exact word_of_prefix e.keyLen.toNat_lt hpre'
        have hall := prefix_length hraw hoff hpre
        have hnext := prefix_drop hpre
        rw [List.length_append, leafEntryImage_keyLen hes.1] at hall
        rw [leafEntryImage_keyLen hes.1, ← Nat.add_assoc, ← Nat.add_assoc] at hnext
        rw [List.length_append, leafEntryImage_keyLen hes.1, List.length_cons] at hcount
        rw [hword]
        exact ⟨by omega, by omega, by omega, (ih _ (by omega)).mpr ⟨es, hes.2, hnext, by omega⟩⟩

theorem separatorReads_within_iff (n off : Nat) (hoff : off ≤ kPageSize) :
    (∀ r ∈ separatorReads raw n off, r.Within) ↔ SeparatorsImage raw n off := by
  induction n generalizing off with
  | zero => exact iff_of_true nofun ⟨[], nofun, List.nil_prefix, rfl⟩
  | succ n ih =>
    rw [separatorReads]
    simp only [List.forall_mem_cons, Range.Within]
    constructor
    · rintro ⟨-, hend, hrest⟩
      obtain ⟨ks, hks, hpre, hcount⟩ := (ih _ hend).mp hrest
      obtain ⟨k, hk, -, hcut⟩ := separatorImage_drop hraw hend
      refine ⟨k :: ks, List.forall_mem_cons.mpr ⟨hk, hks⟩, ?_, congrArg (· + 1) hcount⟩
      rw [List.flatMap_cons, ← hcut]
      exact (List.prefix_append_right_inj _).mpr hpre
    · rintro ⟨ks, hks, hpre, hcount⟩
      cases ks with
      | nil => exact absurd hcount nofun
      | cons k ks =>
        rw [List.forall_mem_cons] at hks
        rw [List.flatMap_cons] at hpre
        have hword : word raw off 2 = k.keyLen.toNat := by
          have hpre' := hpre
          rw [separatorImage, List.append_assoc] at hpre'
          exact word_of_prefix k.keyLen.toNat_lt hpre'
        have hall := prefix_length hraw hoff hpre
        have hnext := prefix_drop hpre
        rw [List.length_append, separatorImage_keyLen hks.1] at hall
        rw [separatorImage_keyLen hks.1, ← Nat.add_assoc] at hnext
        rw [hword]
        exact ⟨by omega, by omega, (ih _ (by omega)).mpr ⟨ks, hks.2, hnext, Nat.succ.inj hcount⟩⟩

end Whole

/-! ### The whole page -/

theorem childReads_within (n off : Nat) (h : off + n * 4 ≤ kPageSize) :
    ∀ r ∈ childReads n off, r.Within := by
  induction n generalizing off with
  | zero => exact nofun
  | succ n ih =>
    rw [childReads, List.forall_mem_cons]
    refine ⟨?_, ih _ (by omega)⟩
    show off + 4 ≤ kPageSize
    omega

/-- A one-byte count never asks for more children than a page has room for. -/
theorem children_fit (count : UInt8) : kInnerHeader + (count.toNat + 1) * 4 ≤ kPageSize := by
  have hcount := count.toNat_lt
  have hheader : kInnerHeader = 12 := rfl
  have hpage : kPageSize = 4096 := rfl
  omega

theorem pageReads_leaf {raw : Bytes} (hmagic : word raw 0 4 = kPageMagic)
    (hleaf : NodeType.ofByte (raw.getD 4 0) = .leaf) :
    pageReads raw = (0, 4) :: (4, 1) :: (5, 1) :: (8, 4) ::
      leafReads raw (raw.getD 5 0).toNat kLeafHeader := by
  rw [pageReads, if_neg (not_not_intro hmagic)]
  simp only [if_pos hleaf]

theorem pageReads_inner {raw : Bytes} (hmagic : word raw 0 4 = kPageMagic)
    (hleaf : NodeType.ofByte (raw.getD 4 0) ≠ .leaf) :
    pageReads raw = (0, 4) :: (4, 1) :: (5, 1) :: (8, 4) ::
      (childReads ((raw.getD 5 0).toNat + 1) kInnerHeader ++ separatorReads raw
        (raw.getD 5 0).toNat (kInnerHeader + ((raw.getD 5 0).toNat + 1) * 4)) := by
  rw [pageReads, if_neg (not_not_intro hmagic)]
  simp only [if_neg hleaf, if_neg (not_lt.mpr (children_fit (raw.getD 5 0)))]

/-- The header itself is inside the page. -/
theorem header_within {rs : List Range} :
    (∀ r ∈ (0, 4) :: (4, 1) :: (5, 1) :: (8, 4) :: rs, Range.Within r) ↔
      ∀ r ∈ rs, Range.Within r := by
  have hpage : kPageSize = 4096 := rfl
  simp only [List.forall_mem_cons, Range.Within, hpage]
  simp

/-- Of a page of arbitrary bytes, what is read lies inside the page exactly when the
entries the header counts do. -/
theorem pageReads_within_iff {raw : Bytes} (hraw : raw.length = kPageSize) :
    (∀ r ∈ pageReads raw, r.Within) ↔ WholeNode raw := by
  by_cases hmagic : word raw 0 4 = kPageMagic
  · have hroom := children_fit (raw.getD 5 0)
    by_cases hleaf : NodeType.ofByte (raw.getD 4 0) = .leaf
    · have hheader : kLeafHeader ≤ kPageSize := Nat.le_of_ble_eq_true rfl
      rw [pageReads_leaf hmagic hleaf, header_within, leafReads_within_iff hraw _ _ hheader]
      simp only [WholeNode, hmagic, true_implies, if_pos hleaf]
    · rw [pageReads_inner hmagic hleaf, header_within, List.forall_mem_append,
        separatorReads_within_iff hraw _ _ hroom]
      simp only [WholeNode, hmagic, true_implies, if_neg hleaf]
      exact and_iff_right (childReads_within _ _ hroom)
  · refine iff_of_true ?_ fun h => absurd h hmagic
    rw [pageReads, if_pos hmagic, List.forall_mem_singleton]
    exact Nat.le_of_ble_eq_true rfl

/-- A leaf that counts one entry and gives it a key of 65535 bytes. -/
def longKeyPage : Bytes := padPage (pageHeader 1 1 0 ++ LittleEndian.encode 2 65535)

theorem not_pageReads_within :
    ¬ ∀ raw : Bytes, raw.length = kPageSize → ∀ r ∈ pageReads raw, r.Within := by
  intro hall
  have hlength : longKeyPage.length = kPageSize := padPage_length (by
    rw [List.length_append, pageHeader_length, LittleEndian.encode_length]
    exact Nat.le_of_ble_eq_true rfl)
  have hpage : longKeyPage = pageHeader 1 1 0 ++ (LittleEndian.encode 2 65535 ++
      List.replicate (kPageSize - (pageHeader 1 1 0 ++ LittleEndian.encode 2 65535).length) 0) := by
    rw [longKeyPage, padPage, List.append_assoc]
  have hmagic : word longKeyPage 0 4 = kPageMagic := by rw [hpage, magic_pageHeader]
  have hleaf : NodeType.ofByte (longKeyPage.getD 4 0) = .leaf := by rw [hpage, type_pageHeader]; rfl
  have hcount : (longKeyPage.getD 5 0).toNat = 0 + 1 := by rw [hpage, count_pageHeader]; rfl
  have hklen : word longKeyPage 12 2 = 65535 := by
    rw [hpage]
    exact word_mid _ _ 12 2 65535 (pageHeader_length ..).symm (by decide)
  have hmem : (14, 65535) ∈ pageReads longKeyPage := by
    rw [pageReads_leaf hmagic hleaf, hcount, leafReads, if_neg (by decide)]
    simp [kLeafHeader, hklen]
  have hin : 14 + 65535 ≤ kPageSize := hall longKeyPage hlength _ hmem
  have hsize : kPageSize = 4096 := rfl
  omega

/-- A node of at most 255 entries is read back from inside its page. -/
theorem encodePage_wholeNode {p : ParsedPage} (hp : p.Proper) {raw : Bytes}
    (h : encodePage p = .ok raw) (hcount : p.count ≤ 255) : WholeNode raw := by
  intro _
  rcases hp.kind with ht | ht
  · obtain ⟨-, rfl⟩ := encodePage_leaf ht h
    have hn : p.leafEntries.length ≤ 255 := by simpa [ParsedPage.count, ht] using hcount
    have htype : NodeType.ofByte 1 = .leaf := rfl
    rw [padPage, List.append_assoc, type_pageHeader, count_pageHeader, if_pos htype, count_byte hn]
    refine ⟨p.leafEntries, fun e he => (hp.leafKeys ht e he).1, ?_, .inl rfl⟩
    have hheader : kLeafHeader = 12 := rfl
    rw [hheader, List.drop_left' (pageHeader_length ..)]
    exact List.prefix_append _ _
  · have hne : p.type ≠ .leaf := by rw [ht]; exact NodeType.noConfusion
    obtain ⟨-, rfl⟩ := encodePage_inner hne h
    have hn : p.innerKeys.length ≤ 255 := by simpa [ParsedPage.count, ht] using hcount
    have htype : NodeType.ofByte 2 ≠ .leaf := NodeType.noConfusion
    rw [padPage, List.append_assoc, List.append_assoc, type_pageHeader, count_pageHeader,
      if_neg htype, count_byte hn, ← hp.fanout ht]
    refine ⟨p.innerKeys, fun k hk => (hp.separators ht k hk).1, ?_, rfl⟩
    rw [← List.append_assoc, List.drop_left' (by
      rw [List.length_append, pageHeader_length, flatMap_encode_length]; rfl)]
    exact List.prefix_append _ _

/-- A leaf of two keys of different lengths. -/
def twoKeyLeaf : ParsedPage :=
  { leafEntries := [{ key := [7], keyLen := 1, rid := 5 }, { key := [1, 2, 3], keyLen := 3, rid := 6 }]
    nextLeaf := 9 }

theorem twoKeyLeaf_proper : twoKeyLeaf.Proper where
  kind := .inl rfl
  leafKeys _ e he := by
    rcases List.mem_cons.mp he with rfl | he
    · exact ⟨rfl, by decide⟩
    · rw [List.mem_singleton.mp he]
      exact ⟨rfl, by decide⟩
  separators := nofun
  fanout := nofun
  next_lt := by decide
  children_lt := nofun

/-- All that is read of its page, the keys and ids of both entries too, is inside the page. -/
theorem pageReads_within_iff_twoKeys : ∃ raw, encodePage twoKeyLeaf = .ok raw ∧
    (pageReads raw).length = 10 ∧ ∀ r ∈ pageReads raw, r.Within := by
  have hwrite : encodePage twoKeyLeaf = .ok (padPage (pageHeader 1 2 9 ++
      twoKeyLeaf.leafEntries.flatMap leafEntryImage)) := by
    have hleaf : twoKeyLeaf.type = .leaf := rfl
    rw [encodePage, if_pos hleaf, if_neg (by decide)]
    rfl
  refine ⟨_, hwrite, ?_, (pageReads_within_iff (encodePage_length twoKeyLeaf_proper hwrite)).mpr
    (encodePage_wholeNode twoKeyLeaf_proper hwrite (by decide))⟩
  decide +kernel

end CwDb.Storage
