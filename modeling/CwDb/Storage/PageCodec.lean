import CwDb.Storage.Page

/-! A page gives back the node it was written from, if it counts few enough.

The offsets of the reader and the lengths of the writer are made to meet by
cutting the page into what lies before an entry, the entry and what follows
(`slice_mid`, `word_mid`); an induction over the entries then reads them back one
by one. The header contributes the count modulo 256, and that is the only thing
that can be lost. -/
namespace CwDb.Storage
open Foundation

/-! ### Cutting a page -/

theorem slice_mid (a b c : Bytes) (off n : Nat) (hoff : off = a.length) (hn : n = b.length) :
    slice (a ++ (b ++ c)) off n = b := by
  subst hoff hn
  simp [slice]

theorem word_mid (a c : Bytes) (off w n : Nat) (hoff : off = a.length) (hn : n < 256 ^ w) :
    word (a ++ (LittleEndian.encode w n ++ c)) off w = n := by
  rw [word, slice_mid a _ c off w hoff (by simp), LittleEndian.decode_encode hn]

theorem pageHeader_length (t n : UInt8) (next : PageId) : (pageHeader t n next).length = 12 := by
  simp [pageHeader]

theorem word_lt (raw : Bytes) (off n : Nat) : word raw off n < 256 ^ n := by
  have hlen : (slice raw off n).length ≤ n := by simp [slice]
  exact lt_of_lt_of_le (LittleEndian.decode_lt _) (Nat.pow_le_pow_right (by decide) hlen)

/-! ### Entries, read back -/

theorem leafEntryImage_length {e : LeafEntry} (h : e.Sized) :
    (leafEntryImage e).length = 2 + e.keyLen.toNat + 8 := by
  simp [leafEntryImage, h.1]
  omega

theorem parseLeafEntries_images (es : List LeafEntry) (hes : ∀ e ∈ es, e.Sized)
    (a c : Bytes) (off : Nat) (hoff : off = a.length)
    (hfits : off + (es.map fun e => 2 + e.keyLen.toNat + 8).sum ≤ kPageSize) :
    parseLeafEntries (a ++ (es.flatMap leafEntryImage ++ c)) es.length off = es := by
  induction es generalizing a off with
  | nil => rfl
  | cons e es ih =>
    have he := hes e (List.mem_cons_self ..)
    simp only [List.map_cons, List.sum_cons] at hfits
    have hklen : e.keyLen.toNat < 256 ^ 2 := e.keyLen.toNat_lt
    have hrid : e.rid.toNat < 256 ^ 8 := e.rid.toNat_lt
    have hkey : e.key.take e.keyLen.toNat = e.key := List.take_of_length_le (by rw [he.1])
    -- the page, cut at the length, the key and the record id of the first entry
    have hpage : a ++ ((e :: es).flatMap leafEntryImage ++ c) =
        a ++ (LittleEndian.encode 2 e.keyLen.toNat ++ (e.key ++
          (LittleEndian.encode 8 e.rid.toNat ++ (es.flatMap leafEntryImage ++ c)))) := by
      simp [leafEntryImage, hkey, List.append_assoc]
    rw [List.length_cons, parseLeafEntries, if_neg (by omega), hpage]
    have hw : word (a ++ (LittleEndian.encode 2 e.keyLen.toNat ++ (e.key ++
        (LittleEndian.encode 8 e.rid.toNat ++ (es.flatMap leafEntryImage ++ c))))) off 2 =
        e.keyLen.toNat := word_mid a _ off 2 _ hoff hklen
    simp only [hw]
    congr 1
    · have hs : slice (a ++ (LittleEndian.encode 2 e.keyLen.toNat ++ (e.key ++
          (LittleEndian.encode 8 e.rid.toNat ++ (es.flatMap leafEntryImage ++ c)))))
          (off + 2) e.keyLen.toNat = e.key := by
        rw [← List.append_assoc]
        exact slice_mid _ e.key _ _ _ (by simp [hoff]) he.1
      have hr : word (a ++ (LittleEndian.encode 2 e.keyLen.toNat ++ (e.key ++
          (LittleEndian.encode 8 e.rid.toNat ++ (es.flatMap leafEntryImage ++ c)))))
          (off + 2 + e.keyLen.toNat) 8 = e.rid.toNat := by
        rw [← List.append_assoc, ← List.append_assoc]
        exact word_mid _ _ _ 8 _ (by simp [hoff, he.1]; omega) hrid
      rw [hs, hr]
      simp
    · have hrest := ih (fun x hx => hes x (List.mem_cons_of_mem e hx)) (a ++ leafEntryImage e)
        (off + 2 + e.keyLen.toNat + 8)
        (by rw [List.length_append, leafEntryImage_length he, hoff]; omega) (by omega)
      simpa only [leafEntryImage, hkey, List.append_assoc] using hrest

theorem parseChildren_images (cs : List PageId) (hcs : ∀ c ∈ cs, c < 2 ^ 32) (a c : Bytes)
    (off : Nat) (hoff : off = a.length) :
    parseChildren (a ++ (cs.flatMap (LittleEndian.encode 4) ++ c)) cs.length off = cs := by
  induction cs generalizing a off with
  | nil => rfl
  | cons x xs ih =>
    have hx : x < 256 ^ 4 := by
      have := hcs x (List.mem_cons_self ..)
      omega
    have hrest := ih (fun y hy => hcs y (List.mem_cons_of_mem x hy))
      (a ++ LittleEndian.encode 4 x) (off + 4) (by simp [hoff])
    have hpage : a ++ ((x :: xs).flatMap (LittleEndian.encode 4) ++ c) =
        a ++ (LittleEndian.encode 4 x ++ (xs.flatMap (LittleEndian.encode 4) ++ c)) := by
      simp [List.append_assoc]
    rw [List.append_assoc] at hrest
    rw [List.length_cons, parseChildren, hpage, word_mid a _ off 4 x hoff hx, hrest]

theorem separatorImage_length {k : LeafEntry} (h : k.Sized) :
    (separatorImage k).length = 2 + k.keyLen.toNat := by
  simp [separatorImage, h.1]

theorem parseSeparators_images (ks : List LeafEntry) (hks : ∀ k ∈ ks, k.Sized) (a c : Bytes)
    (off : Nat) (hoff : off = a.length) :
    parseSeparators (a ++ (ks.flatMap separatorImage ++ c)) ks.length off =
      ks.map fun k => { k with rid := 0 } := by
  induction ks generalizing a off with
  | nil => rfl
  | cons k ks ih =>
    have hk := hks k (List.mem_cons_self ..)
    have hklen : k.keyLen.toNat < 256 ^ 2 := k.keyLen.toNat_lt
    have hkey : k.key.take k.keyLen.toNat = k.key := List.take_of_length_le (by rw [hk.1])
    have hpage : a ++ ((k :: ks).flatMap separatorImage ++ c) =
        a ++ (LittleEndian.encode 2 k.keyLen.toNat ++ (k.key ++
          (ks.flatMap separatorImage ++ c))) := by
      simp [separatorImage, hkey, List.append_assoc]
    have hrest := ih (fun x hx => hks x (List.mem_cons_of_mem k hx)) (a ++ separatorImage k)
      (off + 2 + k.keyLen.toNat) (by rw [List.length_append, separatorImage_length hk, hoff]; omega)
    have hs : slice (a ++ (LittleEndian.encode 2 k.keyLen.toNat ++ (k.key ++
        (ks.flatMap separatorImage ++ c)))) (off + 2) k.keyLen.toNat = k.key := by
      rw [← List.append_assoc]
      exact slice_mid _ k.key _ _ _ (by simp [hoff]) hk.1
    rw [List.length_cons, parseSeparators, hpage, word_mid a _ off 2 _ hoff hklen, hs,
      List.map_cons]
    congr 1
    · simp
    · simpa only [separatorImage, hkey, List.append_assoc] using hrest

theorem parseLeafEntries_length_le (raw : Bytes) (n off : Nat) :
    (parseLeafEntries raw n off).length ≤ n := by
  induction n generalizing off with
  | zero => simp [parseLeafEntries]
  | succ n ih =>
    rw [parseLeafEntries]
    split
    · simp
    · simpa using ih _

@[simp] theorem parseChildren_length (raw : Bytes) (n off : Nat) :
    (parseChildren raw n off).length = n := by
  induction n generalizing off with
  | zero => rfl
  | succ n ih => simp [parseChildren, ih]

/-! ### The header -/

theorem kPageMagic_lt : kPageMagic < 256 ^ 4 := by
  unfold kPageMagic
  omega

section Header
variable (t n : UInt8) (next : PageId) (body : Bytes)

theorem magic_pageHeader : word (pageHeader t n next ++ body) 0 4 = kPageMagic := by
  have h := word_mid [] ([t, n, 0, 0] ++ LittleEndian.encode 4 next ++ body) 0 4 kPageMagic rfl
    kPageMagic_lt
  rw [List.nil_append, List.append_assoc] at h
  rw [pageHeader, List.append_assoc, List.append_assoc]
  exact h

/-- The header from its fifth byte on. -/
theorem drop_pageHeader : (pageHeader t n next ++ body).drop 4 =
    t :: n :: 0 :: 0 :: (LittleEndian.encode 4 next ++ body) := by
  have hlen : (LittleEndian.encode 4 kPageMagic).length = 4 := LittleEndian.encode_length _ _
  rw [pageHeader, List.append_assoc, List.append_assoc, List.drop_left' hlen]
  simp only [List.cons_append, List.nil_append]

theorem type_pageHeader : (pageHeader t n next ++ body).getD 4 0 = t := by
  have h := congrArg (fun bs => bs.getD 0 0) (drop_pageHeader t n next body)
  simpa only [List.getD_eq_getElem?_getD, List.getElem?_drop, List.getElem?_cons_zero,
    Option.getD_some] using h

theorem count_pageHeader : (pageHeader t n next ++ body).getD 5 0 = n := by
  have h := congrArg (fun bs => bs.getD 1 0) (drop_pageHeader t n next body)
  simpa only [List.getD_eq_getElem?_getD, List.getElem?_drop, List.getElem?_cons_succ,
    List.getElem?_cons_zero, Option.getD_some] using h

theorem next_pageHeader (hnext : next < 2 ^ 32) :
    word (pageHeader t n next ++ body) 8 4 = next := by
  have hlen : 8 = (LittleEndian.encode 4 kPageMagic ++ [t, n, 0, 0]).length := by
    rw [List.length_append, LittleEndian.encode_length]
    rfl
  have h := word_mid (LittleEndian.encode 4 kPageMagic ++ [t, n, 0, 0]) body 8 4 next hlen
    (by omega)
  rw [pageHeader, List.append_assoc (_ ++ _)]
  exact h

end Header

/-! ### Whole pages -/

theorem encodePage_leaf {p : ParsedPage} {raw : Bytes} (ht : p.type = .leaf)
    (h : encodePage p = .ok raw) :
    leafPayloadBytes p.leafEntries ≤ kPageSize ∧
      raw = padPage (pageHeader 1 (UInt8.ofNat p.leafEntries.length) p.nextLeaf ++
        p.leafEntries.flatMap leafEntryImage) := by
  rw [encodePage, if_pos ht] at h
  split at h
  · cases h
  · rename_i hfits
    refine ⟨by simpa [leafOverflow] using hfits, ?_⟩
    injection h with h
    exact h.symm

theorem encodePage_inner {p : ParsedPage} {raw : Bytes} (ht : p.type ≠ .leaf)
    (h : encodePage p = .ok raw) :
    innerPayloadBytes p.innerKeys p.children.length ≤ kPageSize ∧
      raw = padPage (pageHeader 2 (UInt8.ofNat p.innerKeys.length) 0 ++
        p.children.flatMap (LittleEndian.encode 4) ++ p.innerKeys.flatMap separatorImage) := by
  rw [encodePage, if_neg ht] at h
  split at h
  · cases h
  · rename_i hfits
    refine ⟨by simpa [innerOverflow] using hfits, ?_⟩
    injection h with h
    exact h.symm

theorem parsePage_leaf (id : PageId) (n : UInt8) (next : PageId) (hnext : next < 2 ^ 32)
    (body : Bytes) :
    parsePage id (pageHeader 1 n next ++ body) =
      .ok { pageId := id, type := .leaf, keyCount := n, nextLeaf := next
            leafEntries := parseLeafEntries (pageHeader 1 n next ++ body) n.toNat kLeafHeader } := by
  have ht : NodeType.ofByte 1 = .leaf := rfl
  rw [parsePage, magic_pageHeader, if_neg (by simp), type_pageHeader, count_pageHeader,
    next_pageHeader _ _ _ _ hnext, ht]
  simp only [if_true]

theorem parsePage_inner (id : PageId) (n : UInt8) (body : Bytes) :
    parsePage id (pageHeader 2 n 0 ++ body) =
      if kInnerHeader + (n.toNat + 1) * 4 > kPageSize then
        .error (.runtimeError "Corrupt inner index page")
      else
        .ok { pageId := id, type := .inner, keyCount := n, nextLeaf := 0
              children := parseChildren (pageHeader 2 n 0 ++ body) (n.toNat + 1) kInnerHeader
              innerKeys := parseSeparators (pageHeader 2 n 0 ++ body) n.toNat
                (kInnerHeader + (n.toNat + 1) * 4) } := by
  have ht : NodeType.ofByte 2 = .inner := rfl
  rw [parsePage, magic_pageHeader, if_neg (by simp), type_pageHeader, count_pageHeader,
    next_pageHeader _ _ _ _ (Nat.two_pow_pos 32), ht]
  simp only [reduceCtorEq, if_false]

theorem count_byte {n : Nat} (h : n ≤ 255) : (UInt8.ofNat n).toNat = n := by
  simp only [UInt8.toNat_ofNat']
  omega

theorem flatMap_encode_length (cs : List PageId) :
    (cs.flatMap (LittleEndian.encode 4)).length = cs.length * 4 := by
  induction cs with
  | nil => rfl
  | cons c cs ih => simp only [List.flatMap_cons, List.length_append, ih,
      LittleEndian.encode_length, List.length_cons]; omega

theorem padPage_length {bs : Bytes} (h : bs.length ≤ kPageSize) :
    (padPage bs).length = kPageSize := by
  rw [padPage, List.length_append, List.length_replicate]
  omega

theorem flatMap_leafEntryImage_length {es : List LeafEntry} (hes : ∀ e ∈ es, e.Sized) :
    (es.flatMap leafEntryImage).length = (es.map fun e => 2 + e.keyLen.toNat + 8).sum := by
  rw [List.length_flatMap]
  exact congrArg List.sum (List.map_congr_left fun e he => leafEntryImage_length (hes e he))

theorem flatMap_separatorImage_length {ks : List LeafEntry} (hks : ∀ k ∈ ks, k.Sized) :
    (ks.flatMap separatorImage).length = (ks.map fun k => 2 + k.keyLen.toNat).sum := by
  rw [List.length_flatMap]
  exact congrArg List.sum (List.map_congr_left fun k hk => separatorImage_length (hks k hk))

/-- What is written is one page. -/
theorem encodePage_length {p : ParsedPage} (hp : p.Proper) {raw : Bytes}
    (h : encodePage p = .ok raw) : raw.length = kPageSize := by
  rcases hp.kind with ht | ht
  · obtain ⟨hfits, rfl⟩ := encodePage_leaf ht h
    apply padPage_length
    rw [List.length_append, pageHeader_length, flatMap_leafEntryImage_length (hp.leafKeys ht)]
    exact hfits
  · obtain ⟨hfits, rfl⟩ := encodePage_inner (by rw [ht]; decide) h
    apply padPage_length
    rw [List.length_append, List.length_append, pageHeader_length, flatMap_encode_length,
      flatMap_separatorImage_length (hp.separators ht)]
    exact hfits

/-- A proper node of at most 255 entries is read back as it was written. -/
theorem parsePage_encodePage {p : ParsedPage} (hp : p.Proper) {raw : Bytes}
    (h : encodePage p = .ok raw) (hcount : p.count ≤ 255) :
    parsePage p.pageId raw = .ok p.stored := by
  rcases hp.kind with ht | ht
  · obtain ⟨hfits, rfl⟩ := encodePage_leaf ht h
    have hn : p.leafEntries.length ≤ 255 := by simpa [ParsedPage.count, ht] using hcount
    have hentries := fun c => parseLeafEntries_images p.leafEntries (hp.leafKeys ht)
      (pageHeader 1 (UInt8.ofNat p.leafEntries.length) p.nextLeaf) c kLeafHeader
      (pageHeader_length ..).symm hfits
    rw [padPage, List.append_assoc, parsePage_leaf _ _ _ hp.next_lt, count_byte hn, hentries]
    simp [ParsedPage.stored, ht]
  · have hne : p.type ≠ .leaf := by rw [ht]; decide
    obtain ⟨hfits, rfl⟩ := encodePage_inner hne h
    have hn : p.innerKeys.length ≤ 255 := by simpa [ParsedPage.count, ht] using hcount
    have hfan := hp.fanout ht
    rw [innerPayloadBytes] at hfits
    have hroom : ¬ kInnerHeader + (p.innerKeys.length + 1) * 4 > kPageSize := by
      rw [← hfan, kInnerHeader]
      omega
    have hkids := parseChildren_images p.children hp.children_lt
      (pageHeader 2 (UInt8.ofNat p.innerKeys.length) 0)
    have hseps := parseSeparators_images p.innerKeys (hp.separators ht)
      (pageHeader 2 (UInt8.ofNat p.innerKeys.length) 0 ++
        p.children.flatMap (LittleEndian.encode 4))
    rw [padPage]
    simp only [List.append_assoc] at hseps ⊢
    rw [parsePage_inner, count_byte hn, if_neg hroom, ← hfan,
      hkids _ kInnerHeader (by rw [pageHeader_length]; rfl),
      hseps _ _ (by rw [List.length_append, pageHeader_length, flatMap_encode_length]; rfl)]
    simp [ParsedPage.stored, ht]

theorem stored_sameNode {p : ParsedPage} (hp : p.Proper) : SameNode p p.stored := by
  rcases hp.kind with ht | ht
  · simp [SameNode, ParsedPage.stored, ht]
  · simp [SameNode, ParsedPage.stored, ht, Function.comp_def]

/-- A node of more than 255 entries loses some: its count is cut to one byte. -/
theorem parsePage_count_lt {p : ParsedPage} (hp : p.Proper) {raw : Bytes}
    (h : encodePage p = .ok raw) (hcount : 255 < p.count) :
    ¬ ∃ q, parsePage p.pageId raw = .ok q ∧ SameNode p q := by
  rintro ⟨q, hq, -, hleaf, hinner⟩
  rcases hp.kind with ht | ht
  · obtain ⟨-, rfl⟩ := encodePage_leaf ht h
    have hn : 255 < p.leafEntries.length := by simpa [ParsedPage.count, ht] using hcount
    rw [padPage, List.append_assoc, parsePage_leaf _ _ _ hp.next_lt] at hq
    injection hq with hq
    have hlen := congrArg List.length (hleaf ht).1
    have hbyte := (UInt8.ofNat p.leafEntries.length).toNat_lt
    rw [← hq] at hlen
    simp only [List.length_map] at hlen
    have hle := hlen.symm.le.trans (parseLeafEntries_length_le _ _ _)
    omega
  · have hne : p.type ≠ .leaf := by rw [ht]; decide
    obtain ⟨-, rfl⟩ := encodePage_inner hne h
    have hn : 255 < p.innerKeys.length := by simpa [ParsedPage.count, ht] using hcount
    rw [padPage, List.append_assoc, List.append_assoc, parsePage_inner] at hq
    split at hq
    · cases hq
    · injection hq with hq
      have hlen := congrArg List.length (hinner ht).1
      have hbyte := (UInt8.ofNat p.innerKeys.length).toNat_lt
      rw [← hq, hp.fanout ht] at hlen
      simp only [parseChildren_length] at hlen
      omega

end CwDb.Storage
