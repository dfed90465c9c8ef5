import CwDb.Storage.Index.Build
import CwDb.Storage.Index.Layout
import CwDb.Foundation.Packing

/-! What `bulk_build` builds.

The entries are packed into leaves, the leaves into inner nodes, these again, until
one node is left. A page of the next level is written after those below it, so the
pages already written stay as they are (`Extends`), and every level is a `Grove`:
trees side by side whose entries are the whole list. -/
namespace CwDb.Storage.DiskBspIndex
open Foundation BPlusTree

variable {ty : DataType} {h : Nat}

/-! ### Growing stores -/

/-- Only pages that were not there have been written. -/
structure Extends (s s' : DiskBspIndex NodeMap) : Prop where
  below : ∀ id < s.pager.count, s'.pager.pages id = s.pager.pages id
  count : s.pager.count ≤ s'.pager.count
  rootPage : s'.rootPage = s.rootPage
  firstLeafPage : s'.firstLeafPage = s.firstLeafPage
  size : s'.size = s.size

namespace Extends
variable {s s' s'' : DiskBspIndex NodeMap}

theorem refl (s : DiskBspIndex NodeMap) : Extends s s := ⟨fun _ _ => rfl, Nat.le_refl _, rfl, rfl, rfl⟩

theorem trans (h : Extends s s') (h' : Extends s' s'') : Extends s s'' where
  below id hid := (h'.below id (hid.trans_le h.count)).trans (h.below id hid)
  count := h.count.trans h'.count
  rootPage := h'.rootPage.trans h.rootPage
  firstLeafPage := h'.firstLeafPage.trans h.firstLeafPage
  size := h'.size.trans h.size

theorem written (h : Extends s s') {r : NodeRecord LeafEntry} (hr : Written ty s.pager r) :
    Written ty s'.pager r where
  pos := hr.pos
  lt := hr.lt.trans_le h.count
  page := (h.below _ hr.lt).trans hr.page
  fits := hr.fits
  encodes := hr.encodes

end Extends

/-- A page allocated and written. -/
theorem write_allocated {s : DiskBspIndex NodeMap} (hcount : 0 < s.pager.count)
    {r : NodeRecord LeafEntry} (hid : r.id = s.pager.count) {p : ParsedPage}
    (hp : p.stored = pageOf r) (hfits : NodeMap.overflows p = false)
    (hencodes : ∀ e ∈ r.keys, e.Encodes ty) :
    ∃ s', writePage p { s with pager := s.pager.put s.pager.count none } = .ok () s' ∧
      Extends s s' ∧ s'.pager.count = s.pager.count + 1 ∧ Written ty s'.pager r := by
  have hpage : p.pageId = r.id := by rw [← stored_pageId, hp, pageOf_pageId]
  refine ⟨_, writePage_fits hfits, ⟨fun id hlt => ?_, ?_, rfl, rfl, rfl⟩, ?_, ?_⟩
  · show ((s.pager.put s.pager.count none).put p.pageId (some p.stored)).pages id = _
    rw [hpage, hid, NodeMap.put_pages_ne _ _ hlt.ne, NodeMap.put_pages_ne _ _ hlt.ne]
  · show s.pager.count ≤ ((s.pager.put s.pager.count none).put p.pageId (some p.stored)).count
    rw [NodeMap.put_count, NodeMap.put_count]
    exact (le_max_left _ _).trans (le_max_left _ _)
  · show ((s.pager.put s.pager.count none).put p.pageId (some p.stored)).count = _
    rw [NodeMap.put_count, NodeMap.put_count, hpage, hid]
    omega
  · show Written ty ((s.pager.put s.pager.count none).put p.pageId (some p.stored)) r
    rw [hpage, hp]
    refine written_put (hid ▸ hcount) ?_ hencodes
    rw [← hp, overflows_stored]
    exact hfits

/-! ### The leaves -/

/-- Whether an entry joins a leaf. -/
def leafFits (chunk : List LeafEntry) (e : LeafEntry) : Bool :=
  leafPayloadBytes chunk + leafEntryBytes e.keyLen ≤ kPageSize

/-- The leaves of these entries in consecutive pages, not yet linked. -/
def leavesFrom : Nat → List (List LeafEntry) → List (Leaf LeafEntry)
  | _, [] => []
  | id, es :: rest => ⟨id, 0, es⟩ :: leavesFrom (id + 1) rest

/-- The same leaves, linked. -/
def linkedFrom : Nat → List (List LeafEntry) → List (Leaf LeafEntry)
  | _, [] => []
  | id, [es] => [⟨id, 0, es⟩]
  | id, es :: es' :: rest => ⟨id, id + 1, es⟩ :: linkedFrom (id + 1) (es' :: rest)

theorem leavesFrom_id_ge {id : Nat} {chunks : List (List LeafEntry)} {l : Leaf LeafEntry}
    (hl : l ∈ leavesFrom id chunks) : id ≤ l.id := by
  induction chunks generalizing id with
  | nil => cases hl
  | cons es rest ih =>
    rcases List.mem_cons.mp hl with rfl | hl
    · exact Nat.le_refl _
    · exact (Nat.le_succ id).trans (ih hl)

theorem linkedFrom_entries (id : Nat) (chunks : List (List LeafEntry)) :
    (linkedFrom id chunks).map Leaf.entries = chunks := by
  fun_induction linkedFrom id chunks with
  | case1 => rfl
  | case2 => rfl
  | case3 id es es' rest ih => rw [List.map_cons, ih]

theorem linkedFrom_ids (id : Nat) (chunks : List (List LeafEntry)) :
    (linkedFrom id chunks).map Leaf.id = List.range' id chunks.length := by
  fun_induction linkedFrom id chunks with
  | case1 => rfl
  | case2 => rfl
  | case3 id es es' rest ih =>
    have hlength : (es :: es' :: rest).length = (es' :: rest).length + 1 := rfl
    rw [List.map_cons, ih, hlength, List.range'_succ]

theorem linkedFrom_links (id : Nat) {chunks : List (List LeafEntry)} (hne : chunks ≠ []) :
    Links id (linkedFrom id chunks) 0 := by
  fun_induction linkedFrom id chunks with
  | case1 => exact absurd rfl hne
  | case2 id es => exact ⟨rfl, rfl⟩
  | case3 id es es' rest ih => exact ⟨rfl, ih (List.cons_ne_nil _ _)⟩

theorem leafPayloadBytes_append (es es' : List LeafEntry) :
    leafPayloadBytes (es ++ es') =
      leafPayloadBytes es + (es'.map fun e => 2 + e.keyLen.toNat + 8).sum := by
  rw [leafPayloadBytes, List.map_append, List.sum_append, leafPayloadBytes]
  omega

section Leaves
variable {s : DiskBspIndex NodeMap}

theorem emitLeaf_spec (hcount : 0 < s.pager.count) {es : List LeafEntry}
    (hfits : leafPayloadBytes es ≤ kPageSize) (hes : ∀ e ∈ es, e.Encodes ty) :
    ∃ s', emitLeaf es s = .ok s.pager.count s' ∧ Extends s s' ∧
      s'.pager.count = s.pager.count + 1 ∧
      Written ty s'.pager (.leaf ⟨s.pager.count, 0, es⟩) := by
  obtain ⟨s', hwrite, hextends, hcount', hwritten⟩ := write_allocated hcount
    (r := .leaf ⟨s.pager.count, 0, es⟩) rfl
    (p := { pageId := s.pager.count, type := .leaf, nextLeaf := 0, leafEntries := es }) rfl
    (decide_eq_false (Nat.not_lt.mpr hfits)) hes
  refine ⟨s', ?_, hextends, hcount', hwritten⟩
  rw [emitLeaf, bind_ok (allocateNodePage_ok hcount)]
  exact bind_ok hwrite

theorem emitLeaves_spec (entries : List LeafEntry) : ∀ (chunk : List LeafEntry)
    {s : DiskBspIndex NodeMap}, 0 < s.pager.count → chunk ≠ [] →
    leafPayloadBytes chunk ≤ kPageSize → (∀ e ∈ chunk ++ entries, e.Encodes ty) →
    ∃ s', emitLeaves entries chunk (leafPayloadBytes chunk) s =
        .ok (List.range' s.pager.count (packFrom leafFits chunk entries).length) s' ∧
      Extends s s' ∧
      s'.pager.count = s.pager.count + (packFrom leafFits chunk entries).length ∧
      ∀ l ∈ leavesFrom s.pager.count (packFrom leafFits chunk entries),
        Written ty s'.pager (.leaf l) := by
  induction entries with
  | nil =>
    intro chunk s hcount hne hfits hes
    rw [List.append_nil] at hes
    obtain ⟨s', hemit, hextends, hcount', hwritten⟩ := emitLeaf_spec hcount hfits hes
    refine ⟨s', ?_, hextends, hcount', fun l hl => ?_⟩
    · rw [emitLeaves, if_neg (by simpa using hne), bind_ok hemit]
      rfl
    · rw [List.mem_singleton.mp hl]
      exact hwritten
  | cons e rest ih =>
    intro chunk s hcount hne hfits hes
    have hnot : chunk.isEmpty = false := by simpa using hne
    rw [emitLeaves, packFrom]
    by_cases hjoin : leafPayloadBytes chunk + leafEntryBytes e.keyLen ≤ kPageSize
    · -- the entry joins the chunk
      have hpayload : leafPayloadBytes (chunk ++ [e]) =
          leafPayloadBytes chunk + leafEntryBytes e.keyLen := leafPayloadBytes_append chunk [e]
      have hcond : ¬ (!chunk.isEmpty &&
          decide (leafPayloadBytes chunk + leafEntryBytes e.keyLen > kPageSize)) = true := by
        rw [hnot]
        simpa using hjoin
      rw [if_pos (show leafFits chunk e = true from decide_eq_true hjoin), ← hpayload]
      obtain ⟨s', hemit, hrest⟩ := ih (chunk ++ [e]) hcount (by simp)
        (hpayload ▸ hjoin) (by rwa [List.append_assoc, List.singleton_append])
      refine ⟨s', ?_, hrest⟩
      rw [hpayload] at hemit ⊢
      exact (congrFun (if_neg hcond) s).trans hemit
    · -- the chunk is written, and the entry begins another
      have hcond : (!chunk.isEmpty &&
          decide (leafPayloadBytes chunk + leafEntryBytes e.keyLen > kPageSize)) = true := by
        rw [hnot]
        simpa using hjoin
      rw [if_neg (show ¬ leafFits chunk e = true from of_decide_eq_false (decide_eq_false hjoin) ∘
        of_decide_eq_true)]
      have he := (hes e (by simp)).keyLen_le
      have hone : leafPayloadBytes [e] = kLeafHeader + leafEntryBytes e.keyLen := rfl
      obtain ⟨s₁, hemit, hextends, hcount₁, hwritten⟩ := emitLeaf_spec hcount hfits
        fun x hx => hes x (List.mem_append_left _ hx)
      obtain ⟨s', hrest, hextends', hcount', hwritten'⟩ := ih [e] (s := s₁)
        (by omega) (by simp)
        (by
          rw [hone, kLeafHeader, leafEntryBytes, kPageSize]
          rw [kMaxIndexKeyBytes] at he
          omega)
        fun x hx => hes x (by simpa using Or.inr (by simpa using hx))
      rw [hcount₁] at hrest hcount' hwritten'
      refine ⟨s', ?_, hextends.trans hextends', ?_, fun l hl => ?_⟩
      · refine (congrFun (if_pos hcond) s).trans ?_
        rw [bind_ok hemit, ← hone, bind_ok hrest, List.length_cons, List.range'_succ]
        rfl
      · rw [hcount', List.length_cons]
        omega
      · rcases List.mem_cons.mp hl with rfl | hl
        · exact hextends'.written hwritten
        · exact hwritten' l hl

/-- The links are written over the leaves. -/
theorem linkLeaves_spec (chunks : List (List LeafEntry)) : ∀ {c : Nat} {s : DiskBspIndex NodeMap},
    (∀ l ∈ leavesFrom c chunks, Written ty s.pager (.leaf l)) →
    ∃ s', linkLeaves (List.range' c chunks.length) s = .ok () s' ∧
      (∀ id < c, s'.pager.pages id = s.pager.pages id) ∧ s'.pager.count = s.pager.count ∧
      (s'.rootPage = s.rootPage ∧ s'.firstLeafPage = s.firstLeafPage ∧ s'.size = s.size) ∧
      ∀ l ∈ linkedFrom c chunks, Written ty s'.pager (.leaf l) := by
  induction chunks with
  | nil =>
    intro c s _
    exact ⟨s, rfl, fun _ _ => rfl, rfl, ⟨rfl, rfl, rfl⟩, fun l hl => absurd hl List.not_mem_nil⟩
  | cons es rest ih =>
    intro c s hwritten
    cases rest with
    | nil => exact ⟨s, rfl, fun _ _ => rfl, rfl, ⟨rfl, rfl, rfl⟩, hwritten⟩
    | cons es' rest =>
      have hfirst := hwritten ⟨c, 0, es⟩ List.mem_cons_self
      have hread : readPage c s = .ok (pageOf (.leaf ⟨c, 0, es⟩)) s := readPage_written hfirst
      have hwrite := writePage_fits (s := s)
        (p := { pageOf (.leaf ⟨c, 0, es⟩) with nextLeaf := c + 1 }) hfirst.fits
      have hnew : Written ty (s.pager.put c (some (pageOf (.leaf ⟨c, c + 1, es⟩))))
          (.leaf ⟨c, c + 1, es⟩) :=
        written_put (r := .leaf ⟨c, c + 1, es⟩) hfirst.pos hfirst.fits hfirst.encodes
      generalize hs₁ : { s with pager := s.pager.put c (some (pageOf (.leaf ⟨c, c + 1, es⟩))) } =
        s₁ at hnew
      have hpager : s₁.pager = s.pager.put c (some (pageOf (.leaf ⟨c, c + 1, es⟩))) := by
        rw [← hs₁]
      have hcount : s₁.pager.count = s.pager.count := by
        have hlt : c < s.pager.count := hfirst.lt
        rw [hpager, NodeMap.put_count]
        omega
      obtain ⟨s', hlink, hbelow, hcount', hfields, hlinked⟩ := ih (c := c + 1) (s := s₁)
        fun l hl => by
          rw [hpager]
          refine (hwritten l (List.mem_cons_of_mem _ hl)).put ?_ _
          exact Nat.ne_of_gt (leavesFrom_id_ge hl)
      refine ⟨s', ?_, fun id hid => ?_, hcount'.trans hcount, ?_, fun l hl => ?_⟩
      · have hrange : List.range' c (es :: es' :: rest).length =
            c :: (c + 1) :: List.range' (c + 1 + 1) rest.length := rfl
        rw [hrange, linkLeaves, bind_ok hread]
        refine (bind_ok hwrite).trans ?_
        have hs₁' : { s with pager := s.pager.put (pageOf (.leaf ⟨c, 0, es⟩)).pageId (some
            { pageOf (.leaf ⟨c, 0, es⟩) with nextLeaf := c + 1 }.stored) } = s₁ := by
          rw [← hs₁]
          rfl
        refine (congrArg (linkLeaves ((c + 1) :: List.range' (c + 1 + 1) rest.length)) hs₁').trans ?_
        exact hlink
      · rw [hbelow id (Nat.lt_succ_of_lt hid), hpager, NodeMap.put_pages_ne _ _ (Nat.ne_of_lt hid)]
      · rw [← hs₁] at hfields
        exact hfields
      · rcases List.mem_cons.mp hl with rfl | hl
        · rw [← hpager] at hnew
          exact ⟨hnew.pos, hcount'.symm ▸ hnew.lt,
            (hbelow c (Nat.lt_succ_self c)).trans hnew.page, hnew.fits, hnew.encodes⟩
        · exact hlinked l hl

end Leaves

/-! ### Groves -/

/-- Trees side by side in pages of their own, their entries in order. -/
structure Grove (ty : DataType) (ts : List (BPlusTree LeafEntry h)) (s : NodeMap) : Prop where
  written : ∀ r ∈ recordsOf ts, Written ty s r
  nodup : ((recordsOf ts).map NodeRecord.id).Nodup
  ordered : ∀ t ∈ ts, Ordered LeafEntry.value t
  filled : ∀ t ∈ ts, Filled t
  ascending : Ascending LeafEntry.value (entriesOf ts)

namespace Grove
variable {ts us : List (BPlusTree LeafEntry h)} {s : NodeMap}

theorem right (hg : Grove ty (ts ++ us) s) : Grove ty us s where
  written r hr := hg.written r (by
    rw [recordsOf_append]
    exact Multiset.mem_add.mpr (.inr hr))
  nodup := by
    have hnodup := hg.nodup
    rw [recordsOf_append, Multiset.map_add] at hnodup
    exact (Multiset.nodup_add.mp hnodup).2.1
  ordered t ht := hg.ordered t (List.mem_append_right _ ht)
  filled t ht := hg.filled t (List.mem_append_right _ ht)
  ascending := by
    have hasc := hg.ascending
    rw [entriesOf_append] at hasc
    exact hasc.append.2.1

theorem left (hg : Grove ty (ts ++ us) s) : Grove ty ts s where
  written r hr := hg.written r (by
    rw [recordsOf_append]
    exact Multiset.mem_add.mpr (.inl hr))
  nodup := by
    have hnodup := hg.nodup
    rw [recordsOf_append, Multiset.map_add] at hnodup
    exact (Multiset.nodup_add.mp hnodup).1
  ordered t ht := hg.ordered t (List.mem_append_left _ ht)
  filled t ht := hg.filled t (List.mem_append_left _ ht)
  ascending := by
    have hasc := hg.ascending
    rw [entriesOf_append] at hasc
    exact hasc.append.1

theorem planted (hg : Grove ty ts s) : ∀ t ∈ ts, Planted ty t s := by
  intro t ht
  obtain ⟨l, r, rfl⟩ := List.append_of_mem ht
  have hone : Grove ty ([t] ++ r) s := hg.right
  have hleft := hone.left
  refine ⟨fun x hx => hleft.written x ?_, ?_, (hg.ordered t ht).branching, hg.filled t ht⟩
  · rw [recordsOf_cons]
    exact Multiset.mem_add.mpr (.inl hx)
  · have hnodup := hleft.nodup
    rw [recordsOf_cons, Multiset.map_add] at hnodup
    exact (Multiset.nodup_add.mp hnodup).1

theorem extend {s s' : DiskBspIndex NodeMap} (hg : Grove ty ts s.pager) (h : Extends s s') :
    Grove ty ts s'.pager where
  written r hr := h.written (hg.written r hr)
  nodup := hg.nodup
  ordered := hg.ordered
  filled := hg.filled
  ascending := hg.ascending

theorem entries_ne_nil (hg : Grove ty ts s) : ∀ t ∈ ts, t.entries ≠ [] := fun t ht =>
  (hg.planted t ht).entries_ne_nil

theorem minEntry_encodes (hg : Grove ty ts s) : ∀ t ∈ ts, t.minEntry.Encodes ty := by
  intro t ht
  obtain ⟨l, hl, he⟩ := List.mem_flatMap.mp (minEntry_mem (hg.entries_ne_nil t ht))
  exact (hg.written _ (mem_recordsOf.mpr ⟨t, ht, leaf_mem_records hl⟩)).encodes _ he

end Grove

/-! ### One level -/

/-- Whether a child joins an inner node, by the first entries below the children. -/
def innerFits (firsts : List LeafEntry) (e : LeafEntry) : Bool :=
  firsts.length ≤ 1 ||
    innerPayloadBytes firsts.tail firsts.length + (leafEntryBytes e.keyLen + 4) ≤ kPageSize

def treeFits (group : List (BPlusTree LeafEntry h)) (t : BPlusTree LeafEntry h) : Bool :=
  innerFits (group.map minEntry) t.minEntry

/-- Inner nodes over these groups in consecutive pages. -/
def nodesFrom : Nat → List (List (BPlusTree LeafEntry h)) → List (BPlusTree LeafEntry (h + 1))
  | _, [] => []
  | id, g :: gs => node id (minima g) g :: nodesFrom (id + 1) gs

section Level
variable {s : DiskBspIndex NodeMap}

theorem separatorKeyForPage_planted {t : BPlusTree LeafEntry h} (ht : Planted ty t s.pager) :
    separatorKeyForPage t.rootId s = .ok t.minEntry s := by
  have hroot := ht.written _ (rootRecord_mem t)
  have hread : readPage t.rootId s = .ok (pageOf t.rootRecord) s := by
    rw [← rootRecord_id]
    exact readPage_written hroot
  rw [separatorKeyForPage]
  refine (bind_ok hread).trans ?_
  cases h with
  | zero =>
    refine (congrFun (if_pos (show (pageOf t.rootRecord).type = .leaf from rfl)) s).trans ?_
    have hes : (pageOf t.rootRecord).leafEntries = t.entries := (entries_leaf t).symm
    rw [hes, minEntry]
    cases hes : t.entries with
    | nil => exact absurd hes ht.entries_ne_nil
    | cons e es => rfl
  | succ h =>
    refine (congrFun (if_neg (show ¬ (pageOf t.rootRecord).type = .leaf from
      NodeType.noConfusion)) s).trans ?_
    exact subtreeMinEntry_planted ht

theorem minima_append {g : List (BPlusTree LeafEntry h)} (hg : g ≠ []) (t : BPlusTree LeafEntry h) :
    minima (g ++ [t]) = minima g ++ [t.minEntry] := by
  rw [minima, List.tail_append_of_ne_nil hg, List.map_append]
  rfl

theorem gatherGroup_spec (rest : List (BPlusTree LeafEntry h)) : ∀ {g : List (BPlusTree LeafEntry h)},
    g ≠ [] → (∀ t ∈ rest, Planted ty t s.pager) →
    gatherGroup (rest.map rootId) (g.map rootId) (minima g) s =
      .ok ((fill treeFits g rest).1.map rootId, minima (fill treeFits g rest).1,
        (fill treeFits g rest).2.map rootId) s := by
  induction rest with
  | nil =>
    intro g _ _
    rfl
  | cons t rest ih =>
    intro g hg hplanted
    have hfits : treeFits g t = !(!(minima g).isEmpty &&
        decide (innerPayloadBytes (minima g) (g.map rootId).length +
          (leafEntryBytes t.minEntry.keyLen + 4) > kPageSize)) := by
      have htail : (g.map minEntry).tail = minima g := by rw [minima, List.map_tail]
      have hempty : decide ((g.map minEntry).length ≤ 1) = (minima g).isEmpty := by
        rw [minima, List.isEmpty_map, List.length_map]
        cases g with
        | nil => rfl
        | cons a as =>
          cases as with
          | nil => rfl
          | cons b bs => simp
      rw [treeFits, innerFits, htail, hempty, Bool.not_and, Bool.not_not, ← decide_not]
      simp only [List.length_map, not_lt]
    rw [List.map_cons, gatherGroup, bind_ok (separatorKeyForPage_planted
      (hplanted t List.mem_cons_self)), fill]
    by_cases hjoin : treeFits g t = true
    · rw [if_pos hjoin]
      rw [hfits, Bool.not_eq_true'] at hjoin
      refine (congrFun (if_neg (by rw [hjoin]; decide)) s).trans ?_
      have hrest := ih (g := g ++ [t]) (by simp) fun u hu => hplanted u (List.mem_cons_of_mem _ hu)
      rwa [List.map_append, minima_append hg] at hrest
    · rw [if_neg hjoin]
      rw [hfits, Bool.not_eq_true, Bool.not_eq_false'] at hjoin
      exact congrFun (if_pos hjoin) s

theorem innerPayloadBytes_append (ks : List LeafEntry) (k : LeafEntry) (n : Nat) :
    innerPayloadBytes (ks ++ [k]) (n + 1) = innerPayloadBytes ks n + 4 + (2 + k.keyLen.toNat) := by
  rw [innerPayloadBytes, List.map_append, List.sum_append, innerPayloadBytes]
  simp only [List.map_cons, List.map_nil, List.sum_cons, List.sum_nil]
  omega

/-- A pack of children fits an inner page: the test for another child asks for more
than the child takes. -/
theorem pack_payload {g : List (BPlusTree LeafEntry h)} {ts : List (BPlusTree LeafEntry h)}
    (hg : g ∈ pack treeFits ts) (hmin : ∀ t ∈ g, t.minEntry.Encodes ty) :
    innerPayloadBytes (minima g) g.length ≤ kPageSize := by
  refine pack_forall (P := fun g => (∀ t ∈ g, t.minEntry.Encodes ty) →
    innerPayloadBytes (minima g) g.length ≤ kPageSize) (fun t _ => ?_)
    (fun p t hp hpayload hfits hall => ?_) ts g hg hmin
  · show 16 ≤ kPageSize
    decide
  · have ht := (hall t (by simp)).keyLen_le
    have hbefore := hpayload fun u hu => hall u (List.mem_append_left _ hu)
    rw [minima_append hp, List.length_append, List.length_singleton, innerPayloadBytes_append]
    rw [treeFits, innerFits, Bool.or_eq_true, decide_eq_true_eq, decide_eq_true_eq,
      List.length_map, ← List.map_tail] at hfits
    rcases hfits with hone | hmore
    · cases p with
      | nil => exact absurd rfl hp
      | cons a as =>
        have has : as = [] := List.length_eq_zero_iff.mp (by
          rw [List.length_cons] at hone
          omega)
        subst has
        have hfirst : innerPayloadBytes (minima [a]) [a].length = 16 := rfl
        rw [hfirst, kPageSize]
        rw [kMaxIndexKeyBytes] at ht
        omega
    · rw [leafEntryBytes] at hmore
      rw [minima]
      omega

theorem buildLevel_spec : ∀ (fuel : Nat) (ts : List (BPlusTree LeafEntry h))
    {s : DiskBspIndex NodeMap}, ts.length ≤ fuel → 0 < s.pager.count → Grove ty ts s.pager →
    ∃ s', buildLevel fuel (ts.map rootId) s =
        .ok ((nodesFrom s.pager.count (pack treeFits ts)).map rootId) s' ∧
      Extends s s' ∧ s'.pager.count = s.pager.count + (pack treeFits ts).length ∧
      ∀ u ∈ nodesFrom s.pager.count (pack treeFits ts), Written ty s'.pager u.rootRecord
  | 0, [], s, _, _, _ =>
    ⟨s, rfl, .refl s, rfl, fun u hu => absurd hu List.not_mem_nil⟩
  | fuel + 1, [], s, _, _, _ =>
    ⟨s, rfl, .refl s, rfl, fun u hu => absurd hu List.not_mem_nil⟩
  | fuel + 1, t :: rest, s, hfuel, hcount, hg => by
    have hplanted := hg.planted
    have hgather := gatherGroup_spec (s := s) rest (List.cons_ne_nil t [])
      fun u hu => hplanted u (List.mem_cons_of_mem _ hu)
    have hsplit : (fill treeFits [t] rest).1 ++ (fill treeFits [t] rest).2 = [t] ++ rest :=
      fill_append [t] rest
    have hfirst : (fill treeFits [t] rest).1 ∈ pack treeFits (t :: rest) := by
      rw [pack_cons]
      exact List.mem_cons_self
    have htwo : (fill treeFits [t] rest).2 ≠ [] → 2 ≤ (fill treeFits [t] rest).1.length :=
      fill_two fun u => rfl
    have hone : [t].length ≤ (fill treeFits [t] rest).1.length := fill_length_le [t] rest
    rw [pack_cons]
    generalize hgroup : (fill treeFits [t] rest).1 = g at hgather hsplit hfirst htwo hone
    generalize hleft : (fill treeFits [t] rest).2 = left at hgather hsplit htwo
    rw [List.singleton_append] at hsplit
    rw [← hsplit] at hg
    have hgleft := hg.left
    -- the group's node
    have hpayload := pack_payload hfirst hgleft.minEntry_encodes
    obtain ⟨s₁, hwrite, hextends, hcount₁, hwritten⟩ := write_allocated hcount
      (r := .inner s.pager.count (minima g) (g.map rootId)) rfl
      (p := { pageId := s.pager.count, type := .inner, children := g.map rootId
              innerKeys := minima g, keyCount := UInt8.ofNat (minima g).length }) rfl
      (decide_eq_false (by
        rw [List.length_map]
        exact Nat.not_lt.mpr hpayload))
      (fun e he => by
        obtain ⟨u, hu, rfl⟩ := List.mem_map.mp he
        exact hgleft.minEntry_encodes u (List.mem_of_mem_tail hu))
    have hlength := congrArg List.length hsplit
    rw [List.length_append, List.length_cons] at hlength
    rw [List.length_cons] at hfuel
    rw [List.length_singleton] at hone
    -- the groups behind it
    obtain ⟨s', hbuild, hextends', hcount', hwritten'⟩ := buildLevel_spec fuel left (by omega)
      (by omega) (hg.right.extend hextends)
    rw [hcount₁] at hbuild hcount' hwritten'
    refine ⟨s', ?_, hextends.trans hextends', ?_, fun u hu => ?_⟩
    · rw [List.map_cons, buildLevel]
      refine (bind_ok hgather).trans ?_
      have hcond : ¬ ((g.map rootId).length = 1 && !(left.map rootId).isEmpty) = true := by
        cases left with
        | nil => simp
        | cons u us =>
          have := htwo (List.cons_ne_nil _ _)
          rw [List.length_map, Bool.and_eq_true, decide_eq_true_eq]
          omega
      refine (congrFun (if_neg hcond) s).trans ?_
      rw [bind_ok (allocateNodePage_ok hcount)]
      refine (bind_ok hwrite).trans ?_
      exact bind_ok hbuild
    · rw [hcount', List.length_cons]
      omega
    · rcases List.mem_cons.mp hu with rfl | hu
      · exact hextends'.written hwritten
      · exact hwritten' u hu

end Level

/-! ### The nodes of a level -/

section Nodes
variable {gs : List (List (BPlusTree LeafEntry h))}

@[simp] theorem nodesFrom_length (id : Nat) : (nodesFrom id gs).length = gs.length := by
  induction gs generalizing id with
  | nil => rfl
  | cons g gs ih => rw [nodesFrom, List.length_cons, ih, List.length_cons]

theorem mem_nodesFrom {id : Nat} {u : BPlusTree LeafEntry (h + 1)} (hu : u ∈ nodesFrom id gs) :
    ∃ i, ∃ g ∈ gs, u = node i (minima g) g := by
  induction gs generalizing id with
  | nil => cases hu
  | cons g gs ih =>
    rcases List.mem_cons.mp hu with rfl | hu
    · exact ⟨id, g, List.mem_cons_self, rfl⟩
    · obtain ⟨i, g', hg', heq⟩ := ih hu
      exact ⟨i, g', List.mem_cons_of_mem _ hg', heq⟩

theorem exists_nodesFrom {g : List (BPlusTree LeafEntry h)} (hg : g ∈ gs) (id : Nat) :
    ∃ i, node i (minima g) g ∈ nodesFrom id gs := by
  induction gs generalizing id with
  | nil => cases hg
  | cons g' gs ih =>
    rcases List.mem_cons.mp hg with rfl | hg
    · exact ⟨id, List.mem_cons_self⟩
    · obtain ⟨i, hi⟩ := ih hg (id + 1)
      exact ⟨i, List.mem_cons_of_mem _ hi⟩

theorem leavesOf_nodesFrom (id : Nat) : leavesOf (nodesFrom id gs) = leavesOf gs.flatten := by
  induction gs generalizing id with
  | nil => rfl
  | cons g gs ih =>
    rw [nodesFrom, leavesOf, List.flatMap_cons, leaves_node, List.flatten_cons, leavesOf_append]
    exact congrArg (leavesOf g ++ ·) (ih (id + 1))

theorem recordsOf_nodesFrom (id : Nat) : recordsOf (nodesFrom id gs) =
    ((nodesFrom id gs).map rootRecord : Multiset (NodeRecord LeafEntry)) + recordsOf gs.flatten := by
  induction gs generalizing id with
  | nil => rfl
  | cons g gs ih =>
    rw [nodesFrom, recordsOf_cons, ih, records_node, List.flatten_cons, recordsOf_append,
      List.map_cons, rootRecord_node]
    simp only [← Multiset.cons_coe, ← Multiset.singleton_add]
    abel

theorem nodesFrom_ids (id : Nat) : (nodesFrom id gs).map rootId = List.range' id gs.length := by
  induction gs generalizing id with
  | nil => rfl
  | cons g gs ih => rw [nodesFrom, List.map_cons, ih, rootId_node, List.length_cons, List.range'_succ]

/-- The nodes over a grove are a grove, once they are written. -/
theorem grove_nodesFrom {s s' : DiskBspIndex NodeMap} (hg : Grove ty gs.flatten s.pager)
    (hne : ∀ g ∈ gs, g ≠ []) (hextends : Extends s s')
    (hwritten : ∀ u ∈ nodesFrom s.pager.count gs, Written ty s'.pager u.rootRecord) :
    Grove ty (nodesFrom s.pager.count gs) s'.pager := by
  have hflat : ∀ g ∈ gs, ∀ t ∈ g, t ∈ gs.flatten := fun g hg t ht => List.mem_flatten.mpr ⟨g, hg, ht⟩
  refine ⟨fun r hr => ?_, ?_, fun u hu => ?_, fun u hu => ?_, ?_⟩
  · rw [recordsOf_nodesFrom] at hr
    rcases Multiset.mem_add.mp hr with hr | hr
    · obtain ⟨u, hu, rfl⟩ := List.mem_map.mp (Multiset.mem_coe.mp hr)
      exact hwritten u hu
    · exact hextends.written (hg.written r hr)
  · have hnew : ((nodesFrom s.pager.count gs).map rootRecord).map NodeRecord.id =
        List.range' s.pager.count gs.length := by
      rw [List.map_map, ← nodesFrom_ids]
      exact List.map_congr_left fun u _ => rootRecord_id u
    rw [recordsOf_nodesFrom, Multiset.map_add, Multiset.map_coe, hnew]
    refine Multiset.nodup_add.mpr ⟨Multiset.coe_nodup.mpr List.nodup_range', hg.nodup, ?_⟩
    refine Multiset.disjoint_left.mpr fun hi hold => ?_
    obtain ⟨r, hr, rfl⟩ := Multiset.mem_map.mp hold
    have hlt := (hg.written r hr).lt
    have hge := (List.mem_range'_1.mp (Multiset.mem_coe.mp hi)).1
    exact absurd hlt (Nat.not_lt.mpr hge)
  · obtain ⟨i, g, hgs, rfl⟩ := mem_nodesFrom hu
    refine ordered_node.mpr ⟨separated_minima (hne g hgs) ?_ fun t ht =>
      hg.entries_ne_nil t (hflat g hgs t ht), fun t ht => hg.ordered t (hflat g hgs t ht)⟩
    obtain ⟨before, after, rfl⟩ := List.append_of_mem hgs
    have hasc := hg.ascending
    rw [List.flatten_append, List.flatten_cons, entriesOf_append, entriesOf_append] at hasc
    exact hasc.append.2.1.append.1
  · obtain ⟨i, g, hgs, rfl⟩ := mem_nodesFrom hu
    exact filled_node.mpr fun t ht => hg.filled t (hflat g hgs t ht)
  · have hasc := hg.ascending
    rw [entriesOf_eq] at hasc ⊢
    rwa [leavesOf_nodesFrom]

theorem narrow_nodesFrom (id : Nat) : (∀ u ∈ nodesFrom id gs, Narrow 255 u) ↔
    (∀ g ∈ gs, g.length ≤ 256) ∧ ∀ t ∈ gs.flatten, Narrow 255 t := by
  have hnode : ∀ (i : Nat) (g : List (BPlusTree LeafEntry h)),
      Narrow 255 (node i (minima g) g) ↔ g.length ≤ 256 ∧ ∀ t ∈ g, Narrow 255 t := by
    intro i g
    rw [narrow_node, minima, List.length_map, List.length_tail, Nat.sub_le_iff_le_add]
  constructor
  · intro hall
    have hgroup : ∀ g ∈ gs, g.length ≤ 256 ∧ ∀ t ∈ g, Narrow 255 t := fun g hg => by
      obtain ⟨i, hi⟩ := exists_nodesFrom hg id
      exact (hnode i g).mp (hall _ hi)
    refine ⟨fun g hg => (hgroup g hg).1, fun t ht => ?_⟩
    obtain ⟨g, hg, ht⟩ := List.mem_flatten.mp ht
    exact (hgroup g hg).2 t ht
  · intro hall u hu
    obtain ⟨i, g, hg, rfl⟩ := mem_nodesFrom hu
    exact (hnode i g).mpr ⟨hall.1 g hg, fun t ht => hall.2 t (List.mem_flatten.mpr ⟨g, hg, ht⟩)⟩

theorem nodesFrom_minEntry (id : Nat) (hne : ∀ g ∈ gs, g ≠ [])
    (hentries : ∀ g ∈ gs, ∀ t ∈ g, t.entries ≠ []) :
    (nodesFrom id gs).map minEntry = gs.map fun g => (g.map minEntry).headD default := by
  induction gs generalizing id with
  | nil => rfl
  | cons g gs ih =>
    rw [nodesFrom, List.map_cons, List.map_cons, ih _ (fun g' hg' => hne g' (List.mem_cons_of_mem _ hg'))
      fun g' hg' => hentries g' (List.mem_cons_of_mem _ hg')]
    cases g with
    | nil => exact absurd rfl (hne [] List.mem_cons_self)
    | cons t ts =>
      rw [minEntry_node (hentries (t :: ts) List.mem_cons_self t List.mem_cons_self)]
      rfl

end Nodes

theorem pack_treeFits (ts : List (BPlusTree LeafEntry h)) :
    (pack treeFits ts).map (List.map minEntry) = pack innerFits (ts.map minEntry) := by
  have hfits : ∀ (g : List (BPlusTree LeafEntry h)) (t : BPlusTree LeafEntry h),
      treeFits g t = innerFits (g.map minEntry) t.minEntry := fun _ _ => rfl
  exact pack_map hfits ts

/-! ### All levels -/

/-- Whether the packs of first entries have at most 256 members, on every level up to
the root. -/
def narrowLevels : Nat → List LeafEntry → Prop
  | 0, _ => True
  | _ + 1, [] => True
  | _ + 1, [_] => True
  | fuel + 1, e :: e' :: rest =>
    (∀ g ∈ pack innerFits (e :: e' :: rest), g.length ≤ 256) ∧
      narrowLevels fuel ((pack innerFits (e :: e' :: rest)).map fun g => g.headD default)

theorem buildLevels_spec : ∀ (fuel : Nat) {h : Nat} (ts : List (BPlusTree LeafEntry h))
    {s : DiskBspIndex NodeMap}, ts.length ≤ fuel → ts ≠ [] → 0 < s.pager.count →
    Grove ty ts s.pager →
    ∃ (s' : DiskBspIndex NodeMap) (H : Nat) (t : BPlusTree LeafEntry H),
      buildLevels fuel (ts.map rootId) s = .ok t.rootId s' ∧ Extends s s' ∧
        Planted ty t s'.pager ∧ Ordered LeafEntry.value t ∧ t.leaves = leavesOf ts ∧
        (Narrow 255 t ↔ (∀ u ∈ ts, Narrow 255 u) ∧ narrowLevels fuel (ts.map minEntry))
  | 0, _, [], _, _, hne, _, _ => absurd rfl hne
  | fuel + 1, _, [], _, _, hne, _, _ => absurd rfl hne
  | fuel + 1, h, [t], s, _, _, _, hg => by
    refine ⟨s, h, t, rfl, .refl s, hg.planted t List.mem_cons_self,
      hg.ordered t List.mem_cons_self, ?_, ?_⟩
    · rw [leavesOf, List.flatMap_cons, List.flatMap_nil, List.append_nil]
    · simp [narrowLevels]
  | fuel + 1, h, t :: t' :: rest, s, hfuel, _, hcount, hg => by
    generalize hts : t :: t' :: rest = ts at hfuel hg
    have hlong : 2 ≤ ts.length := by
      rw [← hts]
      exact Nat.le_add_left 2 _
    obtain ⟨s₁, hlevel, hextends, hcount₁, hwritten⟩ := buildLevel_spec ts.length ts (Nat.le_refl _)
      hcount hg
    have hflat : (pack treeFits ts).flatten = ts := pack_flatten ts
    have hpacks : ∀ g ∈ pack treeFits ts, g ≠ [] := pack_mem_ne_nil ts
    have hcard : 2 * (pack treeFits ts).length ≤ ts.length + 1 :=
      pack_length_le (fun _ _ => rfl) ts.length ts (Nat.le_refl _)
    have hgrove : Grove ty (nodesFrom s.pager.count (pack treeFits ts)) s₁.pager :=
      grove_nodesFrom (by rwa [hflat]) hpacks hextends hwritten
    have hnodes : nodesFrom s.pager.count (pack treeFits ts) ≠ [] := by
      have hne : pack treeFits ts ≠ [] := pack_ne_nil (by rw [← hts]; exact List.cons_ne_nil _ _)
      intro hnil
      have hlength := congrArg List.length hnil
      rw [nodesFrom_length] at hlength
      exact hne (List.length_eq_zero_iff.mp hlength)
    obtain ⟨s', H, u, hbuild, hextends', hplanted, hordered, hleaves, hnarrow⟩ := buildLevels_spec fuel
      (nodesFrom s.pager.count (pack treeFits ts)) (s := s₁)
      (by rw [nodesFrom_length]; omega) hnodes (hcount.trans_le hextends.count) hgrove
    have hmem : ∀ g ∈ pack treeFits ts, ∀ t ∈ g, t ∈ ts := fun g hg t ht => by
      rw [← hflat]
      exact List.mem_flatten.mpr ⟨g, hg, ht⟩
    refine ⟨s', H, u, ?_, hextends.trans hextends', hplanted, hordered, ?_, hnarrow.trans ?_⟩
    · rw [← hts] at hlevel
      rw [← hts, List.map_cons, List.map_cons, buildLevels]
      · exact (bind_ok (by simpa using hlevel)).trans (by rwa [← hts] at hbuild)
      · intro root hroot
        cases hroot
    · rw [hleaves, leavesOf_nodesFrom, hflat]
    · have hmins : (nodesFrom s.pager.count (pack treeFits ts)).map minEntry =
          (pack innerFits (ts.map minEntry)).map fun g => g.headD default := by
        rw [nodesFrom_minEntry _ hpacks fun g hg' t ht => hg.entries_ne_nil t (hmem g hg' t ht),
          ← pack_treeFits, List.map_map]
        rfl
      rw [hmins, narrow_nodesFrom, hflat, ← hts]
      show _ ↔ _ ∧ ((∀ g ∈ pack innerFits ((t :: t' :: rest).map minEntry), g.length ≤ 256) ∧ _)
      rw [← pack_treeFits]
      simp only [List.forall_mem_map, List.length_map]
      rw [and_assoc, and_left_comm, pack_treeFits]
      rfl

/-! ### bulk_build -/

/-- The packs of first entries of a list cut into leaves and these into inner nodes
have at most 256 members. -/
@[irreducible] def NarrowCut (flat : List LeafEntry) : Prop :=
  narrowLevels (pack leafFits flat).length ((pack leafFits flat).map fun es => es.headD default)

theorem recordsOf_leaves (ls : List (Leaf LeafEntry)) :
    recordsOf (ls.map leaf) = (ls.map NodeRecord.leaf : Multiset (NodeRecord LeafEntry)) := by
  induction ls with
  | nil => rfl
  | cons l ls ih =>
    rw [List.map_cons, recordsOf_cons, ih, records_leaf, List.map_cons, Multiset.singleton_add,
      Multiset.cons_coe]

theorem leavesOf_leaves (ls : List (Leaf LeafEntry)) : leavesOf (ls.map leaf) = ls := by
  induction ls with
  | nil => rfl
  | cons l ls ih =>
    rw [List.map_cons, leavesOf, List.flatMap_cons, leaves_leaf]
    exact congrArg ([l] ++ ·) ih

theorem grove_leaves {ls : List (Leaf LeafEntry)} {s : NodeMap}
    (hwritten : ∀ l ∈ ls, Written ty s (.leaf l)) (hids : (ls.map Leaf.id).Nodup)
    (hne : ∀ l ∈ ls, l.entries ≠ [])
    (hasc : Ascending LeafEntry.value (ls.flatMap Leaf.entries)) : Grove ty (ls.map leaf) s where
  written r hr := by
    rw [recordsOf_leaves] at hr
    obtain ⟨l, hl, rfl⟩ := List.mem_map.mp (Multiset.mem_coe.mp hr)
    exact hwritten l hl
  nodup := by
    rw [recordsOf_leaves, Multiset.map_coe, List.map_map, Multiset.coe_nodup]
    exact hids
  ordered t _ := trivial
  filled t ht := by
    obtain ⟨l, hl, rfl⟩ := List.mem_map.mp ht
    intro m hm
    rw [leaves_leaf] at hm
    rw [List.mem_singleton.mp hm]
    exact hne l hl
  ascending := by
    rw [entriesOf_eq, leavesOf_leaves]
    exact hasc

theorem reservePage_apply (s : DiskBspIndex NodeMap) :
    onPager (NodeStore.reservePage : EStateM Exn NodeMap Unit) s =
      .ok () { s with pager := s.pager.put 0 none } := rfl

/-- The superblock is no node. -/
theorem Written.superblock {s : NodeMap} {r : NodeRecord LeafEntry} (h : Written ty s r) :
    Written ty (s.put 0 none) r := h.put (Nat.pos_iff_ne_zero.mp h.pos) none

/-- The store after page 0 is reserved and the size is set. -/
def reserved (size : Nat) : DiskBspIndex NodeMap := ⟨NodeMap.empty.put 0 none, 0, 0, size⟩

theorem reserved_count (size : Nat) : (reserved size).pager.count = 1 := rfl

variable (ty) in
theorem bulkBuildFromFlat_nil : ∃ (s : DiskBspIndex NodeMap) (t : BPlusTree LeafEntry 0),
    bulkBuildFromFlat [] (blank NodeMap.empty) = .ok () s ∧ Stands ty t s ∧ t.entries = [] := by
  refine ⟨_, leaf ⟨1, 0, []⟩, rfl, ⟨⟨⟨?_, trivial, List.Pairwise.nil, fun hne => ?_, fun _ => rfl,
    rfl, rfl⟩, rfl, fun r hr => ?_⟩, rfl⟩, rfl⟩
  · exact Multiset.nodup_singleton _
  · exact absurd rfl hne
  · rw [records_leaf] at hr
    rw [Multiset.mem_singleton.mp hr]
    exact ⟨Nat.one_pos, by decide, rfl, rfl, fun e he => absurd he List.not_mem_nil⟩

/-- What is built of a list with entries. -/
theorem bulkBuildFromFlat_cons {e : LeafEntry} {rest : List LeafEntry}
    (hes : ∀ x ∈ e :: rest, x.Encodes ty) (hasc : Ascending LeafEntry.value (e :: rest)) :
    ∃ (s : DiskBspIndex NodeMap) (h : Nat) (t : BPlusTree LeafEntry h),
      bulkBuildFromFlat (e :: rest) (blank NodeMap.empty) = .ok () s ∧ Stands ty t s ∧
        t.entries = e :: rest ∧ (Narrow 255 t ↔ NarrowCut (e :: rest)) := by
  have hone : leafPayloadBytes [e] = kLeafHeader + leafEntryBytes e.keyLen := rfl
  have hlen := (hes e List.mem_cons_self).keyLen_le
  -- the leaves
  obtain ⟨s₁, hemit, hextends₁, hcount₁, hwritten₁⟩ := emitLeaves_spec rest [e]
    (s := reserved (e :: rest).length) Nat.one_pos (List.cons_ne_nil _ _)
    (by
      rw [hone, kLeafHeader, leafEntryBytes, kPageSize]
      rw [kMaxIndexKeyBytes] at hlen
      omega) hes
  have hchunks : packFrom leafFits [e] rest = pack leafFits (e :: rest) := rfl
  rw [hchunks] at hemit hcount₁ hwritten₁
  rw [reserved_count] at hemit hcount₁ hwritten₁
  have hne : ∀ es ∈ pack leafFits (e :: rest), es ≠ [] := pack_mem_ne_nil _
  have hsome : pack leafFits (e :: rest) ≠ [] := pack_ne_nil (List.cons_ne_nil _ _)
  have hflat : (pack leafFits (e :: rest)).flatten = e :: rest := pack_flatten _
  rw [NarrowCut]
  generalize pack leafFits (e :: rest) = chunks at hemit hcount₁ hwritten₁ hne hsome hflat ⊢
  -- the links
  obtain ⟨s₂, hlink, -, hcount₂, ⟨hroot₂, -, hsize₂⟩, hwritten₂⟩ := linkLeaves_spec chunks hwritten₁
  have hentries : (linkedFrom 1 chunks).flatMap Leaf.entries = e :: rest := by
    rw [List.flatMap_def, linkedFrom_entries, hflat]
  have hgrove : Grove ty ((linkedFrom 1 chunks).map leaf) s₂.pager := by
    refine grove_leaves hwritten₂ ?_ (fun l hl => ?_) (by rwa [hentries])
    · rw [linkedFrom_ids]
      exact List.nodup_range'
    · refine hne _ ?_
      rw [← linkedFrom_entries 1 chunks]
      exact List.mem_map_of_mem hl
  have hids : ((linkedFrom 1 chunks).map leaf).map rootId = List.range' 1 chunks.length := by
    rw [List.map_map, ← linkedFrom_ids]
    rfl
  have hlevelLength : ((linkedFrom 1 chunks).map leaf).length = chunks.length := by
    rw [← List.length_map (f := rootId), hids, List.length_range']
  -- the levels, with the first leaf set
  obtain ⟨s₃, H, t, hbuild, hextends₃, hplanted, hordered, hleaves, hnarrow⟩ := buildLevels_spec chunks.length
    ((linkedFrom 1 chunks).map leaf) (s := { s₂ with firstLeafPage := 1 })
    hlevelLength.le (fun hnil => by
      rw [hnil] at hlevelLength
      exact hsome (List.length_eq_zero_iff.mp hlevelLength.symm))
    (by
      show 0 < s₂.pager.count
      rw [hcount₂, hcount₁]
      omega) hgrove
  have htree : t.entries = e :: rest := by
    rw [entries, hleaves, leavesOf_leaves, hentries]
  refine ⟨⟨s₃.pager.put 0 none, t.rootId, s₃.firstLeafPage, s₃.size⟩, H, t, ?_,
    ⟨⟨⟨hplanted.nodup, hordered, by rwa [htree], fun _ => hplanted.filled, fun hnil => ?_, ?_⟩,
      rfl, fun r hr => (hplanted.written r hr).superblock⟩, ?_⟩, htree, hnarrow.trans ?_⟩
  · rw [bulkBuildFromFlat, bind_ok (reservePage_apply _), modify_bind_apply]
    refine (congrFun (if_neg Bool.false_ne_true) _).trans ?_
    have hstart : emitLeaves (e :: rest) [] kLeafHeader (reserved (e :: rest).length) =
        .ok (List.range' 1 chunks.length) s₁ := by
      rw [emitLeaves]
      refine (congrFun (if_neg Bool.false_ne_true) _).trans ?_
      rw [List.nil_append, ← hone]
      exact hemit
    have hhead : (List.range' 1 chunks.length).headD 0 = 1 := by
      cases chunks with
      | nil => exact absurd rfl hsome
      | cons es chunks => rfl
    refine (bind_ok hstart).trans ?_
    rw [bind_ok hlink, modify_bind_apply, hhead, List.length_range']
    rw [hids] at hbuild
    refine (bind_ok hbuild).trans ?_
    rfl
  · rw [htree] at hnil
    cases hnil
  · rw [hleaves, leavesOf_leaves]
    show Links s₃.firstLeafPage _ 0
    rw [hextends₃.firstLeafPage]
    exact linkedFrom_links 1 hsome
  · rw [htree]
    show s₃.size = _
    rw [hextends₃.size]
    show s₂.size = _
    rw [hsize₂, hextends₁.size]
    rfl
  · have hmins : ((linkedFrom 1 chunks).map leaf).map minEntry =
        chunks.map fun es => es.headD default := by
      calc ((linkedFrom 1 chunks).map leaf).map minEntry
          = ((linkedFrom 1 chunks).map Leaf.entries).map fun es => es.headD default := by
            rw [List.map_map, List.map_map]
            exact List.map_congr_left fun l _ => minEntry_leaf l
        _ = chunks.map fun es => es.headD default := by rw [linkedFrom_entries]
    rw [hmins]
    refine and_iff_right fun u hu => ?_
    obtain ⟨l, -, rfl⟩ := List.mem_map.mp hu
    exact narrow_leaf 255 l

theorem bulkBuildFromFlat_spec {flat : List LeafEntry} (hes : ∀ e ∈ flat, e.Encodes ty)
    (hasc : Ascending LeafEntry.value flat) :
    ∃ (s : DiskBspIndex NodeMap) (h : Nat) (t : BPlusTree LeafEntry h),
      bulkBuildFromFlat flat (blank NodeMap.empty) = .ok () s ∧ Stands ty t s ∧
        t.entries = flat ∧ (Narrow 255 t ↔ NarrowCut flat) := by
  cases flat with
  | nil =>
    obtain ⟨s, t, hbuild, hs, ht⟩ := bulkBuildFromFlat_nil ty
    refine ⟨s, 0, t, hbuild, hs, ht, iff_of_true (narrow_leaf 255 t) ?_⟩
    rw [NarrowCut]
    trivial
  | cons e rest => exact bulkBuildFromFlat_cons hes hasc

/-- A list as `bulk_build` asks for it: ascending keys of one type, short enough. -/
structure Admissible (ty : DataType) (entries : List (Value × UInt64)) : Prop where
  ascending : entries.Pairwise fun a b => a.1 < b.1
  hasType : ∀ e ∈ entries, e.1.HasType ty
  size : ∀ e ∈ entries, encodedValueSize e.1 ≤ kMaxIndexKeyBytes

/-- The estimate for the list is within the budget, if there is one. -/
def WithinBudget (budget : MemoryBudget) (entries : List (Value × UInt64)) : Prop :=
  ∀ b ∈ budget.limit,
    estimateBulkBuildBytes entries.length (entries.map fun e => encodedValueSize e.1).sum ≤ b

theorem noBudget {entries : List (Value × UInt64)} : WithinBudget .unknown entries :=
  fun _ hb => by cases hb

/-- The entries made of a list. -/
def flatOf (entries : List (Value × UInt64)) : List LeafEntry := entries.map fun e => entryOf e.1 e.2

section Input
variable {entries : List (Value × UInt64)}

theorem Admissible.tail {e : Value × UInt64} (h : Admissible ty (e :: entries)) :
    Admissible ty entries where
  ascending := h.ascending.of_cons
  hasType x hx := h.hasType x (List.mem_cons_of_mem _ hx)
  size x hx := h.size x (List.mem_cons_of_mem _ hx)

theorem Admissible.encodes (h : Admissible ty entries) : ∀ e ∈ flatOf entries, e.Encodes ty := by
  intro e he
  obtain ⟨x, hx, rfl⟩ := List.mem_map.mp he
  exact entryOf_encodes x.2 (h.hasType x hx) (h.size x hx)

theorem Admissible.values (h : Admissible ty entries) :
    (flatOf entries).map (fun e => (e.value, e.rid)) = entries := by
  rw [flatOf, List.map_map]
  refine (List.map_congr_left fun x hx => ?_).trans (List.map_id entries)
  exact congrArg (·, x.2) (entryOf_value x.2 (h.size x hx))

theorem Admissible.flat_ascending (h : Admissible ty entries) :
    Ascending LeafEntry.value (flatOf entries) := by
  have hasc := h.ascending
  rw [← h.values] at hasc
  have hflat := List.pairwise_map.mp hasc
  exact hflat

theorem checkBulkKeys_ok (h : Admissible ty entries) : checkBulkKeys entries = .ok () := by
  induction entries with
  | nil => rfl
  | cons e rest ih =>
    have hnull := (h.hasType e List.mem_cons_self).1
    rw [checkBulkKeys, if_neg (by rw [hnull]; decide),
      if_neg (Nat.not_lt.mpr (h.size e List.mem_cons_self))]
    exact ih h.tail

theorem makeEntries_ok (h : ∀ e ∈ entries, encodedValueSize e.1 ≤ kMaxIndexKeyBytes) :
    makeEntries entries = .ok (flatOf entries) := by
  induction entries with
  | nil => rfl
  | cons e rest ih =>
    obtain ⟨he, h⟩ := List.forall_mem_cons.mp h
    rw [makeEntries, makeEntry_ok e.2 he, ih h]
    rfl

theorem checkStrictlyIncreasing_ok {flat : List LeafEntry} (hes : ∀ e ∈ flat, e.Encodes ty)
    (hasc : Ascending LeafEntry.value flat) : checkStrictlyIncreasing flat = .ok () := by
  induction flat with
  | nil => rfl
  | cons a rest ih =>
    cases rest with
    | nil => rfl
    | cons b rest =>
      have ha := hes a List.mem_cons_self
      have hb := hes b (List.mem_cons_of_mem _ List.mem_cons_self)
      have hlt := (Value.compare_neg_iff ha.hasType hb.hasType).mpr
        (List.rel_of_pairwise_cons hasc List.mem_cons_self)
      rw [checkStrictlyIncreasing, compareEntries_encodes ha hb]
      refine (if_neg (Int.not_le.mpr hlt)).trans ?_
      exact ih (fun e he => hes e (List.mem_cons_of_mem _ he)) hasc.of_cons

theorem validateBulkBuildInput_ok (h : Admissible ty entries) {budget : MemoryBudget}
    (hbudget : WithinBudget budget entries) : validateBulkBuildInput budget entries = .ok () := by
  rw [validateBulkBuildInput, checkBulkKeys_ok h, except_ok_bind]
  cases hlimit : budget.limit with
  | none => rfl
  | some b =>
    dsimp only
    rw [if_neg (Nat.not_lt.mpr (hbudget b hlimit))]
    rfl

theorem indexable_of_checkBulkKeys (h : checkBulkKeys entries = .ok ()) :
    ∀ e ∈ entries, Indexable e.1 := by
  induction entries with
  | nil => exact fun e he => absurd he List.not_mem_nil
  | cons e rest ih =>
    rw [checkBulkKeys] at h
    by_cases hnull : e.1.isNull = true
    · rw [if_pos hnull] at h
      cases h
    by_cases hsize : encodedValueSize e.1 > kMaxIndexKeyBytes
    · rw [if_neg hnull, if_pos hsize] at h
      cases h
    rw [if_neg hnull, if_neg hsize] at h
    exact List.forall_mem_cons.mpr ⟨⟨Bool.eq_false_of_not_eq_true hnull, Nat.not_lt.mp hsize⟩, ih h⟩

theorem decodeValue_entryOf {key : Value} (rid : UInt64) (h : encodedValueSize key ≤ kMaxIndexKeyBytes) :
    decodeValue (keyBytes (entryOf key rid)) = .ok (key, encodedValueSize key) := by
  have hdecode := decodeValue_valueBytes key [] h
  rw [List.append_nil] at hdecode
  rw [LeafEntry.keyBytes_eq h rfl rfl, hdecode]

theorem compareEntries_entryOf {a b : Value} (ha : encodedValueSize a ≤ kMaxIndexKeyBytes)
    (hb : encodedValueSize b ≤ kMaxIndexKeyBytes) (rid rid' : UInt64) :
    compareEntries (entryOf a rid) (entryOf b rid') = .ok (a.compare b).1 := by
  rw [compareEntries, compareEncodedKeys, decodeValue_entryOf rid ha, decodeValue_entryOf rid' hb]
  rfl

theorem sorted_of_checkStrictlyIncreasing (hindexable : ∀ e ∈ entries, Indexable e.1)
    (h : checkStrictlyIncreasing (flatOf entries) = .ok ()) :
    entries.Pairwise fun a b => a.1 < b.1 := by
  rw [← List.isChain_iff_pairwise]
  induction entries with
  | nil => exact .nil
  | cons a rest ih =>
    obtain ⟨ha, hrest⟩ := List.forall_mem_cons.mp hindexable
    cases rest with
    | nil => exact .singleton a
    | cons b rest =>
      rw [flatOf, List.map_cons, List.map_cons, checkStrictlyIncreasing] at h
      rw [compareEntries_entryOf ha.2 (hrest b List.mem_cons_self).2, except_ok_bind] at h
      by_cases hc : (a.1.compare b.1).1 ≥ 0
      · rw [if_pos hc] at h
        cases h
      · rw [if_neg hc] at h
        exact .cons_cons (Value.lt_of_compare_neg (Int.not_le.mp hc)) (ih hrest h)

/-- A build that returned was given keys an index takes, in strict order, over any store. -/
theorem bulkBuild_returned {σ : Type} [NodeStore σ] {budget : MemoryBudget} {s s' : DiskBspIndex σ}
    (h : bulkBuild budget entries s = .ok () s') :
    (∀ e ∈ entries, Indexable e.1) ∧ entries.Pairwise fun a b => a.1 < b.1 := by
  obtain ⟨_, s₁, hvalid, h⟩ := bind_eq_ok.mp h
  obtain ⟨flat, s₂, hmake, h⟩ := bind_eq_ok.mp h
  obtain ⟨_, s₃, hcheck, -⟩ := bind_eq_ok.mp h
  have hkeys : checkBulkKeys entries = .ok () := by
    cases hrun : checkBulkKeys entries with
    | ok _ => rfl
    | error e =>
      rw [validateBulkBuildInput, hrun] at hvalid
      cases hvalid
  have hindexable := indexable_of_checkBulkKeys hkeys
  rw [makeEntries_ok fun e he => (hindexable e he).2] at hmake
  cases hmake
  refine ⟨hindexable, sorted_of_checkStrictlyIncreasing hindexable ?_⟩
  cases hrun : checkStrictlyIncreasing (flatOf entries) with
  | ok _ => rfl
  | error e =>
    rw [hrun] at hcheck
    cases hcheck

/-- Whatever the list, the index is well-formed and holds it; it is narrow if the cut
of the list is. -/
theorem bulkBuild_spec (h : Admissible ty entries) {budget : MemoryBudget}
    (hbudget : WithinBudget budget entries) :
    ∃ (s : DiskBspIndex NodeMap) (H : Nat) (t : BPlusTree LeafEntry H),
      bulkBuild budget entries (blank NodeMap.empty) = .ok () s ∧ Stands ty t s ∧
        t.entries = flatOf entries ∧ (Narrow 255 t ↔ NarrowCut (flatOf entries)) := by
  obtain ⟨s, H, t, hbuild, hrest⟩ := bulkBuildFromFlat_spec h.encodes h.flat_ascending
  refine ⟨s, H, t, ?_, hrest⟩
  have hvalid : (fromExcept (validateBulkBuildInput budget entries) : IndexM NodeMap Unit)
      (blank NodeMap.empty) = .ok () (blank NodeMap.empty) := by
    rw [validateBulkBuildInput_ok h hbudget, fromExcept_ok_apply]
  have hmake : (fromExcept (makeEntries entries) : IndexM NodeMap (List LeafEntry))
      (blank NodeMap.empty) = .ok (flatOf entries) (blank NodeMap.empty) := by
    rw [makeEntries_ok h.size, fromExcept_ok_apply]
  have hcheck : (fromExcept (checkStrictlyIncreasing (flatOf entries)) : IndexM NodeMap Unit)
      (blank NodeMap.empty) = .ok () (blank NodeMap.empty) := by
    rw [checkStrictlyIncreasing_ok h.encodes h.flat_ascending, fromExcept_ok_apply]
  rw [bulkBuild, bind_ok hvalid, bind_ok hmake, bind_ok hcheck]
  exact hbuild

end Input

/-! ### Many integers -/

/-- The integers from 0 on, each its own record id. -/
def intEntries (n : Nat) : List (Value × UInt64) :=
  (List.range n).map fun i => (.int (Int64.ofNat i), UInt64.ofNat i)

theorem intEntries_admissible {n : Nat} (hn : n ≤ 2 ^ 63) : Admissible .int (intEntries n) where
  ascending := by
    refine List.pairwise_map.mpr (List.pairwise_lt_range.imp_of_mem fun {i j} hi hj hij => ?_)
    have hi' := List.mem_range.mp hi
    have hj' := List.mem_range.mp hj
    rw [Value.int_lt_int, Int64.lt_iff_toInt_lt, Int64.toInt_ofNat_of_lt (by omega),
      Int64.toInt_ofNat_of_lt (by omega)]
    exact Int.ofNat_lt.mpr hij
  hasType e he := by
    obtain ⟨i, -, rfl⟩ := List.mem_map.mp he
    exact ⟨rfl, rfl⟩
  size e he := by
    obtain ⟨i, -, rfl⟩ := List.mem_map.mp he
    show 9 ≤ kMaxIndexKeyBytes
    decide

theorem intEntries_keyLen (n : Nat) : ∀ e ∈ flatOf (intEntries n), e.keyLen = 9 := by
  intro e he
  obtain ⟨x, hx, rfl⟩ := List.mem_map.mp he
  obtain ⟨i, -, rfl⟩ := List.mem_map.mp hx
  show UInt16.ofNat (valueBytes (.int (Int64.ofNat i))).length = 9
  rw [valueBytes_length]
  rfl

theorem leafPayloadBytes_int (es : List LeafEntry) (hes : ∀ e ∈ es, e.keyLen = 9) :
    leafPayloadBytes es = 12 + 19 * es.length := by
  induction es with
  | nil => rfl
  | cons e es ih =>
    have he : e.keyLen.toNat = 9 := by
      rw [hes e List.mem_cons_self]
      rfl
    have hrest := ih fun x hx => hes x (List.mem_cons_of_mem _ hx)
    rw [leafPayloadBytes] at hrest ⊢
    rw [List.map_cons, List.sum_cons, List.length_cons, he]
    omega

theorem innerPayloadBytes_int (ks : List LeafEntry) (n : Nat) (hks : ∀ k ∈ ks, k.keyLen = 9) :
    innerPayloadBytes ks n = 12 + n * 4 + 11 * ks.length := by
  induction ks with
  | nil => rfl
  | cons k ks ih =>
    have hk : k.keyLen.toNat = 9 := by
      rw [hks k List.mem_cons_self]
      rfl
    have hrest := ih fun x hx => hks x (List.mem_cons_of_mem _ hx)
    rw [innerPayloadBytes] at hrest ⊢
    rw [List.map_cons, List.sum_cons, List.length_cons, hk]
    omega

theorem mem_of_mem_pack {α : Type} {fits : List α → α → Bool} {l q : List α} {a : α}
    (hq : q ∈ pack fits l) (ha : a ∈ q) : a ∈ l := by
  have hflat : (pack fits l).flatten = l := pack_flatten l
  rw [← hflat]
  exact List.mem_flatten.mpr ⟨q, hq, ha⟩

/-- A leaf takes at most 214 of them. -/
theorem int_chunk_length {flat chunk : List LeafEntry} (hflat : ∀ e ∈ flat, e.keyLen = 9)
    (hchunk : chunk ∈ pack leafFits flat) : chunk.length ≤ 214 := by
  have hgrown : (∀ e ∈ chunk, e.keyLen = 9) → leafPayloadBytes chunk ≤ kPageSize := by
    refine pack_forall (P := fun es => (∀ e ∈ es, e.keyLen = 9) → leafPayloadBytes es ≤ kPageSize)
      (fun e he => ?_) (fun es e _ _ hfits _ => ?_) flat chunk hchunk
    · rw [leafPayloadBytes_int _ he]
      show 31 ≤ kPageSize
      decide
    · rw [leafPayloadBytes_append]
      exact of_decide_eq_true hfits
  have hints : ∀ e ∈ chunk, e.keyLen = 9 := fun e he => hflat e (mem_of_mem_pack hchunk he)
  have hpayload := hgrown hints
  rw [leafPayloadBytes_int chunk hints, kPageSize] at hpayload
  omega

/-- An inner node takes more than 256 of them, if there are more. -/
theorem int_group_length {firsts : List LeafEntry} (hfirsts : ∀ e ∈ firsts, e.keyLen = 9)
    (hmany : 257 ≤ firsts.length) : ∃ g ∈ pack innerFits firsts, 256 < g.length := by
  cases firsts with
  | nil => exact absurd hmany (by decide)
  | cons a rest =>
    rw [pack_cons]
    refine ⟨_, List.mem_cons_self, ?_⟩
    refine fill_length_ge [a] rest (by simpa [Nat.add_comm] using hmany) fun q e hq _ hpre => ?_
    have hints : ∀ x ∈ q, x.keyLen = 9 := fun x hx =>
      hfirsts x (hpre.subset (List.mem_append_left _ hx))
    have he : e.keyLen.toNat = 9 := by
      rw [hfirsts e (hpre.subset (List.mem_append_right _ List.mem_cons_self))]
      rfl
    rw [innerFits, innerPayloadBytes_int _ _ fun x hx => hints x (List.mem_of_mem_tail hx),
      leafEntryBytes, he, List.length_tail, kPageSize, Bool.or_eq_true, decide_eq_true_eq,
      decide_eq_true_eq]
    omega

theorem narrowLevels_short : ∀ (fuel : Nat) (firsts : List LeafEntry), firsts.length ≤ 256 →
    narrowLevels fuel firsts
  | 0, _, _ => trivial
  | _ + 1, [], _ => trivial
  | _ + 1, [_], _ => trivial
  | fuel + 1, e :: e' :: rest, hshort => by
    refine ⟨fun g hg => (length_le_of_mem_pack hg).trans hshort, narrowLevels_short fuel _ ?_⟩
    rw [List.length_map]
    exact (pack_length_le_length _).trans hshort

/-- A list this short takes no wide node. -/
theorem narrowCut_short {flat : List LeafEntry} (hshort : flat.length ≤ 256) : NarrowCut flat := by
  rw [NarrowCut]
  apply narrowLevels_short
  rw [List.length_map]
  exact (pack_length_le_length _).trans hshort

theorem intEntries_length (n : Nat) : (flatOf (intEntries n)).length = n := by
  rw [flatOf, List.length_map, intEntries, List.length_map, List.length_range]

/-- The integers from 0 to 215 take two leaves. -/
theorem narrowCut_twoLeaves : NarrowCut (flatOf (intEntries 216)) :=
  narrowCut_short (by rw [intEntries_length]; decide)

/-- The 54785 integers from 0 on take 257 leaves, too many for a narrow root. -/
theorem not_narrowCut_ints : ¬ NarrowCut (flatOf (intEntries 54785)) := by
  have hlen := intEntries_keyLen 54785
  have hlength := intEntries_length 54785
  generalize flatOf (intEntries 54785) = flat at hlen hlength
  have hchunks : 257 ≤ (pack leafFits flat).length := by
    have hle : flat.length ≤ (pack leafFits flat).length * 214 :=
      length_le_of_pack fun chunk hchunk => int_chunk_length hlen hchunk
    omega
  have hfirsts : ∀ e ∈ (pack leafFits flat).map fun es => es.headD default, e.keyLen = 9 := by
    intro e he
    obtain ⟨chunk, hchunk, rfl⟩ := List.mem_map.mp he
    have hne := pack_mem_ne_nil flat chunk hchunk
    cases chunk with
    | nil => exact absurd rfl hne
    | cons e es => exact hlen e (mem_of_mem_pack hchunk List.mem_cons_self)
  have hmany : 257 ≤ ((pack leafFits flat).map fun es => es.headD default).length := by
    rwa [List.length_map]
  obtain ⟨g, hg, hwide⟩ := int_group_length hfirsts hmany
  rw [NarrowCut]
  generalize (pack leafFits flat).map (fun es => es.headD default) = firsts at hg hmany
  obtain ⟨fuel, hfuel⟩ : ∃ fuel, (pack leafFits flat).length = fuel + 1 :=
    ⟨(pack leafFits flat).length - 1, by omega⟩
  rw [hfuel]
  intro hnarrow
  match firsts with
  | [] => exact absurd hmany (by decide)
  | [_] => exact absurd (show 257 ≤ 1 from hmany) (by decide)
  | a :: b :: rest => exact absurd (hnarrow.1 g hg) (Nat.not_le.mpr hwide)

end CwDb.Storage.DiskBspIndex
