import CwDb.Storage.Index.Lookup
import CwDb.Storage.Index.LeafSplit

/-! What an insertion does to the index.

The entry goes into the leaf its key leads to, at the slot of the binary search. The leaf
is written if it fits and split if not (`Takes`); whatever the order of the keys was, the
index is a tree again, with one entry more (`insert_stored`). Where the old tree was in
order and the key was led to where it belongs, the new one is in order
(`withEntryAt_sorted`). -/
namespace CwDb.Storage.DiskBspIndex
open Foundation BPlusTree

variable {ty : DataType} {H k : Nat} {s : DiskBspIndex NodeMap}

/-! ### Another list of entries in one leaf -/

/-- The tree with other entries in one leaf, the leaf's page not written yet. -/
theorem Laid.pend {ctx : Ctx LeafEntry H 0} {l : Leaf LeafEntry} {es : List LeafEntry}
    (hs : Laid ty (ctx.plug (leaf l)) s) (hencodes : ∀ e ∈ es, e.Encodes ty) :
    PendingAt ty ctx (leaf { l with entries := es }) s where
  nodup := by
    rw [Ctx.ids_plug]
    have hnodup := hs.shape.nodup
    rwa [Ctx.ids_plug] at hnodup
  jointed := ctx.jointed_replace hs.shape.jointed trivial
  filled m hm hid := by
    have hm' : m ∈ (ctx.plug (leaf l)).leaves := by
      rw [Ctx.leaves_plug, leaves_leaf] at hm ⊢
      simp only [List.mem_append, List.mem_singleton] at hm ⊢
      rcases hm with (hm | rfl) | hm
      · exact .inl (.inl hm)
      · exact absurd rfl hid
      · exact .inr hm
    by_cases hnil : (ctx.plug (leaf l)).entries = []
    · -- the empty tree has no other leaf
      have hzero := hs.shape.empty hnil
      subst hzero
      rw [ctx.eq_top, Ctx.plug, leaves_leaf] at hm'
      rw [List.mem_singleton.mp hm'] at hid
      exact absurd rfl hid
    · exact hs.shape.filled hnil m hm'
  linked := by
    refine (links_congr ?_ ?_).mp hs.shape.linked
    · simp [Ctx.leaves_plug]
    · simp [Ctx.leaves_plug]
  root := by
    rw [hs.root, Ctx.rootId_plug, Ctx.rootId_plug]
    rfl
  mem := Ctx.records_hole (rootRecord_mem _)
  pos := (hs.written _ (Ctx.records_hole (rootRecord_mem _))).pos
  lt := (hs.written _ (Ctx.records_hole (rootRecord_mem _))).lt
  encodes := hencodes
  written x hx hid := by
    rw [Ctx.records_plug] at hx
    rcases Multiset.mem_add.mp hx with hx | hx
    · exact hs.written x (Ctx.records_around hx)
    · rw [records_leaf] at hx
      exact absurd (congrArg NodeRecord.id (Multiset.mem_singleton.mp hx)) hid

/-- The size does not matter to the pages. -/
theorem Pending.resize {T : BPlusTree LeafEntry H} {r : NodeRecord LeafEntry} (hp : Pending ty T r s)
    (n : Nat) : Pending ty T r { s with size := n } :=
  { hp with }

theorem Laid.resize {T : BPlusTree LeafEntry H} (hs : Laid ty T s) (n : Nat) :
    Laid ty T { s with size := n } := { hs with }

theorem Laid.superblock {T : BPlusTree LeafEntry H} (hs : Laid ty T s) :
    Laid ty T { s with pager := s.pager.put 0 none } where
  shape := hs.shape
  root := hs.root
  written r hr := (hs.written r hr).superblock

/-! ### The leaf with the new entry -/

/-- A leaf with an entry put in a slot. -/
def withEntryAt (slot : Nat) (e : LeafEntry) (l : Leaf LeafEntry) : Leaf LeafEntry :=
  { l with entries := l.entries.insertIdx slot e }

theorem Laid.pend_withEntryAt {ctx : Ctx LeafEntry H 0} {l : Leaf LeafEntry} (slot : Nat)
    {e : LeafEntry} (hs : Laid ty (ctx.plug (leaf l)) s) (he : e.Encodes ty) :
    PendingAt ty ctx (leaf (withEntryAt slot e l)) s := by
  have hwritten := hs.leaf_written rfl
  refine hs.pend fun x hx => ?_
  rcases List.eq_or_mem_of_mem_insertIdx hx with rfl | hx
  · exact he
  · exact hwritten.encodes x hx

/-- The leaf, or what becomes of it, fits its place. -/
def Takes (n : PageId) (ctx : Ctx LeafEntry H 0) (l : Leaf LeafEntry) : Prop :=
  Fits (leaf l) ∨ LeafSettles n ctx l

/-- The leaves of the tree that took the leaf in. -/
def takenLeaves (n : PageId) (ctx : Ctx LeafEntry H 0) (l : Leaf LeafEntry) : List (Leaf LeafEntry) :=
  if Fits (leaf l) then (ctx.plug (leaf l)).leaves else splitLeaves n ctx l

/-- The index is a tree that took the leaf in; a root that was a leaf and split is below
another root now. -/
def TookIn (ty : DataType) (n : PageId) (ctx : Ctx LeafEntry H 0) (l : Leaf LeafEntry)
    (s : DiskBspIndex NodeMap) : Prop :=
  ∃ (h : Nat) (T' : BPlusTree LeafEntry h), h = (if Fits (leaf l) then H else max H 1) ∧
    Stored ty T' s ∧ T'.leaves = takenLeaves n ctx l ∧
    Reforms LeafEntry.value (ctx.plug (leaf l)) T'

section InsertAt
variable {ctx : Ctx LeafEntry H 0} {l : Leaf LeafEntry} {p : ParsedPage} {key : Value} {rid : UInt64}

/-- The leaf is written or split, and the index counts one entry more. -/
theorem insertAt_spec {slot : Nat} {ent : LeafEntry} (hp : PendingAt ty ctx (leaf l) s)
    (hpage : Shows { p with leafEntries := p.leafEntries.insertIdx slot ent } (.leaf l))
    (hne : l.entries ≠ []) (hsize : s.size + 1 = (ctx.plug (leaf l)).entries.length) :
    ReturnsIff (Takes s.pager.count ctx l) (TookIn ty s.pager.count ctx l)
      (insert.insertAt p (l.id :: ctx.path) slot ent s) := by
  have hcounted : ∀ {h : Nat} {T' : BPlusTree LeafEntry h} {s' : DiskBspIndex NodeMap},
      Laid ty T' s' → s'.size = s.size → Reforms LeafEntry.value (ctx.plug (leaf l)) T' →
        ∃ v s'', ((modify fun s => { s with size := s.size + 1 }) >>= fun _ => writeSuperblock :
          IndexM NodeMap Unit) s' = .ok v s'' ∧ Stored ty T' s'' := by
    intro h T' s' hlaid hcount hreforms
    refine ⟨_, _, rfl, (hlaid.resize _).superblock, ?_⟩
    show s'.size + 1 = T'.entries.length
    rw [hcount, hsize, hreforms.perm.length_eq]
  have hentries : p.leafEntries.insertIdx slot ent = l.entries := hpage.leaf.2.1
  rw [insert.insertAt]
  by_cases hfits : Fits (leaf l)
  · have hfits' : leafOverflow l.entries = false := hfits
    have hfilled : Filled (ctx.plug (leaf l)) := by
      intro m hm
      by_cases hid : m.id = l.id
      · have hsame := hp.eq_of_id (leaf_mem_records hm) hp.mem hid
        cases hsame
        exact hne
      · exact hp.filled m hm hid
    rw [if_pos (by rw [hentries, hfits']; rfl)]
    obtain ⟨v, s'', hrun, hstored⟩ := hcounted (hp.settle hfits hfilled) rfl (.refl _)
    rw [bind_ok (writePage_shows hpage hfits)]
    refine (congrArg (ReturnsIff _ _) hrun).mpr ⟨.inl hfits, H, _, (if_pos hfits).symm, hstored, ?_, .refl _⟩
    rw [takenLeaves, if_pos hfits]
  · have hover : leafOverflow l.entries = true := (Bool.not_eq_false _).mp hfits
    rw [if_neg (by rw [hentries, hover]; decide)]
    refine ReturnsIff.bind ((splitLeaf_spec ctx hp hpage hfits).imp (or_iff_right hfits).symm
      fun _ h => h) fun u s' h => ?_
    obtain ⟨h, T', hheight, hlaid, hleaves, hreforms, hcount⟩ := h
    obtain ⟨v, s'', hrun, hstored⟩ := hcounted hlaid hcount hreforms
    refine ⟨v, s'', hrun, h, T', by rw [if_neg hfits, hheight], hstored, ?_, hreforms⟩
    rw [takenLeaves, if_neg hfits, hleaves]

end InsertAt

section Insert
variable {t : BPlusTree LeafEntry H} {ctx : Ctx LeafEntry H 0} {l : Leaf LeafEntry} {key : Value}
  {rid : UInt64} {slot : Nat}

/-- A slot is found in every leaf. -/
theorem boundLoop_encodes {goRight : Int → Bool} {es : List LeafEntry} (v : Value)
    (hes : ∀ e ∈ es, e.Encodes ty) (fuel : Nat) : ∀ (lo hi : Nat), lo ≤ hi → hi ≤ es.length →
      ∃ slot ≤ hi, boundLoop goRight es v fuel lo hi = .ok slot := by
  induction fuel with
  | zero => exact fun lo hi hle _ => ⟨lo, hle, rfl⟩
  | succ fuel ih =>
    intro lo hi hle hlen
    by_cases hlt : lo < hi
    · have hmid : (lo + hi) / 2 < es.length := by omega
      have hget : es.getD ((lo + hi) / 2) default = es[(lo + hi) / 2] :=
        (List.getElem_eq_getD default).symm
      rw [boundLoop, if_pos hlt]
      dsimp only
      rw [hget, cmpKeyBytes_encodes (hes _ (List.getElem_mem hmid)), except_ok_bind]
      split
      · exact ih _ _ (by omega) hlen
      · obtain ⟨slot, hslot, hrun⟩ := ih lo ((lo + hi) / 2) (by omega) (by omega)
        exact ⟨slot, by omega, hrun⟩
    · exact ⟨lo, hle, by rw [boundLoop, if_neg hlt]⟩

theorem lowerBoundSlot_encodes {p : ParsedPage} (v : Value)
    (hes : ∀ e ∈ p.leafEntries, e.Encodes ty) :
    ∃ slot ≤ p.leafEntries.length, lowerBoundSlot p v = .ok slot :=
  boundLoop_encodes v hes _ 0 _ (Nat.zero_le _) (Nat.le_refl _)

theorem plug_withEntryAt_perm {e : LeafEntry} (hslot : slot ≤ l.entries.length) :
    (ctx.plug (leaf (withEntryAt slot e l))).entries.Perm (e :: (ctx.plug (leaf l)).entries) := by
  rw [Ctx.entries_plug, Ctx.entries_plug, entries_leaf, entries_leaf, List.append_assoc,
    List.append_assoc]
  refine (((List.perm_insertIdx e l.entries hslot).append_right _).append_left _).trans ?_
  exact List.perm_middle

/-- What `insert` does once it found the leaf and the slot. -/
theorem insert_found (hs : Stored ty t s) (hkey : key.HasType ty)
    (hlength : encodedValueSize key ≤ kMaxIndexKeyBytes) (hne : t.entries ≠ [])
    (hwritten : Written ty s.pager (.leaf l))
    (hfound : findLeaf key s = .ok (pageOf (.leaf l), l.id :: ctx.path) s)
    (hslot : lowerBoundSlot (pageOf (.leaf l)) key = .ok slot) :
    insert key rid s = if ∃ e ∈ l.entries[slot]?, e.value = key then
      .error (.runtimeError "Duplicate index key") s
      else insert.insertAt (pageOf (.leaf l)) (l.id :: ctx.path) slot (entryOf key rid) s := by
  have hsize : s.size ≠ 0 := by
    rw [hs.size]
    exact fun h => hne (List.length_eq_zero_iff.mp h)
  rw [insert, if_neg (by rw [hkey.1]; decide), makeEntry_ok rid hlength,
    bind_ok (fromExcept_ok_apply _ _), get_bind_apply, if_neg hsize, bind_ok hfound]
  dsimp only
  rw [hslot, bind_ok (fromExcept_ok_apply _ _)]
  have hentries : (pageOf (.leaf l)).leafEntries = l.entries := rfl
  rw [hentries]
  cases hexisting : l.entries[slot]? with
  | none =>
    rw [if_neg]
    intro h
    obtain ⟨e, he, -⟩ := h
    cases he
  | some existing =>
    have hequal := keysEqual_encodes (hwritten.encodes existing (List.mem_of_getElem? hexisting))
      (entryOf_encodes rid hkey hlength)
    rw [entryOf_value rid hlength] at hequal
    dsimp only
    rw [hequal, bind_ok (fromExcept_ok_apply _ _)]
    by_cases hsame : existing.value = key
    · rw [if_pos (decide_eq_true hsame), if_pos ⟨existing, rfl, hsame⟩]
      rfl
    · rw [if_neg (by rw [decide_eq_false hsame]; decide), if_neg]
      intro h
      obtain ⟨e, he, hekey⟩ := h
      cases he
      exact hsame hekey

/-- A key that is not in its slot is inserted, if there is room. -/
theorem insert_stored (hs : Stored ty (ctx.plug (leaf l)) s) (hkey : key.HasType ty)
    (hlength : encodedValueSize key ≤ kMaxIndexKeyBytes) (hne : (ctx.plug (leaf l)).entries ≠ [])
    (hfound : findLeaf key s = .ok (pageOf (.leaf l), l.id :: ctx.path) s)
    (hslot : lowerBoundSlot (pageOf (.leaf l)) key = .ok slot) (hle : slot ≤ l.entries.length)
    (hnew : ∀ e ∈ l.entries[slot]?, e.value ≠ key) :
    ReturnsIff (Takes s.pager.count ctx (withEntryAt slot (entryOf key rid) l))
      (TookIn ty s.pager.count ctx (withEntryAt slot (entryOf key rid) l)) (insert key rid s) := by
  have hwritten := hs.toLaid.leaf_written rfl
  have hperm := List.perm_insertIdx (entryOf key rid) l.entries hle
  rw [insert_found hs hkey hlength hne hwritten hfound hslot, if_neg]
  swap
  · intro h
    obtain ⟨e, he, hsame⟩ := h
    exact hnew e he hsame
  refine insertAt_spec (hs.toLaid.pend_withEntryAt slot (entryOf_encodes rid hkey hlength))
    (shows_leaf rfl rfl rfl rfl) ?_ ?_
  · intro hnil
    have hnil' : l.entries.insertIdx slot (entryOf key rid) = [] := hnil
    rw [hnil'] at hperm
    exact List.cons_ne_nil _ _ hperm.nil_eq.symm
  · have hplug : (ctx.plug (leaf (withEntryAt slot (entryOf key rid) l))).entries.Perm
        (entryOf key rid :: (ctx.plug (leaf l)).entries) := plug_withEntryAt_perm hle
    exact (congrArg (· + 1) hs.size).trans hplug.length_eq.symm

/-- A single entry fits. -/
theorem fits_one {e : LeafEntry} (he : e.Encodes ty) {id next : PageId} :
    Fits (leaf { id, next, entries := [e] }) := by
  have hle := he.keyLen_le
  have hmax : kMaxIndexKeyBytes = 512 := rfl
  have hpage : kPageSize = 4096 := rfl
  refine decide_eq_false (Nat.not_lt.mpr ?_)
  show leafPayloadBytes [e] ≤ kPageSize
  simp only [leafPayloadBytes, List.map_cons, List.map_nil, List.sum_cons, List.sum_nil]
  omega

variable (rid) in
/-- The first key goes into the root. -/
theorem insert_empty {t : BPlusTree LeafEntry H} (hs : Stored ty t s) (hkey : key.HasType ty)
    (hlength : encodedValueSize key ≤ kMaxIndexKeyBytes) (hnil : t.entries = []) :
    ∃ (s' : DiskBspIndex NodeMap) (l : Leaf LeafEntry), insert key rid s = .ok () s' ∧
      Stored ty (leaf l) s' ∧ l.entries = [entryOf key rid] := by
  have hzero := hs.shape.empty hnil
  subst hzero
  have hencodes : (entryOf key rid).Encodes ty := entryOf_encodes rid hkey hlength
  have hnext : Leaf.next t = 0 := hs.shape.linked.2
  have hroot : s.rootPage = Leaf.id t := hs.root
  have hsize : s.size = 0 := by rw [hs.size, hnil]; rfl
  have hp : PendingAt ty .top (leaf { t with entries := [entryOf key rid] }) s := by
    have hs' : Laid ty ((Ctx.top : Ctx LeafEntry 0 0).plug (leaf t)) s := by
      rw [Ctx.plug]
      exact hs.toLaid
    exact hs'.pend fun e he => by rwa [List.mem_singleton.mp he]
  rw [PendingAt, Ctx.plug] at hp
  have hshows : Shows { pageId := s.rootPage, type := .leaf, leafEntries := [entryOf key rid], nextLeaf := 0 }
      (.leaf { t with entries := [entryOf key rid] }) := shows_leaf rfl hroot rfl hnext.symm
  have hfits : Fits (leaf { t with entries := [entryOf key rid] }) := fits_one hencodes
  have hfilled : Filled (leaf { t with entries := [entryOf key rid] }) := by
    intro m hm
    rw [leaves_leaf] at hm
    rw [List.mem_singleton.mp hm]
    exact List.cons_ne_nil _ _
  rw [insert, if_neg (by rw [hkey.1]; decide), makeEntry_ok rid hlength,
    bind_ok (fromExcept_ok_apply _ _), get_bind_apply, if_pos hsize, bind_ok (writePage_shows hshows hfits)]
  refine ⟨_, _, rfl, ⟨((hp.settle hfits hfilled).resize 1).superblock, ?_⟩, rfl⟩
  rw [entries_leaf]
  rfl

/-! ### In order -/

theorem insertIdx_append (xs ys : List LeafEntry) (e : LeafEntry) :
    (xs ++ ys).insertIdx xs.length e = xs ++ e :: ys := by
  induction xs with
  | nil => rfl
  | cons x xs ih => exact congrArg (x :: ·) ih

/-- The key's place is in the leaf: the entries stay in order. -/
theorem withEntryAt_sorted (hs : Stands ty (ctx.plug (leaf l)) s)
    (hn : Narrow 255 (ctx.plug (leaf l))) (hlength : encodedValueSize key ≤ kMaxIndexKeyBytes)
    (habsent : ∀ e ∈ l.entries, e.value ≠ key) (hchosen : ctx.Chosen (codeSlot key)) :
    Sorted LeafEntry.value (ctx.plug (leaf (withEntryAt
      (l.entries.filter fun e => e.value < key).length (entryOf key rid) l))) := by
  have hvalue : (entryOf key rid).value = key := entryOf_value rid hlength
  obtain ⟨hbefore, hafter⟩ := hs.admits hn rfl hchosen
  have hadmits := ctx.admits_of_chosen
    (ctx.chosen_congr (fun ks hks => codeSlot_of_narrow hks) hn hchosen)
  have hasc := hs.wellFormed.ascending
  rw [Ctx.entries_plug, entries_leaf] at hasc
  obtain ⟨hfront, hascAfter, hfrontLt⟩ := hasc.append
  obtain ⟨hascBefore, hascLeaf, hbeforeLt⟩ := hfront.append
  have hsplit : (l.entries.filter fun e => decide (e.value < key)) ++
      (l.entries.filter fun e => !decide (e.value < key)) = l.entries :=
    hascLeaf.filter_append fun a b hab hb => decide_eq_true (hab.trans (of_decide_eq_true hb))
  have hplace : (withEntryAt (l.entries.filter fun e => e.value < key).length (entryOf key rid)
      l).entries = (l.entries.filter fun e => decide (e.value < key)) ++
        entryOf key rid :: l.entries.filter fun e => !decide (e.value < key) := by
    have hinsert := insertIdx_append (l.entries.filter fun e => decide (e.value < key))
      (l.entries.filter fun e => !decide (e.value < key)) (entryOf key rid)
    rw [hsplit] at hinsert
    exact hinsert
  have hmem : ∀ e ∈ (withEntryAt (l.entries.filter fun e => e.value < key).length (entryOf key rid)
      l).entries, e = entryOf key rid ∨ e ∈ l.entries := by
    intro e he
    exact List.eq_or_mem_of_mem_insertIdx he
  generalize withEntryAt (l.entries.filter fun e => e.value < key).length (entryOf key rid) l = l'
    at hplace hmem
  have hleaf : Ascending LeafEntry.value l'.entries := by
    rw [hplace]
    refine List.pairwise_append.mpr ⟨hascLeaf.filter _, List.pairwise_cons.mpr ⟨?_, hascLeaf.filter _⟩, ?_⟩
    · intro b hb
      obtain ⟨hb, hnot⟩ := List.mem_filter.mp hb
      rw [Bool.not_eq_true', decide_eq_false_iff_not, not_lt] at hnot
      rw [hvalue]
      exact lt_of_le_of_ne hnot fun heq => habsent b hb heq.symm
    · intro a ha b hb
      have hlt : a.value < key := of_decide_eq_true (List.mem_filter.mp ha).2
      rcases List.mem_cons.mp hb with rfl | hb
      · rwa [hvalue]
      · have hnot := (List.mem_filter.mp hb).2
        rw [Bool.not_eq_true', decide_eq_false_iff_not, not_lt] at hnot
        exact hlt.trans_le hnot
  refine ⟨ctx.ordered_replace hs.wellFormed.ordered trivial fun e he => ?_, ?_⟩
  · rw [entries_leaf] at he
    rcases hmem e he with rfl | he
    · rw [hvalue]
      exact hadmits
    · exact ctx.admits_of_ordered hs.wellFormed.ordered e (by rwa [entries_leaf])
  · rw [Ctx.entries_plug, entries_leaf]
    refine List.pairwise_append.mpr ⟨List.pairwise_append.mpr ⟨hascBefore, hleaf, ?_⟩, hascAfter, ?_⟩
    · intro a ha e he
      rcases hmem e he with rfl | he
      · rw [hvalue]
        exact hbefore a ha
      · exact hbeforeLt a ha e he
    · intro a ha e he
      rcases List.mem_append.mp ha with ha | ha
      · exact hfrontLt a (List.mem_append_left _ ha) e he
      · rcases hmem a ha with rfl | ha
        · rw [hvalue]
          exact hafter e he
        · exact hfrontLt a (List.mem_append_right _ ha) e he

/-- A key of the index is in the slot it is looked for in. -/
theorem Stands.slot_of_mem {t : BPlusTree LeafEntry H} (hs : Stands ty t s) (hn : Narrow 255 t)
    (hplug : ctx.plug (leaf l) = t) (hchosen : ctx.Chosen (codeSlot key)) {e : LeafEntry}
    (he : e ∈ t.entries) (hvalue : e.value = key) :
    ∃ x ∈ l.entries[(l.entries.filter fun e => e.value < key).length]?, x.value = key := by
  have hthere := (hs.slot_entry hplug).trans (hs.find?_leaf hn hplug hchosen).symm
  obtain ⟨x, hx⟩ : ∃ x, t.entries.find? (fun e => decide (e.value = key)) = some x :=
    Option.isSome_iff_exists.mp (List.find?_isSome.mpr ⟨e, he, decide_eq_true hvalue⟩)
  rw [hx, Option.filter_eq_some_iff] at hthere
  exact ⟨x, hthere.1, of_decide_eq_true hthere.2⟩

end Insert

end CwDb.Storage.DiskBspIndex
