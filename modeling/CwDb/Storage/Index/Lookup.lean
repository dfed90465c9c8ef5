import CwDb.Storage.Index.BulkBuild
import CwDb.Storage.Table

/-! Looking keys up in a well-formed index.

A lookup descends to a leaf, searches it, and a range walks on from there along the
leaf chain. The descent looks at as many separators as the page's one-byte count
says (`codeSlot`), so it ends in the leaf where the key belongs as long as no inner
node has more than 255 separators. An index built of many short keys has such nodes,
and some of its keys are not found. -/
namespace CwDb.Storage.DiskBspIndex
open Foundation BPlusTree

variable {ty : DataType}

/-! ### The search of a leaf -/

section Slots
variable {key : Value} {goRight : Int → Bool} {es : List LeafEntry} {k : Nat}

/-- The binary search finds the first entry that is not to go right of. -/
theorem boundLoop_eq (hgo : ∀ i (hi : i < es.length), ∃ c, cmpKeyBytes es[i] key = .ok c ∧
    (goRight c = true ↔ i < k)) : ∀ {fuel lo hi : Nat}, hi - lo ≤ fuel → lo ≤ k → k ≤ hi →
    hi ≤ es.length → boundLoop goRight es key fuel lo hi = .ok k
  | 0, lo, hi, hfuel, hlo, hhi, _ => by
    rw [boundLoop, show lo = k by omega]
  | fuel + 1, lo, hi, hfuel, hlo, hhi, hlen => by
    rw [boundLoop]
    by_cases hlt : lo < hi
    · have hmid : (lo + hi) / 2 < es.length := by omega
      obtain ⟨c, hc, hright⟩ := hgo _ hmid
      have hget : es.getD ((lo + hi) / 2) default = es[(lo + hi) / 2] :=
        (List.getElem_eq_getD default).symm
      rw [if_pos hlt]
      show (cmpKeyBytes (es.getD ((lo + hi) / 2) default) key >>= fun c =>
        if goRight c then boundLoop goRight es key fuel ((lo + hi) / 2 + 1) hi
        else boundLoop goRight es key fuel lo ((lo + hi) / 2)) = _
      rw [hget, hc]
      show (if goRight c then _ else _) = _
      by_cases hgoes : goRight c = true
      · have := hright.mp hgoes
        rw [if_pos hgoes]
        exact boundLoop_eq hgo (by omega) (by omega) hhi hlen
      · have := mt hright.mpr hgoes
        rw [if_neg hgoes]
        exact boundLoop_eq hgo (by omega) hlo (by omega) (by omega)
    · rw [if_neg hlt, show lo = k by omega]

theorem boundLoop_ascending {p : ParsedPage} (hes : ∀ e ∈ p.leafEntries, e.Encodes ty)
    (hasc : Ascending LeafEntry.value p.leafEntries) {right : LeafEntry → Bool}
    (hgo : ∀ e ∈ p.leafEntries, goRight (e.value.compare key).1 = right e)
    (hdown : ∀ a b : LeafEntry, a.value < b.value → right b = true → right a = true) :
    boundLoop goRight p.leafEntries key p.leafEntries.length 0 p.leafEntries.length =
      .ok (p.leafEntries.filter right).length := by
  refine boundLoop_eq (fun i hi => ?_) (Nat.le_refl _) (Nat.zero_le _)
    (List.length_filter_le _ _) (Nat.le_refl _)
  have hmem : p.leafEntries[i] ∈ p.leafEntries := List.getElem_mem hi
  refine ⟨_, cmpKeyBytes_encodes (hes _ hmem), ?_⟩
  rw [hgo _ hmem]
  exact hasc.getElem_filter hdown hi

variable {p : ParsedPage}

theorem lowerBoundSlot_ascending (hkey : key.HasType ty) (hes : ∀ e ∈ p.leafEntries, e.Encodes ty)
    (hasc : Ascending LeafEntry.value p.leafEntries) :
    lowerBoundSlot p key = .ok (p.leafEntries.filter fun e => e.value < key).length := by
  refine boundLoop_ascending hes hasc (fun e he => ?_) fun a b hab hb => ?_
  · exact decide_eq_decide.mpr (Value.compare_neg_iff (hes e he).hasType hkey)
  · exact decide_eq_true (hab.trans (of_decide_eq_true hb))

theorem upperBoundSlot_ascending (hkey : key.HasType ty) (hes : ∀ e ∈ p.leafEntries, e.Encodes ty)
    (hasc : Ascending LeafEntry.value p.leafEntries) :
    upperBoundSlot p key = .ok (p.leafEntries.filter fun e => e.value ≤ key).length := by
  refine boundLoop_ascending hes hasc (fun e he => ?_) fun a b hab hb => ?_
  · exact decide_eq_decide.mpr (Value.compare_nonpos_iff (hes e he).hasType hkey)
  · exact decide_eq_true (hab.le.trans (of_decide_eq_true hb))

end Slots

/-! ### The descent -/

/-- The child the code chooses: it looks at as many separators as one byte counts. -/
def codeSlot (key : Value) (ks : List LeafEntry) : Nat :=
  slot LeafEntry.value (ks.take (ks.length % 256)) key

theorem codeSlot_of_narrow {key : Value} {ks : List LeafEntry} (h : ks.length ≤ 255) :
    codeSlot key ks = slot LeafEntry.value ks key := by
  rw [codeSlot, Nat.mod_eq_of_lt (Nat.lt_succ_of_le h), List.take_length]

/-- On a wide node it never chooses the last child. -/
theorem codeSlot_lt {key : Value} {ks : List LeafEntry} (h : 255 < ks.length) :
    codeSlot key ks < ks.length := by
  refine (slot_le _ _).trans_lt ?_
  rw [List.length_take]
  have := Nat.mod_lt ks.length (show 256 > 0 by decide)
  omega

theorem codeSlot_le (key : Value) (ks : List LeafEntry) : codeSlot key ks ≤ ks.length :=
  (slot_le _ _).trans (List.length_take_le' _ _)

section Descent
variable {key : Value} {s : DiskBspIndex NodeMap}

theorem childLoop_eq (hkey : key.HasType ty) {ks : List LeafEntry}
    (hks : ∀ k ∈ ks, k.Encodes ty) : ∀ i child : Nat,
    childLoop key (ks.map LeafEntry.asSeparator) i child =
      .ok (slotLoop LeafEntry.value key ks i child) := by
  induction ks with
  | nil => exact fun _ _ => rfl
  | cons k ks ih =>
    intro i child
    have hk := hks k List.mem_cons_self
    have hcmp : cmpKeyBytes k.asSeparator key = .ok (k.value.compare key).1 :=
      cmpKeyBytes_encodes (LeafEntry.encodes_asSeparator.mpr hk)
    have hle := Value.compare_nonpos_iff hk.hasType hkey
    rw [List.map_cons, childLoop, hcmp, slotLoop]
    show childLoop key _ (i + 1) (if _ then _ else _) = _
    rw [ih (fun x hx => hks x (List.mem_cons_of_mem _ hx))]
    simp only [hle]

theorem childSlot_pageOf (hkey : key.HasType ty) {id : Nat} {ks : List LeafEntry} {cs : List Nat}
    (hks : ∀ k ∈ ks, k.Encodes ty) :
    childSlot (pageOf (.inner id ks cs)) key = .ok (codeSlot key ks) := by
  have hcount : (UInt8.ofNat ks.length).toNat = ks.length % 256 := UInt8.toNat_ofNat'
  show childLoop key ((ks.map LeafEntry.asSeparator).take (UInt8.ofNat ks.length).toNat) 0 0 = _
  rw [hcount, ← List.map_take, childLoop_eq hkey fun k hk => hks k (List.mem_of_mem_take hk)]
  rfl

/-- The descent ends in the leaf that the choices lead to, with the way to it. -/
theorem findLeafLoop_spec (hkey : key.HasType ty) : ∀ {H k fuel : Nat} (ctx : Ctx LeafEntry H k)
    {t : BPlusTree LeafEntry k}, k < fuel → (∀ r ∈ t.records, Written ty s.pager r) →
    Jointed t → ctx.Chosen (codeSlot key) →
    ∃ (ctx' : Ctx LeafEntry H 0) (l : Leaf LeafEntry), ctx'.plug (leaf l) = ctx.plug t ∧
      ctx'.Chosen (codeSlot key) ∧
      findLeafLoop key fuel t.rootId ctx.path s = .ok (pageOf (.leaf l), l.id :: ctx'.path) s
  | H, 0, fuel + 1, ctx, l, _, hwritten, _, hchosen => by
    have hread := readPage_written (hwritten _ (rootRecord_mem l))
    refine ⟨ctx, l, rfl, hchosen, ?_⟩
    rw [findLeafLoop]
    refine (bind_ok hread).trans ?_
    exact congrFun (if_pos (show (pageOf (rootRecord (h := 0) l)).type = .leaf from rfl)) s
  | H, k + 1, fuel + 1, ctx, t, hfuel, hwritten, hjointed, hchosen => by
    have hroot := hwritten _ (rootRecord_mem t)
    have hread := readPage_written hroot
    rw [rootRecord_id] at hread
    have hslot : childSlot (pageOf t.rootRecord) key = .ok (codeSlot key t.keys) :=
      childSlot_pageOf hkey hroot.encodes
    have hlength := hjointed.1
    have hlt : codeSlot key t.keys < t.children.length := by
      have := codeSlot_le key t.keys
      omega
    generalize hi : codeSlot key t.keys = i at hslot hlt
    have hsplit : t.children = t.children.take i ++ t.children[i] :: t.children.drop (i + 1) := by
      rw [List.getElem_cons_drop, List.take_append_drop]
    have hmem : t.children[i] ∈ t.children := List.getElem_mem hlt
    obtain ⟨ctx', l, hplug, hchosen', hfound⟩ := findLeafLoop_spec hkey
      (.frame t.rootId t.keys (t.children.take i) (t.children.drop (i + 1)) ctx)
      (t := t.children[i]) (Nat.lt_of_succ_lt_succ hfuel)
      (fun r hr => hwritten r (by
        rw [eq_node t, records_node]
        exact Multiset.mem_cons_of_mem (mem_recordsOf.mpr ⟨_, hmem, hr⟩)))
      (hjointed.2 _ hmem) (by
        rw [Ctx.Chosen]
        exact ⟨by rw [List.length_take_of_le hlt.le, hi], hchosen⟩)
    refine ⟨ctx', l, ?_, hchosen', ?_⟩
    · rw [hplug, Ctx.plug, ← hsplit]
      rfl
    · rw [findLeafLoop]
      refine (bind_ok hread).trans ?_
      refine (congrFun (if_neg (show ¬ (pageOf t.rootRecord).type = .leaf from
        NodeType.noConfusion)) s).trans ?_
      rw [hslot]
      have hnext : (pageOf t.rootRecord).children[i]? = some t.children[i].rootId := by
        show (t.children.map rootId)[i]? = _
        rw [List.getElem?_map, List.getElem?_eq_getElem hlt]
        rfl
      rw [Ctx.path] at hfound
      refine (bind_ok (fromExcept_ok_apply i s)).trans ?_
      simp only [hnext]
      exact hfound

end Descent

/-! ### Iterators -/

/-- The iterator has these entries before it. -/
inductive On {h : Nat} (t : BPlusTree LeafEntry h) : ConstIterator → List LeafEntry → Prop
  | atEnd (it : ConstIterator) : it.atEnd = true → On t it []
  | entry (before after : List (Leaf LeafEntry)) (l : Leaf LeafEntry) (es rest : List LeafEntry)
      (e : LeafEntry) : t.leaves = before ++ l :: after → l.entries = es ++ e :: rest →
      On t { page := l.id, slot := es.length, key := e.value, rid := e.rid, atEnd := false }
        (e :: rest ++ after.flatMap Leaf.entries)

theorem On.here {h : Nat} {t : BPlusTree LeafEntry h} {it : ConstIterator} {es : List LeafEntry}
    (hon : On t it es) : it.here = es.head?.map fun e => (e.value, e.rid) := by
  cases hon with
  | atEnd _ hend => exact if_pos hend
  | entry before after l es rest e _ _ => rfl

theorem On.eq_nil {h : Nat} {t : BPlusTree LeafEntry h} {it : ConstIterator} {es : List LeafEntry}
    (hon : On t it es) (hend : it.atEnd = true) : es = [] := by
  have hhere := hon.here
  rw [ConstIterator.here, if_pos hend] at hhere
  exact List.head?_eq_none_iff.mp (Option.map_eq_none_iff.mp hhere.symm)

section Iterators
variable {h : Nat} {t : BPlusTree LeafEntry h} {s : DiskBspIndex NodeMap}

/-- What follows a leaf in the chain, and that it has entries. -/
theorem Stands.next_leaf (hs : Stands ty t s) {before after : List (Leaf LeafEntry)}
    {l : Leaf LeafEntry} (hleaves : t.leaves = before ++ l :: after) :
    (after = [] ∧ l.next = 0) ∨ ∃ (m : Leaf LeafEntry) (rest : List (Leaf LeafEntry))
      (e : LeafEntry) (es : List LeafEntry), after = m :: rest ∧ l.next = m.id ∧ 0 < m.id ∧
        m.entries = e :: es := by
  have hlinked := hs.wellFormed.linked
  rw [hleaves, links_append] at hlinked
  obtain ⟨mid, -, -, hafter⟩ := hlinked
  cases after with
  | nil => exact .inl ⟨rfl, hafter⟩
  | cons m rest =>
    have hm : m ∈ t.leaves := by
      rw [hleaves]
      simp
    have hne : t.entries ≠ [] := by
      intro hnil
      have hzero := hs.wellFormed.empty hnil
      subst hzero
      have hlength := congrArg List.length hleaves
      simp only [List.length_append, List.length_cons] at hlength
      change 1 = _ at hlength
      omega
    cases hes : m.entries with
    | nil => exact absurd hes (hs.wellFormed.filled hne m hm)
    | cons e es =>
      exact .inr ⟨m, rest, e, es, rfl, hafter.1, (hs.written _ (leaf_mem_records hm)).pos, hes⟩

theorem iteratorAt_entry (hs : Stands ty t s) {before after : List (Leaf LeafEntry)}
    {l : Leaf LeafEntry} {es rest : List LeafEntry} {e : LeafEntry}
    (hleaves : t.leaves = before ++ l :: after) (hes : l.entries = es ++ e :: rest) :
    ∃ it, iteratorAt l.id es.length s = .ok it s ∧
      On t it (e :: rest ++ after.flatMap Leaf.entries) := by
  have hl : l ∈ t.leaves := by
    rw [hleaves]
    simp
  have hwritten := hs.written _ (leaf_mem_records hl)
  refine ⟨_, (bind_ok (readPage_written hwritten)).trans ?_,
    .entry before after l es rest e hleaves hes⟩
  have hget : (pageOf (.leaf l)).leafEntries[es.length]? = some e := by
    show l.entries[es.length]? = _
    rw [hes]
    exact getElem?_hole _ _ _
  have he : e.Encodes ty := hwritten.encodes e (by
    show e ∈ l.entries
    rw [hes]
    simp)
  rw [iteratorOn, hget]
  show fromExcept (decodeValue (keyBytes e) >>= fun x => _) s = _
  rw [he.decodeValue]
  rfl

/-- From a slot of a leaf on, to the next leaf if the slot is past the end. -/
theorem hop_spec (hs : Stands ty t s) {before after : List (Leaf LeafEntry)} {l : Leaf LeafEntry}
    {es rest : List LeafEntry} (hleaves : t.leaves = before ++ l :: after)
    (hes : l.entries = es ++ rest) :
    ∃ it, (if es.length < l.entries.length then iteratorAt l.id es.length
        else if l.next ≠ 0 then iteratorAt l.next 0
        else return endIterator : IndexM NodeMap ConstIterator) s = .ok it s ∧
      On t it (rest ++ after.flatMap Leaf.entries) := by
  cases rest with
  | cons e rest =>
    obtain ⟨it, hit, hon⟩ := iteratorAt_entry hs hleaves hes
    refine ⟨it, ?_, hon⟩
    rw [if_pos (by rw [hes, List.length_append, List.length_cons]; omega)]
    exact hit
  | nil =>
    have hlast : ¬ es.length < l.entries.length := by
      rw [hes, List.append_nil]
      exact lt_irrefl _
    rw [if_neg hlast]
    rcases hs.next_leaf hleaves with ⟨rfl, hnext⟩ | ⟨m, ms, e, rest, rfl, hnext, hpos, hm⟩
    · refine ⟨endIterator, ?_, .atEnd _ rfl⟩
      rw [if_neg (not_not_intro hnext)]
      rfl
    · have hleaves' : t.leaves = (before ++ [l]) ++ m :: ms := by
        rw [hleaves, List.append_assoc, List.singleton_append]
      obtain ⟨it, hit, hon⟩ :=
        iteratorAt_entry hs hleaves' (show m.entries = [] ++ e :: rest from hm)
      refine ⟨it, ?_, ?_⟩
      · rw [if_pos (by omega), hnext]
        exact hit
      · rw [List.nil_append, List.flatMap_cons, hm]
        exact hon

theorem next_spec (hs : Stands ty t s) {it : ConstIterator} {e : LeafEntry} {tail : List LeafEntry}
    (hon : On t it (e :: tail)) : ∃ it', it.next s = .ok it' s ∧ On t it' tail := by
  cases hon with
  | entry before after l es rest e hleaves hes =>
    have hl : l ∈ t.leaves := by
      rw [hleaves]
      simp
    have hread : readPage l.id s = .ok (pageOf (.leaf l)) s :=
      readPage_written (hs.written _ (leaf_mem_records hl))
    have hes' : l.entries = (es ++ [e]) ++ rest := by
      rw [hes, List.append_assoc, List.singleton_append]
    have hlength : (es ++ [e]).length = es.length + 1 := by
      rw [List.length_append, List.length_singleton]
    rw [ConstIterator.next]
    refine (?_ : ∃ it', (readPage l.id >>= fun p =>
      (if es.length + 1 < p.leafEntries.length then fromExcept (iteratorOn p l.id (es.length + 1))
      else if p.nextLeaf = 0 then
        return { page := l.id, slot := es.length + 1, key := e.value, rid := e.rid, atEnd := true }
      else iteratorAt p.nextLeaf 0 : IndexM NodeMap ConstIterator)) s = .ok it' s ∧
        On t it' (rest ++ after.flatMap Leaf.entries))
    rw [bind_ok hread]
    show ∃ it', (if es.length + 1 < l.entries.length then _
      else if l.next = 0 then _ else iteratorAt l.next 0 : IndexM NodeMap ConstIterator) s =
        .ok it' s ∧ _
    obtain ⟨it', hit, hon'⟩ := hop_spec hs hleaves hes'
    rw [hlength] at hit
    by_cases hlt : es.length + 1 < l.entries.length
    · rw [if_pos hlt] at hit ⊢
      rw [iteratorAt, bind_ok hread] at hit
      exact ⟨it', hit, hon'⟩
    · rw [if_neg hlt] at hit ⊢
      by_cases hnext : l.next = 0
      · rw [if_neg (not_not_intro hnext)] at hit
        cases hit
        rw [if_pos hnext]
        refine ⟨_, rfl, ?_⟩
        rw [hon'.eq_nil rfl]
        exact .atEnd _ rfl
      · rw [if_pos hnext] at hit
        rw [if_neg hnext]
        exact ⟨it', hit, hon'⟩

/-! ### Scans -/

theorem begin_spec (hs : Stands ty t s) : ∃ it, begin s = .ok it s ∧ On t it t.entries := by
  have hbegin : (begin : IndexM NodeMap ConstIterator) s =
      (if s.size = 0 then return endIterator else iteratorAt s.firstLeafPage 0 :
        IndexM NodeMap ConstIterator) s := rfl
  rw [hbegin, hs.size]
  by_cases hnil : t.entries = []
  · rw [if_pos (by rw [hnil]; rfl), hnil]
    exact ⟨endIterator, rfl, .atEnd _ rfl⟩
  · have hfilled := hs.wellFormed.filled hnil
    rw [if_neg fun hlen => hnil (List.length_eq_zero_iff.mp hlen)]
    cases hleaves : t.leaves with
    | nil => exact absurd hleaves hs.wellFormed.ordered.branching.leaves_ne_nil
    | cons l ls =>
      have hlinked := hs.wellFormed.linked
      rw [hleaves] at hlinked
      cases hes : l.entries with
      | nil => exact absurd hes (hfilled l (by rw [hleaves]; exact List.mem_cons_self))
      | cons e rest =>
        obtain ⟨it, hit, hon⟩ := iteratorAt_entry hs (show t.leaves = [] ++ l :: ls from hleaves)
          (show l.entries = [] ++ e :: rest from hes)
        refine ⟨it, by rw [hlinked.1]; exact hit, ?_⟩
        rw [entries, hleaves, List.flatMap_cons, hes]
        exact hon

/-- The fuel of a scan suffices. -/
theorem entries_length_lt_fuel (hs : Stands ty t s) :
    t.entries.length < (s.pager.count + 1) * kPageSize := by
  have hleaves : ∀ ls : List (Leaf LeafEntry), (∀ l ∈ ls, l.entries.length ≤ kPageSize) →
      (ls.flatMap Leaf.entries).length ≤ ls.length * kPageSize := by
    intro ls hls
    induction ls with
    | nil => exact Nat.zero_le _
    | cons l ls ih =>
      have hl := hls l List.mem_cons_self
      have hrest := ih fun m hm => hls m (List.mem_cons_of_mem _ hm)
      rw [List.flatMap_cons, List.length_append, List.length_cons, Nat.succ_mul]
      omega
  have hlength := hleaves t.leaves fun l hl =>
    (entries_length_lt (hs.written _ (leaf_mem_records hl)).fits).le
  have hcount := (leaves_length_le_card t).trans (card_le_count hs.written hs.wellFormed.nodup)
  calc t.entries.length ≤ t.leaves.length * kPageSize := hlength
    _ ≤ s.pager.count * kPageSize := Nat.mul_le_mul_right _ hcount
    _ < (s.pager.count + 1) * kPageSize := Nat.mul_lt_mul_of_pos_right (Nat.lt_succ_self _)
        (by decide)

theorem scanLoop_spec (hs : Stands ty t s) {fuel : Nat} : ∀ {it : ConstIterator}
    {es : List LeafEntry}, On t it es → es.length < fuel →
    scanLoop fuel it s = .ok (es.map fun e => (e.value, e.rid)) s := by
  induction fuel with
  | zero =>
    intro it es _ hfuel
    exact absurd hfuel (Nat.not_lt_zero _)
  | succ fuel ih =>
    intro it es hon hfuel
    rw [scanLoop]
    have hhere := hon.here
    cases hend : it.atEnd with
    | true =>
      rw [hon.eq_nil hend]
      rfl
    | false =>
      rw [ConstIterator.here, hend] at hhere
      cases es with
      | nil => cases hhere
      | cons e es =>
        have hpair : (it.key, it.rid) = (e.value, e.rid) := Option.some.inj hhere
        obtain ⟨it', hnext, hon'⟩ := next_spec hs hon
        refine (bind_ok hnext).trans ?_
        refine (bind_ok (ih hon' (Nat.lt_of_succ_lt_succ hfuel))).trans ?_
        rw [hpair, List.map_cons]
        rfl

/-- A scan meets all pairs in order. -/
theorem scan_spec (hs : Stands ty t s) :
    scan s = .ok (t.entries.map fun e => (e.value, e.rid)) s := by
  obtain ⟨it, hbegin, hon⟩ := begin_spec hs
  rw [scan, bind_ok hbegin]
  exact scanLoop_spec hs hon (entries_length_lt_fuel hs)

theorem collectLoop_spec (hs : Stands ty t s) (hi : Option Value) (hiInclusive : Bool)
    {inside : LeafEntry → Bool} {fuel : Nat} : ∀ {it : ConstIterator} {es : List LeafEntry},
    On t it es → es.length < fuel →
    (∀ e ∈ es, (!Table.pastUpper hi hiInclusive e.value) = inside e) →
    Table.collectLoop (ι := DiskBspIndex NodeMap) hi hiInclusive fuel it s =
      .ok ((es.takeWhile inside).map (·.rid.toNat)) s := by
  induction fuel with
  | zero =>
    intro it es _ hfuel
    exact absurd hfuel (Nat.not_lt_zero _)
  | succ fuel ih =>
    intro it es hon hfuel hinside
    have hhere : TableIndex.here (ι := DiskBspIndex NodeMap) it =
        es.head?.map fun e => (e.value, e.rid.toNat) := by
      show it.here.map (fun p => (p.1, p.2.toNat)) = _
      rw [hon.here, Option.map_map]
      rfl
    rw [Table.collectLoop, hhere]
    cases es with
    | nil => rfl
    | cons e es =>
      have he := hinside e List.mem_cons_self
      cases hpast : Table.pastUpper hi hiInclusive e.value with
      | true =>
        rw [hpast] at he
        rw [List.takeWhile_cons_of_neg (by rw [← he]; decide)]
        exact congrFun (if_pos hpast) s
      | false =>
        rw [hpast] at he
        rw [List.takeWhile_cons_of_pos he.symm]
        obtain ⟨it', hnext, hon'⟩ := next_spec hs hon
        refine (congrFun (if_neg (by rw [hpast]; decide)) s).trans ?_
        refine (bind_ok hnext).trans ?_
        exact bind_ok (ih hon' (Nat.lt_of_succ_lt_succ hfuel)
          fun x hx => hinside x (List.mem_cons_of_mem _ hx))

end Iterators

/-! ### find, lower_bound, upper_bound -/

section Lookups
variable {h : Nat} {t : BPlusTree LeafEntry h} {s : DiskBspIndex NodeMap} {key : Value}
  {ctx : Ctx LeafEntry h 0} {l : Leaf LeafEntry}

theorem findLeaf_spec (hs : Laid ty t s) (hkey : key.HasType ty) :
    ∃ (ctx : Ctx LeafEntry h 0) (l : Leaf LeafEntry), ctx.plug (leaf l) = t ∧
      ctx.Chosen (codeSlot key) ∧
      findLeaf key s = .ok (pageOf (.leaf l), l.id :: ctx.path) s := by
  have hfuel := height_lt_count hs.written hs.shape.nodup hs.shape.jointed.branching
  obtain ⟨ctx, l, hplug, hchosen, hfound⟩ := findLeafLoop_spec hkey .top (Nat.lt_succ_of_lt hfuel)
    hs.written hs.shape.jointed (by
      rw [Ctx.Chosen]
      trivial)
  rw [Ctx.plug] at hplug
  rw [Ctx.path, ← hs.root] at hfound
  exact ⟨ctx, l, hplug, hchosen, hfound⟩

theorem Laid.leaf_written (hs : Laid ty t s) (hplug : ctx.plug (leaf l) = t) :
    Written ty s.pager (.leaf l) := by
  refine hs.written _ ?_
  rw [← hplug, Ctx.records_plug, records_leaf]
  exact Multiset.mem_add.mpr (.inr (Multiset.mem_singleton_self _))

theorem Stands.leaf_written (hs : Stands ty t s) (hplug : ctx.plug (leaf l) = t) :
    Written ty s.pager (.leaf l) := hs.toStanding.laid.leaf_written hplug

theorem Stands.leaf_ascending (hs : Stands ty t s) (hplug : ctx.plug (leaf l) = t) :
    Ascending LeafEntry.value l.entries := by
  have hasc := hs.wellFormed.ascending
  rw [← hplug, Ctx.entries_plug, entries_leaf] at hasc
  exact hasc.append.1.append.2.1

theorem leaves_around (hplug : ctx.plug (leaf l) = t) :
    t.leaves = ctx.leavesBefore ++ l :: ctx.leavesAfter := by
  rw [← hplug, Ctx.leaves_plug, leaves_leaf, List.append_assoc, List.singleton_append]

/-- In a narrow index the descent ends where the key may stand. -/
theorem Stands.admits (hs : Stands ty t s) (hn : Narrow 255 t) (hplug : ctx.plug (leaf l) = t)
    (hchosen : ctx.Chosen (codeSlot key)) :
    (∀ e ∈ ctx.entriesBefore, e.value < key) ∧ ∀ e ∈ ctx.entriesAfter, key < e.value := by
  obtain ⟨hnodup, hord, hasc, hfilled, -, -⟩ := hs.wellFormed
  subst hplug
  have hadm := ctx.admits_of_chosen
    (ctx.chosen_congr (fun ks hks => codeSlot_of_narrow hks) hn hchosen)
  by_cases hnil : (ctx.plug (leaf l)).entries = []
  · rw [Ctx.entries_plug, List.append_eq_nil_iff, List.append_eq_nil_iff] at hnil
    rw [hnil.1.1, hnil.2]
    exact ⟨fun e he => absurd he List.not_mem_nil, fun e he => absurd he List.not_mem_nil⟩
  · exact ⟨ctx.before_lt hord hasc (hfilled hnil) hadm, ctx.after_gt hord hasc (hfilled hnil) hadm⟩

/-- The key, if it is in the leaf, is in its slot. -/
theorem Stands.slot_entry (hs : Stands ty t s) (hplug : ctx.plug (leaf l) = t) :
    (l.entries[(l.entries.filter fun e => e.value < key).length]?).filter (fun e => e.value = key) =
      l.entries.find? fun e => e.value = key := by
  have hasc := hs.leaf_ascending hplug
  rw [hasc.find?_eq, hasc.getElem?_filter fun a b hab hb =>
    decide_eq_true (hab.trans (of_decide_eq_true hb))]

/-- A key of the index is in the leaf it leads to, unless a wide node lies on the way. -/
theorem Stands.find?_leaf (hs : Stands ty t s) (hn : Narrow 255 t) (hplug : ctx.plug (leaf l) = t)
    (hchosen : ctx.Chosen (codeSlot key)) :
    t.entries.find? (fun e => e.value = key) = l.entries.find? fun e => e.value = key := by
  obtain ⟨hbefore, hafter⟩ := hs.admits hn hplug hchosen
  have hnone : ctx.entriesBefore.find? (fun e => e.value = key) = none :=
    List.find?_eq_none.mpr fun e he => by simp [(hbefore e he).ne]
  have hnone' : ctx.entriesAfter.find? (fun e => e.value = key) = none :=
    List.find?_eq_none.mpr fun e he => by simp [(hafter e he).ne']
  rw [← hplug, Ctx.entries_plug, entries_leaf, List.find?_append, List.find?_append, hnone, hnone',
    Option.none_or, Option.or_none]

/-- `find` looks the key up in the leaf it descends to. -/
theorem find_spec (hs : Stands ty t s) (hkey : key.HasType ty) (hplug : ctx.plug (leaf l) = t)
    (hfound : findLeaf key s = .ok (pageOf (.leaf l), l.id :: ctx.path) s) :
    ∃ it, find key s = .ok it s ∧
      it.here = (l.entries.find? fun e => e.value = key).map fun e => (e.value, e.rid) := by
  have hwritten := hs.leaf_written hplug
  have hread : readPage l.id s = .ok (pageOf (.leaf l)) s := readPage_written hwritten
  have hasc := hs.leaf_ascending hplug
  have hslot := lowerBoundSlot_ascending (p := pageOf (.leaf l)) hkey hwritten.encodes hasc
  have hsplit := hasc.filter_append (p := fun e => decide (e.value < key))
    fun a b hab hb => decide_eq_true (hab.trans (of_decide_eq_true hb))
  generalize hlo : l.entries.filter (fun e => decide (e.value < key)) = lo at hsplit
  generalize hhi : l.entries.filter (fun e => !decide (e.value < key)) = hi at hsplit
  have hget : (pageOf (.leaf l)).leafEntries[lo.length]? = hi.head? := by
    show l.entries[lo.length]? = _
    rw [← hsplit, List.getElem?_append_right (Nat.le_refl _), Nat.sub_self, List.head?_eq_getElem?]
  rw [hasc.find?_eq, hhi]
  have hfind : find key s = leafFind l.id key true s := by
    rw [find]
    exact bind_ok hfound
  rw [hfind, leafFind, bind_ok hread, hslot]
  have hlolen : ((pageOf (.leaf l)).leafEntries.filter fun e => decide (e.value < key)).length =
      lo.length := congrArg List.length hlo
  rw [hlolen, bind_ok (fromExcept_ok_apply _ _), hget]
  cases hhead : hi with
  | nil => exact ⟨endIterator, rfl, rfl⟩
  | cons e rest =>
    have he : e ∈ l.entries := by
      rw [← hsplit, hhead]
      simp
    have hencodes := hwritten.encodes e he
    have hzero := Value.compare_zero_iff hencodes.hasType hkey
    rw [List.head?_cons]
    show ∃ it, (fromExcept (cmpKeyBytes e key) >>= fun c =>
      if c = 0 then iteratorAt l.id lo.length
      else if (!true && decide (c > 0)) = true then iteratorAt l.id lo.length
      else if true = true then return endIterator
      else iteratorAt l.id lo.length : IndexM NodeMap ConstIterator) s = .ok it s ∧ _
    rw [cmpKeyBytes_encodes hencodes, bind_ok (fromExcept_ok_apply _ _)]
    by_cases heq : e.value = key
    · obtain ⟨it, hit, hon⟩ := iteratorAt_entry hs (leaves_around hplug)
        (show l.entries = lo ++ e :: rest by rw [← hsplit, hhead])
      rw [if_pos (hzero.mpr heq)]
      refine ⟨it, hit, ?_⟩
      rw [hon.here]
      simp [heq]
    · rw [if_neg (mt hzero.mp heq)]
      refine ⟨endIterator, rfl, ?_⟩
      simp [heq, endIterator, ConstIterator.here]

/-- Both bounds: the entries from the leaf's slot on. -/
theorem bound_spec (hs : Stands ty t s) (hplug : ctx.plug (leaf l) = t)
    (right : LeafEntry → Bool) (hdown : ∀ a b : LeafEntry, a.value < b.value → right b = true →
      right a = true) :
    ∃ it, (if (l.entries.filter right).length < l.entries.length then
        iteratorAt l.id (l.entries.filter right).length
        else if l.next ≠ 0 then iteratorAt l.next 0
        else return endIterator : IndexM NodeMap ConstIterator) s = .ok it s ∧
      On t it ((l.entries.filter fun e => !right e) ++ ctx.entriesAfter) :=
  hop_spec hs (leaves_around hplug) ((hs.leaf_ascending hplug).filter_append hdown).symm

theorem lowerBound_spec (hs : Stands ty t s) (hkey : key.HasType ty)
    (hplug : ctx.plug (leaf l) = t)
    (hfound : findLeaf key s = .ok (pageOf (.leaf l), l.id :: ctx.path) s) :
    ∃ it, lowerBound key s = .ok it s ∧
      On t it ((l.entries.filter fun e => !decide (e.value < key)) ++ ctx.entriesAfter) := by
  have hwritten := hs.leaf_written hplug
  have hread : readPage l.id s = .ok (pageOf (.leaf l)) s := readPage_written hwritten
  have hslot := lowerBoundSlot_ascending (p := pageOf (.leaf l)) hkey hwritten.encodes
    (hs.leaf_ascending hplug)
  obtain ⟨it, hit, hon⟩ := bound_spec hs hplug (fun e => decide (e.value < key))
    fun a b hab hb => decide_eq_true (hab.trans (of_decide_eq_true hb))
  refine ⟨it, ?_, hon⟩
  rw [lowerBound, bind_ok hfound]
  show leafLower l.id key s = _
  rw [leafLower, bind_ok hread, hslot, bind_ok (fromExcept_ok_apply _ _)]
  exact hit

theorem upperBound_spec (hs : Stands ty t s) (hkey : key.HasType ty)
    (hplug : ctx.plug (leaf l) = t)
    (hfound : findLeaf key s = .ok (pageOf (.leaf l), l.id :: ctx.path) s) :
    ∃ it, upperBound key s = .ok it s ∧
      On t it ((l.entries.filter fun e => !decide (e.value ≤ key)) ++ ctx.entriesAfter) := by
  have hwritten := hs.leaf_written hplug
  have hslot := upperBoundSlot_ascending (p := pageOf (.leaf l)) hkey hwritten.encodes
    (hs.leaf_ascending hplug)
  obtain ⟨it, hit, hon⟩ := bound_spec hs hplug (fun e => decide (e.value ≤ key))
    fun a b hab hb => decide_eq_true (hab.le.trans (of_decide_eq_true hb))
  refine ⟨it, ?_, hon⟩
  rw [upperBound, bind_ok hfound]
  show (fromExcept (upperBoundSlot (pageOf (.leaf l)) key) >>= fun slot => _) s = _
  rw [hslot, bind_ok (fromExcept_ok_apply _ _)]
  exact hit

/-! ### Exact lookups -/

/-- Every key of the type is found if it is there, and nothing else is. -/
def FindExact (ty : DataType) (entries : List LeafEntry) (s : DiskBspIndex NodeMap) : Prop :=
  ∀ key : Value, key.HasType ty → ∃ it, find key s = .ok it s ∧
    it.here = (entries.find? fun e => e.value = key).map fun e => (e.value, e.rid)

/-- Whether a key is within the bounds that are given. -/
def Within (lo : Option Value) (loInclusive : Bool) (hi : Option Value) (hiInclusive : Bool)
    (v : Value) : Prop :=
  (∀ b ∈ lo, if loInclusive then b ≤ v else b < v) ∧
    ∀ b ∈ hi, if hiInclusive then v ≤ b else v < b

instance (lo : Option Value) (loInclusive : Bool) (hi : Option Value) (hiInclusive : Bool)
    (v : Value) : Decidable (Within lo loInclusive hi hiInclusive v) :=
  inferInstanceAs (Decidable (_ ∧ _))

/-- A table with the index on a column collects what is within the bounds, in the
order of the keys. -/
def RangesExact (ty : DataType) (entries : List LeafEntry) (s : DiskBspIndex NodeMap) : Prop :=
  ∀ (T : OnDisk (DiskBspIndex NodeMap) (Table (DiskBspIndex NodeMap))) (col : Nat)
    (lo hi : Option Value) (loInclusive hiInclusive : Bool), T.obj.indexAt col = some s →
    (∀ b ∈ lo, b.HasType ty) → (∀ b ∈ hi, b.HasType ty) →
    Table.indexCollectRange col lo loInclusive hi hiInclusive T =
      .ok ((entries.filter fun e => Within lo loInclusive hi hiInclusive e.value).map
        (·.rid.toNat)) T

theorem find_exact (hs : Stands ty t s) (hn : Narrow 255 t) : FindExact ty t.entries s := by
  intro key hkey
  obtain ⟨ctx, l, hplug, hchosen, hfound⟩ := findLeaf_spec hs.toStanding.laid hkey
  obtain ⟨it, hit, hhere⟩ := find_spec hs hkey hplug hfound
  exact ⟨it, hit, hhere.trans (by rw [hs.find?_leaf hn hplug hchosen])⟩

theorem filter_around (hplug : ctx.plug (leaf l) = t) (right : LeafEntry → Bool)
    (hbefore : ∀ e ∈ ctx.entriesBefore, right e = true)
    (hafter : ∀ e ∈ ctx.entriesAfter, right e = false) :
    (t.entries.filter fun e => !right e) =
      (l.entries.filter fun e => !right e) ++ ctx.entriesAfter := by
  have hnone : (ctx.entriesBefore.filter fun e => !right e) = [] :=
    List.filter_eq_nil_iff.mpr fun e he => by simp [hbefore e he]
  have hall : (ctx.entriesAfter.filter fun e => !right e) = ctx.entriesAfter :=
    List.filter_eq_self.mpr fun e he => by simp [hafter e he]
  rw [← hplug, Ctx.entries_plug, entries_leaf, List.filter_append, List.filter_append, hnone, hall,
    List.nil_append]

/-- The cursor a range starts from. -/
theorem collectFrom_spec (hs : Stands ty t s) (hn : Narrow 255 t) {lo : Option Value}
    (loInclusive : Bool) (hlo : ∀ b ∈ lo, b.HasType ty) :
    ∃ it : ConstIterator, Table.collectFrom (ι := DiskBspIndex NodeMap) lo loInclusive s =
      .ok it s ∧ On t it (t.entries.filter fun e => Within lo loInclusive none false e.value) := by
  cases lo with
  | none =>
    obtain ⟨it, hit, hon⟩ := begin_spec hs
    refine ⟨it, hit, ?_⟩
    rw [List.filter_eq_self.mpr fun e _ => by simp [Within]]
    exact hon
  | some b =>
    have hb := hlo b rfl
    obtain ⟨ctx, l, hplug, hchosen, hfound⟩ := findLeaf_spec hs.toStanding.laid hb
    obtain ⟨hbefore, hafter⟩ := hs.admits hn hplug hchosen
    cases loInclusive with
    | true =>
      obtain ⟨it, hit, hon⟩ := lowerBound_spec hs hb hplug hfound
      refine ⟨it, hit, ?_⟩
      rw [← filter_around hplug (fun e => decide (e.value < b))
        (fun e he => decide_eq_true (hbefore e he))
        (fun e he => decide_eq_false (hafter e he).not_gt)] at hon
      refine (congrArg (On t it) (List.filter_congr fun e _ => ?_)).mp hon
      rw [← decide_not]
      exact decide_eq_decide.mpr (by simp [Within])
    | false =>
      obtain ⟨it, hit, hon⟩ := upperBound_spec hs hb hplug hfound
      refine ⟨it, hit, ?_⟩
      rw [← filter_around hplug (fun e => decide (e.value ≤ b))
        (fun e he => decide_eq_true (hbefore e he).le)
        (fun e he => decide_eq_false (hafter e he).not_ge)] at hon
      refine (congrArg (On t it) (List.filter_congr fun e _ => ?_)).mp hon
      rw [← decide_not]
      exact decide_eq_decide.mpr (by simp [Within])

theorem pastUpper_typed {hi : Option Value} (hiInclusive : Bool) (hhi : ∀ b ∈ hi, b.HasType ty)
    {v : Value} (hv : v.HasType ty) :
    (!Table.pastUpper hi hiInclusive v) = decide (Within none true hi hiInclusive v) := by
  cases hi with
  | none => simp [Table.pastUpper, Within]
  | some b =>
    have hb := hhi b rfl
    have hvalid := Value.compare_valid hv hb
    have hpos := Value.compare_pos_iff hv hb
    have hneg := Value.compare_nonneg_iff hv hb
    have hpast : Table.pastUpper (some b) hiInclusive v =
        if hiInclusive then decide ((v.compare b).1 > 0) else decide ((v.compare b).1 ≥ 0) := by
      show (!(v.compare b).2 || _) = _
      rw [hvalid]
      rfl
    rw [hpast]
    cases hiInclusive with
    | true =>
      rw [if_pos rfl, ← decide_not]
      exact decide_eq_decide.mpr (by simp [Within, hpos])
    | false =>
      rw [if_neg (by decide), ← decide_not]
      exact decide_eq_decide.mpr (by simp [Within, hneg])

theorem ranges_exact (hs : Stands ty t s) (hn : Narrow 255 t) : RangesExact ty t.entries s := by
  intro T col lo hi loInclusive hiInclusive hindex hlo hhi
  have hdisk : T.obj.indexes col = some s := by
    rw [Table.indexAt] at hindex
    split at hindex
    · split at hindex
      · next disk hdisk =>
        split at hindex
        · rw [hdisk, hindex]
        · cases hindex
      · cases hindex
    · cases hindex
  obtain ⟨it, hit, hon⟩ := collectFrom_spec hs hn loInclusive hlo
  have hfuel : (t.entries.filter fun e => Within lo loInclusive none false e.value).length <
      (s.pager.count + 1) * kPageSize :=
    (List.length_filter_le _ _).trans_lt (entries_length_lt_fuel hs)
  have hcollect := collectLoop_spec hs hi hiInclusive hon hfuel fun e he =>
    pastUpper_typed hiInclusive hhi (hs.encodes e (List.mem_filter.mp he).1).hasType
  have hasc : Ascending LeafEntry.value
      (t.entries.filter fun e => Within lo loInclusive none false e.value) :=
    hs.wellFormed.ascending.filter _
  have htake : ((t.entries.filter fun e => Within lo loInclusive none false e.value).takeWhile
      fun e => Within none true hi hiInclusive e.value) =
      t.entries.filter fun e => Within lo loInclusive hi hiInclusive e.value := by
    rw [hasc.takeWhile_eq_filter, List.filter_filter]
    · refine List.filter_congr fun e _ => ?_
      rw [← Bool.decide_and]
      exact decide_eq_decide.mpr (by simp [Within, and_comm])
    · intro a b hab hb
      have hb' := of_decide_eq_true hb
      refine decide_eq_true ⟨fun u hu => (by cases hu), fun u hu => ?_⟩
      have := hb'.2 u hu
      cases hiInclusive with
      | true => exact hab.le.trans this
      | false => exact hab.trans this
  rw [htake] at hcollect
  rw [Table.indexCollectRange]
  refine (DiskM.getObj_bind_apply _ T).trans ?_
  rw [hindex]
  have hrun : (Table.collectFrom (ι := DiskBspIndex NodeMap) lo loInclusive >>= fun it => do
      let disk ← get
      Table.collectLoop hi hiInclusive (TableIndex.scanFuel disk) it) s = _ :=
    (bind_ok hit).trans hcollect
  show Table.onIndex col s _ T = _
  rw [Table.onIndex, hrun]
  show EStateM.Result.ok _ { T with obj.indexes := Function.update T.obj.indexes col (some s) } = _
  rw [← hdisk, Function.update_eq_self]

/-- Where the index is not narrow, some key is not in the leaf it leads to. -/
theorem Stands.exists_misled (hs : Stands ty t s) (hn : ¬ Narrow 255 t) : ∃ e ∈ t.entries,
    ∀ (ctx : Ctx LeafEntry h 0) (l : Leaf LeafEntry), ctx.plug (leaf l) = t →
      ctx.Chosen (codeSlot e.value) → ∀ x ∈ l.entries, x.value ≠ e.value := by
  have hne : t.entries ≠ [] := by
    intro hnil
    have hzero := hs.wellFormed.empty hnil
    subst hzero
    exact hn (narrow_leaf 255 t)
  have hshort : ∀ (key : Value) (ks : List LeafEntry), 255 < ks.length →
      codeSlot key ks < ks.length := fun key ks hks => codeSlot_lt hks
  obtain ⟨e, he, hmissed⟩ := exists_missed hshort hs.wellFormed.ordered (hs.wellFormed.filled hne)
    hs.wellFormed.ascending hn
  refine ⟨e, he, fun ctx l hplug hchosen x hx hvalue => hmissed ?_⟩
  have hxt : x ∈ t.entries := by
    rw [← hplug, Ctx.entries_plug, entries_leaf]
    simp [hx]
  have hxe := hs.wellFormed.ascending.eq_of_key_eq hxt he hvalue
  rw [← hplug]
  refine ctx.leads_plug hchosen ?_ trivial
  rw [entries_leaf, ← hxe]
  exact hx

/-- Then it is not found. -/
theorem not_find_exact (hs : Stands ty t s) (hn : ¬ Narrow 255 t) :
    ¬ FindExact ty t.entries s := by
  intro hexact
  obtain ⟨e, he, hmisled⟩ := hs.exists_misled hn
  have hkey := (hs.encodes e he).hasType
  obtain ⟨ctx, l, hplug, hchosen, hfound⟩ := findLeaf_spec hs.toStanding.laid hkey
  obtain ⟨it, hit, hhere⟩ := find_spec hs hkey hplug hfound
  obtain ⟨it', hit', hhere'⟩ := hexact e.value hkey
  have hsame : it = it' := by
    rw [hit] at hit'
    cases hit'
    rfl
  have hthere : (t.entries.find? fun x => x.value = e.value).isSome := by
    rw [List.find?_isSome]
    exact ⟨e, he, decide_eq_true rfl⟩
  rw [← hsame, hhere] at hhere'
  have hhere'' := congrArg Option.isSome hhere'
  rw [Option.isSome_map, Option.isSome_map, hthere] at hhere''
  obtain ⟨x, hx, hvalue⟩ := List.find?_isSome.mp hhere''
  exact hmisled ctx l hplug hchosen x hx (of_decide_eq_true hvalue)

theorem findExact_iff (hs : Stands ty t s) : FindExact ty t.entries s ↔ Narrow 255 t := by
  constructor
  · intro hexact
    by_contra hn
    exact not_find_exact hs hn hexact
  · exact find_exact hs

/-- Lookups are exact on exactly the indexes none of whose inner nodes has more than
255 separators. -/
theorem lookups_exact_iff (hs : Stands ty t s) :
    (FindExact ty t.entries s ∧ RangesExact ty t.entries s) ↔ Narrow 255 t := by
  constructor
  · exact fun hexact => (findExact_iff hs).mp hexact.1
  · exact fun hn => ⟨find_exact hs hn, ranges_exact hs hn⟩

end Lookups

/-- The integers from 0 to 215, in two leaves under a root. -/
theorem lookups_exact_twoLeaves : ∃ (s : DiskBspIndex NodeMap) (H : Nat) (t : BPlusTree LeafEntry H),
    bulkBuild .unknown (intEntries 216) (blank NodeMap.empty) = .ok () s ∧
      t.entries = flatOf (intEntries 216) ∧ FindExact .int t.entries s ∧
        RangesExact .int t.entries s := by
  obtain ⟨s, H, t, hbuild, hs, hentries, hnarrow⟩ := bulkBuild_spec
    (intEntries_admissible (n := 216) (by decide)) noBudget
  exact ⟨s, H, t, hbuild, hentries, (lookups_exact_iff hs).mpr (hnarrow.mpr narrowCut_twoLeaves)⟩

/-- Built of the integers from 0 to 54784, an index is well-formed, and lookups in it
are not exact. -/
theorem not_lookups_exact : ∃ (s : DiskBspIndex NodeMap) (H : Nat) (t : BPlusTree LeafEntry H),
    bulkBuild .unknown (intEntries 54785) (blank NodeMap.empty) = .ok () s ∧ Stands .int t s ∧
      ¬ (FindExact .int t.entries s ∧ RangesExact .int t.entries s) := by
  obtain ⟨s, H, t, hbuild, hs, -, hnarrow⟩ := bulkBuild_spec
    (intEntries_admissible (n := 54785) (by omega)) noBudget
  refine ⟨s, H, t, hbuild, hs, fun hexact => ?_⟩
  exact absurd (hnarrow.mp ((findExact_iff hs).mp hexact.1)) not_narrowCut_ints

/-! ### Lookups in what was built -/

/-- The index built of a list: it is well-formed, holds the list, finds exactly its
keys and gives it back in order. -/
def BuiltExactly (ty : DataType) (budget : MemoryBudget) (entries : List (Value × UInt64)) : Prop :=
  ∃ (s : DiskBspIndex NodeMap) (H : Nat) (t : BPlusTree LeafEntry H),
    bulkBuild budget entries (blank NodeMap.empty) = .ok () s ∧ Stands ty t s ∧
      t.entries = flatOf entries ∧ FindExact ty (flatOf entries) s ∧ scan s = .ok entries s

theorem BuiltExactly.narrowCut {entries : List (Value × UInt64)} (h : Admissible ty entries)
    {budget : MemoryBudget} (hbudget : WithinBudget budget entries)
    (hbuilt : BuiltExactly ty budget entries) : NarrowCut (flatOf entries) := by
  obtain ⟨s, H, t, hbuild, hs, hentries, hnarrow⟩ := bulkBuild_spec h hbudget
  obtain ⟨s', H', t', hbuild', -, -, hfind, -⟩ := hbuilt
  have hsame : s = s' := by
    rw [hbuild] at hbuild'
    cases hbuild'
    rfl
  rw [← hsame, ← hentries] at hfind
  exact hnarrow.mp ((findExact_iff hs).mp hfind)

/-- `bulk_build` builds a list's index exactly when the cut of the list into pages is
narrow. -/
theorem bulkBuild_exact_iff {entries : List (Value × UInt64)} (h : Admissible ty entries)
    {budget : MemoryBudget} (hbudget : WithinBudget budget entries) :
    BuiltExactly ty budget entries ↔ NarrowCut (flatOf entries) := by
  refine ⟨BuiltExactly.narrowCut h hbudget, fun hcut => ?_⟩
  obtain ⟨s, H, t, hbuild, hs, hentries, hnarrow⟩ := bulkBuild_spec h hbudget
  refine ⟨s, H, t, hbuild, hs, hentries, ?_, ?_⟩
  · rw [← hentries]
    exact find_exact hs (hnarrow.mpr hcut)
  · rw [scan_spec hs, hentries, h.values]

/-- The integers from 0 to 215, in two leaves under a root. -/
theorem bulkBuild_exact_twoLeaves : BuiltExactly .int (.override 300000) (intEntries 216) :=
  (bulkBuild_exact_iff (intEntries_admissible (by decide)) (fun b hb => by
    cases hb
    decide +kernel)).mpr narrowCut_twoLeaves

/-- The integers from 0 to 54784 are not built exactly. -/
theorem not_bulkBuild_exact : ¬ BuiltExactly .int .unknown (intEntries 54785) := by
  intro hbuilt
  exact absurd (hbuilt.narrowCut (intEntries_admissible (by omega)) noBudget) not_narrowCut_ints

end CwDb.Storage.DiskBspIndex
