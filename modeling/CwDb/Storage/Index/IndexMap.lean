import CwDb.Storage.Index.Runs
import CwDb.Storage.IndexCalls

/-! An index as a finite map.

The pairs of a tree in order are a sorted list, and an insertion or an erasure does to it
what it does to a finite map (`pairs_insert`, `pairs_erase`). As long as no node has more
separators than one byte counts, every call that returns has the answer of the map
(`Stands.call_exact`). -/
namespace CwDb.Storage
open Foundation

namespace DiskBspIndex
open BPlusTree

variable {ty : DataType} {H h : Nat} {l : Leaf LeafEntry} {slot : Nat} {s s' : DiskBspIndex NodeMap}
  {key : Value} {rid : UInt64} {t : BPlusTree LeafEntry H} {t' : BPlusTree LeafEntry h}

/-! ### Pairs -/

/-- What the index maps to what. -/
def pairs (t : BPlusTree LeafEntry H) : List (Value × RecordId) :=
  t.entries.map fun e => (e.value, e.rid.toNat)

theorem mem_pairs {p : Value × RecordId} :
    p ∈ pairs t ↔ ∃ e ∈ t.entries, (e.value, e.rid.toNat) = p := List.mem_map

theorem pairs_sorted (hasc : Ascending LeafEntry.value t.entries) : SortedKeys (pairs t) :=
  List.pairwise_map.mpr hasc

theorem lookup_pairs : lookupKey key (pairs t) =
    (t.entries.find? fun e => decide (e.value = key)).map (·.rid.toNat) := by
  rw [lookupKey, pairs, List.find?_map, Option.map_map]
  refine congrArg (Option.map _) (congrArg (fun p => List.find? p t.entries) (funext fun e => ?_))
  exact decide_eq_decide.mpr Iff.rfl

theorem lookup_pairs_isSome : (lookupKey key (pairs t)).isSome = true ↔
    ∃ e ∈ t.entries, e.value = key := by
  rw [lookupKey, Option.isSome_map, List.find?_isSome]
  constructor
  · intro hthere
    obtain ⟨p, hp, hkey⟩ := hthere
    obtain ⟨e, he, rfl⟩ := mem_pairs.mp hp
    exact ⟨e, he, by simpa using hkey⟩
  · intro hthere
    obtain ⟨e, he, hkey⟩ := hthere
    exact ⟨_, mem_pairs.mpr ⟨e, he, rfl⟩, by simpa using hkey⟩

theorem pairs_insert (hasc : Ascending LeafEntry.value t.entries)
    (hasc' : Ascending LeafEntry.value t'.entries)
    (hlength : encodedValueSize key ≤ kMaxIndexKeyBytes)
    (hperm : t'.entries.Perm (entryOf key rid :: t.entries))
    (habsent : ∀ e ∈ t.entries, e.value ≠ key) :
    pairs t' = insertEntry key rid.toNat (pairs t) := by
  refine SortedKeys.ext (pairs_sorted hasc') ((pairs_sorted hasc).insertEntry _ _) fun p => ?_
  have hnew : ((entryOf key rid).value, (entryOf key rid).rid.toNat) = (key, rid.toNat) := by
    rw [entryOf_value rid hlength]
    rfl
  rw [mem_insertEntry_of_absent, mem_pairs, mem_pairs]
  · simp only [hperm.mem_iff, List.mem_cons, exists_eq_or_imp, hnew, eq_comm (a := p)]
  · intro p hp
    obtain ⟨e, he, rfl⟩ := mem_pairs.mp hp
    exact habsent e he

theorem pairs_erase (hasc : Ascending LeafEntry.value t.entries)
    (hasc' : Ascending LeafEntry.value t'.entries) {e : LeafEntry}
    (hperm : t.entries.Perm (e :: t'.entries)) : pairs t' = eraseKey e.value (pairs t) := by
  refine SortedKeys.ext (pairs_sorted hasc') ((pairs_sorted hasc).eraseKey _) fun p => ?_
  have hnodup : (e :: t'.entries).Nodup :=
    hperm.nodup_iff.mp (hasc.imp fun hab heq => absurd (heq ▸ hab) (lt_irrefl _))
  rw [mem_eraseKey, mem_pairs, mem_pairs]
  constructor
  · intro hp
    obtain ⟨x, hx, rfl⟩ := hp
    have hx' : x ∈ t.entries := hperm.mem_iff.mpr (List.mem_cons_of_mem _ hx)
    refine ⟨⟨x, hx', rfl⟩, fun hsame => ?_⟩
    have he : e ∈ t.entries := hperm.mem_iff.mpr List.mem_cons_self
    have hxe := hasc.eq_of_key_eq hx' he hsame
    exact (List.nodup_cons.mp hnodup).1 (hxe ▸ hx)
  · intro hp
    obtain ⟨⟨x, hx, rfl⟩, hne⟩ := hp
    rcases List.mem_cons.mp (hperm.mem_iff.mp hx) with rfl | hx
    · exact absurd rfl hne
    · exact ⟨x, hx, rfl⟩

theorem erase_pairs_absent (habsent : ¬ ∃ e ∈ t.entries, e.value = key) :
    eraseKey key (pairs t) = pairs t := by
  refine List.filter_eq_self.mpr fun p hp => ?_
  obtain ⟨e, he, rfl⟩ := mem_pairs.mp hp
  simpa using fun hvalue => habsent ⟨e, he, hvalue⟩

/-! ### Where a key is looked for -/

/-- In an index in order a key is where it is looked for or nowhere, and the order
survives an entry put there or taken away. -/
structure SoughtExactly (t : BPlusTree LeafEntry H) (key : Value) (s : DiskBspIndex NodeMap)
    (ctx : Ctx LeafEntry H 0) (l : Leaf LeafEntry) (slot : Nat) : Prop extends
    Sought t key s ctx l slot where
  hit_iff : Hit l slot key ↔ ∃ e ∈ t.entries, e.value = key
  with_sorted : (∀ e ∈ t.entries, e.value ≠ key) → encodedValueSize key ≤ kMaxIndexKeyBytes →
    ∀ rid, Sorted LeafEntry.value (ctx.plug (leaf (withEntryAt slot (entryOf key rid) l)))
  without_sorted : Sorted LeafEntry.value (ctx.plug (leaf (withoutEntry slot l)))

theorem Stands.soughtExactly (hs : Stands ty t s) (hn : Narrow 255 t) (hkey : key.HasType ty) :
    ∃ ctx l slot, SoughtExactly t key s ctx l slot := by
  obtain ⟨ctx, l, rfl, hchosen, hfound⟩ := findLeaf_spec hs.toStanding.laid hkey
  have hbound := lowerBoundSlot_ascending (p := pageOf (.leaf l)) hkey (hs.leaf_written rfl).encodes
    (hs.leaf_ascending rfl)
  have hmem : ∀ e ∈ l.entries, e ∈ (ctx.plug (leaf l)).entries := by
    intro e he
    rw [Ctx.entries_plug, entries_leaf]
    simp [he]
  refine ⟨ctx, l, _, ⟨rfl, hchosen, hfound, hbound, List.length_filter_le _ _⟩, ⟨fun hhit => ?_,
    fun hthere => ?_⟩, fun habsent hlength rid => ?_, withoutEntry_sorted hs.toStanding.wellFormed.sorted⟩
  · obtain ⟨e, he, hvalue⟩ := hhit
    exact ⟨e, hmem e (List.mem_of_getElem? he), hvalue⟩
  · obtain ⟨e, he, hvalue⟩ := hthere
    exact hs.slot_of_mem hn rfl hchosen he hvalue
  · exact withEntryAt_sorted hs hn hlength (fun e he => habsent e (hmem e he)) hchosen

/-! ### Lookups -/

theorem find_pairs (hs : Stands ty t s) (hn : Narrow 255 t) (hkey : key.HasType ty) :
    (IndexCall.find key).run s = .ok (.found ((lookupKey key (pairs t)).map fun id => (key, id))) s := by
  obtain ⟨it, hit, hhere⟩ := find_exact hs hn key hkey
  refine (bind_ok hit).trans ?_
  show EStateM.Result.ok (IndexAnswer.found (it.here.map fun e => (e.1, e.2.toNat))) s = _
  rw [hhere, lookup_pairs, Option.map_map, Option.map_map]
  cases hfound : t.entries.find? fun e => decide (e.value = key) with
  | none => rfl
  | some e =>
    have hvalue : e.value = key := by simpa using List.find?_some hfound
    rw [Option.map_some, Option.map_some, ← hvalue]
    rfl

/-- A range over the index alone: that of a table with the index on its only column. -/
theorem collect_pairs (hs : Stands ty t s) (hn : Narrow 255 t) {lo hi : Option Value}
    (loInclusive hiInclusive : Bool) (hlo : ∀ b ∈ lo, b.HasType ty) (hhi : ∀ b ∈ hi, b.HasType ty) :
    (IndexCall.collect lo loInclusive hi hiInclusive).run s =
      .ok (.ids (((pairs t).filter fun e => Within lo loInclusive hi hiInclusive e.1).map Prod.snd)) s := by
  let T : OnDisk (DiskBspIndex NodeMap) (Table (DiskBspIndex NodeMap)) :=
    { obj := { schema := { columns := [{ indexed := true }] }, indexes := fun _ => some s }
      fs := default }
  have hranges := ranges_exact hs hn T 0 lo hi loInclusive hiInclusive rfl hlo hhi
  have hids : (t.entries.filter fun e => Within lo loInclusive hi hiInclusive e.value).map
      (·.rid.toNat) = ((pairs t).filter fun e => Within lo loInclusive hi hiInclusive e.1).map
        Prod.snd := by
    rw [pairs, List.filter_map, List.map_map]
    rfl
  rw [hids, Table.indexCollectRange] at hranges
  have honIndex : Table.onIndex 0 s (collectIds lo loInclusive hi hiInclusive) T = _ := hranges
  rw [Table.onIndex] at honIndex
  cases hrun : collectIds lo loInclusive hi hiInclusive s with
  | error e s' =>
    rw [hrun] at honIndex
    cases honIndex
  | ok ids s' =>
    rw [hrun] at honIndex
    injection honIndex with hids hstate
    have hsame : s' = s := by
      have hindex := congrFun (congrArg (fun T => T.obj.indexes) hstate) 0
      dsimp only at hindex
      rw [Function.update_self] at hindex
      exact Option.some.inj hindex
    refine (bind_ok hrun).trans ?_
    rw [hids, hsame]
    rfl

/-! ### The map -/

/-- A finite map after a call. An insertion of a key that is there is refused. -/
def mapAfter : IndexCall → List (Value × RecordId) → List (Value × RecordId)
  | .insert key id, m => if (lookupKey key m).isSome then m else insertEntry key id m
  | .erase key, m => eraseKey key m
  | .find _, m => m
  | .collect _ _ _ _, m => m

def mapAnswer : IndexCall → List (Value × RecordId) → Except Exn IndexAnswer
  | .insert key _, m => if (lookupKey key m).isSome then
      .error (.runtimeError "Duplicate index key") else .ok .done
  | .erase key, m => .ok (.erased (lookupKey key m).isSome)
  | .find key, m => .ok (.found ((lookupKey key m).map fun id => (key, id)))
  | .collect lo loInclusive hi hiInclusive, m =>
    .ok (.ids ((m.filter fun e => Within lo loInclusive hi hiInclusive e.1).map Prod.snd))

/-- A call with keys of a type that an index of it takes. -/
def Typed (ty : DataType) : IndexCall → Prop
  | .insert key id => key.HasType ty ∧ encodedValueSize key ≤ kMaxIndexKeyBytes ∧ id < 2 ^ 64
  | .erase key => key.HasType ty ∧ encodedValueSize key ≤ kMaxIndexKeyBytes
  | .find key => key.HasType ty
  | .collect lo _ hi _ => (∀ b ∈ lo, b.HasType ty) ∧ ∀ b ∈ hi, b.HasType ty

theorem Stands.insert_returned (hs : Stands ty t s) (hn : Narrow 255 t) (hkey : key.HasType ty)
    (hlength : encodedValueSize key ≤ kMaxIndexKeyBytes) (hrun : insert key rid s = .ok () s') :
    (lookupKey key (pairs t)).isSome = false ∧ ∃ (h : Nat) (t' : BPlusTree LeafEntry h),
      Stands ty t' s' ∧ pairs t' = insertEntry key rid.toNat (pairs t) := by
  obtain ⟨ctx, l, slot, hsought⟩ := hs.soughtExactly hn hkey
  have hsought' := hsought.toSought
  have hmiss : ¬ Hit l slot key := by
    intro hhit
    rw [hsought'.insert_hit hs.stored hkey hlength hhit] at hrun
    cases hrun
  have habsent : ∀ e ∈ t.entries, e.value ≠ key := by
    intro e he hvalue
    exact hmiss (hsought.hit_iff.mpr ⟨e, he, hvalue⟩)
  have hnone : (lookupKey key (pairs t)).isSome = false := by
    rw [← Bool.not_eq_true, lookup_pairs_isSome]
    exact fun hthere => hmiss (hsought.hit_iff.mpr hthere)
  have hstands : ∀ {h : Nat} {t' : BPlusTree LeafEntry h}, Stored ty t' s' →
      Sorted LeafEntry.value t' → t'.entries.Perm (entryOf key rid :: t.entries) →
        ∃ (h : Nat) (t' : BPlusTree LeafEntry h), Stands ty t' s' ∧
          pairs t' = insertEntry key rid.toNat (pairs t) := by
    intro h t' hs' hsorted' hperm
    exact ⟨h, t', hs'.stands hsorted',
      pairs_insert hs.wellFormed.ascending hsorted'.ascending hlength hperm habsent⟩
  refine ⟨hnone, ?_⟩
  by_cases hnil : t.entries = []
  · obtain ⟨s₁, l', hrun', hs', hentries⟩ := insert_empty rid hs.stored hkey hlength hnil
    rw [hrun] at hrun'
    cases hrun'
    refine hstands hs' ⟨trivial, ?_⟩ (List.Perm.of_eq ?_)
    · rw [entries_leaf, hentries]
      exact List.pairwise_singleton _ _
    · rw [entries_leaf, hentries, hnil]
  · have hspec := hsought'.insert_miss rid hs.stored hkey hlength hnil hmiss
    rw [hrun] at hspec
    have hsorted := hsought.with_sorted habsent hlength rid
    obtain ⟨rfl, -, -, -, hle⟩ := hsought'
    obtain ⟨-, h, t', -, hs', -, hreforms⟩ := hspec
    exact hstands hs' (hreforms.sorted hsorted).1 (hreforms.perm.trans (plug_withEntryAt_perm hle))

theorem Stands.erase_returned (hs : Stands ty t s) (hn : Narrow 255 t) (hkey : key.HasType ty)
    (hlength : encodedValueSize key ≤ kMaxIndexKeyBytes) {there : Bool}
    (hrun : erase key s = .ok there s') :
    there = (lookupKey key (pairs t)).isSome ∧ ∃ (h : Nat) (t' : BPlusTree LeafEntry h),
      Stands ty t' s' ∧ pairs t' = eraseKey key (pairs t) := by
  obtain ⟨ctx, l, slot, hsought⟩ := hs.soughtExactly hn hkey
  have hsought' := hsought.toSought
  by_cases hhit : Hit l slot key
  · refine ⟨?_, ?_⟩
    · rw [hsought'.erased_true hs.stored hkey hlength hhit hrun]
      exact (lookup_pairs_isSome.mpr (hsought.hit_iff.mp hhit)).symm
    · have hsorted := hsought.without_sorted
      have hspec := hsought'.erase_hit hs.stored hkey hlength hhit
      rw [hrun] at hspec
      obtain ⟨rfl, -⟩ := hsought'
      obtain ⟨e, he, rfl⟩ := hhit
      obtain ⟨-, h, t', hs', -, hreforms, -⟩ := hspec
      have hsorted' := (hreforms.sorted hsorted).1
      exact ⟨h, t', hs'.stands hsorted', pairs_erase hs.wellFormed.ascending hsorted'.ascending
        ((plug_withoutEntry_perm ctx he).trans (hreforms.perm.symm.cons e))⟩
  · rw [hsought'.erase_miss hs.stored hkey hlength hhit] at hrun
    cases hrun
    have habsent : ¬ ∃ e ∈ t.entries, e.value = key := fun hthere => hhit (hsought.hit_iff.mpr hthere)
    refine ⟨?_, H, t, hs, (erase_pairs_absent habsent).symm⟩
    rw [eq_comm, ← Bool.not_eq_true, lookup_pairs_isSome]
    exact habsent

/-- A call that returns has the answer of the map, and does to the index what it does to
the map. -/
theorem Stands.call_exact (hs : Stands ty t s) (hn : Narrow 255 t) {c : IndexCall} (hc : Typed ty c)
    {a : IndexAnswer} (hrun : c.run s = .ok a s') :
    mapAnswer c (pairs t) = .ok a ∧ ∃ (h : Nat) (t' : BPlusTree LeafEntry h),
      Stands ty t' s' ∧ pairs t' = mapAfter c (pairs t) := by
  cases c with
  | insert key id =>
    obtain ⟨hkey, hlength, hid⟩ := hc
    obtain ⟨u, s₁, hinsert, hpure⟩ := bind_eq_ok.mp hrun
    rw [pure_apply] at hpure
    cases hpure
    have hrid : (UInt64.ofNat id).toNat = id := UInt64.toNat_ofNat_of_lt' hid
    obtain ⟨hnone, h, t', hs', hpairs⟩ := hs.insert_returned hn hkey hlength hinsert
    rw [mapAnswer, mapAfter, hnone, if_neg Bool.false_ne_true, if_neg Bool.false_ne_true]
    rw [hrid] at hpairs
    exact ⟨rfl, h, t', hs', hpairs⟩
  | erase key =>
    obtain ⟨there, s₁, herase, hpure⟩ := bind_eq_ok.mp hrun
    rw [pure_apply] at hpure
    cases hpure
    obtain ⟨rfl, htree⟩ := hs.erase_returned hn hc.1 hc.2 herase
    exact ⟨rfl, htree⟩
  | find key =>
    rw [find_pairs hs hn hc] at hrun
    cases hrun
    exact ⟨rfl, H, t, hs, rfl⟩
  | collect lo loInclusive hi hiInclusive =>
    rw [collect_pairs hs hn loInclusive hiInclusive hc.1 hc.2] at hrun
    cases hrun
    exact ⟨rfl, H, t, hs, rfl⟩

/-! ### Every update -/

/-- Insertions and erasures that return do to a well-formed index what they do to the map,
and leave it well-formed. -/
structure UpdatesExact (ty : DataType) (t : BPlusTree LeafEntry H) (s : DiskBspIndex NodeMap) :
    Prop where
  insert : ∀ (key : Value) (rid : UInt64) (s' : DiskBspIndex NodeMap), key.HasType ty →
    encodedValueSize key ≤ kMaxIndexKeyBytes → insert key rid s = .ok () s' →
    (lookupKey key (pairs t)).isSome = false ∧ ∃ (h : Nat) (t' : BPlusTree LeafEntry h),
      Stands ty t' s' ∧ pairs t' = insertEntry key rid.toNat (pairs t)
  erase : ∀ (key : Value) (there : Bool) (s' : DiskBspIndex NodeMap), key.HasType ty →
    encodedValueSize key ≤ kMaxIndexKeyBytes → erase key s = .ok there s' →
    there = (lookupKey key (pairs t)).isSome ∧ ∃ (h : Nat) (t' : BPlusTree LeafEntry h),
      Stands ty t' s' ∧ pairs t' = eraseKey key (pairs t)

/-- A key that is not in the leaf it leads to is not erased. -/
theorem Stands.erase_misled (hs : Stands ty t s) {e : LeafEntry} (he : e ∈ t.entries)
    (hmisled : ∀ (ctx : Ctx LeafEntry H 0) (l : Leaf LeafEntry), ctx.plug (leaf l) = t →
      ctx.Chosen (codeSlot e.value) → ∀ x ∈ l.entries, x.value ≠ e.value) :
    erase e.value s = .ok false s := by
  have hencodes := hs.encodes e he
  obtain ⟨ctx, l, slot, hsought⟩ := hs.stored.sought hencodes.hasType
  apply hsought.erase_miss hs.stored hencodes.hasType hencodes.size_le
  intro hhit
  obtain ⟨x, hx, hvalue⟩ := hhit
  exact hmisled ctx l hsought.plug hsought.chosen x (List.mem_of_getElem? hx) hvalue

/-- Updates are exact on exactly the indexes none of whose inner nodes has more than 255
separators. -/
theorem updates_exact_iff (hs : Stands ty t s) : UpdatesExact ty t s ↔ Narrow 255 t := by
  constructor
  · intro hexact
    by_contra hn
    obtain ⟨e, he, hmisled⟩ := hs.exists_misled hn
    have hencodes := hs.encodes e he
    have hkept := hs.erase_misled he hmisled
    obtain ⟨hthere, -⟩ := hexact.erase e.value false s hencodes.hasType hencodes.size_le hkept
    rw [lookup_pairs_isSome.mpr ⟨e, he, rfl⟩] at hthere
    cases hthere
  · intro hn
    exact ⟨fun _ _ _ hkey hlength hrun => hs.insert_returned hn hkey hlength hrun,
      fun _ _ _ hkey hlength hrun => hs.erase_returned hn hkey hlength hrun⟩

/-- The integers from 0 to 215, in two leaves under a root. -/
theorem updates_exact_twoLeaves : ∃ (s : DiskBspIndex NodeMap) (H : Nat) (t : BPlusTree LeafEntry H),
    bulkBuild .unknown (intEntries 216) (blank NodeMap.empty) = .ok () s ∧
      t.entries = flatOf (intEntries 216) ∧ UpdatesExact .int t s := by
  obtain ⟨s, H, t, hbuild, hs, hentries, hnarrow⟩ := bulkBuild_spec
    (intEntries_admissible (n := 216) (by decide)) noBudget
  exact ⟨s, H, t, hbuild, hentries, (updates_exact_iff hs).mpr (hnarrow.mpr narrowCut_twoLeaves)⟩

/-- Built of the integers from 0 to 54784, an index is well-formed, and some integer that it
holds is not erased from it. -/
theorem not_updates_exact : ∃ (s : DiskBspIndex NodeMap) (H : Nat) (t : BPlusTree LeafEntry H),
    bulkBuild .unknown (intEntries 54785) (blank NodeMap.empty) = .ok () s ∧ Stands .int t s ∧
      (∃ e ∈ t.entries, erase e.value s = .ok false s) ∧ ¬ UpdatesExact .int t s := by
  obtain ⟨s, H, t, hbuild, hs, -, hnarrow⟩ := bulkBuild_spec
    (intEntries_admissible (n := 54785) (by omega)) noBudget
  obtain ⟨e, he, hmisled⟩ := hs.exists_misled fun hn => not_narrowCut_ints (hnarrow.mp hn)
  have hkept := hs.erase_misled he hmisled
  have hencodes := hs.encodes e he
  refine ⟨s, H, t, hbuild, hs, ⟨e, he, hkept⟩, fun hexact => ?_⟩
  obtain ⟨hthere, -⟩ := hexact.erase e.value false s hencodes.hasType hencodes.size_le hkept
  rw [lookup_pairs_isSome.mpr ⟨e, he, rfl⟩] at hthere
  cases hthere

end DiskBspIndex
end CwDb.Storage
