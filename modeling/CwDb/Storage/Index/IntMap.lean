import CwDb.Storage.Index.IndexMap
import CwDb.Storage.Index.IntRuns

/-! An index of integers as a finite map.

An index of integers that grew from an empty one and never has more than 18246 entries is
a finite map: every run of calls on it has the answers of the map, exceptions included
(`intIndex_runs`). -/
namespace CwDb.Storage
open Foundation
namespace DiskBspIndex
open BPlusTree

variable {H h : Nat} {s : DiskBspIndex NodeMap} {key : Value} {rid : UInt64}
  {t : BPlusTree LeafEntry H}

/-! ### One call -/

/-- An index of integers that is this map. -/
def Maps (m : List (Value × RecordId)) (s : DiskBspIndex NodeMap) : Prop :=
  ∃ (H : Nat) (t : BPlusTree LeafEntry H), Packed t s ∧ Sorted LeafEntry.value t ∧ pairs t = m ∧
    m.length < 18247

theorem Packed.stands (hs : Packed t s) (hsorted : Sorted LeafEntry.value t) : Stands .int t s :=
  hs.toStored.stands hsorted

/-- What is known of the tree of such an index. -/
theorem Maps.sought {m : List (Value × RecordId)} (hm : Maps m s) (hkey : key.HasType .int) :
    ∃ (H : Nat) (t : BPlusTree LeafEntry H), (Packed t s ∧ Sorted LeafEntry.value t ∧ pairs t = m ∧
      t.entries.length = m.length ∧ m.length < 18247) ∧ ∃ ctx l slot, SoughtExactly t key s ctx l slot := by
  obtain ⟨H, t, hs, hsorted, rfl, hroom⟩ := hm
  have hlength : t.entries.length = (pairs t).length := (List.length_map _).symm
  exact ⟨H, t, ⟨hs, hsorted, rfl, hlength, hroom⟩,
    (hs.stands hsorted).soughtExactly (hs.narrow (by omega)) hkey⟩

theorem Maps.insert_there {m : List (Value × RecordId)} (hm : Maps m s) (hkey : key.HasType .int)
    (hthere : (lookupKey key m).isSome = true) :
    insert key rid s = .error (.runtimeError "Duplicate index key") s := by
  obtain ⟨H, t, ⟨hs, -, rfl, -⟩, ctx, l, slot, hsought⟩ := hm.sought hkey
  exact hsought.toSought.insert_hit hs.toStored hkey (int_size hkey)
    (hsought.hit_iff.mpr (lookup_pairs_isSome.mp hthere))

variable (rid) in
theorem Maps.insert_new {m : List (Value × RecordId)} (hm : Maps m s) (hkey : key.HasType .int)
    (hroom : m.length < 18246) (hmissing : (lookupKey key m).isSome = false) :
    ∃ s', insert key rid s = .ok () s' ∧ Maps (insertEntry key rid.toNat m) s' := by
  obtain ⟨H, t, ⟨hs, hsorted, rfl, hlength, -⟩, ctx, l, slot, hsought⟩ := hm.sought hkey
  have hsize := int_size hkey
  have hsought' := hsought.toSought
  have habsent : ∀ e ∈ t.entries, e.value ≠ key := by
    intro e he hvalue
    have hthere := lookup_pairs_isSome.mpr ⟨e, he, hvalue⟩
    rw [hmissing] at hthere
    cases hthere
  have hmaps : ∀ {h : Nat} {t' : BPlusTree LeafEntry h} {s' : DiskBspIndex NodeMap},
      Packed t' s' → Sorted LeafEntry.value t' →
        t'.entries.Perm (entryOf key rid :: t.entries) →
          Maps (insertEntry key rid.toNat (pairs t)) s' := by
    intro h t' s' hs' hsorted' hperm
    have hpairs := pairs_insert hsorted.ascending hsorted'.ascending hsize hperm habsent
    refine ⟨h, t', hs', hsorted', hpairs, ?_⟩
    rw [← hpairs, pairs, List.length_map, hperm.length_eq, List.length_cons]
    omega
  by_cases hnil : t.entries = []
  · obtain ⟨s', l', hrun, hs', hentries⟩ := insert_empty rid hs.toStored hkey hsize hnil
    refine ⟨s', hrun, hmaps (packed_single hs') ⟨trivial, ?_⟩ (List.Perm.of_eq ?_)⟩
    · rw [entries_leaf, hentries]
      exact List.pairwise_singleton _ _
    · rw [entries_leaf, hentries, hnil]
  · have hmiss : ¬ Hit l slot key := by
      intro hhit
      obtain ⟨e, he, hvalue⟩ := hsought.hit_iff.mp hhit
      exact habsent e he hvalue
    have hspec := hs.insert_miss rid hsought' hkey hnil hmiss
    have hsorted₁ := hsought.with_sorted habsent hsize rid
    obtain ⟨rfl, -, -, -, hle⟩ := hsought'
    obtain ⟨u, s', hrun, h, t', hs', hreforms⟩ := hspec.ok (hs.takes_room hkey hle (by omega) _)
    exact ⟨s', hrun, hmaps hs' (hreforms.sorted hsorted₁).1
      (hreforms.perm.trans (plug_withEntryAt_perm hle))⟩

theorem Maps.erase {m : List (Value × RecordId)} (hm : Maps m s) (hkey : key.HasType .int) :
    ∃ s', erase key s = .ok (lookupKey key m).isSome s' ∧ Maps (eraseKey key m) s' := by
  obtain ⟨H, t, ⟨hs, hsorted, rfl, hlength, hroom⟩, ctx, l, slot, hsought⟩ := hm.sought hkey
  have hsize := int_size hkey
  have hsought' := hsought.toSought
  by_cases hhit : Hit l slot key
  · rw [lookup_pairs_isSome.mpr (hsought.hit_iff.mp hhit)]
    have hsorted₁ := hsought.without_sorted
    have hspec := hs.erase_hit hsought' hkey hhit
    have htrue : ∀ gone s', DiskBspIndex.erase key s = .ok gone s' → gone = true :=
      fun gone s' => hsought'.erased_true hs.toStored hkey hsize hhit
    obtain ⟨rfl, -⟩ := hsought'
    obtain ⟨e, he, hvalue⟩ := hhit
    obtain ⟨gone, s', hrun, h, t', hs', hreforms⟩ := hspec.ok (hs.releases_room he (by omega) _)
    have hperm : (ctx.plug (leaf l)).entries.Perm (e :: t'.entries) :=
      (plug_withoutEntry_perm ctx he).trans (hreforms.perm.symm.cons e)
    have hsorted' := (hreforms.sorted hsorted₁).1
    have hpairs := pairs_erase hsorted.ascending hsorted'.ascending hperm
    rw [hvalue] at hpairs
    refine ⟨s', ?_, h, t', hs', hsorted', hpairs, (List.length_filter_le _ _).trans_lt hroom⟩
    rw [hrun, htrue gone s' hrun]
  · have hnone : (lookupKey key (pairs t)).isSome = false := by
      rw [← Bool.not_eq_true, lookup_pairs_isSome]
      exact fun hthere => hhit (hsought.hit_iff.mpr hthere)
    rw [hnone]
    refine ⟨s, hsought'.erase_miss hs.toStored hkey hsize hhit, H, t, hs, hsorted, ?_, ?_⟩
    · exact (erase_pairs_absent fun hthere => hhit (hsought.hit_iff.mpr hthere)).symm
    · exact (List.length_filter_le _ _).trans_lt hroom

/-! ### Runs -/

/-- A finite map from integers to record ids of at most 18246 pairs. -/
def intMap : Spec IndexCall (List (Value × RecordId)) (Except Exn IndexAnswer) where
  Allowed
    | .insert key id, m => key.HasType .int ∧ id < 2 ^ 64 ∧
      ((lookupKey key m).isSome = true ∨ m.length < 18246)
    | .erase key, _ => key.HasType .int
    | .find key, _ => key.HasType .int
    | .collect lo _ hi _, _ => (∀ b ∈ lo, b.HasType .int) ∧ ∀ b ∈ hi, b.HasType .int
  after := mapAfter
  answer := mapAnswer

/-- A call on the index has the answer of the map. -/
theorem simulates_intMap : Simulates Maps (fun c : IndexCall => attempt c.run) intMap := by
  intro c m s hm hallowed
  cases c with
  | insert key id =>
    obtain ⟨hkey, hid, hroom⟩ := hallowed
    have hrid : (UInt64.ofNat id).toNat = id := UInt64.toNat_ofNat_of_lt' hid
    show ∃ s', attempt (insert key (UInt64.ofNat id) >>= fun _ => pure IndexAnswer.done) s =
      .ok (if (lookupKey key m).isSome then _ else _) s' ∧
        Maps (if (lookupKey key m).isSome then m else insertEntry key id m) s'
    cases hthere : (lookupKey key m).isSome with
    | true =>
      rw [if_pos rfl, if_pos rfl]
      exact ⟨s, attempt_error (bind_error (hm.insert_there hkey hthere)), hm⟩
    | false =>
      rw [if_neg Bool.false_ne_true, if_neg Bool.false_ne_true]
      obtain ⟨s', hrun, hm'⟩ := hm.insert_new (UInt64.ofNat id) hkey
        (hroom.resolve_left (by rw [hthere]; exact Bool.false_ne_true)) hthere
      rw [hrid] at hm'
      exact ⟨s', attempt_ok (bind_ok hrun), hm'⟩
  | erase key =>
    obtain ⟨s', hrun, hm'⟩ := hm.erase hallowed
    exact ⟨s', attempt_ok (bind_ok hrun), hm'⟩
  | find key =>
    obtain ⟨H, t, ⟨hs, hsorted, rfl, hlength, hroom⟩, -⟩ := hm.sought hallowed
    exact ⟨s, attempt_ok (find_pairs (hs.stands hsorted) (hs.narrow (by omega)) hallowed), hm⟩
  | collect lo loInclusive hi hiInclusive =>
    obtain ⟨hlo, hhi⟩ := hallowed
    obtain ⟨H, t, hs, hsorted, rfl, hroom⟩ := hm
    have hlength : t.entries.length = (pairs t).length := (List.length_map _).symm
    exact ⟨s, attempt_ok (collect_pairs (hs.stands hsorted) (hs.narrow (by omega)) loInclusive
      hiInclusive hlo hhi), H, t, hs, hsorted, rfl, hroom⟩

theorem createEmpty_maps : ∃ s : DiskBspIndex NodeMap,
    createEmpty (blank NodeMap.empty) = .ok () s ∧ Maps [] s := by
  obtain ⟨s, l, hrun, hs, hnil⟩ := createEmpty_spec .int
  have hentries : (leaf l).entries = [] := by rw [entries_leaf, hnil]
  refine ⟨s, hrun, 0, leaf l, packed_single hs, ⟨trivial, ?_⟩, ?_, by decide⟩
  · rw [hentries]
    exact List.Pairwise.nil
  · rw [pairs, hentries]
    rfl

/-- A run of calls on a new index has the answers of the map, and ends in an index as
large as it. -/
theorem intIndex_runs {calls : List IndexCall} (hallowed : intMap.AllowedRun calls []) :
    ∃ s₀ s : DiskBspIndex NodeMap, createEmpty (blank NodeMap.empty) = .ok () s₀ ∧
      runCalls (fun c : IndexCall => attempt c.run) calls s₀ = .ok (intMap.answers calls []) s ∧
        s.size = (intMap.afterRun calls []).length := by
  obtain ⟨s₀, hcreate, hmaps⟩ := createEmpty_maps
  obtain ⟨s, hrun, H, t, hs, -, hpairs, -⟩ := simulates_intMap.run calls [] s₀ hmaps hallowed
  refine ⟨s₀, s, hcreate, hrun, ?_⟩
  rw [← hpairs, hs.size, pairs, List.length_map]

theorem intIndex_runs_two : ∃ s₀ s : DiskBspIndex NodeMap,
    createEmpty (blank NodeMap.empty) = .ok () s₀ ∧
      runCalls (fun c : IndexCall => attempt c.run)
        [.insert (.int 2) 2, .insert (.int 1) 1, .find (.int 2), .erase (.int 3)] s₀ =
          .ok [.ok .done, .ok .done, .ok (.found (some (.int 2, 2))), .ok (.erased false)] s ∧
        s.size = 2 :=
  intIndex_runs ⟨⟨by decide, by decide, .inr (by decide)⟩, ⟨by decide, by decide, .inr (by decide)⟩,
    show Value.HasType .int (.int 2) by decide, show Value.HasType .int (.int 3) by decide, trivial⟩

end DiskBspIndex
end CwDb.Storage
