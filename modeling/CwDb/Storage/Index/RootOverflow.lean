import CwDb.Storage.Index.Insertion

/-! An inner root that overflows.

Without siblings an inner node is to be cut into halves under a new root. The code
asks for the smallest key below the right half before it has written that half: the
page it reads is one it just allocated, all zeros, and the split throws. So no index
of this code grows by a level above an inner root. -/
namespace CwDb.Storage.DiskBspIndex
open Foundation BPlusTree

variable {ty : DataType} {k : Nat}

/-- A subtree whose root, held in memory, overflows: its children are written pages, in
order, its separators their minima, and each half by child count fits a page. -/
structure OverflowingRoot (ty : DataType) (id : PageId) (cs : List (BPlusTree LeafEntry k))
    (p : ParsedPage) (s : DiskBspIndex NodeMap) : Prop where
  root : s.rootPage = id
  pos : 0 < id
  lt : id < s.pager.count
  nodup : (above id cs).ids.Nodup
  ordered : Ordered LeafEntry.value (above id cs)
  ascending : Ascending LeafEntry.value (above id cs).entries
  children : ∀ c ∈ cs, Planted ty c s.pager
  shows : Shows p (above id cs).rootRecord
  overflows : ¬ Fits (above id cs)
  leftHalf : Fits (above id (cs.take (cs.length / 2)))
  rightHalf : Fits (above s.pager.count (cs.drop (cs.length / 2)))

/-- The tree has a new root over two inner nodes, which share out the children in order
and have their minima for separators; between the two is the smallest key on the right. -/
def GrownByOne (ty : DataType) (cs : List (BPlusTree LeafEntry k)) (s : DiskBspIndex NodeMap) :
    Prop :=
  ∃ (m i j : PageId) (left right : List (BPlusTree LeafEntry k)), left ++ right = cs ∧
    s.rootPage = m ∧ Planted ty (above m [above i left, above j right]) s.pager

/-- The split of an overflowing inner root throws. -/
theorem splitInternal_root {id : PageId} {cs : List (BPlusTree LeafEntry k)} {p : ParsedPage}
    {s : DiskBspIndex NodeMap} (h : OverflowingRoot ty id cs p s) : ∃ s',
    splitInternal [id] p s = .error (.runtimeError "Corrupt index page") s' := by
  have hne : cs ≠ [] := fun hnil => h.overflows (fits_of_length_le (by simp [hnil]))
  obtain ⟨s', hthrow⟩ : ∃ s', splitInternalHalves (fun _ => return) p [id] s =
      .error (.runtimeError "Corrupt index page") s' :=
    splitInternalHalves_throws ((Nat.zero_le _).trans_lt h.lt) h.children h.shows.heads hne
  refine ⟨s', ?_⟩
  rw [splitInternal, hthrow]
  intro _ _ _ hpath
  cases hpath

/-- An overflowing inner root is never split: the tree does not grow. -/
theorem splitInternal_never_grows {id : PageId} {cs : List (BPlusTree LeafEntry k)}
    {p : ParsedPage} {s : DiskBspIndex NodeMap} (h : OverflowingRoot ty id cs p s) :
    ¬ ∃ s', splitInternal [id] p s = .ok () s' ∧ GrownByOne ty cs s' := by
  rintro ⟨s', hok, -⟩
  obtain ⟨s'', hthrow⟩ := splitInternal_root h
  rw [hok] at hthrow
  cases hthrow

/-! ### Nine leaves of one long key each -/

section NineLeaves

/-- Keys of 507 characters. -/
def longKey (i : Nat) : Value := .str (List.replicate 507 (UInt8.ofNat (97 + i)))

def longLeaf (i : Nat) : Leaf LeafEntry :=
  { id := i + 1, next := if i < 8 then i + 2 else 0, entries := [entryOf (longKey i) 0] }

def nineLeaves : List (Leaf LeafEntry) := (List.range 9).map longLeaf

/-- The leaves in their pages; page 10 is the root's. -/
def nineLeavesIndex : DiskBspIndex NodeMap :=
  putNodes { pager := ⟨fun _ => none, 11⟩, rootPage := 10, firstLeafPage := 1, size := 9 }
    (nineLeaves.map .leaf)

theorem longKey_size (i : Nat) : encodedValueSize (longKey i) ≤ kMaxIndexKeyBytes := by
  rw [longKey, encodedValueSize, List.length_replicate]
  decide

theorem longLeaf_encodes (i : Nat) : ∀ e ∈ (longLeaf i).entries, e.Encodes .str := by
  intro e he
  rw [List.mem_singleton.mp he]
  exact entryOf_encodes 0 ⟨rfl, rfl⟩ (longKey_size i)

theorem mem_nineLeaves {l : Leaf LeafEntry} (h : l ∈ nineLeaves) : ∃ i < 9, l = longLeaf i := by
  obtain ⟨i, hi, rfl⟩ := List.mem_map.mp h
  exact ⟨i, List.mem_range.mp hi, rfl⟩

theorem nineLeaves_planted : ∀ c ∈ leavesAt nineLeaves, Planted .str c nineLeavesIndex.pager := by
  intro c hc
  obtain ⟨l, hl, rfl⟩ := List.mem_map.mp hc
  obtain ⟨i, hi, rfl⟩ := mem_nineLeaves hl
  have hwritten : Written .str nineLeavesIndex.pager (.leaf (longLeaf i)) := by
    refine written_putNodes_mem (List.mem_map_of_mem hl) ?_ (Nat.succ_pos i) ?_ (longLeaf_encodes i)
    · intro r hr hid
      obtain ⟨l', hl', rfl⟩ := List.mem_map.mp hr
      obtain ⟨j, -, rfl⟩ := mem_nineLeaves hl'
      have hij : j + 1 = i + 1 := hid
      rw [Nat.succ.inj hij]
    · exact fits_one (longLeaf_encodes i _ (List.mem_singleton_self _))
  refine ⟨?_, ?_, trivial, ?_⟩
  · intro r hr
    rw [Multiset.mem_singleton.mp hr]
    exact hwritten
  · rw [ids_leaf]
    exact Multiset.nodup_singleton _
  · intro l' hl'
    rw [List.mem_singleton.mp hl']
    exact List.cons_ne_nil _ _

theorem nineLeaves_ascending : Ascending LeafEntry.value (entriesOf (leavesAt nineLeaves)) := by
  have hentries : entriesOf (leavesAt nineLeaves) = (List.range 9).map fun i => entryOf (longKey i) 0 := by
    rw [entriesOf_leaves]
    rfl
  have hkeys : ∀ i < 9, ∀ j < 9, i < j → longKey i < longKey j := by decide +kernel
  rw [hentries]
  refine List.pairwise_map.mpr (List.Pairwise.imp_of_mem ?_ List.pairwise_lt_range)
  intro i j hi hj hij
  rw [entryOf_value 0 (longKey_size i), entryOf_value 0 (longKey_size j)]
  exact hkeys i (List.mem_range.mp hi) j (List.mem_range.mp hj) hij

theorem nineLeaves_overflow : OverflowingRoot .str 10 (leavesAt nineLeaves)
    (pageOf (above 10 (leavesAt nineLeaves)).rootRecord) nineLeavesIndex where
  root := rfl
  pos := by decide
  lt := by decide +kernel
  nodup := by
    rw [ids_node, idsOf_leaves]
    decide +kernel
  ordered := by
    refine ordered_node.mpr ⟨separated_minima (by decide) nineLeaves_ascending ?_, ?_⟩
    · intro c hc
      exact (nineLeaves_planted c hc).entries_ne_nil
    · intro c hc
      obtain ⟨l, -, rfl⟩ := List.mem_map.mp hc
      trivial
  ascending := by
    rw [entries_node]
    exact nineLeaves_ascending
  children := nineLeaves_planted
  shows := shows_pageOf _
  overflows := by decide +kernel
  leftHalf := by decide +kernel
  rightHalf := by decide +kernel

/-- The root over the nine leaves is not split. -/
theorem splitInternal_never_grows_nineLeaves : ¬ ∃ s',
    splitInternal [10] (pageOf (above 10 (leavesAt nineLeaves)).rootRecord) nineLeavesIndex =
      .ok () s' ∧ GrownByOne .str (leavesAt nineLeaves) s' :=
  splitInternal_never_grows nineLeaves_overflow

/-- Not every overflowing inner root is split. -/
theorem not_splitInternal_grows : ¬ ∀ (ty : DataType) (k : Nat) (id : PageId)
    (cs : List (BPlusTree LeafEntry k)) (p : ParsedPage) (s : DiskBspIndex NodeMap),
    OverflowingRoot ty id cs p s → ∃ s', splitInternal [id] p s = .ok () s' ∧ GrownByOne ty cs s' := by
  intro hall
  obtain ⟨s', hok, -⟩ := hall _ _ _ _ _ _ nineLeaves_overflow
  obtain ⟨s'', hthrow⟩ := splitInternal_root nineLeaves_overflow
  rw [hok] at hthrow
  cases hthrow

end NineLeaves

end CwDb.Storage.DiskBspIndex
