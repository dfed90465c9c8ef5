import CwDb.Storage.Index.PageFile
import CwDb.Storage.Index.IndexMap

/-! Runs of an index over its page file.

Where every node written is one that its page keeps, no page is wider than one byte counts,
and the calls of a run are those of a finite map over the nodes (`loggedRun_exact`) and so
over the pages (`pagedRun_exact`). -/
namespace CwDb.Storage
open Foundation

namespace DiskBspIndex
open BPlusTree

variable {ty : DataType} {H : Nat} {t : BPlusTree LeafEntry H} {n : NodeMap}

/-! ### Narrow pages -/

/-- No page has more separators than one byte counts. -/
def NarrowPages (s : NodeMap) : Prop :=
  ∀ (id : PageId) (p : ParsedPage), s.pages id = some p → p.innerKeys.length ≤ 255

theorem NarrowPages.put {s : NodeMap} (h : NarrowPages s) (id : PageId) {page : Option ParsedPage}
    (hpage : ∀ p ∈ page, p.innerKeys.length ≤ 255) : NarrowPages (s.put id page) := by
  intro i p hp
  by_cases hi : i = id
  · rw [hi, NodeMap.put_pages_self] at hp
    exact hpage p hp
  · rw [NodeMap.put_pages_ne _ _ hi] at hp
    exact h i p hp

theorem Stands.narrow_of_pages {s : DiskBspIndex NodeMap} (hs : Stands ty t s) (h : NarrowPages s.pager) : Narrow 255 t := by
  intro id ks cs hr
  have hle : (ks.map LeafEntry.asSeparator).length ≤ 255 := h id _ (hs.written _ hr).page
  rwa [List.length_map] at hle

theorem narrow_of_onNodes {α : Type} {x : EStateM Exn NodeMap α} (hx : Keeps NarrowPages x) :
    Follows NodeLog.Spoilt (fun s u => s.nodes = u ∧ NarrowPages u) (NodeLog.onNodes x) x := by
  refine ⟨NodeLog.keeps_spoilt_onNodes x, fun s u h => .inr ?_⟩
  obtain ⟨rfl, hnarrow⟩ := h
  have hkept := hx _ hnarrow
  unfold NodeLog.onNodes
  cases hrun : x s.nodes with
  | ok a u =>
    rw [hrun] at hkept
    exact .ok a ⟨rfl, hkept⟩
  | error e u =>
    rw [hrun] at hkept
    exact .error e ⟨rfl, hkept⟩

theorem NarrowPages.putNone {s : NodeMap} (h : NarrowPages s) (id : PageId) :
    NarrowPages (s.put id none) := h.put id fun _ hp => by cases hp

theorem narrow_readPage (id : PageId) : Keeps NarrowPages (NodeMap.readPage id) := by
  intro s h
  rwa [NodeMap.stateOf_readPage id s]

theorem narrow_allocate : Keeps NarrowPages NodeMap.allocateNodePage := by
  intro s h
  unfold NodeMap.allocateNodePage
  split
  · exact (h.putNone 0).putNone _
  · exact h.putNone _

theorem stored_narrow {p : ParsedPage} (h : p.count ≤ 255) : p.stored.innerKeys.length ≤ 255 := by
  unfold ParsedPage.count at h
  unfold ParsedPage.stored
  split
  · exact Nat.zero_le _
  · rename_i ht
    rw [if_neg ht] at h
    rwa [List.length_map]

theorem narrow_writePage (p : ParsedPage) :
    Follows NodeLog.Spoilt (fun s u => s.nodes = u ∧ NarrowPages u) (NodeLog.writePage p)
      (NodeMap.writePage p) := by
  refine ⟨NodeLog.keeps_spoilt_writePage p, fun s u h => ?_⟩
  obtain ⟨rfl, hnarrow⟩ := h
  cases hfits : NodeMap.overflows p with
  | true =>
    have hrun : NodeMap.writePage p s.nodes = .error (NodeLog.overflowError p) s.nodes := if_pos hfits
    rw [NodeLog.writePage_overflows hfits, hrun]
    exact .inr (.error _ ⟨rfl, hnarrow⟩)
  | false =>
    have hrun : NodeMap.writePage p s.nodes = .ok () (s.nodes.put p.pageId (some p.stored)) :=
      if_neg (by rw [hfits]; exact Bool.false_ne_true)
    rw [NodeLog.writePage_fits hfits, hrun]
    by_cases hkept : Writing.Kept ⟨p, s.nodes.count⟩
    · refine .inr (.ok () ⟨rfl, hnarrow.put _ fun q hq => ?_⟩)
      cases hq
      exact stored_narrow hkept.count
    · exact .inl ⟨_, List.mem_cons_self, hkept⟩

/-- The nodes stay narrow until one is written that no page keeps. -/
def narrowFollowing : Following NodeLog NodeMap where
  Lost := NodeLog.Spoilt
  Rel s u := s.nodes = u ∧ NarrowPages u
  nonempty := ⟨NodeMap.empty⟩
  readPage id := narrow_of_onNodes (narrow_readPage id)
  writePage := narrow_writePage
  allocateNodePage := narrow_of_onNodes narrow_allocate
  reservePage := narrow_of_onNodes fun _ h => h.putNone 0
  writeSuperblock _ _ _ := narrow_of_onNodes fun _ h => h.putNone 0
  flush := narrow_of_onNodes fun _ h => h
  pageCount _ _ h := congrArg NodeMap.count h.1

/-! ### Runs over the nodes -/

/-- The map gives the same answers, one after the other, and is this one then. -/
def MapRun : List (Value × RecordId) → List (IndexCall × IndexAnswer) → List (Value × RecordId) → Prop
  | m, [], m' => m' = m
  | m, (c, a) :: rest, m' => mapAnswer c m = .ok a ∧ MapRun (mapAfter c m) rest m'

section Logged
variable {L L' : DiskBspIndex NodeLog}

/-- The index of the nodes alone. -/
def nodesOf (L : DiskBspIndex NodeLog) : DiskBspIndex NodeMap := L.withNodes L.pager.nodes

/-- A call that returns, with nothing written that no page keeps, is that of the map. -/
theorem logged_call (hs : Stands ty t (nodesOf L)) (hn : NarrowPages L.pager.nodes) {c : IndexCall}
    (hc : Typed ty c) {a : IndexAnswer} (hrun : c.run L = .ok a L') (hkept : ¬ L'.pager.Spoilt) :
    mapAnswer c (pairs t) = .ok a ∧ NarrowPages L'.pager.nodes ∧
      ∃ (h : Nat) (t' : BPlusTree LeafEntry h),
        Stands ty t' (nodesOf L') ∧ pairs t' = mapAfter c (pairs t) := by
  have hfollows := (Mirrors.call narrowFollowing c).agree L (nodesOf L) ⟨⟨rfl, hn⟩, rfl, rfl, rfl⟩
  rw [hrun] at hfollows
  obtain ⟨s', hs', hrel⟩ := (hfollows.resolve_left hkept).to_ok
  obtain ⟨⟨hnodes, hnarrow⟩, hroot, hfirst, hsize⟩ := hrel
  have hsame : s' = nodesOf L' := by
    obtain ⟨pager, root, first, size⟩ := s'
    dsimp only at hnodes hroot hfirst hsize
    rw [nodesOf, withNodes, hnodes, hroot, hfirst, hsize]
  subst hsame
  obtain ⟨hanswer, htree⟩ := hs.call_exact (hs.narrow_of_pages hn) hc hs'
  exact ⟨hanswer, hnarrow, htree⟩

/-- Call by call, and so in every run. -/
theorem loggedRun_exact {calls : List IndexCall} (hs : Stands ty t (nodesOf L))
    (hn : NarrowPages L.pager.nodes) (htyped : ∀ c ∈ calls, Typed ty c) {answers : List IndexAnswer}
    (hrun : runCalls IndexCall.run calls L = .ok answers L') (hkept : ¬ L'.pager.Spoilt) :
    NarrowPages L'.pager.nodes ∧ ∃ (h : Nat) (t' : BPlusTree LeafEntry h),
      Stands ty t' (nodesOf L') ∧ MapRun (pairs t) (calls.zip answers) (pairs t') := by
  induction calls generalizing H t L answers with
  | nil =>
    cases hrun
    exact ⟨hn, H, t, hs, rfl⟩
  | cons c cs ih =>
    obtain ⟨hc, hcs⟩ := List.forall_mem_cons.mp htyped
    obtain ⟨a, L₁, hcall, hrun⟩ := bind_eq_ok.mp hrun
    obtain ⟨as, L₂, hrest, hpure⟩ := bind_eq_ok.mp hrun
    cases hpure
    have hkept₁ : ¬ L₁.pager.Spoilt := by
      intro hspoilt
      have hend := (Follows.runCalls (fun c => Mirrors.call pagedFollowing c) cs).keeps L₁ hspoilt
      rw [hrest] at hend
      exact hkept hend
    obtain ⟨hanswer, hnarrow, h₁, t₁, hs₁, hpairs⟩ := logged_call hs hn hc hcall hkept₁
    obtain ⟨hnarrow', h', t', hs', hmap⟩ := ih hs₁ hnarrow hcs hrest
    refine ⟨hnarrow', h', t', hs', hanswer, ?_⟩
    rwa [← hpairs]

end Logged

/-! ### Runs over the pages -/

/-- A run over a page file whose pages are a tree in order: calls that return, and write no
node that its page does not keep, have the answers of a finite map and leave the pages of a
tree of what is left of the map. -/
theorem pagedRun_exact {d : DiskBspIndex Pager} (h : Pager.HoldsNodes n d.pager)
    (hs : Stands ty t (d.withNodes n)) (hn : NarrowPages n) {calls : List IndexCall}
    (htyped : ∀ c ∈ calls, Typed ty c) {answers : List IndexAnswer} {L : DiskBspIndex NodeLog}
    (hlog : runCalls IndexCall.run calls (d.logged n) = .ok answers L)
    (hkept : ∀ w ∈ L.pager.written, w.Kept) :
    ∃ d', runCalls IndexCall.run calls d = .ok answers d' ∧
      ∃ (n' : NodeMap) (h' : Nat) (t' : BPlusTree LeafEntry h'), Pager.HoldsNodes n' d'.pager ∧
        Stands ty t' (d'.withNodes n') ∧ NarrowPages n' ∧
          MapRun (pairs t) (calls.zip answers) (pairs t') := by
  have hunspoilt : ¬ L.pager.Spoilt := by
    intro hspoilt
    obtain ⟨w, hw, hbad⟩ := hspoilt
    exact hbad (hkept w hw)
  obtain ⟨hnarrow, h', t', hs', hmap⟩ := loggedRun_exact (L := d.logged n) hs hn htyped hlog hunspoilt
  have hpaged := (Follows.runCalls (fun c => Mirrors.call pagedFollowing c) calls).agree
    (d.logged n) d ⟨h, rfl, rfl, rfl⟩
  rw [hlog] at hpaged
  obtain ⟨d', hd', hnodes, hroot, hfirst, hsize⟩ := (hpaged.resolve_left hunspoilt).to_ok
  have hover : d'.withNodes L.pager.nodes = nodesOf L := by
    rw [withNodes, nodesOf, withNodes, hroot, hfirst, hsize]
  exact ⟨d', hd', L.pager.nodes, h', t', hnodes, hover ▸ hs', hnarrow, hmap⟩

/-! ### A new file and two calls -/

/-- A new index, with a log. -/
def newLog : DiskBspIndex NodeLog := stateOf (createEmpty (blank NodeLog.empty))

/-- The index after an insertion, and a lookup of the key. -/
def filledLog : DiskBspIndex NodeLog :=
  stateOf (runCalls IndexCall.run [.insert (.int 7) 5, .find (.int 7)]
    (newLog.logged newLog.pager.nodes))

/-- A leaf of at most one entry is kept. -/
theorem leaf_kept {es : List LeafEntry} (hes : ∀ e ∈ es, e.Sized) (hlength : es.length ≤ 1) :
    Writing.Kept ⟨{ pageId := 1, type := .leaf, nextLeaf := 0, leafEntries := es }, 2⟩ where
  proper :=
    { kind := .inl rfl
      leafKeys := fun _ => hes
      separators := fun h => by cases h
      fanout := fun h => by cases h
      next_lt := Nat.two_pow_pos 32
      children_lt := fun _ hc => absurd hc List.not_mem_nil }
  count := hlength.trans (by decide)
  inFile := Nat.one_lt_two

/-- An index over a new page file finds the key it was given. -/
theorem pagedRun_exact_new : ∃ (p : Pager) (d d' : DiskBspIndex Pager),
    Pager.opened none true = .ok p ∧ createEmpty (blank p) = .ok () d ∧
      runCalls IndexCall.run [.insert (.int 7) 5, .find (.int 7)] d =
        .ok [.done, .found (some (.int 7, 5))] d' := by
  have hsizes : ∀ page ∈ ([] : List Bytes), page.length = kPageSize := fun _ hp => by cases hp
  obtain ⟨p, hopen, hp, -⟩ := Pager.openFile_represents hsizes none true rfl (s := {}) rfl
  have hnodes : Pager.HoldsNodes NodeMap.empty p := ⟨[], hp, rfl, fun _ _ hid => by cases hid⟩
  have hcreate := (Mirrors.createEmpty pagedFollowing).agree (blank NodeLog.empty) (blank p)
    ⟨hnodes, rfl, rfl, rfl⟩
  rw [show createEmpty (blank NodeLog.empty) = .ok () newLog from rfl] at hcreate
  have hunspoilt : ¬ newLog.pager.Spoilt := by
    rintro ⟨w, hw, hbad⟩
    obtain rfl := List.mem_singleton.mp hw
    exact hbad (leaf_kept (fun _ he => by cases he) (Nat.zero_le 1))
  obtain ⟨d, hd, hrel⟩ := (hcreate.resolve_left hunspoilt).to_ok
  obtain ⟨s₀, l, hspec, hs, hnil⟩ := createEmpty_spec .int
  have hplain : createEmpty (blank NodeMap.empty) = .ok () (nodesOf newLog) := rfl
  rw [hplain] at hspec
  injection hspec with _ hsame
  subst hsame
  have hsorted : Sorted LeafEntry.value (leaf l) := ⟨trivial, by rw [entries_leaf, hnil]; exact .nil⟩
  have hover : d.withNodes newLog.pager.nodes = nodesOf newLog := by
    rw [withNodes, ← hrel.rootPage, ← hrel.firstLeafPage, ← hrel.size]
    rfl
  have hnarrow : NarrowPages newLog.pager.nodes := by
    have hempty : NarrowPages NodeMap.empty := fun _ _ hp => by cases hp
    refine (((hempty.putNone 0).putNone 1).put 1 fun q hq => ?_).putNone 0
    cases hq
    exact Nat.zero_le 255
  have hlogged : d.logged newLog.pager.nodes = newLog.logged newLog.pager.nodes := by
    rw [logged, logged, ← hrel.rootPage, ← hrel.firstLeafPage, ← hrel.size]
  have htyped : ∀ c ∈ [IndexCall.insert (.int 7) 5, .find (.int 7)], Typed .int c := by
    intro c hc
    rcases List.mem_pair.mp hc with rfl | rfl
    · exact ⟨by decide, by decide, by decide⟩
    · exact (by decide : Value.HasType .int (.int 7))
  have hlog : runCalls IndexCall.run [.insert (.int 7) 5, .find (.int 7)]
      (newLog.logged newLog.pager.nodes) = .ok [.done, .found (some (.int 7, 5))] filledLog := rfl
  have hkept : ∀ w ∈ filledLog.pager.written, w.Kept := by
    intro w hw
    obtain rfl := List.mem_singleton.mp hw
    apply leaf_kept
    · intro e he
      obtain rfl := List.mem_singleton.mp he
      exact ⟨by decide, by decide⟩
    · exact Nat.le_refl 1
  obtain ⟨d', hrun, -⟩ := pagedRun_exact hrel.pager (hover ▸ hs.stands hsorted) hnarrow htyped
    (hlogged ▸ hlog) hkept
  exact ⟨p, d, d', by rw [Pager.opened, hopen], hd, hrun⟩

end DiskBspIndex
end CwDb.Storage
