import CwDb.Foundation.BPlusTree

/-! Changing a B+-tree in one place.

Some neighbouring children of a node are replaced by others that hold the same
entries and take the same place in the leaf chain (`Replaces`), and the node gets
its separators from its children. The tree keeps its entries, its chain and its
order, whatever is around the node. -/
namespace Foundation.BPlusTree

variable {ε : Type} {H k : Nat}

/-- The ids of neighbouring trees. -/
abbrev idsOf (cs : List (BPlusTree ε k)) : Multiset Nat := (recordsOf cs).map NodeRecord.id

theorem mem_idsOf {cs : List (BPlusTree ε k)} {r : NodeRecord ε} (hr : r ∈ recordsOf cs) :
    r.id ∈ idsOf cs := Multiset.mem_map_of_mem _ hr

theorem idsOf_append (cs ds : List (BPlusTree ε k)) : idsOf (cs ++ ds) = idsOf cs + idsOf ds := by
  rw [idsOf, recordsOf_append, Multiset.map_add]

theorem idsOf_cons (c : BPlusTree ε k) (cs : List (BPlusTree ε k)) :
    idsOf (c :: cs) = c.ids + idsOf cs := by
  rw [idsOf, recordsOf_cons, Multiset.map_add]
  rfl

theorem ids_node (id : Nat) (ks : List ε) (cs : List (BPlusTree ε k)) :
    (node id ks cs).ids = id ::ₘ idsOf cs := by
  rw [ids, records_node, Multiset.map_cons]
  rfl

@[simp] theorem ids_leaf (l : Leaf ε) : (leaf l).ids = {l.id} := rfl

/-- The nodes below the root. -/
def below : {h : Nat} → BPlusTree ε h → Multiset (NodeRecord ε)
  | 0, _ => 0
  | _ + 1, t => recordsOf (Inner.children t)

theorem records_eq (t : BPlusTree ε k) : t.records = t.rootRecord ::ₘ t.below := by
  cases k with
  | zero => rfl
  | succ k => rfl

@[simp] theorem below_leaf (l : Leaf ε) : (leaf l).below = 0 := rfl
@[simp] theorem below_node (id : Nat) (ks : List ε) (cs : List (BPlusTree ε k)) :
    (node id ks cs).below = recordsOf cs := rfl

theorem mem_leaves : ∀ {h : Nat} {t : BPlusTree ε h} {l : Leaf ε}, .leaf l ∈ t.records →
    l ∈ t.leaves
  | 0, t, l, hl => by
    cases Multiset.mem_singleton.mp hl
    exact List.mem_singleton_self _
  | h + 1, t, l, hl => by
    rw [eq_node t, records_node] at hl
    rcases Multiset.mem_cons.mp hl with hl | hl
    · cases hl
    · obtain ⟨c, hc, hl⟩ := mem_recordsOf.mp hl
      exact List.mem_flatMap.mpr ⟨c, hc, mem_leaves hl⟩

theorem mem_ids {t : BPlusTree ε k} {r : NodeRecord ε} (hr : r ∈ t.records) : r.id ∈ t.ids :=
  Multiset.mem_map_of_mem _ hr

theorem leaf_id_mem_ids {t : BPlusTree ε k} {l : Leaf ε} (hl : l ∈ t.leaves) : l.id ∈ t.ids :=
  mem_ids (leaf_mem_records hl)

namespace Ctx

/-- The ids around the hole. -/
def ids (ctx : Ctx ε H k) : Multiset Nat := (ctx.records 0).map NodeRecord.id

theorem map_id_records (ctx : Ctx ε H k) (hole : Nat) :
    (ctx.records hole).map NodeRecord.id = ctx.ids := by
  cases ctx with
  | top =>
    rw [ids, records, records]
  | frame id keys left right up =>
    rw [ids, records, records, Multiset.map_cons, Multiset.map_cons]
    rfl

theorem ids_plug (ctx : Ctx ε H k) (t : BPlusTree ε k) : (ctx.plug t).ids = ctx.ids + t.ids := by
  rw [BPlusTree.ids, records_plug, Multiset.map_add, map_id_records]
  rfl

theorem records_around {ctx : Ctx ε H k} {t : BPlusTree ε k} {r : NodeRecord ε}
    (hr : r ∈ ctx.records t.rootId) : r ∈ (ctx.plug t).records := by
  rw [records_plug]
  exact Multiset.mem_add.mpr (.inl hr)

theorem records_hole {ctx : Ctx ε H k} {t : BPlusTree ε k} {r : NodeRecord ε}
    (hr : r ∈ t.records) : r ∈ (ctx.plug t).records := by
  rw [records_plug]
  exact Multiset.mem_add.mpr (.inr hr)

theorem leaves_hole {ctx : Ctx ε H k} {t : BPlusTree ε k} {l : Leaf ε} (hl : l ∈ t.leaves) :
    l ∈ (ctx.plug t).leaves := by
  rw [leaves_plug]
  simp [hl]

end Ctx

/-! ### The leaf chain -/

/-- The links only depend on the ids. -/
theorem links_congr {ls ms : List (Leaf ε)} (h : ls.map Leaf.id = ms.map Leaf.id)
    (hnext : ls.map Leaf.next = ms.map Leaf.next) {start stop : Nat} :
    Links start ls stop ↔ Links start ms stop := by
  induction ls generalizing ms start with
  | nil =>
    cases ms with
    | nil => exact Iff.rfl
    | cons m ms => cases h
  | cons l ls ih =>
    cases ms with
    | nil => cases h
    | cons m ms =>
      have hid := List.cons.inj h
      have hnext' := List.cons.inj hnext
      show start = l.id ∧ Links l.next ls stop ↔ start = m.id ∧ Links m.next ms stop
      rw [hid.1, hnext'.1, ih hid.2 hnext'.2]

/-- Leaves that can stand in a chain where others stood. -/
def Relinks (ls ms : List (Leaf ε)) : Prop :=
  ∀ start stop : Nat, Links start ls stop → Links start ms stop

theorem Relinks.around {ls ms : List (Leaf ε)} (h : Relinks ls ms) (before after : List (Leaf ε)) :
    Relinks (before ++ ls ++ after) (before ++ ms ++ after) := by
  intro start stop hlinks
  obtain ⟨b, hfirst, hafter⟩ := links_append.mp hlinks
  obtain ⟨a, hbefore, hls⟩ := links_append.mp hfirst
  exact links_append.mpr ⟨b, links_append.mpr ⟨a, hbefore, h a b hls⟩, hafter⟩

/-! ### Levels of a tree -/

/-- Neighbouring leaves, as trees. -/
abbrev leavesAt (ls : List (Leaf ε)) : List (BPlusTree ε 0) := ls.map leaf

/-- The children of neighbouring nodes. -/
abbrev childrenOf (cs : List (BPlusTree ε (k + 1))) : List (BPlusTree ε k) := cs.flatMap children

theorem leavesOf_leaves (ls : List (Leaf ε)) : leavesOf (leavesAt ls) = ls := by
  rw [leavesOf, List.flatMap_map]
  exact List.flatMap_singleton' ls

/-- A leaf each. -/
theorem length_leavesOf (cs : List (BPlusTree ε 0)) : (leavesOf cs).length = cs.length := by
  induction cs with
  | nil => rfl
  | cons c cs ih =>
    rw [leavesOf, List.flatMap_cons, List.length_append]
    show 1 + (leavesOf cs).length = _
    rw [ih, List.length_cons, Nat.add_comm]

theorem entriesOf_leaves (ls : List (Leaf ε)) :
    entriesOf (leavesAt ls) = ls.flatMap Leaf.entries := by
  rw [entriesOf_eq, leavesOf_leaves]

theorem recordsOf_leaves (ls : List (Leaf ε)) :
    recordsOf (leavesAt ls) = ((ls.map NodeRecord.leaf : List (NodeRecord ε)) : Multiset _) := by
  induction ls with
  | nil => rfl
  | cons l ls ih =>
    rw [leavesAt, List.map_cons, recordsOf_cons, ih]
    rfl

theorem idsOf_leaves (ls : List (Leaf ε)) :
    idsOf (leavesAt ls) = ((ls.map Leaf.id : List Nat) : Multiset Nat) := by
  rw [idsOf, recordsOf_leaves, Multiset.map_coe, List.map_map]
  rfl

theorem leavesOf_children (cs : List (BPlusTree ε (k + 1))) :
    leavesOf (childrenOf cs) = leavesOf cs := by
  rw [leavesOf, List.flatMap_assoc]
  rfl

theorem entriesOf_children (cs : List (BPlusTree ε (k + 1))) :
    entriesOf (childrenOf cs) = entriesOf cs := by
  rw [entriesOf_eq, leavesOf_children, ← entriesOf_eq]

theorem recordsOf_nodes (cs : List (BPlusTree ε (k + 1))) : recordsOf cs =
    ((cs.map rootRecord : List (NodeRecord ε)) : Multiset _) + recordsOf (childrenOf cs) := by
  induction cs with
  | nil => rfl
  | cons c cs ih =>
    have hchildren : childrenOf (c :: cs) = c.children ++ childrenOf cs := rfl
    have hbelow : c.below = recordsOf c.children := rfl
    rw [recordsOf_cons, ih, records_eq c, hbelow, List.map_cons, ← Multiset.cons_coe, hchildren,
      recordsOf_append, Multiset.cons_add, Multiset.cons_add, add_left_comm]

theorem idsOf_nodes (cs : List (BPlusTree ε (k + 1))) : idsOf cs =
    ((cs.map rootId : List Nat) : Multiset Nat) + idsOf (childrenOf cs) := by
  rw [idsOf, recordsOf_nodes, Multiset.map_add, Multiset.map_coe, List.map_map]
  rw [show (cs.map (NodeRecord.id ∘ rootRecord)) = cs.map rootId from
    List.map_congr_left fun c _ => rootRecord_id c]

/-- The leaves of a tree, those below one node made of three runs. -/
def Ctx.leavesWith (up : Ctx ε H 1) (left right : List (BPlusTree ε 0)) (ls : List (Leaf ε)) :
    List (Leaf ε) :=
  up.leavesBefore ++ (leavesOf left ++ ls ++ leavesOf right) ++ up.leavesAfter

theorem Ctx.leaves_plug_leaves (up : Ctx ε H 1) (id : Nat) (ks : List ε)
    (left right : List (BPlusTree ε 0)) (ls : List (Leaf ε)) :
    (up.plug (node id ks (left ++ leavesAt ls ++ right))).leaves = up.leavesWith left right ls := by
  rw [leaves_plug, leaves_node, leavesOf_append, leavesOf_append, leavesOf_leaves, leavesWith]

theorem leafRecords_le : ∀ {h : Nat} (t : BPlusTree ε h),
    ((t.leaves.map NodeRecord.leaf : List (NodeRecord ε)) : Multiset _) ≤ t.records
  | 0, t => le_of_eq rfl
  | h + 1, t => by
    rw [eq_node t, records_node, leaves_node]
    refine le_trans ?_ (Multiset.le_cons_self _ _)
    generalize t.children = cs
    induction cs with
    | nil => exact le_of_eq rfl
    | cons c cs ih =>
      rw [leavesOf, List.flatMap_cons, List.map_append, ← Multiset.coe_add, recordsOf_cons]
      exact add_le_add (leafRecords_le c) ih

theorem leafIds_nodup {t : BPlusTree ε k} (h : t.ids.Nodup) : (t.leaves.map Leaf.id).Nodup := by
  have hle := Multiset.map_le_map (f := NodeRecord.id) (leafRecords_le t)
  rw [Multiset.map_coe, List.map_map] at hle
  exact Multiset.coe_nodup.mp (Multiset.nodup_of_le hle h)

/-- Only the first leaf is where the chain starts. -/
theorem links_start_ne {start stop : Nat} {front back : List (Leaf ε)} {b : Leaf ε}
    (h : Links start (front ++ b :: back) stop) (hne : front ≠ [])
    (hnodup : ((front ++ b :: back).map Leaf.id).Nodup) : start ≠ b.id := by
  cases front with
  | nil => exact absurd rfl hne
  | cons a front =>
    rw [List.cons_append, List.map_cons, List.nodup_cons] at hnodup
    rw [h.1]
    exact fun heq => hnodup.1 (heq ▸ List.mem_map_of_mem (by simp))

/-! ### Children in the place of others -/

/-- The trees `ys` can take the place of `xs`: the same entries, and leaves that can be
linked there. -/
structure Replaces (xs ys : List (BPlusTree ε k)) : Prop where
  entries : entriesOf ys = entriesOf xs
  links : Relinks (leavesOf xs) (leavesOf ys)

theorem replaces_nodes {cs ds : List (BPlusTree ε (k + 1))} (h : childrenOf ds = childrenOf cs) :
    Replaces cs ds where
  entries := by rw [← entriesOf_children, h, entriesOf_children]
  links := by
    rw [← leavesOf_children, ← leavesOf_children ds, h]
    exact fun start stop h => h

theorem relinks_of_eq {ls ms : List (Leaf ε)} (hid : ls.map Leaf.id = ms.map Leaf.id)
    (hnext : ls.map Leaf.next = ms.map Leaf.next) : Relinks ls ms :=
  fun _ _ => (links_congr hid hnext).mp

/-- A node over children, their minima its separators. -/
abbrev above [Inhabited ε] (id : Nat) (cs : List (BPlusTree ε k)) : BPlusTree ε (k + 1) :=
  node id (minima cs) cs

/-! ### Shape and order

What a change keeps whatever the keys are, and what it keeps when they are in order. -/

/-- Every inner node has one child more than it has separators. -/
def Jointed : {h : Nat} → BPlusTree ε h → Prop
  | 0, _ => True
  | _ + 1, t => t.keys.length + 1 = t.children.length ∧ ∀ c ∈ t.children, Jointed c

theorem jointed_node {id : Nat} {ks : List ε} {cs : List (BPlusTree ε k)} :
    Jointed (node id ks cs) ↔ ks.length + 1 = cs.length ∧ ∀ c ∈ cs, Jointed c := Iff.rfl

theorem jointed_above [Inhabited ε] {id : Nat} {cs : List (BPlusTree ε k)} (hne : cs ≠ []) :
    Jointed (above id cs) ↔ ∀ c ∈ cs, Jointed c := by
  rw [jointed_node]
  refine and_iff_right ?_
  have hlength := List.length_pos_of_ne_nil hne
  rw [minima, List.length_map, List.length_tail]
  omega

theorem Jointed.branching : ∀ {h : Nat} {t : BPlusTree ε h}, Jointed t → Branching t
  | 0, _, _ => trivial
  | h + 1, t, ht => by
    refine ⟨fun hnil => ?_, fun c hc => (ht.2 c hc).branching⟩
    have hlength := ht.1
    rw [hnil] at hlength
    cases hlength

namespace Ctx

theorem jointed_hole {ctx : Ctx ε H k} {t : BPlusTree ε k} (h : Jointed (ctx.plug t)) :
    Jointed t := by
  induction ctx with
  | top =>
    rw [plug] at h
    exact h
  | frame id keys left right up ih =>
    rw [plug] at h
    exact (ih h).2 t (by simp)

theorem jointed_replace {ctx : Ctx ε H k} {t t' : BPlusTree ε k} (h : Jointed (ctx.plug t))
    (ht' : Jointed t') : Jointed (ctx.plug t') := by
  induction ctx with
  | top =>
    rw [plug]
    exact ht'
  | frame id keys left right up ih =>
    rw [plug] at h ⊢
    obtain ⟨hlength, hcs⟩ := jointed_node.mp (up.jointed_hole h)
    refine ih h (jointed_node.mpr ⟨by simpa using hlength, ?_⟩)
    simp only [List.forall_mem_append, List.forall_mem_cons] at hcs ⊢
    exact ⟨hcs.1, ht', hcs.2.2⟩

end Ctx

/-- How many inner nodes a tree has. -/
def inners : {h : Nat} → BPlusTree ε h → Nat
  | 0, _ => 0
  | _ + 1, t => 1 + (t.children.map inners).sum

abbrev innersOf (cs : List (BPlusTree ε k)) : Nat := (cs.map inners).sum

theorem inners_node (id : Nat) (ks : List ε) (cs : List (BPlusTree ε k)) :
    (node id ks cs).inners = 1 + innersOf cs := rfl

theorem innersOf_append (cs ds : List (BPlusTree ε k)) :
    innersOf (cs ++ ds) = innersOf cs + innersOf ds := by
  rw [innersOf, List.map_append, List.sum_append]

theorem innersOf_leaves (ls : List (Leaf ε)) : innersOf (leavesAt ls) = 0 := by
  induction ls with
  | nil => rfl
  | cons l ls ih =>
    show 0 + innersOf (leavesAt ls) = 0
    rw [ih]

theorem innersOf_nodes (cs : List (BPlusTree ε (k + 1))) :
    innersOf cs = cs.length + innersOf (childrenOf cs) := by
  induction cs with
  | nil => rfl
  | cons c cs ih =>
    have hchildren : childrenOf (c :: cs) = c.children ++ childrenOf cs := rfl
    rw [hchildren, innersOf_append, List.length_cons]
    show 1 + innersOf c.children + innersOf cs = _
    rw [ih]
    omega

/-- How many of them are around the hole. -/
def Ctx.inners : {H k : Nat} → Ctx ε H k → Nat
  | _, _, .top => 0
  | _, _, .frame _ _ left right up => 1 + innersOf left + innersOf right + up.inners

theorem Ctx.inners_plug (ctx : Ctx ε H k) (t : BPlusTree ε k) :
    (ctx.plug t).inners = ctx.inners + t.inners := by
  induction ctx with
  | top => rw [plug, inners, Nat.zero_add]
  | frame id keys left right up ih =>
    rw [plug, ih, inners, inners_node, innersOf_append]
    show up.inners + (1 + (innersOf left + (t.inners + innersOf right))) = _
    omega

/-- A tree in distinct pages, the leaves linked from `first` to 0 and none of them empty,
but the root of the empty tree: a well-formed tree but for the order of its keys. -/
structure Shape (first : Nat) (t : BPlusTree ε k) : Prop where
  nodup : t.ids.Nodup
  jointed : Jointed t
  filled : t.entries ≠ [] → Filled t
  empty : t.entries = [] → k = 0
  linked : Links first t.leaves 0

/-- The separators separate and the entries ascend. -/
structure Sorted {κ : Type} [LinearOrder κ] (key : ε → κ) (t : BPlusTree ε k) : Prop where
  ordered : Ordered key t
  ascending : Ascending key t.entries

/-- A tree made of the entries of another, and in order if that one was. -/
structure Reforms {κ : Type} [LinearOrder κ] (key : ε → κ) (t : BPlusTree ε H)
    (t' : BPlusTree ε k) : Prop where
  perm : t'.entries.Perm t.entries
  sorted : Sorted key t → Sorted key t' ∧ t'.entries = t.entries

/-- A tree with the leaves of another, and in order if that one was. -/
structure Regroups {κ : Type} [LinearOrder κ] (key : ε → κ) (t : BPlusTree ε H)
    (t' : BPlusTree ε k) : Prop where
  leaves : t'.leaves = t.leaves
  sorted : Sorted key t → Sorted key t'

section Order
variable {κ : Type} [LinearOrder κ] {key : ε → κ}

theorem Ordered.jointed : ∀ {h : Nat} {t : BPlusTree ε h}, Ordered key t → Jointed t
  | 0, _, _ => trivial
  | _ + 1, _, hord => ⟨hord.1.length, fun c hc => Ordered.jointed (hord.2 c hc)⟩

theorem WellFormed.shape {first : Nat} {t : BPlusTree ε k} (h : WellFormed key first t) :
    Shape first t where
  nodup := h.nodup
  jointed := h.ordered.jointed
  filled := h.filled
  empty := h.empty
  linked := h.linked

theorem WellFormed.sorted {first : Nat} {t : BPlusTree ε k} (h : WellFormed key first t) :
    Sorted key t := ⟨h.ordered, h.ascending⟩

theorem Shape.wellFormed {first : Nat} {t : BPlusTree ε k} (h : Shape first t) (hs : Sorted key t) :
    WellFormed key first t where
  nodup := h.nodup
  ordered := hs.ordered
  ascending := hs.ascending
  filled := h.filled
  empty := h.empty
  linked := h.linked

theorem Reforms.refl (t : BPlusTree ε H) : Reforms key t t := ⟨List.Perm.refl _, fun h => ⟨h, rfl⟩⟩

theorem Reforms.trans {h : Nat} {t : BPlusTree ε H} {t' : BPlusTree ε k} {t'' : BPlusTree ε h}
    (h₁ : Reforms key t t') (h₂ : Reforms key t' t'') : Reforms key t t'' where
  perm := h₂.perm.trans h₁.perm
  sorted hs := by
    obtain ⟨hs', hentries⟩ := h₁.sorted hs
    obtain ⟨hs'', hentries'⟩ := h₂.sorted hs'
    exact ⟨hs'', hentries'.trans hentries⟩

theorem Regroups.refl (t : BPlusTree ε H) : Regroups key t t := ⟨rfl, fun h => h⟩

theorem Regroups.trans {h : Nat} {t : BPlusTree ε H} {t' : BPlusTree ε k} {t'' : BPlusTree ε h}
    (h₁ : Regroups key t t') (h₂ : Regroups key t' t'') : Regroups key t t'' where
  leaves := h₂.leaves.trans h₁.leaves
  sorted hs := h₂.sorted (h₁.sorted hs)

theorem Regroups.entries {t : BPlusTree ε H} {t' : BPlusTree ε k} (h : Regroups key t t') :
    t'.entries = t.entries := by
  rw [BPlusTree.entries, h.leaves, BPlusTree.entries]

theorem Regroups.reforms {t : BPlusTree ε H} {t' : BPlusTree ε k} (h : Regroups key t t') :
    Reforms key t t' where
  perm := List.Perm.of_eq h.entries
  sorted hs := ⟨h.sorted hs, h.entries⟩

end Order

section Rebuilding
variable {κ : Type} [LinearOrder κ] {key : ε → κ} {up : Ctx ε H (k + 1)} {id : Nat}
  {ks : List ε} {cs ds : List (BPlusTree ε k)}

/-- With children that hold the same entries, the node's separators anew. -/
theorem reforms_rebuild [Inhabited ε] (hperm : (entriesOf ds).Perm (entriesOf cs)) (hne : ds ≠ [])
    (hfilled : ∀ d ∈ ds, d.entries ≠ [])
    (hsorted : Sorted key (up.plug (node id ks cs)) →
      entriesOf ds = entriesOf cs ∧ ∀ d ∈ ds, Ordered key d) :
    Reforms key (up.plug (node id ks cs)) (up.plug (above id ds)) where
  perm := by
    rw [Ctx.entries_plug, Ctx.entries_plug, entries_node, entries_node]
    exact (hperm.append_left _).append_right _
  sorted hs := by
    obtain ⟨hentries, hds⟩ := hsorted hs
    have hsame : (up.plug (above id ds)).entries = (up.plug (node id ks cs)).entries := by
      rw [Ctx.entries_plug, Ctx.entries_plug, entries_node, entries_node, hentries]
    have hasc := hs.ascending
    rw [Ctx.entries_plug, entries_node, ← hentries] at hasc
    refine ⟨⟨?_, hsame ▸ hs.ascending⟩, hsame⟩
    refine up.ordered_replace hs.ordered (ordered_node.mpr ⟨separated_minima hne
      hasc.append.1.append.2.1 hfilled, hds⟩) fun e he => ?_
    rw [entries_node, hentries, ← entries_node id ks] at he
    exact up.admits_of_ordered hs.ordered e he

end Rebuilding

/-! ### A separator anew -/

section Minimum

namespace Ctx

/-- With this entry for the separator in front of the hole: it stands in the first node
upward in which the hole is not below the first child. -/
def withMin (e : ε) : {H k : Nat} → Ctx ε H k → Ctx ε H k
  | _, _, .top => .top
  | _, _, .frame id keys [] right up => .frame id keys [] right (up.withMin e)
  | _, _, .frame id keys (c :: left) right up =>
    .frame id (keys.set left.length e) (c :: left) right up

theorem leavesBefore_withMin (ctx : Ctx ε H k) (e : ε) :
    (ctx.withMin e).leavesBefore = ctx.leavesBefore := by
  induction ctx with
  | top => rw [withMin]
  | frame id keys left right up ih =>
    cases left with
    | nil => rw [withMin, leavesBefore, leavesBefore, ih]
    | cons c left => rw [withMin, leavesBefore, leavesBefore]

theorem leavesAfter_withMin (ctx : Ctx ε H k) (e : ε) :
    (ctx.withMin e).leavesAfter = ctx.leavesAfter := by
  induction ctx with
  | top => rw [withMin]
  | frame id keys left right up ih =>
    cases left with
    | nil => rw [withMin, leavesAfter, leavesAfter, ih]
    | cons c left => rw [withMin, leavesAfter, leavesAfter]

theorem leaves_withMin (ctx : Ctx ε H k) (e : ε) (t : BPlusTree ε k) :
    ((ctx.withMin e).plug t).leaves = (ctx.plug t).leaves := by
  rw [leaves_plug, leaves_plug, leavesBefore_withMin, leavesAfter_withMin]

theorem inners_withMin (ctx : Ctx ε H k) (e : ε) : (ctx.withMin e).inners = ctx.inners := by
  induction ctx with
  | top => rw [withMin]
  | frame id keys left right up ih =>
    cases left with
    | nil => rw [withMin, inners, inners, ih]
    | cons c left => rw [withMin, inners, inners]

end Ctx

variable {κ : Type} [LinearOrder κ] {key : ε → κ} [Inhabited ε]

/-- The smallest entry of a child separates it from the child on its left. -/
theorem separated_set {ks : List ε} {left right : List (BPlusTree ε k)} {t : BPlusTree ε k}
    (h : Separated key ks (left ++ t :: right)) (hasc : Ascending key (entriesOf (left ++ t :: right)))
    (ht : t.entries ≠ []) {i : Nat} (hi : i + 1 = left.length) :
    Separated key (ks.set i t.minEntry) (left ++ t :: right) where
  length := by
    rw [List.length_set]
    exact h.length
  left j x c hx hc e he := by
    rw [List.getElem?_set] at hx
    split at hx
    · rename_i hij
      split at hx
      · cases hx
        rw [← hij, List.getElem?_append_left (by omega)] at hc
        rw [entriesOf_append] at hasc
        refine hasc.append.2.2 e (List.mem_flatMap.mpr ⟨c, List.mem_of_getElem? hc, he⟩) _ ?_
        exact List.mem_flatMap.mpr ⟨t, List.mem_cons_self, minEntry_mem ht⟩
      · cases hx
    · exact h.left j x c hx hc e he
  right j x c hx hc e he := by
    rw [List.getElem?_set] at hx
    split at hx
    · rename_i hij
      split at hx
      · cases hx
        rw [← hij, hi, getElem?_hole] at hc
        cases hc
        exact minEntry_le (ascending_child hasc t (by simp)) e he
      · cases hx
    · exact h.right j x c hx hc e he

/-- The smallest entry of a subtree for the separator in front of it. -/
theorem Ctx.sorted_withMin (ctx : Ctx ε H k) {t : BPlusTree ε k} (ht : t.entries ≠ [])
    (hs : Sorted key (ctx.plug t)) : Sorted key ((ctx.withMin t.minEntry).plug t) := by
  refine ⟨?_, ?_⟩
  · have hasc := hs.ascending
    have hord := hs.ordered
    clear hs
    induction ctx with
    | top => rwa [withMin]
    | frame id keys left right up ih =>
      cases left with
      | nil =>
        rw [withMin, plug]
        rw [plug] at hord hasc
        have hmin : (node id keys ([] ++ t :: right)).minEntry = t.minEntry := minEntry_node ht
        rw [← hmin]
        refine ih ?_ hasc hord
        rw [entries_node, List.nil_append, entriesOf, List.flatMap_cons]
        exact List.append_ne_nil_of_left_ne_nil ht _
      | cons c left =>
        rw [withMin, plug]
        rw [plug] at hord hasc
        have hnode := ordered_node.mp (up.ordered_hole hord)
        rw [entries_plug, entries_node] at hasc
        refine up.ordered_replace hord (ordered_node.mpr ⟨separated_set hnode.1
          hasc.append.1.append.2.1 ht rfl, hnode.2⟩) fun e he => ?_
        exact up.admits_of_ordered hord e he
  · rw [BPlusTree.entries, Ctx.leaves_withMin]
    exact hs.ascending

end Minimum

end Foundation.BPlusTree
