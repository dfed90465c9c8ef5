import Mathlib.Data.Multiset.UnionInter
import Mathlib.Algebra.BigOperators.Group.Multiset.Basic
import Mathlib.Algebra.Order.Group.Multiset
import Mathlib.Order.Basic
import Mathlib.Tactic.Abel

/-! B+-trees, as they lie in numbered pages.

A tree of height `h` has its leaves `h` levels below the root, so the height is part
of the type. Every node has an id, the number of its page; a leaf names the leaf
behind it. `records` is the tree taken apart: each node with its children by id, as
a page holds it.

`Ctx` is a tree with a hole, seen from the hole upward. What is said of a tree is
said of its parts around a hole: its leaves (`leaves_plug`), its records
(`records_plug`) and the order of its separators (`Ordered.replace`), so that a
change in one place is checked in that place. -/
namespace Foundation

structure Leaf (ε : Type) where
  id : Nat
  /-- The leaf behind, or 0. -/
  next : Nat
  entries : List ε

structure Inner (ε α : Type) where
  id : Nat
  keys : List ε
  children : List α

def BPlusTree (ε : Type) : Nat → Type
  | 0 => Leaf ε
  | h + 1 => Inner ε (BPlusTree ε h)

/-- A node by itself, its children by id. -/
inductive NodeRecord (ε : Type) where
  | leaf (l : Leaf ε)
  | inner (id : Nat) (keys : List ε) (children : List Nat)

def NodeRecord.id {ε : Type} : NodeRecord ε → Nat
  | .leaf l => l.id
  | .inner id _ _ => id

/-- The entries of a leaf, the separators of an inner node. -/
def NodeRecord.keys {ε : Type} : NodeRecord ε → List ε
  | .leaf l => l.entries
  | .inner _ ks _ => ks

namespace BPlusTree
variable {ε : Type} {h : Nat}

def leaf (l : Leaf ε) : BPlusTree ε 0 := l

def node (id : Nat) (keys : List ε) (children : List (BPlusTree ε h)) : BPlusTree ε (h + 1) :=
  Inner.mk id keys children

def keys (t : BPlusTree ε (h + 1)) : List ε := Inner.keys t

def children (t : BPlusTree ε (h + 1)) : List (BPlusTree ε h) := Inner.children t

def rootId : {h : Nat} → BPlusTree ε h → Nat
  | 0, t => Leaf.id t
  | _ + 1, t => Inner.id t

def leaves : {h : Nat} → BPlusTree ε h → List (Leaf ε)
  | 0, t => [t]
  | _ + 1, t => (Inner.children t).flatMap leaves

def records : {h : Nat} → BPlusTree ε h → Multiset (NodeRecord ε)
  | 0, t => {.leaf t}
  | _ + 1, t => .inner (Inner.id t) (Inner.keys t) ((Inner.children t).map rootId) ::ₘ
      ((Inner.children t).map records).sum

def entries (t : BPlusTree ε h) : List ε := t.leaves.flatMap Leaf.entries

def ids (t : BPlusTree ε h) : Multiset Nat := t.records.map NodeRecord.id

/-- The root by itself. -/
def rootRecord : {h : Nat} → BPlusTree ε h → NodeRecord ε
  | 0, t => .leaf t
  | _ + 1, t => .inner (Inner.id t) (Inner.keys t) ((Inner.children t).map rootId)

/-- The leaves and records of neighbouring trees. -/
abbrev leavesOf (cs : List (BPlusTree ε h)) : List (Leaf ε) := cs.flatMap leaves
abbrev recordsOf (cs : List (BPlusTree ε h)) : Multiset (NodeRecord ε) := (cs.map records).sum
abbrev entriesOf (cs : List (BPlusTree ε h)) : List ε := cs.flatMap entries

@[simp] theorem node_keys (id : Nat) (ks : List ε) (cs : List (BPlusTree ε h)) :
    (node id ks cs).keys = ks := rfl
@[simp] theorem node_children (id : Nat) (ks : List ε) (cs : List (BPlusTree ε h)) :
    (node id ks cs).children = cs := rfl
@[simp] theorem rootId_node (id : Nat) (ks : List ε) (cs : List (BPlusTree ε h)) :
    (node id ks cs).rootId = id := rfl
@[simp] theorem leaves_leaf (l : Leaf ε) : (leaf l).leaves = [l] := rfl
@[simp] theorem records_leaf (l : Leaf ε) : (leaf l).records = {.leaf l} := rfl
@[simp] theorem rootId_leaf (l : Leaf ε) : (leaf l).rootId = l.id := rfl

theorem eq_node (t : BPlusTree ε (h + 1)) : t = node t.rootId t.keys t.children := rfl

@[simp] theorem leaves_node (id : Nat) (ks : List ε) (cs : List (BPlusTree ε h)) :
    (node id ks cs).leaves = leavesOf cs := rfl

@[simp] theorem records_node (id : Nat) (ks : List ε) (cs : List (BPlusTree ε h)) :
    (node id ks cs).records = .inner id ks (cs.map rootId) ::ₘ recordsOf cs := rfl

@[simp] theorem entries_leaf (l : Leaf ε) : (leaf l).entries = l.entries := by
  simp [entries]

@[simp] theorem entries_node (id : Nat) (ks : List ε) (cs : List (BPlusTree ε h)) :
    (node id ks cs).entries = entriesOf cs := by
  rw [entries, leaves_node, List.flatMap_assoc]
  rfl

theorem leavesOf_append (cs ds : List (BPlusTree ε h)) :
    leavesOf (cs ++ ds) = leavesOf cs ++ leavesOf ds := List.flatMap_append

theorem recordsOf_append (cs ds : List (BPlusTree ε h)) :
    recordsOf (cs ++ ds) = recordsOf cs + recordsOf ds := by
  rw [recordsOf, List.map_append, List.sum_append]

theorem recordsOf_cons (c : BPlusTree ε h) (cs : List (BPlusTree ε h)) :
    recordsOf (c :: cs) = c.records + recordsOf cs := by
  rw [recordsOf, List.map_cons, List.sum_cons]

theorem mem_recordsOf {cs : List (BPlusTree ε h)} {r : NodeRecord ε} :
    r ∈ recordsOf cs ↔ ∃ c ∈ cs, r ∈ c.records := by
  induction cs with
  | nil => simp [recordsOf]
  | cons c cs ih => rw [recordsOf_cons, Multiset.mem_add, ih, List.exists_mem_cons_iff]

theorem leaf_mem_records : ∀ {h : Nat} {t : BPlusTree ε h} {l : Leaf ε}, l ∈ t.leaves →
    .leaf l ∈ t.records
  | 0, _, _, hl => List.mem_singleton.mp hl ▸ Multiset.mem_singleton_self _
  | _ + 1, _, _, hl =>
    have ⟨c, hc, hlc⟩ := List.mem_flatMap.mp hl
    Multiset.mem_cons_of_mem (mem_recordsOf.mpr ⟨c, hc, leaf_mem_records hlc⟩)

theorem leaves_length_le_card : ∀ {h : Nat} (t : BPlusTree ε h), t.leaves.length ≤ t.records.card
  | 0, _ => Nat.le_refl 1
  | h + 1, t => by
    have hchildren : ∀ cs : List (BPlusTree ε h), (leavesOf cs).length ≤ (recordsOf cs).card := by
      intro cs
      induction cs with
      | nil => exact Nat.zero_le _
      | cons c cs ih =>
        have hc := leaves_length_le_card c
        rw [recordsOf_cons, Multiset.card_add, leavesOf, List.flatMap_cons, List.length_append]
        exact Nat.add_le_add hc ih
    rw [eq_node t, leaves_node, records_node, Multiset.card_cons]
    exact (hchildren _).trans (Nat.le_succ _)

theorem entriesOf_append (cs ds : List (BPlusTree ε h)) :
    entriesOf (cs ++ ds) = entriesOf cs ++ entriesOf ds := List.flatMap_append

theorem entriesOf_eq (cs : List (BPlusTree ε h)) :
    entriesOf cs = (leavesOf cs).flatMap Leaf.entries := by
  rw [leavesOf, List.flatMap_assoc]
  rfl

@[simp] theorem rootRecord_leaf (l : Leaf ε) : (leaf l).rootRecord = .leaf l := rfl
@[simp] theorem rootRecord_node (id : Nat) (ks : List ε) (cs : List (BPlusTree ε h)) :
    (node id ks cs).rootRecord = .inner id ks (cs.map rootId) := rfl

@[simp] theorem rootRecord_id (t : BPlusTree ε h) : t.rootRecord.id = t.rootId := by
  cases h with
  | zero => rfl
  | succ h => rfl

theorem rootRecord_mem (t : BPlusTree ε h) : t.rootRecord ∈ t.records := by
  cases h with
  | zero => exact Multiset.mem_singleton_self _
  | succ h => exact Multiset.mem_cons_self _ _

theorem rootId_mem_ids (t : BPlusTree ε h) : t.rootId ∈ t.ids :=
  Multiset.mem_map.mpr ⟨_, rootRecord_mem t, rootRecord_id t⟩

/-! ### Trees with a hole -/

/-- A tree of height `H` around a hole of height `k`: the hole's parent, with its
children on both sides, and what is around the parent. -/
inductive Ctx (ε : Type) : Nat → Nat → Type
  | top {k : Nat} : Ctx ε k k
  | frame {H k : Nat} (id : Nat) (keys : List ε) (left right : List (BPlusTree ε k))
      (up : Ctx ε H (k + 1)) : Ctx ε H k

namespace Ctx

def plug : {H k : Nat} → Ctx ε H k → BPlusTree ε k → BPlusTree ε H
  | _, _, .top, t => t
  | _, _, .frame id keys left right up, t => up.plug (node id keys (left ++ t :: right))

/-- The ids from the hole's parent to the root. -/
def path : {H k : Nat} → Ctx ε H k → List Nat
  | _, _, .top => []
  | _, _, .frame id _ _ _ up => id :: up.path

/-- The root's id, when the hole is filled by a tree of this id. -/
def rootId : {H k : Nat} → Ctx ε H k → Nat → Nat
  | _, _, .top, hole => hole
  | _, _, .frame id _ _ _ up, _ => up.rootId id

def leavesBefore : {H k : Nat} → Ctx ε H k → List (Leaf ε)
  | _, _, .top => []
  | _, _, .frame _ _ left _ up => up.leavesBefore ++ leavesOf left

def leavesAfter : {H k : Nat} → Ctx ε H k → List (Leaf ε)
  | _, _, .top => []
  | _, _, .frame _ _ _ right up => leavesOf right ++ up.leavesAfter

/-- The records around a hole filled by a tree of this id. -/
def records : {H k : Nat} → Ctx ε H k → Nat → Multiset (NodeRecord ε)
  | _, _, .top, _ => 0
  | _, _, .frame id keys left right up, hole =>
    .inner id keys (left.map BPlusTree.rootId ++ hole :: right.map BPlusTree.rootId) ::ₘ
      (recordsOf left + recordsOf right + up.records id)

theorem le_height {H k : Nat} (ctx : Ctx ε H k) : k ≤ H := by
  induction ctx with
  | top => exact Nat.le_refl _
  | frame id keys left right up ih => exact Nat.le_of_succ_le ih

theorem eq_top {k : Nat} (ctx : Ctx ε k k) : ctx = .top := by
  cases ctx with
  | top => rfl
  | frame id keys left right up => exact absurd up.le_height (Nat.not_succ_le_self k)

theorem rootId_plug {H k : Nat} (ctx : Ctx ε H k) (t : BPlusTree ε k) :
    (ctx.plug t).rootId = ctx.rootId t.rootId := by
  induction ctx with
  | top => rw [plug, rootId]
  | frame id keys left right up ih => rw [plug, rootId, ih, BPlusTree.rootId_node]

theorem leaves_plug {H k : Nat} (ctx : Ctx ε H k) (t : BPlusTree ε k) :
    (ctx.plug t).leaves = ctx.leavesBefore ++ t.leaves ++ ctx.leavesAfter := by
  induction ctx with
  | top => simp [plug, leavesBefore, leavesAfter]
  | frame id keys left right up ih =>
    rw [plug, ih, leaves_node, leavesBefore, leavesAfter, leavesOf_append]
    simp [leavesOf]

theorem records_plug {H k : Nat} (ctx : Ctx ε H k) (t : BPlusTree ε k) :
    (ctx.plug t).records = ctx.records t.rootId + t.records := by
  induction ctx with
  | top => simp [plug, records]
  | frame id keys left right up ih =>
    rw [plug, ih, records_node, records, recordsOf_append, recordsOf_cons, BPlusTree.rootId_node,
      List.map_append, List.map_cons]
    simp only [← Multiset.singleton_add]
    abel

end Ctx
/-! ### Order -/

section Order
variable {κ : Type} [LinearOrder κ] (key : ε → κ)

/-- The entries ascend. -/
def Ascending (es : List ε) : Prop := es.Pairwise fun a b => key a < key b

/-- Between two neighbours stands a separator: greater than the keys on its left, not
greater than those on its right. -/
structure Separated (ks : List ε) (cs : List (BPlusTree ε h)) : Prop where
  length : ks.length + 1 = cs.length
  left : ∀ (i : Nat) (k : ε) (c : BPlusTree ε h), ks[i]? = some k → cs[i]? = some c →
    ∀ e ∈ c.entries, key e < key k
  right : ∀ (i : Nat) (k : ε) (c : BPlusTree ε h), ks[i]? = some k → cs[i + 1]? = some c →
    ∀ e ∈ c.entries, key k ≤ key e

/-- Every node is separated. -/
def Ordered : {h : Nat} → BPlusTree ε h → Prop
  | 0, _ => True
  | _ + 1, t => Separated key t.keys t.children ∧ ∀ c ∈ t.children, Ordered c

variable {key}

theorem ordered_node {id : Nat} {ks : List ε} {cs : List (BPlusTree ε h)} :
    Ordered key (node id ks cs) ↔ Separated key ks cs ∧ ∀ c ∈ cs, Ordered key c := Iff.rfl

/-- What stands at a place of a list with a hole. -/
theorem getElem?_hole {α : Type} (left right : List α) (a : α) :
    (left ++ a :: right)[left.length]? = some a := by
  rw [List.getElem?_append_right (Nat.le_refl _), Nat.sub_self, List.getElem?_cons_zero]

theorem getElem?_hole_ne {α : Type} {left right : List α} {i : Nat} (h : i ≠ left.length)
    (a b : α) : (left ++ a :: right)[i]? = (left ++ b :: right)[i]? := by
  rcases Nat.lt_or_gt_of_ne h with hlt | hgt
  · rw [List.getElem?_append_left hlt, List.getElem?_append_left hlt]
  · obtain ⟨j, hj⟩ : ∃ j, i - left.length = j + 1 := ⟨i - left.length - 1, by omega⟩
    rw [List.getElem?_append_right hgt.le, List.getElem?_append_right hgt.le, hj,
      List.getElem?_cons_succ, List.getElem?_cons_succ]

namespace Ctx

variable (key)

/-- A key may stand in the hole: it is on the right side of the separators next to it
on every level. -/
def Admits : {H k : Nat} → Ctx ε H k → κ → Prop
  | _, _, .top, _ => True
  | _, _, .frame _ keys left _ up, v =>
    (∀ k, keys[left.length]? = some k → v < key k) ∧
      (∀ i k, i + 1 = left.length → keys[i]? = some k → key k ≤ v) ∧ up.Admits v

variable {key}

theorem ordered_hole {H k : Nat} (ctx : Ctx ε H k) {t : BPlusTree ε k}
    (h : Ordered key (ctx.plug t)) : Ordered key t := by
  induction ctx with
  | top =>
    rw [plug] at h
    exact h
  | frame id keys left right up ih =>
    rw [plug] at h
    exact (ordered_node.mp (ih h)).2 t (by simp)

/-- The keys in the hole are where they may stand. -/
theorem admits_of_ordered {H k : Nat} (ctx : Ctx ε H k) {t : BPlusTree ε k}
    (h : Ordered key (ctx.plug t)) : ∀ e ∈ t.entries, ctx.Admits key (key e) := by
  induction ctx with
  | top =>
    intro e _
    rw [Admits]
    trivial
  | frame id keys left right up ih =>
    intro e he
    rw [plug] at h
    obtain ⟨hsep, -⟩ := ordered_node.mp (up.ordered_hole h)
    rw [Admits]
    refine ⟨fun k hk => ?_, fun i k hi hk => ?_, ih h e ?_⟩
    · exact hsep.left _ k t hk (getElem?_hole _ _ _) e he
    · exact hsep.right i k t hk (hi ▸ getElem?_hole _ _ _) e he
    · rw [entries_node]
      exact List.mem_flatMap.mpr ⟨t, by simp, he⟩

/-- A tree whose keys may stand in the hole can be put there. -/
theorem ordered_replace {H k : Nat} (ctx : Ctx ε H k) {t t' : BPlusTree ε k}
    (h : Ordered key (ctx.plug t)) (ht' : Ordered key t')
    (hadmits : ∀ e ∈ t'.entries, ctx.Admits key (key e)) : Ordered key (ctx.plug t') := by
  induction ctx with
  | top =>
    rw [plug]
    exact ht'
  | frame id keys left right up ih =>
    rw [plug] at h ⊢
    have hnode := up.ordered_hole h
    obtain ⟨hsep, hchildren⟩ := ordered_node.mp hnode
    have hup := up.admits_of_ordered h
    refine ih h (ordered_node.mpr ⟨⟨?_, ?_, ?_⟩, fun c hc => ?_⟩) fun e he => ?_
    · have hlength := hsep.length
      simpa using hlength
    · intro i k c hk hc e he
      by_cases hi : i = left.length
      · subst hi
        rw [getElem?_hole] at hc
        cases hc
        have hadm := hadmits e he
        rw [Admits] at hadm
        exact hadm.1 k hk
      · rw [getElem?_hole_ne hi t' t] at hc
        exact hsep.left i k c hk hc e he
    · intro i k c hk hc e he
      by_cases hi : i + 1 = left.length
      · rw [hi, getElem?_hole] at hc
        cases hc
        have hadm := hadmits e he
        rw [Admits] at hadm
        exact hadm.2.1 i k hi hk
      · rw [getElem?_hole_ne hi t' t] at hc
        exact hsep.right i k c hk hc e he
    · rcases List.mem_append.mp hc with hc | hc
      · exact hchildren c (List.mem_append_left _ hc)
      · rcases List.mem_cons.mp hc with rfl | hc
        · exact ht'
        · exact hchildren c (List.mem_append_right _ (List.mem_cons_of_mem _ hc))
    · rw [entries_node, List.mem_flatMap] at he
      obtain ⟨c, hc, hec⟩ := he
      have hin : ∀ d ∈ left ++ t :: right, e ∈ d.entries → up.Admits key (key e) := fun d hd hed =>
        hup e (by rw [entries_node]; exact List.mem_flatMap.mpr ⟨d, hd, hed⟩)
      rcases List.mem_append.mp hc with hc | hc
      · exact hin c (List.mem_append_left _ hc) hec
      · rcases List.mem_cons.mp hc with rfl | hc
        · have hadm := hadmits e hec
          rw [Admits] at hadm
          exact hadm.2.2
        · exact hin c (List.mem_append_right _ (List.mem_cons_of_mem _ hc)) hec

/-- The entries before the hole and behind it. -/
def entriesBefore {H k : Nat} (ctx : Ctx ε H k) : List ε := ctx.leavesBefore.flatMap Leaf.entries
def entriesAfter {H k : Nat} (ctx : Ctx ε H k) : List ε := ctx.leavesAfter.flatMap Leaf.entries

theorem entries_plug {H k : Nat} (ctx : Ctx ε H k) (t : BPlusTree ε k) :
    (ctx.plug t).entries = ctx.entriesBefore ++ t.entries ++ ctx.entriesAfter := by
  rw [BPlusTree.entries, leaves_plug, List.flatMap_append, List.flatMap_append]
  rfl

theorem entriesBefore_frame {H k : Nat} (id : Nat) (keys : List ε) (left right : List (BPlusTree ε k))
    (up : Ctx ε H (k + 1)) : (frame id keys left right up).entriesBefore =
      up.entriesBefore ++ entriesOf left := by
  rw [entriesBefore, leavesBefore, List.flatMap_append, ← entriesOf_eq]
  rfl

theorem entriesAfter_frame {H k : Nat} (id : Nat) (keys : List ε) (left right : List (BPlusTree ε k))
    (up : Ctx ε H (k + 1)) : (frame id keys left right up).entriesAfter =
      entriesOf right ++ up.entriesAfter := by
  rw [entriesAfter, leavesAfter, List.flatMap_append, ← entriesOf_eq]
  rfl

end Ctx

theorem Ascending.append {xs ys : List ε} (h : Ascending key (xs ++ ys)) :
    Ascending key xs ∧ Ascending key ys ∧ ∀ x ∈ xs, ∀ y ∈ ys, key x < key y :=
  List.pairwise_append.mp h

/-- Ascending entries differ in their keys. -/
theorem Ascending.eq_of_key_eq {es : List ε} (hasc : Ascending key es) {a b : ε} (ha : a ∈ es)
    (hb : b ∈ es) (h : key a = key b) : a = b := by
  induction es with
  | nil => cases ha
  | cons e es ih =>
    obtain ⟨hlt, hrest⟩ := List.pairwise_cons.mp hasc
    rcases List.mem_cons.mp ha with hae | ha'
    · rcases List.mem_cons.mp hb with hbe | hb'
      · exact hae.trans hbe.symm
      · exact absurd h (hae ▸ (hlt b hb').ne)
    · rcases List.mem_cons.mp hb with hbe | hb'
      · exact absurd h (hbe ▸ (hlt a ha').ne')
      · exact ih hrest ha' hb'

/-- What holds of smaller entries first splits an ascending list in two. -/
theorem Ascending.filter_append {p : ε → Bool} {es : List ε} (hasc : Ascending key es)
    (hdown : ∀ a b, key a < key b → p b = true → p a = true) :
    es.filter p ++ es.filter (fun e => !p e) = es := by
  induction es with
  | nil => rfl
  | cons e es ih =>
    obtain ⟨hlt, hrest⟩ := List.pairwise_cons.mp hasc
    cases hp : p e with
    | true =>
      rw [List.filter_cons_of_pos hp, List.filter_cons_of_neg (by simp [hp]), List.cons_append,
        ih hrest]
    | false =>
      have hnone : es.filter p = [] := List.filter_eq_nil_iff.mpr fun x hx hpx => by
        rw [hdown e x (hlt x hx) hpx] at hp
        cases hp
      have hall := ih hrest
      rw [hnone, List.nil_append] at hall
      rw [List.filter_cons_of_neg (by simp [hp]), hnone, List.nil_append,
        List.filter_cons_of_pos (by simp [hp]), hall]

theorem Ascending.getElem_filter {p : ε → Bool} {es : List ε} (hasc : Ascending key es)
    (hdown : ∀ a b, key a < key b → p b = true → p a = true) {i : Nat} (hi : i < es.length) :
    p es[i] = true ↔ i < (es.filter p).length := by
  have hsplit := hasc.filter_append hdown
  have hget : es[i]? = (es.filter p ++ es.filter fun e => !p e)[i]? := by rw [hsplit]
  rw [List.getElem?_eq_getElem hi] at hget
  by_cases hlt : i < (es.filter p).length
  · rw [List.getElem?_append_left hlt] at hget
    exact iff_of_true (List.mem_filter.mp (List.mem_of_getElem? hget.symm)).2 hlt
  · rw [List.getElem?_append_right (Nat.not_lt.mp hlt)] at hget
    have hnot := (List.mem_filter.mp (List.mem_of_getElem? hget.symm)).2
    exact iff_of_false (by simpa using hnot) hlt

theorem Ascending.getElem?_filter {p : ε → Bool} {es : List ε} (hasc : Ascending key es)
    (hdown : ∀ a b, key a < key b → p b = true → p a = true) :
    es[(es.filter p).length]? = (es.filter fun e => !p e).head? := by
  have hsplit := hasc.filter_append hdown
  have hget : es[(es.filter p).length]? =
      (es.filter p ++ es.filter fun e => !p e)[(es.filter p).length]? := by rw [hsplit]
  rw [hget, List.getElem?_append_right (Nat.le_refl _), Nat.sub_self, List.head?_eq_getElem?]

theorem Ascending.takeWhile_eq_filter {p : ε → Bool} {es : List ε} (hasc : Ascending key es)
    (hdown : ∀ a b, key a < key b → p b = true → p a = true) : es.takeWhile p = es.filter p := by
  conv_lhs => rw [← hasc.filter_append hdown]
  rw [List.takeWhile_append_of_pos fun e he => (List.mem_filter.mp he).2]
  cases hrest : es.filter fun e => !p e with
  | nil => rw [List.takeWhile_nil, List.append_nil]
  | cons e rest =>
    have he : e ∈ es.filter fun e => !p e := by
      rw [hrest]
      exact List.mem_cons_self
    have hnot := (List.mem_filter.mp he).2
    rw [List.takeWhile_cons_of_neg (by simpa using hnot), List.append_nil]

/-- The entry with a key is the first that is not less. -/
theorem Ascending.find?_eq {v : κ} [∀ e, Decidable (key e = v)] {es : List ε}
    (hasc : Ascending key es) :
    es.find? (fun e => key e = v) =
      (es.filter fun e => !decide (key e < v)).head?.filter fun e => key e = v := by
  induction es with
  | nil => rfl
  | cons e es ih =>
    obtain ⟨hlt, hrest⟩ := List.pairwise_cons.mp hasc
    rcases lt_trichotomy (key e) v with hless | heq | hgreater
    · rw [List.filter_cons_of_neg (by simp [hless]), List.find?_cons_of_neg (by simp [hless.ne]),
        ih hrest]
    · rw [List.filter_cons_of_pos (by simp [heq]), List.find?_cons_of_pos (by simp [heq]),
        List.head?_cons, Option.filter_some, if_pos (decide_eq_true heq)]
    · have hnone : es.find? (fun e => key e = v) = none :=
        List.find?_eq_none.mpr fun x hx => by simp [(hgreater.trans (hlt x hx)).ne']
      rw [List.filter_cons_of_pos (by simp [hgreater.le]),
        List.find?_cons_of_neg (by simp [hgreater.ne']), hnone, List.head?_cons,
        Option.filter_some, if_neg (by simp [hgreater.ne'])]

/-- A tree all of whose leaves have entries. -/
def Filled (t : BPlusTree ε h) : Prop := ∀ l ∈ t.leaves, l.entries ≠ []

theorem filled_node {id : Nat} {ks : List ε} {cs : List (BPlusTree ε h)} :
    Filled (node id ks cs) ↔ ∀ c ∈ cs, Filled c := by
  simp only [Filled, leaves_node, List.mem_flatMap]
  exact ⟨fun hall c hc l hl => hall l ⟨c, hc, hl⟩, fun hall l ⟨c, hc, hl⟩ => hall c hc l hl⟩

/-- Every inner node has children. -/
def Branching : {h : Nat} → BPlusTree ε h → Prop
  | 0, _ => True
  | _ + 1, t => t.children ≠ [] ∧ ∀ c ∈ t.children, Branching c

theorem children_ne_nil {t : BPlusTree ε (h + 1)} (hord : Ordered key t) : t.children ≠ [] := by
  intro hnil
  have hlength := hord.1.length
  rw [hnil] at hlength
  cases hlength

theorem Ordered.branching : ∀ {h : Nat} {t : BPlusTree ε h}, Ordered key t → Branching t
  | 0, _, _ => trivial
  | _ + 1, _, hord => ⟨children_ne_nil hord, fun c hc => Ordered.branching (hord.2 c hc)⟩

theorem Branching.leaves_ne_nil : ∀ {h : Nat} {t : BPlusTree ε h}, Branching t → t.leaves ≠ []
  | 0, t, _ => List.cons_ne_nil _ _
  | h + 1, t, hb => by
    obtain ⟨c, hc⟩ := List.exists_mem_of_ne_nil _ hb.1
    obtain ⟨l, hl⟩ := List.exists_mem_of_ne_nil _ (Branching.leaves_ne_nil (hb.2 c hc))
    exact List.ne_nil_of_mem (List.mem_flatMap.mpr ⟨c, hc, hl⟩)

/-- There is a node on every level. -/
theorem Branching.height_lt_card : ∀ {h : Nat} {t : BPlusTree ε h}, Branching t → h < t.records.card
  | 0, _, _ => Nat.zero_lt_one
  | h + 1, t, hb => by
    obtain ⟨c, hc⟩ := List.exists_mem_of_ne_nil _ hb.1
    have hbelow := Branching.height_lt_card (hb.2 c hc)
    obtain ⟨l, r, hcs⟩ := List.append_of_mem hc
    rw [eq_node t, records_node, Multiset.card_cons, hcs, recordsOf_append, recordsOf_cons,
      Multiset.card_add, Multiset.card_add]
    omega

/-- A filled tree has entries. -/
theorem Filled.entries_ne_nil {t : BPlusTree ε h} (hf : Filled t) (hb : Branching t) :
    t.entries ≠ [] := by
  obtain ⟨l, hl⟩ := List.exists_mem_of_ne_nil _ hb.leaves_ne_nil
  obtain ⟨e, he⟩ := List.exists_mem_of_ne_nil _ (hf l hl)
  exact List.ne_nil_of_mem (List.mem_flatMap.mpr ⟨l, hl, he⟩)

namespace Ctx

theorem filled_plug {H k : Nat} {ctx : Ctx ε H k} {t : BPlusTree ε k} :
    Filled (ctx.plug t) ↔ (∀ l ∈ ctx.leavesBefore, l.entries ≠ []) ∧ Filled t ∧
      ∀ l ∈ ctx.leavesAfter, l.entries ≠ [] := by
  rw [Filled, leaves_plug]
  simp only [List.mem_append, or_imp, forall_and, and_assoc]
  exact Iff.rfl

/-- With a key that may stand in the hole, all keys before the hole are less. -/
theorem before_lt {H k : Nat} (ctx : Ctx ε H k) {t : BPlusTree ε k} {v : κ}
    (hord : Ordered key (ctx.plug t)) (hasc : Ascending key (ctx.plug t).entries)
    (hfill : Filled (ctx.plug t)) (hadm : ctx.Admits key v) :
    ∀ e ∈ ctx.entriesBefore, key e < v := by
  induction ctx with
  | top =>
    intro e he
    rw [entriesBefore, leavesBefore] at he
    cases he
  | frame id keys left right up ih =>
    rw [plug] at hord hasc hfill
    rw [Admits] at hadm
    rw [entriesBefore_frame]
    intro e he
    rcases List.mem_append.mp he with he | he
    · exact ih hord hasc hfill hadm.2.2 e he
    · rcases List.eq_nil_or_concat' left with rfl | ⟨init, c, rfl⟩
      · cases he
      · have hnode := up.ordered_hole hord
        obtain ⟨hsep, hchildren⟩ := ordered_node.mp hnode
        have hlength := hsep.length
        obtain ⟨s, hs⟩ : ∃ s, keys[init.length]? = some s := by
          have hlt : init.length < keys.length := by
            simp only [List.length_append, List.length_cons] at hlength
            omega
          exact ⟨keys[init.length], List.getElem?_eq_getElem hlt⟩
        have hsv := hadm.2.1 init.length s (by simp) hs
        have hc : (init ++ [c] ++ t :: right)[init.length]? = some c := by
          rw [List.append_assoc]
          exact getElem?_hole _ _ _
        have hlast := hsep.left init.length s c hs hc
        rw [entriesOf_append] at he
        rcases List.mem_append.mp he with he | he
        · obtain ⟨e', he'⟩ := List.exists_mem_of_ne_nil _ (Filled.entries_ne_nil
            (filled_node.mp (filled_plug.mp hfill).2.1 c (by simp)) (hchildren c (by simp)).branching)
          rw [entries_plug, entries_node, List.append_assoc init, entriesOf_append,
            List.singleton_append] at hasc
          have hin := hasc.append.1.append.2.1.append.2.2 e he e' (by
            rw [entriesOf, List.flatMap_cons]
            exact List.mem_append_left _ he')
          exact hin.trans ((hlast e' he').trans_le hsv)
        · simp only [entriesOf, List.flatMap_cons, List.flatMap_nil, List.append_nil] at he
          exact (hlast e he).trans_le hsv

/-- And all keys behind it are greater. -/
theorem after_gt {H k : Nat} (ctx : Ctx ε H k) {t : BPlusTree ε k} {v : κ}
    (hord : Ordered key (ctx.plug t)) (hasc : Ascending key (ctx.plug t).entries)
    (hfill : Filled (ctx.plug t)) (hadm : ctx.Admits key v) :
    ∀ e ∈ ctx.entriesAfter, v < key e := by
  induction ctx with
  | top =>
    intro e he
    rw [entriesAfter, leavesAfter] at he
    cases he
  | frame id keys left right up ih =>
    rw [plug] at hord hasc hfill
    rw [Admits] at hadm
    rw [entriesAfter_frame]
    intro e he
    rcases List.mem_append.mp he with he | he
    · cases right with
      | nil => cases he
      | cons d rest =>
        have hnode := up.ordered_hole hord
        obtain ⟨hsep, hchildren⟩ := ordered_node.mp hnode
        have hlength := hsep.length
        obtain ⟨s, hs⟩ : ∃ s, keys[left.length]? = some s := by
          have hlt : left.length < keys.length := by
            simp only [List.length_append, List.length_cons] at hlength
            omega
          exact ⟨keys[left.length], List.getElem?_eq_getElem hlt⟩
        have hvs := hadm.1 s hs
        have hd : (left ++ t :: d :: rest)[left.length + 1]? = some d := by
          rw [List.getElem?_append_right (Nat.le_succ _), Nat.succ_sub (Nat.le_refl _),
            Nat.sub_self, List.getElem?_cons_succ, List.getElem?_cons_zero]
        have hfirst := hsep.right left.length s d hs hd
        rw [entriesOf, List.flatMap_cons] at he
        rcases List.mem_append.mp he with he | he
        · exact hvs.trans_le (hfirst e he)
        · obtain ⟨e', he'⟩ := List.exists_mem_of_ne_nil _ (Filled.entries_ne_nil
            (filled_node.mp (filled_plug.mp hfill).2.1 d (by simp)) (hchildren d (by simp)).branching)
          rw [entries_plug, entries_node, entriesOf_append] at hasc
          have hright := hasc.append.1.append.2.1.append.2.1
          rw [entriesOf, List.flatMap_cons, List.flatMap_cons] at hright
          have hin := hright.append.2.1.append.2.2 e' he' e he
          exact hvs.trans_le ((hfirst e' he').trans hin.le)
    · exact ih hord hasc hfill hadm.2.2 e he

end Ctx

theorem ascending_child {cs : List (BPlusTree ε h)} (hasc : Ascending key (entriesOf cs)) :
    ∀ c ∈ cs, Ascending key c.entries := by
  intro c hc
  obtain ⟨l, r, rfl⟩ := List.append_of_mem hc
  rw [entriesOf_append] at hasc
  exact hasc.append.2.1.append.1

/-! ### Separators from the children -/

section Minima
variable [Inhabited ε]

/-- The first entry below a node. -/
def minEntry (t : BPlusTree ε h) : ε := t.entries.headD default

/-- The separators a node gets from its children. -/
def minima (cs : List (BPlusTree ε h)) : List ε := cs.tail.map minEntry

@[simp] theorem minEntry_leaf (l : Leaf ε) : (leaf l).minEntry = l.entries.headD default := by
  rw [minEntry, entries_leaf]

/-- The first entry below a node is the first below its first child. -/
theorem minEntry_node {id : Nat} {ks : List ε} {c : BPlusTree ε h} {cs : List (BPlusTree ε h)}
    (hc : c.entries ≠ []) : (node id ks (c :: cs)).minEntry = c.minEntry := by
  rw [minEntry, entries_node, entriesOf, List.flatMap_cons, minEntry]
  cases hes : c.entries with
  | nil => exact absurd hes hc
  | cons e es => rfl

theorem minEntry_mem {t : BPlusTree ε h} (ht : t.entries ≠ []) :
    t.minEntry ∈ t.entries := by
  rw [minEntry]
  cases hes : t.entries with
  | nil => exact absurd hes ht
  | cons e es => exact List.mem_cons_self

theorem minEntry_le {t : BPlusTree ε h} (hasc : Ascending key t.entries) :
    ∀ e ∈ t.entries, key t.minEntry ≤ key e := by
  intro e he
  rw [minEntry]
  cases hes : t.entries with
  | nil =>
    rw [hes] at he
    cases he
  | cons m es =>
    rw [hes] at he hasc
    rcases List.mem_cons.mp he with rfl | he
    · exact le_refl _
    · exact (List.rel_of_pairwise_cons hasc he).le

/-- Neighbours in order are separated by their minima. -/
theorem separated_minima {cs : List (BPlusTree ε h)} (hcs : cs ≠ [])
    (hasc : Ascending key (entriesOf cs)) (hne : ∀ c ∈ cs, c.entries ≠ []) :
    Separated key (minima cs) cs := by
  have hget : ∀ (i : Nat) (k : ε), (minima cs)[i]? = some k →
      ∃ c, cs[i + 1]? = some c ∧ k = c.minEntry := by
    intro i k hk
    rw [minima, List.getElem?_map, Option.map_eq_some_iff] at hk
    obtain ⟨c, hc, rfl⟩ := hk
    rw [List.getElem?_tail] at hc
    exact ⟨c, hc, rfl⟩
  refine ⟨?_, fun i k c hk hc e he => ?_, fun i k c hk hc e he => ?_⟩
  · rw [minima, List.length_map, List.length_tail]
    have := List.length_pos_of_ne_nil hcs
    omega
  · obtain ⟨d, hd, rfl⟩ := hget i k hk
    have hdcs := List.mem_of_getElem? hd
    have hsplit : cs = cs.take (i + 1) ++ cs.drop (i + 1) := (List.take_append_drop _ _).symm
    rw [hsplit, entriesOf_append] at hasc
    refine hasc.append.2.2 e ?_ d.minEntry ?_
    · refine List.mem_flatMap.mpr ⟨c, ?_, he⟩
      refine List.mem_of_getElem? (i := i) ?_
      rw [List.getElem?_take_of_lt (Nat.lt_succ_self i)]
      exact hc
    · refine List.mem_flatMap.mpr ⟨d, ?_, minEntry_mem (hne d hdcs)⟩
      refine List.mem_of_getElem? (i := 0) ?_
      rw [List.getElem?_drop]
      exact hd
  · obtain ⟨d, hd, rfl⟩ := hget i k hk
    have hcd : d = c := Option.some.inj (hd.symm.trans hc)
    subst hcd
    exact minEntry_le (ascending_child hasc d (List.mem_of_getElem? hd)) e he

end Minima
/-! ### Searching -/

/-- One past the last separator that is not greater than the key. -/
def slotLoop (key : ε → κ) (v : κ) : List ε → Nat → Nat → Nat
  | [], _, slot => slot
  | k :: ks, i, slot => slotLoop key v ks (i + 1) (if key k ≤ v then i + 1 else slot)

variable (key) in
def slot (ks : List ε) (v : κ) : Nat := slotLoop key v ks 0 0

variable (key) in
theorem slotLoop_spec (v : κ) (ks : List ε) : ∀ (i slot : Nat), slot ≤ i →
    slotLoop key v ks i slot ≤ i + ks.length ∧
      (slotLoop key v ks i slot = slot ∨
        ∃ j k, slotLoop key v ks i slot = i + j + 1 ∧ ks[j]? = some k ∧ key k ≤ v) ∧
      ∀ j k, ks[j]? = some k → slotLoop key v ks i slot ≤ i + j → v < key k := by
  induction ks with
  | nil =>
    intro i slot h
    refine ⟨by rw [slotLoop]; simpa using h, .inl rfl, fun j k hk => ?_⟩
    simp at hk
  | cons k ks ih =>
    intro i slot h
    by_cases hle : key k ≤ v
    · have heq : slotLoop key v (k :: ks) i slot = slotLoop key v ks (i + 1) (i + 1) := by
        rw [slotLoop, if_pos hle]
      obtain ⟨hbound, hlast, hbehind⟩ := ih (i + 1) (i + 1) (Nat.le_refl _)
      rw [heq]
      refine ⟨by rw [List.length_cons]; omega, .inr ?_, fun j x hx hj => ?_⟩
      · rcases hlast with hlast | ⟨j, x, hj, hx, hxv⟩
        · exact ⟨0, k, hlast, rfl, hle⟩
        · exact ⟨j + 1, x, by omega, hx, hxv⟩
      · cases j with
        | zero =>
          rcases hlast with hlast | ⟨j, _, hj', -, -⟩
          · omega
          · omega
        | succ j => exact hbehind j x hx (by omega)
    · have heq : slotLoop key v (k :: ks) i slot = slotLoop key v ks (i + 1) slot := by
        rw [slotLoop, if_neg hle]
      obtain ⟨hbound, hlast, hbehind⟩ := ih (i + 1) slot (by omega)
      rw [heq]
      refine ⟨by rw [List.length_cons]; omega, ?_, fun j x hx hj => ?_⟩
      · rcases hlast with hlast | ⟨j, x, hj, hx, hxv⟩
        · exact .inl hlast
        · exact .inr ⟨j + 1, x, by omega, hx, hxv⟩
      · cases j with
        | zero =>
          cases hx
          exact lt_of_not_ge hle
        | succ j => exact hbehind j x hx (by omega)

theorem slot_le (ks : List ε) (v : κ) : slot key ks v ≤ ks.length := by
  have hbound := (slotLoop_spec key v ks 0 0 (Nat.le_refl _)).1
  rwa [Nat.zero_add] at hbound

theorem slot_left {ks : List ε} {v : κ} {i : Nat} {k : ε} (hi : i + 1 = slot key ks v)
    (hk : ks[i]? = some k) : key k ≤ v := by
  rcases (slotLoop_spec key v ks 0 0 (Nat.le_refl _)).2.1 with h | ⟨j, x, h, hx, hle⟩
  · exact absurd (hi.trans h) (Nat.succ_ne_zero i)
  · have hij : i = j := by
      rw [slot, h] at hi
      omega
    rw [hij, hx] at hk
    cases hk
    exact hle

theorem slot_right {ks : List ε} {v : κ} {i : Nat} {k : ε} (hi : slot key ks v ≤ i)
    (hk : ks[i]? = some k) : v < key k :=
  (slotLoop_spec key v ks 0 0 (Nat.le_refl _)).2.2 i k hk (by
    rw [Nat.zero_add]
    exact hi)

/-- A hole found from the root by choosing a child on every level. -/
def Ctx.Chosen (choose : List ε → Nat) : {H k : Nat} → Ctx ε H k → Prop
  | _, _, .top => True
  | _, _, .frame _ keys left _ up => left.length = choose keys ∧ up.Chosen choose

/-- The search of a key by all separators leads to where the key may stand. -/
theorem Ctx.admits_of_chosen {H k : Nat} (ctx : Ctx ε H k) {v : κ}
    (h : ctx.Chosen fun ks => slot key ks v) : ctx.Admits key v := by
  induction ctx with
  | top =>
    rw [Admits]
    trivial
  | frame id keys left right up ih =>
    rw [Chosen] at h
    rw [Admits]
    exact ⟨fun k hk => slot_right h.1.ge hk, fun i k hi hk => slot_left (hi.trans h.1) hk, ih h.2⟩

/-! ### Searches that look at part of the separators -/

/-- The entry is below the child chosen on every level. -/
def Leads (choose : List ε → Nat) (e : ε) : {h : Nat} → BPlusTree ε h → Prop
  | 0, _ => True
  | _ + 1, t => ∃ c, t.children[choose t.keys]? = some c ∧ e ∈ c.entries ∧ Leads choose e c

theorem leads_node {choose : List ε → Nat} {e : ε} {id : Nat} {ks : List ε}
    {cs : List (BPlusTree ε h)} : Leads choose e (node id ks cs) ↔
      ∃ c, cs[choose ks]? = some c ∧ e ∈ c.entries ∧ Leads choose e c := Iff.rfl

theorem Ctx.leads_plug {choose : List ε → Nat} {e : ε} {H k : Nat} (ctx : Ctx ε H k)
    {t : BPlusTree ε k} (hchosen : ctx.Chosen choose) (he : e ∈ t.entries)
    (ht : Leads choose e t) : Leads choose e (ctx.plug t) := by
  induction ctx with
  | top =>
    rw [plug]
    exact ht
  | frame id keys left right up ih =>
    rw [Chosen] at hchosen
    rw [plug]
    refine ih hchosen.2 ?_ (leads_node.mpr ⟨t, ?_, he, ht⟩)
    · rw [entries_node]
      exact List.mem_flatMap.mpr ⟨t, by simp, he⟩
    · rw [← hchosen.1]
      exact getElem?_hole _ _ _

/-- No node has more than `n` separators. -/
def Narrow (n : Nat) (t : BPlusTree ε h) : Prop :=
  ∀ (id : Nat) (ks : List ε) (cs : List Nat), .inner id ks cs ∈ t.records → ks.length ≤ n

theorem narrow_leaf (n : Nat) (l : Leaf ε) : Narrow n (leaf l) := by
  intro id ks cs hr
  rw [records_leaf] at hr
  cases Multiset.mem_singleton.mp hr

theorem narrow_node {n id : Nat} {ks : List ε} {cs : List (BPlusTree ε h)} :
    Narrow n (node id ks cs) ↔ ks.length ≤ n ∧ ∀ c ∈ cs, Narrow n c := by
  constructor
  · intro hn
    refine ⟨hn id ks _ (Multiset.mem_cons_self _ _), fun c hc id' ks' cs' hr => hn id' ks' cs' ?_⟩
    exact Multiset.mem_cons_of_mem (mem_recordsOf.mpr ⟨c, hc, hr⟩)
  · rintro ⟨hks, hcs⟩ id' ks' cs' hr
    rcases Multiset.mem_cons.mp hr with hr | hr
    · cases hr
      exact hks
    · obtain ⟨c, hc, hr⟩ := mem_recordsOf.mp hr
      exact hcs c hc id' ks' cs' hr

/-- In a narrow tree, a choice that is right on few separators is right. -/
theorem Ctx.chosen_congr {n : Nat} {choose choose' : List ε → Nat}
    (hagree : ∀ ks : List ε, ks.length ≤ n → choose ks = choose' ks) {H k : Nat} (ctx : Ctx ε H k)
    {t : BPlusTree ε k} (hn : Narrow n (ctx.plug t)) (h : ctx.Chosen choose) :
    ctx.Chosen choose' := by
  induction ctx with
  | top =>
    rw [Chosen]
    trivial
  | frame id keys left right up ih =>
    rw [plug] at hn
    rw [Chosen] at h ⊢
    have hkeys : keys.length ≤ n := by
      refine hn id keys ((left ++ t :: right).map BPlusTree.rootId) ?_
      rw [records_plug, records_node]
      exact Multiset.mem_add.mpr (.inr (Multiset.mem_cons_self _ _))
    exact ⟨h.1.trans (hagree keys hkeys), ih hn h.2⟩

/-- Entries in ascending order are below one child each. -/
theorem child_unique {cs : List (BPlusTree ε h)} (hasc : Ascending key (entriesOf cs)) {i j : Nat}
    {c d : BPlusTree ε h} {e : ε} (hc : cs[i]? = some c) (hd : cs[j]? = some d)
    (hec : e ∈ c.entries) (hed : e ∈ d.entries) : i = j := by
  -- an entry below an earlier and a later child would be less than itself
  have hlt : ∀ {i j : Nat} {c d : BPlusTree ε h}, cs[i]? = some c → cs[j]? = some d →
      e ∈ c.entries → e ∈ d.entries → ¬ i < j := by
    intro i j c d hc hd hec hed hij
    rw [← List.take_append_drop j cs, entriesOf_append] at hasc
    refine lt_irrefl _ (hasc.append.2.2 e (List.mem_flatMap.mpr ⟨c, ?_, hec⟩) e
      (List.mem_flatMap.mpr ⟨d, ?_, hed⟩))
    · refine List.mem_of_getElem? (i := i) ?_
      rw [List.getElem?_take_of_lt hij]
      exact hc
    · refine List.mem_of_getElem? (i := 0) ?_
      rw [List.getElem?_drop]
      exact hd
  exact Nat.le_antisymm (Nat.not_lt.mp (hlt hd hc hed hec)) (Nat.not_lt.mp (hlt hc hd hec hed))

/-- A search that never chooses the last child of a wide node misses an entry of
every tree that is not narrow. -/
theorem exists_missed {n : Nat} {choose : κ → List ε → Nat}
    (hshort : ∀ v (ks : List ε), n < ks.length → choose v ks < ks.length) :
    ∀ {h : Nat} {t : BPlusTree ε h}, Ordered key t → Filled t → Ascending key t.entries →
      ¬ Narrow n t → ∃ e ∈ t.entries, ¬ Leads (choose (key e)) e t
  | 0, t, _, _, _, hn => absurd (narrow_leaf n t) hn
  | h + 1, t, hord, hfill, hasc, hn => by
    rw [eq_node t] at hord hfill hasc hn ⊢
    generalize t.rootId = id at hord hfill hasc hn ⊢
    generalize t.keys = ks at hord hfill hasc hn ⊢
    generalize t.children = cs at hord hfill hasc hn ⊢
    obtain ⟨hsep, hchildren⟩ := ordered_node.mp hord
    rw [entries_node] at hasc ⊢
    rw [narrow_node, not_and_or] at hn
    rcases hn with hwide | hdeep
    · have hlast : ks.length < cs.length := by
        have := hsep.length
        omega
      have hmem : cs[ks.length] ∈ cs := List.getElem_mem hlast
      obtain ⟨e, he⟩ := List.exists_mem_of_ne_nil _
        (Filled.entries_ne_nil (filled_node.mp hfill _ hmem) (hchildren _ hmem).branching)
      refine ⟨e, List.mem_flatMap.mpr ⟨_, hmem, he⟩, fun hleads => ?_⟩
      obtain ⟨c, hc, hec, -⟩ := leads_node.mp hleads
      have hsame := child_unique hasc hc (List.getElem?_eq_getElem hlast) hec he
      have := hshort (key e) ks (Nat.not_le.mp hwide)
      omega
    · obtain ⟨c, hdeep⟩ := not_forall.mp hdeep
      obtain ⟨hcs, hnc⟩ := Classical.not_imp.mp hdeep
      obtain ⟨e, he, hmissed⟩ := exists_missed hshort (hchildren c hcs) (filled_node.mp hfill c hcs)
        (ascending_child hasc c hcs) hnc
      refine ⟨e, List.mem_flatMap.mpr ⟨c, hcs, he⟩, fun hleads => hmissed ?_⟩
      obtain ⟨d, hd, hed, hleads⟩ := leads_node.mp hleads
      obtain ⟨i, hi⟩ := List.getElem?_of_mem hcs
      have hij := child_unique hasc hd hi hed he
      rw [hij, hi] at hd
      cases hd
      exact hleads

end Order

/-! ### The leaf chain -/

/-- Leaf after leaf, by the ids they name, from `start` to `stop`. -/
def Links : Nat → List (Leaf ε) → Nat → Prop
  | start, [], stop => start = stop
  | start, l :: ls, stop => start = l.id ∧ Links l.next ls stop

theorem links_append {ls ms : List (Leaf ε)} {start stop : Nat} :
    Links start (ls ++ ms) stop ↔ ∃ mid, Links start ls mid ∧ Links mid ms stop := by
  induction ls generalizing start with
  | nil =>
    constructor
    · exact fun h => ⟨start, rfl, h⟩
    · rintro ⟨_, rfl, h⟩
      exact h
  | cons l ls ih =>
    constructor
    · rintro ⟨hid, h⟩
      obtain ⟨mid, hls, hms⟩ := ih.mp h
      exact ⟨mid, ⟨hid, hls⟩, hms⟩
    · rintro ⟨mid, ⟨hid, hls⟩, hms⟩
      exact ⟨hid, ih.mpr ⟨mid, hls, hms⟩⟩

/-! ### Well-formed trees -/

/-- A tree in distinct pages, searchable and scannable from its first leaf: the
separators separate, the entries ascend, the leaves are linked from `first` to 0 and
none is empty, but the root of the empty tree. -/
structure WellFormed {κ : Type} [LinearOrder κ] (key : ε → κ) (first : Nat) (t : BPlusTree ε h) :
    Prop where
  nodup : t.ids.Nodup
  ordered : Ordered key t
  ascending : Ascending key t.entries
  filled : t.entries ≠ [] → Filled t
  empty : t.entries = [] → h = 0
  linked : Links first t.leaves 0

end BPlusTree
end Foundation
