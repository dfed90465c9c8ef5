import CwDb.Storage.Index.Fill

/-! An index of integers that grew from an empty one.

Such an index has a root and leaves only: a root with inner nodes below it never comes
about. The root takes 273 leaves, so an operation that returns leaves at most as many, and
one that would need more throws (`takes_iff`, `releases_iff`). -/
namespace CwDb.Storage.DiskBspIndex
open Foundation BPlusTree

variable {H : Nat} {n : PageId} {l : Leaf LeafEntry} {s s' : DiskBspIndex NodeMap}

/-! ### What a root takes -/

theorem innerOverflow_ints {ks : List LeafEntry} {cs : List PageId} (hlength : ks.length + 1 = cs.length)
    (hks : ∀ e ∈ ks, e.Encodes .int) : innerOverflow ks cs = decide (273 < cs.length) := by
  have hpage : kPageSize = 4096 := rfl
  have hsum : ∀ es : List LeafEntry, (∀ e ∈ es, e.Encodes .int) →
      (es.map fun k => 2 + k.keyLen.toNat).sum = 11 * es.length := by
    intro es hes
    induction es with
    | nil => rfl
    | cons e es ih =>
      have he : e.keyLen.toNat = 9 := by
        rw [keyLen_int (hes e List.mem_cons_self)]
        rfl
      have hrest := ih fun x hx => hes x (List.mem_cons_of_mem _ hx)
      rw [List.map_cons, List.sum_cons, List.length_cons, hrest, he]
      omega
  rw [innerOverflow, innerPayloadBytes, hsum ks hks]
  exact decide_eq_decide.mpr (by omega)

theorem fits_root_ints {pid : PageId} {ks : List LeafEntry} {cs : List (BPlusTree LeafEntry 0)}
    (hlength : ks.length + 1 = cs.length) (hks : ∀ e ∈ ks, e.Encodes .int) :
    Fits (node pid ks cs) ↔ cs.length ≤ 273 := by
  rw [Fits, rootRecord_node, overflows_inner, innerOverflow_ints (by rwa [List.length_map]) hks,
    decide_eq_false_iff_not, Nat.not_lt, List.length_map]

/-- A leaf with integers in it. -/
def HoldsInts (m : Leaf LeafEntry) : Prop := m.entries ≠ [] ∧ ∀ e ∈ m.entries, e.Encodes .int

theorem HoldsInts.minEntry {m : Leaf LeafEntry} (h : HoldsInts m) : (leaf m).minEntry.Encodes .int := by
  refine h.2 _ ?_
  have hmem := minEntry_mem (t := leaf m) (by rw [entries_leaf]; exact h.1)
  rwa [entries_leaf] at hmem

/-- A root over leaves of integers. -/
theorem fits_above_ints {pid : PageId} {row : List (Leaf LeafEntry)} (hne : row ≠ [])
    (hrow : ∀ m ∈ row, HoldsInts m) : Fits (above pid (leavesAt row)) ↔ row.length ≤ 273 := by
  have hpos := List.length_pos_of_ne_nil hne
  rw [fits_root_ints, List.length_map]
  · rw [minima, List.length_map, List.length_tail]
    exact Nat.sub_add_cancel (by rwa [List.length_map])
  · intro e he
    obtain ⟨c, hc, rfl⟩ := List.mem_map.mp he
    obtain ⟨m, hm, rfl⟩ := List.mem_map.mp (List.mem_of_mem_tail hc)
    exact (hrow m hm).minEntry

theorem leavesAt_leavesOf (cs : List (BPlusTree LeafEntry 0)) : leavesAt (leavesOf cs) = cs := by
  induction cs with
  | nil => rfl
  | cons c cs ih =>
    rw [leavesOf, List.flatMap_cons, leavesAt, List.map_append]
    show leaf c :: leavesAt (leavesOf cs) = c :: cs
    rw [ih]
    rfl

/-- The children of the root are the row of leaves. -/
theorem children_of_root (left right : List (BPlusTree LeafEntry 0)) (ms : List (Leaf LeafEntry)) :
    left ++ leavesAt ms ++ right = leavesAt ((Ctx.top : Ctx LeafEntry 1 1).leavesWith left right ms) := by
  rw [Ctx.leavesWith, Ctx.leavesBefore, Ctx.leavesAfter, List.nil_append, List.append_nil, leavesAt,
    leavesAt, List.map_append, List.map_append]
  have hleft : List.map leaf (leavesOf left) = left := leavesAt_leavesOf left
  have hright : List.map leaf (leavesOf right) = right := leavesAt_leavesOf right
  rw [hleft, hright]

/-- Two leaves are written, and the root then. -/
theorem pairFits_ints {pid : PageId} {left right : List (BPlusTree LeafEntry 0)}
    {ms : List (Leaf LeafEntry)} (hne : ms ≠ []) (hfits : ∀ m ∈ ms, Fits (leaf m))
    (hrow : ∀ m ∈ (Ctx.top : Ctx LeafEntry 1 1).leavesWith left right ms, HoldsInts m) :
    PairFits (Ctx.top : Ctx LeafEntry 1 1) pid left (leavesAt ms) right ↔
      ((Ctx.top : Ctx LeafEntry 1 1).leavesWith left right ms).length ≤ 273 := by
  have hpos := List.length_pos_of_ne_nil hne
  have hlong := leavesWith_length (Ctx.top : Ctx LeafEntry 1 1) left right ms
  rw [PairFits, Refreshes, MinFits, children_of_root,
    fits_above_ints (List.ne_nil_of_length_pos (hpos.trans_le hlong)) hrow]
  constructor
  · exact fun h => h.2.1
  · refine fun h => ⟨fun y hy => ?_, h, trivial⟩
    obtain ⟨m, hm, rfl⟩ := List.mem_map.mp hy
    exact hfits m hm

/-! ### When an operation returns -/

/-- The row below a root, one leaf of it changed: all others are as an index has them. -/
structure RootRow (left right : List (BPlusTree LeafEntry 0)) : Prop where
  holds : ∀ m : Leaf LeafEntry, leaf m ∈ left ++ right → HoldsInts m
  fits : ∀ m : Leaf LeafEntry, leaf m ∈ left ++ right → Fits (leaf m)
  ne : left ++ right ≠ []
  room : (left ++ right).length < 273

section Root
variable {pid : PageId} {ks : List LeafEntry} {left right init rest : List (BPlusTree LeafEntry 0)}
  {ms : List (Leaf LeafEntry)}

theorem mem_leavesWith {m : Leaf LeafEntry} (hm : m ∈ ms) :
    m ∈ (Ctx.top : Ctx LeafEntry 1 1).leavesWith left right ms := by
  rw [Ctx.leavesWith]
  simp [hm]

theorem leavesWith_root_length :
    ((Ctx.top : Ctx LeafEntry 1 1).leavesWith left right ms).length =
      (left ++ right).length + ms.length := by
  rw [Ctx.leavesWith, Ctx.leavesBefore, Ctx.leavesAfter]
  simp only [List.length_append, length_leavesOf, List.length_nil]
  omega

/-- Leaves dealt out over three fit. -/
theorem fits_dealOver {a b : Leaf LeafEntry} {es : List LeafEntry} (hlength : es.length ≤ 429)
    (hints : ∀ m ∈ dealOver n a b es, HoldsInts m) : ∀ m ∈ dealOver n a b es, Fits (leaf m) := by
  intro m hm
  have hle := (dealOver_length n a b es m hm).2
  exact (fits_ints (hints m hm).2).mpr (by omega)

/-- An insertion returns if the root takes the leaves. -/
theorem takes_iff (hothers : RootRow left right) (hl : l.entries.length ≤ 215)
    (hrow : ∀ m ∈ takenLeaves n (Ctx.frame pid ks left right .top) l, HoldsInts m) :
    Takes n (Ctx.frame pid ks left right .top) l ↔
      (takenLeaves n (Ctx.frame pid ks left right .top) l).length ≤ 273 := by
  rw [Takes, takenLeaves] at *
  by_cases hfits : Fits (leaf l)
  · rw [if_pos hfits, Ctx.plug]
    refine iff_of_true (.inl hfits) ?_
    have hroom := hothers.room
    rw [Ctx.plug, leaves_node, length_leavesOf]
    rw [List.length_append] at hroom ⊢
    rw [List.length_cons]
    omega
  rw [if_neg hfits] at hrow ⊢
  rw [or_iff_right hfits]
  have hdeal : ∀ {left₀ right₀ : List (BPlusTree LeafEntry 0)} {a b : Leaf LeafEntry},
      (a.entries ++ b.entries).length ≤ 429 →
      (∀ m ∈ (Ctx.top : Ctx LeafEntry 1 1).leavesWith left₀ right₀ (dealtLeaves n a b), HoldsInts m) →
      ((∀ y ∈ leavesAt (dealtLeaves n a b), Fits y) ∧ Settles (n + 1) (Ctx.top : Ctx LeafEntry 1 1)
        (above pid (left₀ ++ leavesAt (dealtLeaves n a b) ++ right₀)) ↔
          ((Ctx.top : Ctx LeafEntry 1 1).leavesWith left₀ right₀ (dealtLeaves n a b)).length ≤ 273) := by
    intro left₀ right₀ a b hlength hholds
    have hall : ∀ m ∈ dealtLeaves n a b, Fits (leaf m) := by
      refine fits_dealOver ?_ fun m hm => hholds m (mem_leavesWith hm)
      rwa [(sortedRun_perm _).length_eq]
    have hne : (Ctx.top : Ctx LeafEntry 1 1).leavesWith left₀ right₀ (dealtLeaves n a b) ≠ [] := by
      refine List.ne_nil_of_length_pos ?_
      rw [leavesWith_root_length]
      exact Nat.lt_of_lt_of_le (by decide : 0 < 3) (Nat.le_add_left _ _)
    rw [Settles, children_of_root, fits_above_ints hne hholds]
    refine and_iff_right fun y hy => ?_
    obtain ⟨m, hm, rfl⟩ := List.mem_map.mp hy
    exact hall m hm
  cases right with
  | nil =>
    rw [splitLeaves] at hrow ⊢
    rw [LeafSettles]
    rcases List.eq_nil_or_concat left with rfl | ⟨init, d, hleft⟩
    · exact absurd rfl hothers.ne
    · rw [List.concat_eq_append] at hleft
      subst hleft
      have hd := (fits_ints (hothers.holds d (by simp; exact .inr rfl)).2).mp
        (hothers.fits d (by simp; exact .inr rfl))
      rw [List.getLast?_concat, List.dropLast_concat] at hrow ⊢
      rw [if_neg (by simp), settles_left hfits]
      refine hdeal (a := d) (b := l) ?_ hrow
      rw [List.length_append]
      omega
  | cons b rest =>
    have hb := (fits_ints (hothers.holds b (by simp; exact .inr (.inl rfl))).2).mp
      (hothers.fits b (by simp; exact .inr (.inl rfl)))
    rw [splitLeaves] at hrow ⊢
    rw [LeafSettles]
    by_cases hroom : Fits (leaf (givenRight l)) ∧ Fits (leaf (gotLeft l b))
    · rw [if_pos hroom] at hrow ⊢
      rw [if_pos hroom, children_of_root, fits_above_ints _ hrow]
      refine List.ne_nil_of_length_pos ?_
      rw [leavesWith_root_length]
      exact Nat.lt_of_lt_of_le (by decide : 0 < 2) (Nat.le_add_left _ _)
    · rw [if_neg hroom] at hrow ⊢
      rw [if_neg hroom, settles_right hfits]
      refine hdeal (a := l) (b := b) ?_ hrow
      rw [List.length_append]
      omega

/-- A join returns if the root takes the leaves. -/
theorem joinsLeaves_iff {a b : Leaf LeafEntry} (hlength : (a.entries ++ b.entries).length ≤ 429)
    (hrow : ∀ m ∈ (Ctx.top : Ctx LeafEntry 1 1).leavesWith left right (joined n a b), HoldsInts m) :
    JoinsLeaves n (Ctx.top : Ctx LeafEntry 1 1) pid left a b right ↔
      ((Ctx.top : Ctx LeafEntry 1 1).leavesWith left right (joined n a b)).length ≤ 273 := by
  rw [JoinsLeaves]
  rw [joined] at hrow ⊢
  by_cases hfits : Fits (leaf (mergedLeaf a b))
  · rw [if_pos hfits] at hrow ⊢
    have hne : (Ctx.top : Ctx LeafEntry 1 1).leavesWith left right [mergedLeaf a b] ≠ [] :=
      List.ne_nil_of_mem (mem_leavesWith (List.mem_singleton_self _))
    rw [if_pos hfits, Mends, children_of_root, fits_above_ints hne hrow, List.length_map]
    exact or_iff_right_of_imp fun hone => hone.le.trans (by decide)
  · rw [if_neg hfits] at hrow ⊢
    have hne : dealOver n a b (a.entries ++ b.entries) ≠ [] := List.cons_ne_nil _ _
    rw [if_neg hfits]
    exact pairFits_ints hne (fits_dealOver hlength fun m hm => hrow m (mem_leavesWith hm)) hrow

/-- A separator is replaced: the root fits still. -/
theorem minFits_ints (hlength : ks.length + 1 = (left ++ leaf l :: right).length)
    (hks : ∀ e ∈ ks, e.Encodes .int) (hroom : (left ++ leaf l :: right).length ≤ 273)
    (hholds : HoldsInts l) :
    MinFits (leaf l).minEntry (Ctx.frame pid ks left right (.top : Ctx LeafEntry 1 1)) (leaf l) := by
  cases left with
  | nil =>
    rw [MinFits, MinFits]
    trivial
  | cons c left =>
    rw [MinFits, fits_root_ints]
    · exact hroom
    · rwa [List.length_set]
    · intro e he
      rcases List.mem_or_eq_of_mem_set he with he | rfl
      · exact hks e he
      · exact hholds.minEntry

/-- An erasure returns if the root takes the leaves. -/
theorem releases_iff {slot : Nat} (hothers : RootRow left right)
    (hints : ∀ e ∈ l.entries, e.Encodes .int) (hl : l.entries.length ≤ 214)
    (hlength : ks.length + 1 = (left ++ leaf l :: right).length) (hks : ∀ e ∈ ks, e.Encodes .int)
    (hrow : ∀ m ∈ releasedLeaves n (Ctx.frame pid ks left right .top) l, HoldsInts m) :
    Releases n slot (Ctx.frame pid ks left right .top) l ↔
      (releasedLeaves n (Ctx.frame pid ks left right .top) l).length ≤ 273 := by
  have hroom : (left ++ leaf l :: right).length ≤ 273 := by
    have hroom := hothers.room
    rw [List.length_append] at hroom ⊢
    rw [List.length_cons]
    omega
  rw [Releases]
  rw [releasedLeaves] at hrow ⊢
  by_cases hunder : leafUnderflow l.entries false = true
  swap
  · rw [if_neg hunder] at hrow ⊢
    rw [if_neg hunder, Ctx.plug, Ctx.plug, leaves_node, length_leavesOf]
    refine iff_of_true (fun _ => minFits_ints hlength hks hroom (hrow l ?_)) hroom
    rw [Ctx.leaves_plug, leaves_leaf]
    simp
  rw [if_pos hunder] at hrow ⊢
  rw [if_pos hunder, LeafMends]
  rw [mendedLeaves] at hrow ⊢
  have hshort : l.entries.length < 144 := by
    rwa [leafUnderflow_ints hints, decide_eq_true_eq] at hunder
  have hother : ∀ m : Leaf LeafEntry, leaf m ∈ left ++ right →
      m.entries.length ≤ 214 ∧ (m.entries ++ l.entries).length ≤ 429 := by
    intro m hm
    have hle := (fits_ints (hothers.holds m hm).2).mp (hothers.fits m hm)
    rw [List.length_append]
    omega
  have hright : ∀ {left₀ : List (BPlusTree LeafEntry 0)} (r : Leaf LeafEntry) (rest : List (BPlusTree LeafEntry 0)),
      r.entries.length ≤ 214 →
      (∀ m ∈ (Ctx.top : Ctx LeafEntry 1 1).leavesWith left₀ rest (takeRight l r), HoldsInts m) →
        ∀ m ∈ takeRight l r, Fits (leaf m) := by
    intro left₀ r rest hr hholds
    refine forall_two ?_ ?_
    · refine (fits_ints (hholds _ (mem_leavesWith (by simp [takeRight]))).2).mpr ?_
      have hone : r.entries.head?.toList.length ≤ 1 := by
        cases r.entries.head? with
        | none => exact Nat.zero_le 1
        | some e => exact Nat.le_refl 1
      rw [List.length_append]
      omega
    · refine (fits_ints (hholds _ (mem_leavesWith (by simp [takeRight]))).2).mpr ?_
      rw [List.length_tail]
      omega
  have hleft : ∀ {right₀ : List (BPlusTree LeafEntry 0)} (d : Leaf LeafEntry) (init : List (BPlusTree LeafEntry 0)),
      d.entries.length ≤ 214 →
      (∀ m ∈ (Ctx.top : Ctx LeafEntry 1 1).leavesWith init right₀ (giveRight d l), HoldsInts m) →
        ∀ m ∈ giveRight d l, Fits (leaf m) := by
    intro right₀ d init hd hholds
    refine forall_two ?_ ?_
    · refine (fits_ints (hholds _ (mem_leavesWith (by simp [giveRight]))).2).mpr ?_
      rw [givenRight, List.length_dropLast]
      omega
    · refine (fits_ints (hholds _ (mem_leavesWith (by simp [giveRight]))).2).mpr ?_
      have hone : d.entries.getLast?.toList.length ≤ 1 := by
        cases d.entries.getLast? with
        | none => exact Nat.zero_le 1
        | some e => exact Nat.le_refl 1
      rw [gotLeft, List.length_append]
      omega
  rcases List.eq_nil_or_concat left with rfl | ⟨init, d, hinit⟩
  · cases right with
    | nil => exact absurd rfl hothers.ne
    | cons r rest =>
      have hr := hother r List.mem_cons_self
      rw [remedy_nil] at hrow ⊢
      by_cases hlends : lendsEntry r = true
      · rw [if_pos hlends] at hrow ⊢
        exact pairFits_ints (List.cons_ne_nil _ _) (hright r rest hr.1 hrow) hrow
      · rw [if_neg hlends] at hrow ⊢
        refine joinsLeaves_iff ?_ hrow
        rw [List.length_append]
        omega
  · rw [List.concat_eq_append] at hinit
    subst hinit
    have hd := hother d (List.mem_append_left _ (List.mem_append_right _
      (List.mem_singleton_self (leaf d))))
    by_cases hlends : lendsEntry d = true
    · rw [remedy_fromLeft hlends] at hrow ⊢
      exact pairFits_ints (List.cons_ne_nil _ _) (hleft d init hd.1 hrow) hrow
    · have hlends' : lendsEntry d = false := (Bool.not_eq_true _).mp hlends
      by_cases hr : ∀ r ∈ right.head?, lendsEntry r = false
      · rw [remedy_joinLeft hlends' hr] at hrow ⊢
        refine joinsLeaves_iff ?_ hrow
        exact hd.2
      · cases right with
        | nil => exact absurd (by simp) hr
        | cons r rest =>
          have hr' : lendsEntry r = true := by simpa using hr
          rw [remedy_fromRight_left hlends' hr'] at hrow ⊢
          exact pairFits_ints (List.cons_ne_nil _ _)
            (hright r rest (hother r (List.mem_append_right _ List.mem_cons_self)).1 hrow) hrow

end Root

end CwDb.Storage.DiskBspIndex
