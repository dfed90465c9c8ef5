import CwDb.Storage.Index.Exchange

/-! How full the leaves of an index of integers are.

An integer takes nineteen bytes of a leaf, so a leaf holds 214 of them and is too empty
with 143. Only a leaf that is alone, or the halves and thirds of one that overflowed, come
up short; dealing the entries of two leaves out over three leaves no less than 71 in each,
a third of a page (`ThirdFull`). Insertions and erasures keep that whatever the order of
the keys, and do no more than that: the bound of two thirds holds of no index that redealt. -/
namespace CwDb.Storage.DiskBspIndex
open Foundation BPlusTree

variable {H : Nat} {n : PageId} {l : Leaf LeafEntry}

/-! ### Entries of integers -/

theorem keyLen_int {e : LeafEntry} (he : e.Encodes .int) : e.keyLen = 9 := by
  obtain ⟨i, hvalue⟩ := Value.hasType_int he.hasType
  have hlen := he.decode.2.2.2
  rw [hvalue] at hlen
  exact UInt16.toNat_inj.mp hlen

section Ints
variable {es : List LeafEntry}

theorem leafPayloadBytes_ints (hes : ∀ e ∈ es, e.Encodes .int) :
    leafPayloadBytes es = 12 + 19 * es.length :=
  leafPayloadBytes_int es fun e he => keyLen_int (hes e he)

theorem leafOverflow_ints (hes : ∀ e ∈ es, e.Encodes .int) :
    leafOverflow es = decide (214 < es.length) := by
  have hpage : kPageSize = 4096 := rfl
  rw [leafOverflow, leafPayloadBytes_ints hes]
  exact decide_eq_decide.mpr (by omega)

theorem leafUnderflow_ints (hes : ∀ e ∈ es, e.Encodes .int) :
    leafUnderflow es false = decide (es.length < 144) := by
  have hfill : kMinLeafFillBytes = 2734 := rfl
  rw [leafUnderflow, if_neg Bool.false_ne_true, leafPayloadBytes_ints hes]
  cases es with
  | nil => rfl
  | cons e es =>
    rw [if_neg (by simp)]
    exact decide_eq_decide.mpr (by omega)

end Ints

theorem fits_ints (hl : ∀ e ∈ l.entries, e.Encodes .int) : Fits (leaf l) ↔ l.entries.length ≤ 214 := by
  show leafOverflow l.entries = false ↔ _
  rw [leafOverflow_ints hl, decide_eq_false_iff_not, Nat.not_lt]

theorem lendsEntry_ints (hl : ∀ e ∈ l.entries, e.Encodes .int) :
    lendsEntry (leaf l) = true ↔ 144 ≤ l.entries.length := by
  show (!leafUnderflow l.entries false) = true ↔ _
  rw [leafUnderflow_ints hl, Bool.not_eq_true', decide_eq_false_iff_not, Nat.not_lt]

/-! ### A third of a page -/

/-- A leaf that is alone, or leaves of 71 entries at least. -/
def ThirdFull (row : List (Leaf LeafEntry)) : Prop :=
  row.length = 1 ∨ ∀ m ∈ row, 71 ≤ m.entries.length

/-- The same of all leaves but one, which may have an entry less. -/
def ThirdFullBut (l : Leaf LeafEntry) (row : List (Leaf LeafEntry)) : Prop :=
  row.length = 1 ∨ 70 ≤ l.entries.length ∧ ∀ m ∈ row, m.id ≠ l.id → 71 ≤ m.entries.length

theorem ThirdFull.exchange {xs ms row row' : List (Leaf LeafEntry)}
    (hbut : ThirdFullBut l row) (hl : l ∈ xs) (hnodup : (row.map Leaf.id).Nodup)
    (hms : ∀ m ∈ ms, 71 ≤ m.entries.length) (h : Exchanged xs ms row row') : ThirdFull row' := by
  obtain ⟨before, after, rfl, rfl⟩ := h
  refine .inr fun m hm => ?_
  have hpos := List.length_pos_of_mem hl
  rcases hbut with hone | ⟨-, hothers⟩
  · simp only [List.length_append] at hone
    have hbefore : before = [] := List.length_eq_zero_iff.mp (by omega)
    have hafter : after = [] := List.length_eq_zero_iff.mp (by omega)
    rw [hbefore, hafter, List.nil_append, List.append_nil] at hm
    exact hms m hm
  · have hl' : l.id ∈ xs.map Leaf.id := List.mem_map_of_mem hl
    rw [List.map_append, List.map_append] at hnodup
    obtain ⟨hfront, -, hback⟩ := List.nodup_append.mp hnodup
    obtain ⟨-, -, hfront'⟩ := List.nodup_append.mp hfront
    rcases List.mem_append.mp hm with hm | hm
    · rcases List.mem_append.mp hm with hm | hm
      · exact hothers m (by simp [hm]) (hfront' _ (List.mem_map_of_mem hm) _ hl')
      · exact hms m hm
    · refine hothers m (by simp [hm]) fun heq => ?_
      exact hback _ (List.mem_append_right _ hl') _ (List.mem_map_of_mem hm) heq.symm

/-- The runs are thirds of the list. -/
theorem threeWayRuns_length {α : Type} (xs : List α) :
    (∀ run ∈ [(threeWayRuns xs).1, (threeWayRuns xs).2.1, (threeWayRuns xs).2.2],
      xs.length / 3 ≤ run.length ∧ run.length ≤ (xs.length + 2) / 3) := by
  simp only [threeWayRuns, threeWayCounts, List.forall_mem_cons, List.length_take, List.length_drop]
  refine ⟨?_, ?_, ?_, by simp⟩
  · omega
  · omega
  · omega

theorem dealOver_length (n : PageId) (a b : Leaf LeafEntry) (es : List LeafEntry) :
    ∀ m ∈ dealOver n a b es, es.length / 3 ≤ m.entries.length ∧ m.entries.length ≤ (es.length + 2) / 3 := by
  have hruns := threeWayRuns_length es
  simp only [List.forall_mem_cons] at hruns
  simp only [dealOver, List.forall_mem_cons]
  exact ⟨hruns.1, hruns.2.1, hruns.2.2.1, by simp⟩

theorem ThirdFull.but {row : List (Leaf LeafEntry)} (h : ThirdFull row) (hl : l ∈ row) :
    ThirdFullBut l row :=
  h.imp_right fun hall => ⟨Nat.le_of_succ_le (hall l hl), fun m hm _ => hall m hm⟩

/-- The neighbour of the leaf, one of two. -/
theorem ThirdFullBut.neighbour {before after : List (Leaf LeafEntry)} {a b : Leaf LeafEntry}
    (h : ThirdFullBut l (before ++ [a, b] ++ after))
    (hnodup : ((before ++ [a, b] ++ after).map Leaf.id).Nodup) :
    70 ≤ l.entries.length ∧ (l = a → 71 ≤ b.entries.length) ∧ (l = b → 71 ≤ a.entries.length) := by
  have hmany : (before ++ [a, b] ++ after).length ≠ 1 := by
    simp only [List.length_append, List.length_cons]
    omega
  obtain ⟨hl, hothers⟩ := h.resolve_left hmany
  have hab : a.id ≠ b.id := by
    rw [List.map_append, List.map_append] at hnodup
    have hpair := (List.nodup_append.mp (List.nodup_append.mp hnodup).1).2.1
    simpa using hpair
  refine ⟨hl, ?_, ?_⟩
  · rintro rfl
    exact hothers b (by simp) hab.symm
  · rintro rfl
    exact hothers a (by simp) hab

section Exchanges
variable {xs ms row row' : List (Leaf LeafEntry)} {pages : Nat}

theorem forall_two {P : Leaf LeafEntry → Prop} {a b : Leaf LeafEntry} (ha : P a) (hb : P b) :
    ∀ m ∈ [a, b], P m := by
  simp [ha, hb]

/-- An insertion keeps the leaves a third full. -/
theorem TakeExchange.thirdFull (h : TakeExchange n l xs ms) (hexchanged : Exchanged xs ms row row')
    (hnodup : (row.map Leaf.id).Nodup) (hints : ∀ m ∈ row, ∀ e ∈ m.entries, e.Encodes .int)
    (hfull : ThirdFull row) : ThirdFull row' := by
  obtain ⟨before, after, rfl, rfl⟩ := hexchanged
  have hself : l ∈ xs → ∀ e ∈ l.entries, e.Encodes .int := fun hl => hints l (by simp [hl])
  have hbut : l ∈ xs → ThirdFullBut l (before ++ xs ++ after) := fun hl => hfull.but (by simp [hl])
  have hover : ¬ Fits (leaf l) → l ∈ xs → 215 ≤ l.entries.length := by
    intro hfits hl
    rw [fits_ints (hself hl), Nat.not_le] at hfits
    exact hfits
  cases h with
  | fits => exact hfull
  | halves hfits =>
    have hl : l ∈ [l] := List.mem_singleton_self l
    have hlong := hover hfits hl
    refine ThirdFull.exchange (hbut hl) hl hnodup (forall_two ?_ ?_) ⟨before, after, rfl, rfl⟩
    · rw [leftHalf, List.length_take]
      omega
    · rw [rightHalf, List.length_drop]
      omega
  | give b hfits =>
    have hl : l ∈ [l, b] := List.mem_cons_self
    have hlong := hover hfits hl
    have hb := ((hbut hl).neighbour hnodup).2.1 rfl
    refine ThirdFull.exchange (hbut hl) hl hnodup (forall_two ?_ ?_) ⟨before, after, rfl, rfl⟩
    · rw [givenRight, List.length_dropLast]
      omega
    · rw [gotLeft, List.length_append]
      omega
  | dealRight b hfits =>
    have hl : l ∈ [l, b] := List.mem_cons_self
    have hlong := hover hfits hl
    refine ThirdFull.exchange (hbut hl) hl hnodup (fun m hm => ?_) ⟨before, after, rfl, rfl⟩
    have hthird := (dealOver_length _ _ _ _ m hm).1
    rw [(sortedRun_perm _).length_eq, List.length_append] at hthird
    omega
  | dealLeft d hfits =>
    have hl : l ∈ [d, l] := List.mem_cons_of_mem _ List.mem_cons_self
    have hlong := hover hfits hl
    refine ThirdFull.exchange (hbut hl) hl hnodup (fun m hm => ?_) ⟨before, after, rfl, rfl⟩
    have hthird := (dealOver_length _ _ _ _ m hm).1
    rw [(sortedRun_perm _).length_eq, List.length_append] at hthird
    omega

/-- Two leaves joined, or dealt out over three. -/
theorem joined_length {a b : Leaf LeafEntry} (hints : ∀ e ∈ a.entries ++ b.entries, e.Encodes .int)
    (hmany : 71 ≤ (a.entries ++ b.entries).length) : ∀ m ∈ joined n a b, 71 ≤ m.entries.length := by
  intro m hm
  rw [joined] at hm
  by_cases hfits : Fits (leaf (mergedLeaf a b))
  · rw [if_pos hfits] at hm
    rw [List.mem_singleton.mp hm]
    exact hmany
  · rw [if_neg hfits] at hm
    rw [fits_ints (l := mergedLeaf a b) hints, Nat.not_le] at hfits
    have hlong : 214 < (a.entries ++ b.entries).length := hfits
    have hthird := (dealOver_length _ _ _ _ m hm).1
    omega

/-- So does an erasure. -/
theorem ReleaseExchange.thirdFull (h : ReleaseExchange n l xs ms pages)
    (hexchanged : Exchanged xs ms row row') (hnodup : (row.map Leaf.id).Nodup)
    (hints : ∀ m ∈ row, ∀ e ∈ m.entries, e.Encodes .int) (hbut : ThirdFullBut l row) :
    ThirdFull row' := by
  obtain ⟨before, after, rfl, rfl⟩ := hexchanged
  have hmem : ∀ m ∈ xs, ∀ e ∈ m.entries, e.Encodes .int := fun m hm => hints m (by simp [hm])
  cases h with
  | stays hfull =>
    have hl : l ∈ [l] := List.mem_singleton_self l
    rw [leafUnderflow_ints (hmem l hl), decide_eq_false_iff_not, Nat.not_lt] at hfull
    refine ThirdFull.exchange hbut hl hnodup (fun m hm => ?_) ⟨before, after, rfl, rfl⟩
    rw [List.mem_singleton.mp hm]
    omega
  | fromLeft d hlends =>
    have hl : l ∈ [d, l] := List.mem_cons_of_mem _ List.mem_cons_self
    rw [lendsEntry_ints (hmem d List.mem_cons_self)] at hlends
    have hlong := (hbut.neighbour hnodup).1
    have hlast : d.entries.getLast?.toList.length = 1 := by
      rw [List.getLast?_eq_some_getLast (List.ne_nil_of_length_pos (by omega))]
      rfl
    refine ThirdFull.exchange hbut hl hnodup (forall_two ?_ ?_) ⟨before, after, rfl, rfl⟩
    · rw [givenRight, List.length_dropLast]
      omega
    · rw [gotLeft, List.length_append]
      omega
  | fromRight d hlends =>
    have hl : l ∈ [l, d] := List.mem_cons_self
    rw [lendsEntry_ints (hmem d (List.mem_cons_of_mem _ List.mem_cons_self))] at hlends
    have hlong := (hbut.neighbour hnodup).1
    have hfirst : d.entries.head?.toList.length = 1 := by
      rw [List.head?_eq_some_head (List.ne_nil_of_length_pos (by omega))]
      rfl
    refine ThirdFull.exchange hbut hl hnodup (forall_two ?_ ?_) ⟨before, after, rfl, rfl⟩
    · rw [List.length_append]
      omega
    · rw [List.length_tail]
      omega
  | joinLeft d =>
    have hl : l ∈ [d, l] := List.mem_cons_of_mem _ List.mem_cons_self
    have hd := (hbut.neighbour hnodup).2.2 rfl
    refine ThirdFull.exchange hbut hl hnodup (joined_length (fun e he => ?_) ?_) ⟨before, after, rfl, rfl⟩
    · rcases List.mem_append.mp he with he | he
      · exact hmem d List.mem_cons_self e he
      · exact hmem l hl e he
    · rw [List.length_append]
      omega
  | joinRight d =>
    have hl : l ∈ [l, d] := List.mem_cons_self
    have hd := (hbut.neighbour hnodup).2.1 rfl
    refine ThirdFull.exchange hbut hl hnodup (joined_length (fun e he => ?_) ?_) ⟨before, after, rfl, rfl⟩
    · rcases List.mem_append.mp he with he | he
      · exact hmem l hl e he
      · exact hmem d (List.mem_cons_of_mem _ List.mem_cons_self) e he
    · rw [List.length_append]
      omega

end Exchanges

end CwDb.Storage.DiskBspIndex
