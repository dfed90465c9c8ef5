import CwDb.Storage.TableFormat

/-! A table file cut short.

`load` never asks whether its stream is still good. Where the file ends early and the
variables that were not initialised happen to hold zero (the first two: the magic number
and the version), every read returns, the tags read as NULL, and the load ends like that
of a whole file, with the indexes of the columns it made out opened. So it notices a cut
only where the index file of a column it still read does not open. -/
namespace CwDb.Storage
open Foundation

/-- Where the flags of a column end, among the bytes of all the columns. -/
def flagsEnd : List ColumnDef → Nat → Nat
  | [], _ => 0
  | c :: _, 0 => (writeString c.name).length + 2
  | c :: cs, j + 1 => (writeColumn c).length + flagsEnd cs j

theorem flagsEnd_pos {cs : List ColumnDef} {j : Nat} {c : ColumnDef} (hj : cs[j]? = some c) :
    0 < flagsEnd cs j := by
  induction cs generalizing j with
  | nil => cases hj
  | cons d cs ih =>
    cases j with
    | zero =>
      rw [flagsEnd]
      omega
    | succ j =>
      rw [flagsEnd]
      have := ih hj
      omega

/-- Columns that are indexed only where others are whose flags are among the first `k`
bytes. -/
def IndexedWithin (cs : List ColumnDef) (k : Nat) (bs : List ColumnDef) : Prop :=
  ∀ (j : Nat) (b : ColumnDef), bs[j]? = some b → b.indexed = true →
    ∃ c, cs[j]? = some c ∧ c.indexed = true ∧ flagsEnd cs j ≤ k

theorem IndexedWithin.of_plain {cs bs : List ColumnDef} {k : Nat}
    (h : ∀ b ∈ bs, b.indexed = false) : IndexedWithin cs k bs := by
  intro j b hb hindexed
  rw [h b (List.mem_of_getElem? hb)] at hindexed
  cases hindexed

theorem IndexedWithin.cons {c b : ColumnDef} {cs bs : List ColumnDef} {k : Nat}
    (h : b.indexed = true → c.indexed = true ∧ (writeString c.name).length + 2 ≤ k)
    (hrest : IndexedWithin cs (k - (writeColumn c).length) bs)
    (hcut : (∃ b ∈ bs, b.indexed = true) → (writeColumn c).length ≤ k) :
    IndexedWithin (c :: cs) k (b :: bs) := by
  intro j b' hb hindexed
  cases j with
  | zero =>
    cases hb
    exact ⟨c, rfl, h hindexed⟩
  | succ j =>
    obtain ⟨c', hc', hindexed', hend⟩ := hrest j b' hb hindexed
    have hle := hcut ⟨b', List.mem_of_getElem? hb, hindexed⟩
    exact ⟨c', hc', hindexed', by rw [flagsEnd]; omega⟩

theorem flags_le_writeColumn (c : ColumnDef) :
    (writeString c.name).length + 2 ≤ (writeColumn c).length := by
  rw [writeColumn, List.length_append, List.length_append]
  exact Nat.le_add_right _ _

/-- Columns that are read whole. -/
theorem indexedWithin_kept (cs : List ColumnDef) {k : Nat}
    (hk : (cs.flatMap writeColumn).length ≤ k) : IndexedWithin cs k (cs.map keptColumn) := by
  induction cs generalizing k with
  | nil => exact IndexedWithin.of_plain fun b hb => absurd hb List.not_mem_nil
  | cons c cs ih =>
    rw [List.flatMap_cons, List.length_append] at hk
    have hflags := flags_le_writeColumn c
    exact IndexedWithin.cons (fun h => ⟨h, by omega⟩) (ih (by omega)) fun _ => by omega

/-! ### Reading on past the end -/

section Cut
variable {junk : Nat → Nat}

theorem blank_readPod (w old : Nat) : Blank (readPod w old) fun _ => True :=
  fun n _ => ⟨_, n + 1, Nat.le_succ n, trivial, by rw [readPod, List.drop_nil]⟩

theorem lenient_readPod (w old n : Nat) :
    Lenient (readPod w old) (LittleEndian.encode w n) fun _ _ => True := by
  intro k m hk _
  rw [LittleEndian.encode_length] at hk
  have hdrop : ((LittleEndian.encode w n).take k).drop w = [] :=
    List.drop_of_length_le ((List.length_take_le _ _).trans hk.le)
  exact ⟨_, m + 1, Nat.le_succ m, trivial, by rw [readPod, hdrop]⟩

theorem lenient_readFresh (w n : Nat) :
    Lenient (readFresh junk w) (LittleEndian.encode w n) fun _ _ => True :=
  fun k m hk hm => lenient_readPod w (junk m) n k m hk hm

theorem blank_readChars (n : Nat) : Blank (readChars n) fun _ => True :=
  fun m _ => ⟨_, m, le_refl m, trivial, by rw [readChars, List.drop_nil]⟩

theorem lenient_readChars (s : Str) : Lenient (readChars s.length) s fun _ _ => True := by
  intro k m hk _
  have hdrop : (s.take k).drop s.length = [] :=
    List.drop_of_length_le ((List.length_take_le _ _).trans hk.le)
  exact ⟨_, m, le_refl m, trivial, by rw [readChars, hdrop]⟩

variable (hzero : ∀ i, 2 ≤ i → junk i = 0)
include hzero

theorem blank_readFresh (w : Nat) : Blank (readFresh junk w) (· = 0) := by
  intro n hn
  refine ⟨0, n + 1, Nat.le_succ n, rfl, ?_⟩
  simp only [readFresh, readPod, hzero n hn, List.take_nil, List.drop_nil, LittleEndian.decode,
    Nat.zero_mod, Nat.zero_div, Nat.zero_mul]

/-- A byte that is cut off reads as zero. -/
theorem lenient_byte (b : UInt8) : Lenient (readFresh junk 1) [b] fun _ a => a = 0 := by
  intro k n hk hn
  obtain rfl : k = 0 := Nat.lt_one_iff.mp hk
  exact blank_readFresh hzero 1 n hn

theorem blank_readString : Blank (readString junk) fun _ => True :=
  (blank_readFresh hzero 4).bind fun n _ => blank_readChars n

omit hzero in
theorem lenient_readString (s : Str) :
    Lenient (readString junk) (writeString s) fun _ _ => True := by
  have hlength : (keptString s).length = s.length % 256 ^ 4 := by
    rw [keptString, List.length_take]
    exact min_eq_left (Nat.mod_le _ _)
  have h := Lenient.bind (f := readChars) (readFresh_encode junk 4 s.length)
    (lenient_readFresh 4 s.length) (fun _ n _ => blank_readChars n)
    (hlength ▸ lenient_readChars (keptString s))
  exact h

/-- A NULL, where the tag is cut off. -/
theorem blank_readValue : Blank (readValue junk) fun _ => True := by
  refine (blank_readFresh hzero 1).bind fun tag htag => ?_
  rw [if_pos htag]
  exact Blank.pure trivial

theorem lenient_readValue (v : Value) :
    Lenient (readValue junk) (writeValue v) fun _ _ => True := by
  have hblank : ∀ (_ : Nat) (tag : Nat), tag = 0 → Blank (if tag = 0 then pure Value.null
      else if tag = 1 then do
        let x ← readFresh junk 8
        pure (Value.int (UInt64.ofNat x).toInt64)
      else if tag = 2 then do
        let s ← readString junk
        pure (Value.str s)
      else throw (.runtimeError "Corrupt table file: unknown value tag")) fun _ => True := by
    intro _ tag htag
    rw [if_pos htag]
    exact Blank.pure trivial
  cases v with
  | null => exact Lenient.bind (readFresh_byte junk 0) (lenient_byte hzero 0) hblank Lenient.nil
  | int i =>
    exact Lenient.bind (readFresh_byte junk 1) (lenient_byte hzero 1) hblank
      ((lenient_readFresh 8 i.toUInt64.toNat).last _ fun _ _ _ => trivial)
  | str s =>
    exact Lenient.bind (readFresh_byte junk 2) (lenient_byte hzero 2) hblank
      ((lenient_readString s).last _ fun _ _ _ => trivial)

theorem lenient_readDefault (b : Bool) (v : Value) :
    Lenient (readDefault junk b) (if b then writeValue v else []) fun _ _ => True := by
  cases b with
  | true => exact lenient_readValue hzero v
  | false => exact Lenient.nil

omit hzero in
/-- Flags that are cut off say that the column has neither a default nor an index. -/
theorem blank_afterFlags {flags : Nat} (hflags : flags = 0) (name : Str) (t : Nat)
    {Q : ColumnDef → Prop} (hQ : ∀ b : ColumnDef, b.indexed = false → Q b) :
    Blank (do
      let hasDefault := decide (UInt8.ofNat flags &&& 4 ≠ 0)
      let defaultValue ← readDefault junk hasDefault
      return { name, type := DataType.ofByte (UInt8.ofNat t)
               notNull := decide (UInt8.ofNat flags &&& 1 ≠ 0)
               indexed := decide (UInt8.ofNat flags &&& 2 ≠ 0), hasDefault, defaultValue }) Q := by
  subst hflags
  exact Blank.last (P := fun _ => True) (Blank.pure trivial) _ fun v _ => hQ _ rfl

theorem blank_readColumn : Blank (readColumn junk) fun b => b.indexed = false :=
  (blank_readString hzero).bind fun name _ => (blank_readFresh hzero 1).bind fun t _ =>
    (blank_readFresh hzero 1).bind fun _ hflags => blank_afterFlags hflags name t fun _ h => h

theorem lenient_readColumn (c : ColumnDef) :
    Lenient (readColumn junk) (writeColumn c) fun k b =>
      b.indexed = true → c.indexed = true ∧ (writeString c.name).length + 2 ≤ k := by
  obtain ⟨hnotNull, hindexed, hdefault⟩ := columnFlags_bits c
  have hplain : ∀ (k : Nat) (b : ColumnDef), b.indexed = false →
      b.indexed = true → c.indexed = true ∧ (writeString c.name).length + 2 ≤ k :=
    fun _ b hb h => absurd (hb.symm.trans h) Bool.false_ne_true
  have hbytes : writeColumn c = writeString c.name ++ ([DataType.byte c.type] ++ ([columnFlags c] ++
      if c.hasDefault then writeValue c.defaultValue else [])) := by
    rw [writeColumn, List.append_assoc]
    rfl
  rw [hbytes]
  refine Lenient.bind (readString_write junk c.name) (lenient_readString c.name)
    (fun k name _ => (blank_readFresh hzero 1).bind fun t _ => (blank_readFresh hzero 1).bind
      fun _ hflags => blank_afterFlags hflags name t (hplain k)) ?_
  refine Lenient.bind (readFresh_byte junk _) (lenient_byte hzero _)
    (fun _ t _ => (blank_readFresh hzero 1).bind
      fun _ hflags => blank_afterFlags hflags _ t (hplain _)) ?_
  refine Lenient.bind (readFresh_byte junk _) (lenient_byte hzero _)
    (fun _ _ hflags => blank_afterFlags hflags _ _ (hplain _)) ?_
  simp only [UInt8.ofNat_toNat, hnotNull, hindexed, hdefault, List.length_singleton]
  exact (lenient_readDefault hzero c.hasDefault c.defaultValue).last _ fun k _ _ h =>
    ⟨h, by omega⟩

theorem blank_readColumns (n : Nat) :
    Blank (readColumns junk n) fun bs => ∀ b ∈ bs, b.indexed = false := by
  induction n with
  | zero => exact Blank.pure fun b hb => absurd hb List.not_mem_nil
  | succ n ih =>
    exact (blank_readColumn hzero).bind fun b hb => ih.last _ fun bs hbs =>
      List.forall_mem_cons.mpr ⟨hb, hbs⟩

theorem lenient_readColumns (cs : List ColumnDef) :
    Lenient (readColumns junk cs.length) (cs.flatMap writeColumn) (IndexedWithin cs) := by
  induction cs with
  | nil => exact Lenient.nil
  | cons c cs ih =>
    refine Lenient.bind (readColumn_write junk c) (lenient_readColumn hzero c) ?_ ?_
    · refine fun k b hb => (blank_readColumns hzero cs.length).last _ fun bs hbs => ?_
      refine IndexedWithin.cons hb (IndexedWithin.of_plain hbs) ?_
      rintro ⟨b, hb, hindexed⟩
      exact absurd ((hbs b hb).symm.trans hindexed) Bool.false_ne_true
    · refine ih.last _ fun k bs hbs => ?_
      have hflags := flags_le_writeColumn c
      refine IndexedWithin.cons (fun h => ⟨h, by omega⟩) ?_ fun _ => Nat.le_add_right _ _
      rwa [Nat.add_sub_cancel_left]

theorem blank_readValues (n : Nat) : Blank (readValues junk n) fun _ => True := by
  induction n with
  | zero => exact Blank.pure trivial
  | succ n ih => exact (blank_readValue hzero).bind fun v _ => ih.last _ fun _ _ => trivial

theorem lenient_readValues (vs : List Value) :
    Lenient (readValues junk vs.length) (vs.flatMap writeValue) fun _ _ => True := by
  induction vs with
  | nil => exact Lenient.nil
  | cons v vs ih =>
    exact Lenient.bind (readValue_write junk v) (lenient_readValue hzero v)
      (fun _ _ _ => (blank_readValues hzero vs.length).last _ fun _ _ => trivial)
      (ih.last _ fun _ _ _ => trivial)

theorem blank_readRecords (cols n : Nat) : Blank (readRecords junk cols n) fun _ => True := by
  induction n with
  | zero => exact Blank.pure trivial
  | succ n ih =>
    exact (blank_readFresh hzero 8).bind fun _ _ => (blank_readValues hzero cols).bind fun _ _ =>
      ih.last _ fun _ _ => trivial

theorem lenient_readRecords (cols : Nat) (rows : List (RecordId × Record))
    (harity : ∀ row ∈ rows, row.2.values.length = cols) :
    Lenient (readRecords junk cols rows.length)
      (rows.flatMap fun row => writeRecord row.1 row.2) fun _ _ => True := by
  induction rows with
  | nil => exact Lenient.nil
  | cons row rows ih =>
    obtain ⟨hrow, hrows⟩ := List.forall_mem_cons.mp harity
    have hvalues := readValues_write junk row.2.values
    have hcut := lenient_readValues hzero row.2.values
    rw [hrow] at hvalues hcut
    have hrest : Blank (readRecords junk cols rows.length) fun _ => True :=
      blank_readRecords hzero cols rows.length
    rw [List.flatMap_cons, writeRecord, List.append_assoc]
    exact Lenient.bind (readFresh_encode junk 8 row.1) (lenient_readFresh 8 row.1)
      (fun _ _ _ => (blank_readValues hzero cols).bind fun _ _ => hrest.last _ fun _ _ => trivial)
      (Lenient.bind hvalues hcut (fun _ _ _ => hrest.last _ fun _ _ => trivial)
        ((ih hrows).last _ fun _ _ _ => trivial))

/-- Past the columns, where nothing is left. -/
theorem blank_afterColumns (version : Nat) (nextId : RecordId) (name : Str)
    {cs bs : List ColumnDef} {k : Nat} (h : IndexedWithin cs k bs) :
    Blank (do
      let nextId ← readPod 8 nextId
      let n ← readFresh junk 8
      let rows ← readRecords junk bs.length n
      return { version, name, columns := bs, nextId, rows : TableImage })
      fun im => im.version = version ∧ IndexedWithin cs k im.columns :=
  (blank_readPod 8 nextId).bind fun _ _ => (blank_readFresh hzero 8).bind fun n _ =>
    (blank_readRecords hzero bs.length n).last _ fun _ _ => ⟨rfl, h⟩

theorem lenient_readBody (x : Contents) (version : Nat) (nextId : RecordId) :
    Lenient (readBody junk version nextId) x.body fun k im =>
      im.version = version ∧
        IndexedWithin x.columns (k - (writeString x.name).length - 4) im.columns := by
  have hcols := readFresh_encode junk 4 x.columns.length
  rw [Nat.mod_eq_of_lt x.columns_lt] at hcols
  have hrows := readFresh_encode junk 8 x.rows.length
  rw [Nat.mod_eq_of_lt x.rows_lt] at hrows
  have hrecords := lenient_readRecords hzero x.columns.length x.rows x.arity
  rw [← List.length_map keptColumn] at hrecords
  have hkept : ∀ k, (writeString x.name).length + (4 + (x.columns.flatMap writeColumn).length) ≤ k →
      IndexedWithin x.columns (k - (writeString x.name).length - 4)
        (x.columns.map keptColumn) :=
    fun k hk => indexedWithin_kept x.columns (by omega)
  rw [Contents.body, Contents.columnBytes, Contents.rowBytes, List.append_assoc, List.append_assoc]
  refine Lenient.bind (readString_write junk x.name) (lenient_readString x.name) ?_
    (Lenient.bind hcols (lenient_readFresh 4 _) ?_
      (Lenient.bind (readColumns_write junk x.columns) (lenient_readColumns hzero x.columns) ?_
        (Lenient.bind (readPod_encode 8 nextId x.nextId) (lenient_readPod 8 nextId x.nextId) ?_
          (Lenient.bind hrows (lenient_readFresh 8 _) ?_ ?_))))
  · exact fun _ name _ => (blank_readFresh hzero 4).bind fun cols _ =>
      (blank_readColumns hzero cols).bind fun _ hbs =>
        blank_afterColumns hzero version nextId name (IndexedWithin.of_plain hbs)
  · exact fun _ cols _ => (blank_readColumns hzero cols).bind fun _ hbs =>
      blank_afterColumns hzero version nextId _ (IndexedWithin.of_plain hbs)
  · refine fun k bs hbs => blank_afterColumns hzero version nextId _ ?_
    rw [LittleEndian.encode_length]
    have hshift : (writeString x.name).length + (4 + k) - (writeString x.name).length - 4 = k := by
      omega
    rwa [hshift]
  · refine fun k _ _ => (blank_readFresh hzero 8).bind fun n _ =>
      (blank_readRecords hzero _ n).last _ fun _ _ => ⟨rfl, hkept _ ?_⟩
    rw [LittleEndian.encode_length]
    omega
  · refine fun k n _ => (blank_readRecords hzero _ n).last _ fun _ _ => ⟨rfl, hkept _ ?_⟩
    rw [LittleEndian.encode_length]
    omega
  · refine hrecords.last _ fun k _ _ => ⟨rfl, hkept _ ?_⟩
    rw [LittleEndian.encode_length]
    omega

end Cut

/-! ### The cut file as a whole -/

/-- The first variables hold what their checks ask for, the others zero. -/
def luckyJunk : Nat → Nat
  | 0 => kMagic
  | 1 => kVersion
  | _ => 0

/-- A variable that holds the number already keeps it, however few of its bytes are read. -/
theorem readPod_self (w n : Nat) (t : Bytes) (k m : Nat) :
    readPod w n ⟨(LittleEndian.encode w n ++ t).take k, m⟩ =
      .ok (n % 256 ^ w) ⟨t.take (k - w), m + 1⟩ := by
  have hlength := LittleEndian.encode_length w n
  by_cases hk : k ≤ w
  · have hlow : n % 256 ^ k = n % 256 ^ w % 256 ^ k :=
      (Nat.mod_mod_of_dvd n (Nat.pow_dvd_pow 256 hk)).symm
    have hdrop : (LittleEndian.encode k n).drop w = [] :=
      List.drop_of_length_le ((LittleEndian.encode_length k n).trans_le hk)
    have htake : (LittleEndian.encode k n).take w = LittleEndian.encode k n :=
      List.take_of_length_le ((LittleEndian.encode_length k n).trans_le hk)
    rw [List.take_append_of_le_length (hk.trans_eq hlength.symm), LittleEndian.encode_take,
      min_eq_left hk, Nat.sub_eq_zero_of_le hk, List.take_zero]
    simp only [readPod, htake, hdrop, LittleEndian.encode_length, LittleEndian.decode_encode_mod,
      hlow, Nat.mod_add_div']
  · rw [List.take_append, hlength, List.take_of_length_le (hlength.trans_le (not_le.mp hk).le)]
    exact readPod_run w n n _ m

theorem readTable_cut (x : Contents) (nextId : RecordId) (path : Path) {k : Nat}
    (hk : k < (x.file kVersion).length) :
    ∃ im s', readTable luckyJunk nextId path ⟨(x.file kVersion).take k, 0⟩ = .ok im s' ∧
      im.version = kVersion ∧
        IndexedWithin x.columns (k - 8 - (writeString x.name).length - 4) im.columns := by
  have hzero : ∀ i, 2 ≤ i → luckyJunk i = 0 := by
    intro i hi
    obtain ⟨j, rfl⟩ := Nat.exists_eq_add_of_le' hi
    rfl
  have hcut : k - 4 - 4 < x.body.length := by
    have hname : 0 < x.body.length := by
      simp only [Contents.body, Contents.columnBytes, writeString, List.length_append,
        LittleEndian.encode_length]
      omega
    simp only [Contents.file, List.length_append, LittleEndian.encode_length] at hk
    omega
  obtain ⟨im, m', -, him, hread⟩ := lenient_readBody hzero x kVersion nextId _ 2 hcut le_rfl
  have hmagic : readFresh luckyJunk 4 ⟨(x.file kVersion).take k, 0⟩ =
      .ok kMagic ⟨(LittleEndian.encode 4 kVersion ++ x.body).take (k - 4), 1⟩ := by
    rw [Contents.file, List.append_assoc]
    exact readPod_self 4 kMagic _ k 0
  have hversion : readFresh luckyJunk 4
      ⟨(LittleEndian.encode 4 kVersion ++ x.body).take (k - 4), 1⟩ =
      .ok kVersion ⟨x.body.take (k - 4 - 4), 2⟩ := readPod_self 4 kVersion _ _ 1
  refine ⟨im, ⟨[], m'⟩, ?_, him⟩
  rw [readTable, bind_ok hmagic, if_neg (not_not.mpr rfl), bind_ok hversion,
    if_neg fun h => h.2.2 rfl]
  exact hread

/-! ### What is read whole, whatever the arbitrary values -/

section Whole
variable (junk : Nat → Nat)

/-- A column whose flags are there is read as indexed if it is. -/
theorem readColumn_flags (c : ColumnDef) (t : Bytes) {k : Nat}
    (hk : (writeString c.name).length + 2 ≤ k) {n : Nat} {b : ColumnDef} {s : ReadState}
    (h : readColumn junk ⟨(writeColumn c ++ t).take k, n⟩ = .ok b s) : b.indexed = c.indexed := by
  have hbytes : writeColumn c ++ t = writeString c.name ++ ([DataType.byte c.type] ++
      ([columnFlags c] ++ ((if c.hasDefault then writeValue c.defaultValue else []) ++ t))) := by
    rw [writeColumn, List.append_assoc, List.append_assoc]
    rfl
  rw [hbytes] at h
  obtain ⟨m₁, hname⟩ := (readString_write junk c.name).take ([DataType.byte c.type] ++
    ([columnFlags c] ++ ((if c.hasDefault then writeValue c.defaultValue else []) ++ t)))
    (k := k) (by omega) n
  obtain ⟨m₂, htype⟩ := (readFresh_byte junk (DataType.byte c.type)).take ([columnFlags c] ++
    ((if c.hasDefault then writeValue c.defaultValue else []) ++ t))
    (k := k - (writeString c.name).length) (by rw [List.length_singleton]; omega) m₁
  obtain ⟨m₃, hflags⟩ := (readFresh_byte junk (columnFlags c)).take
    ((if c.hasDefault then writeValue c.defaultValue else []) ++ t)
    (k := k - (writeString c.name).length - [DataType.byte c.type].length)
    (by simp only [List.length_singleton]; omega) m₂
  rw [readColumn, bind_ok hname, bind_ok htype, bind_ok hflags] at h
  obtain ⟨v, s', -, hlast⟩ := bind_eq_ok.mp h
  cases hlast
  simp only [UInt8.ofNat_toNat, (columnFlags_bits c).2.1]

theorem readColumns_flags {cs : List ColumnDef} (t : Bytes) {j : Nat} {c : ColumnDef}
    (hj : cs[j]? = some c) {k : Nat} (hk : flagsEnd cs j ≤ k) {n : Nat} {bs : List ColumnDef}
    {s : ReadState}
    (h : readColumns junk cs.length ⟨(cs.flatMap writeColumn ++ t).take k, n⟩ = .ok bs s) :
    ∃ b, bs[j]? = some b ∧ b.indexed = c.indexed := by
  induction cs generalizing j k n bs s with
  | nil => cases hj
  | cons d cs ih =>
    rw [List.flatMap_cons, List.append_assoc, List.length_cons] at h
    obtain ⟨b, s₁, hread, h⟩ := bind_eq_ok.mp h
    obtain ⟨rest, s₂, hrest, hlast⟩ := bind_eq_ok.mp h
    cases hlast
    cases j with
    | zero =>
      cases hj
      exact ⟨b, rfl, readColumn_flags junk c _ hk hread⟩
    | succ j =>
      rw [flagsEnd] at hk
      obtain ⟨m, hwhole⟩ := (readColumn_write junk d).take (cs.flatMap writeColumn ++ t)
        (k := k) (by omega) n
      rw [hwhole] at hread
      cases hread
      exact ih hj (by omega) hrest

theorem readBody_flags (x : Contents) (version : Nat) (nextId : RecordId) {j : Nat} {c : ColumnDef}
    (hj : x.columns[j]? = some c) {k : Nat}
    (hk : (writeString x.name).length + 4 + flagsEnd x.columns j ≤ k) {n : Nat} {im : TableImage}
    {s : ReadState} (h : readBody junk version nextId ⟨x.body.take k, n⟩ = .ok im s) :
    ∃ b, im.columns[j]? = some b ∧ b.indexed = c.indexed := by
  have hcols := readFresh_encode junk 4 x.columns.length
  rw [Nat.mod_eq_of_lt x.columns_lt] at hcols
  rw [Contents.body, Contents.columnBytes, List.append_assoc, List.append_assoc] at h
  obtain ⟨m₁, hname⟩ := (readString_write junk x.name).take (LittleEndian.encode 4 x.columns.length ++
    (x.columns.flatMap writeColumn ++ x.rowBytes)) (k := k) (by omega) n
  obtain ⟨m₂, hcount⟩ := hcols.take (x.columns.flatMap writeColumn ++ x.rowBytes)
    (k := k - (writeString x.name).length) (by rw [LittleEndian.encode_length]; omega) m₁
  rw [readBody, bind_ok hname, bind_ok hcount] at h
  obtain ⟨bs, s₁, hread, h⟩ := bind_eq_ok.mp h
  obtain ⟨nextId', s₂, -, h⟩ := bind_eq_ok.mp h
  obtain ⟨count, s₃, -, h⟩ := bind_eq_ok.mp h
  obtain ⟨rows, s₄, -, hlast⟩ := bind_eq_ok.mp h
  cases hlast
  refine readColumns_flags junk x.rowBytes hj ?_ hread
  rw [LittleEndian.encode_length]
  omega

/-- Behind its first eight bytes, a file is its body. -/
theorem readTable_flags (x : Contents) (nextId : RecordId) (path : Path) {j : Nat} {c : ColumnDef}
    (hj : x.columns[j]? = some c) {k : Nat}
    (hk : 8 + ((writeString x.name).length + 4 + flagsEnd x.columns j) ≤ k) {im : TableImage}
    {s : ReadState}
    (h : readTable junk nextId path ⟨(x.file kVersion).take k, 0⟩ = .ok im s) :
    ∃ b, im.columns[j]? = some b ∧ b.indexed = c.indexed := by
  rw [Contents.file, List.append_assoc] at h
  obtain ⟨m₁, hmagic⟩ := (readFresh_encode junk 4 kMagic).take
    (LittleEndian.encode 4 kVersion ++ x.body) (k := k)
    (by rw [LittleEndian.encode_length]; omega) 0
  obtain ⟨m₂, hversion⟩ := (readFresh_encode junk 4 kVersion).take x.body
    (k := k - (LittleEndian.encode 4 kMagic).length)
    (by simp only [LittleEndian.encode_length]; omega) m₁
  have hfit : kMagic % 256 ^ 4 = kMagic := by decide
  have hknown : kVersion % 256 ^ 4 = kVersion := by decide
  rw [readTable, bind_ok hmagic, if_neg (not_not.mpr hfit), bind_ok hversion, hknown,
    if_neg fun h => h.2.2 rfl] at h
  refine readBody_flags junk x kVersion nextId hj ?_ h
  simp only [LittleEndian.encode_length]
  omega

end Whole

/-! ### Loading a file that was cut short -/

namespace Table
open DiskM

variable {ι : Type} [TableIndex ι]

/-- An indexed column whose flags are among the first `k` bytes of the table's file. -/
def Declares (t : Table ι) (k col : Nat) : Prop :=
  ∃ c, t.schema.columns[col]? = some c ∧ c.indexed = true ∧
    8 + ((writeString t.name).length + 4 + flagsEnd t.schema.columns col) ≤ k

/-- A file cut short loads, where the index files open that it still names. -/
theorem load_cut {t : Table ι} (ht : t.Storable) {path : Path} {s : OnDisk ι (Table ι)} {k : Nat}
    (hk : k < ((t.contents ht).file kVersion).length)
    (hcut : s.fs.read path = some (.bytes (((t.contents ht).file kVersion).take k)))
    (hopens : ∀ col, t.Declares k col → Opens s.fs (path.indexFile col)) :
    ∃ s', load luckyJunk path s = .ok () s' := by
  obtain ⟨im, w, htable, hversion, hwithin⟩ :=
    readTable_cut (t.contents ht) s.obj.nextId path hk
  have hall : ∀ col ∈ (im.table (ι := ι)).schema.indexedColumns,
      Opens s.fs (path.indexFile col) := by
    intro col hcol
    obtain ⟨b, hb, hindexed⟩ := TableSchema.mem_indexedColumns.mp hcol
    obtain ⟨c, hc, hindexed, hend⟩ := hwithin col b hb hindexed
    have hlow : 0 < flagsEnd t.schema.columns col := flagsEnd_pos hc
    have hend : flagsEnd t.schema.columns col ≤ k - 8 - (writeString t.name).length - 4 := hend
    exact hopens col ⟨c, hc, hindexed, by omega⟩
  obtain ⟨s', hs', -⟩ := openAll_ok (s := ⟨{ im.table with datPath := some path }, s.fs⟩)
    (P := fun _ _ => True) (im.table (ι := ι)).schema.indexedColumns_nodup (fun _ _ => rfl)
    fun col hcol => (hall col hcol).imp fun _ hdisk => ⟨hdisk, trivial⟩
  refine ⟨s', ?_⟩
  rw [load_of_readTable hcut htable, loadIndexes, hversion, if_pos rfl]
  exact bind_ok ((bindDatPath_eq path _).trans hs')

/-- A load of a file cut short throws, whatever the arbitrary values, exactly where the
index file of a column whose flags are still there does not open. -/
theorem load_truncated_iff {path : Path} {s₀ s₁ s : OnDisk ι (Table ι)} {data : Bytes} {k : Nat}
    (hstorable : s₀.obj.Storable) (hsave : save path s₀ = .ok () s₁)
    (hdata : s₁.fs.read path = some (.bytes data)) (hk : k < data.length)
    (hcut : s.fs.read path = some (.bytes (data.take k))) :
    (∀ junk, returned (load junk path s) = false) ↔
      ∃ col, s₀.obj.Declares k col ∧ ¬ Opens s.fs (path.indexFile col) := by
  obtain ⟨image, himage, hread⟩ := save_ok hsave
  rw [hdata] at hread
  cases hread
  obtain ⟨rfl, -⟩ := image_ok hstorable himage
  constructor
  · intro hthrows
    by_contra hopens
    obtain ⟨s', hload⟩ := load_cut hstorable hk hcut fun col hcol =>
      not_not.mp fun hblocked => hopens ⟨col, hcol, hblocked⟩
    have hreturned := hthrows luckyJunk
    rw [hload] at hreturned
    cases hreturned
  · rintro ⟨col, ⟨c, hc, hindexed, hend⟩, hblocked⟩ junk
    cases htable : readTable junk s.obj.nextId path
        ⟨((s₀.obj.contents hstorable).file kVersion).take k, 0⟩ with
    | error e w =>
      rw [load_of_readTable_error hcut htable]
      rfl
    | ok im w =>
      obtain ⟨b, hb, hbindexed⟩ := readTable_flags junk (s₀.obj.contents hstorable) s.obj.nextId
        path hc hend htable
      have hcol : col ∈ (im.table (ι := ι)).schema.indexedColumns :=
        TableSchema.mem_indexedColumns.mpr ⟨b, hb, hbindexed.trans hindexed⟩
      obtain ⟨e, s', hs'⟩ := openAll_error (s := ⟨{ im.table with datPath := some path }, s.fs⟩)
        hcol rfl hblocked
      rw [load_of_readTable hcut htable, loadIndexes,
        bind_error ((bindDatPath_eq path _).trans hs')]
      rfl

/-- A table without columns, in an empty directory. -/
def bareTable : OnDisk (KeyMap .nowhere) (Table (KeyMap .nowhere)) := ⟨{}, ∅⟩

def barePath : Path := { dir := [], name := datSuffix }

/-- A directory with these bytes as the file of the table. -/
def bareCut (data : Bytes) : OnDisk (KeyMap .nowhere) (Table (KeyMap .nowhere)) :=
  ⟨{}, (∅ : FileSystem (KeyMap .nowhere)).write barePath (.bytes data)⟩

theorem bareTable_storable : bareTable.obj.Storable :=
  ⟨by decide, by decide, fun id hid => absurd hid List.not_mem_nil⟩

theorem bareTable_save : returned (save barePath bareTable) = true := by decide +kernel

/-- A table of one indexed column and one row. -/
def indexedTable : OnDisk (KeyMap .nowhere) (Table (KeyMap .nowhere)) :=
  ⟨{ name := Str.ofString "t"
     schema := { columns := [{ name := Str.ofString "k", type := .int, indexed := true }] }
     records := fun id => if id = 1 then some ⟨[.int 5]⟩ else none
     order := [1]
     nextId := 2 }, ∅⟩

theorem indexedTable_storable : indexedTable.obj.Storable := by
  refine ⟨by decide, by decide, fun id hid r hr => ?_⟩
  rw [List.mem_singleton.mp hid] at hr
  cases hr
  rfl

theorem indexedTable_save : returned (save barePath indexedTable) = true := by decide +kernel

theorem indexedTable_length : (indexedTable.obj.image.toOption.map List.length) = some 57 := by
  decide +kernel

/-- Beside it, a file that is no index under the name of one. -/
def blockedCut (data : Bytes) : OnDisk (KeyMap .nowhere) (Table (KeyMap .nowhere)) :=
  ⟨{}, (bareCut data).fs.write (barePath.indexFile 0) (.bytes [])⟩

/-- A cut inside the value of the row is noticed by whoever finds no index beside it. -/
theorem load_truncated_insideRecord : ∃ data : Bytes, indexedTable.obj.image = .ok data ∧
    (∃ junk, returned (load junk barePath (bareCut (data.take (data.length - 4)))) = true) ∧
    ∀ junk, returned (load junk barePath (blockedCut (data.take (data.length - 4)))) = false := by
  obtain ⟨_, s₁, hsave⟩ := returned_iff.mp indexedTable_save
  obtain ⟨data, himage, hdata⟩ := save_ok hsave
  have hlength : data.length = 57 := by
    have h := indexedTable_length
    rw [himage] at h
    exact Option.some.inj h
  have hk : data.length - 4 < data.length := by omega
  refine ⟨data, himage, ?_, ?_⟩
  · by_contra hnone
    have hthrows : ∀ junk, returned (load junk barePath (bareCut (data.take (data.length - 4)))) =
        false := fun junk => Bool.eq_false_iff.mpr fun h => hnone ⟨junk, h⟩
    obtain ⟨col, -, hblocked⟩ := (load_truncated_iff indexedTable_storable hsave hdata hk
      (FileSystem.read_write_self _ _ _)).mp hthrows
    refine hblocked ⟨KeyMap.empty, ?_⟩
    have hmissing : (bareCut (data.take (data.length - 4))).fs.read (barePath.indexFile col) = none := by
      rw [bareCut, FileSystem.read_write_ne _ _ (Path.indexFile_ne barePath col)]
      rfl
    rw [indexIn, hmissing]
    rfl
  · refine (load_truncated_iff (s := blockedCut _) indexedTable_storable hsave hdata hk ?_).mpr
      ⟨0, ⟨_, rfl, rfl, ?_⟩, ?_⟩
    · rw [blockedCut, FileSystem.read_write_ne _ _ (Path.indexFile_ne barePath 0).symm]
      exact FileSystem.read_write_self _ _ _
    · rw [hlength]
      decide
    · rintro ⟨disk, hdisk⟩
      rw [indexIn, blockedCut, FileSystem.read_write_self] at hdisk
      cases hdisk

/-- The file of a table that lacks its last byte loads like the whole. -/
theorem not_load_truncated : ¬ ∀ (path : Path)
    (s₀ s₁ s : OnDisk (KeyMap .nowhere) (Table (KeyMap .nowhere))) (data : Bytes) (k : Nat),
    save path s₀ = .ok () s₁ → s₁.fs.read path = some (.bytes data) → k < data.length →
      s.fs.read path = some (.bytes (data.take k)) →
      ∀ junk, returned (load junk path s) = false := by
  intro hall
  obtain ⟨_, s₁, hsave⟩ := returned_iff.mp bareTable_save
  obtain ⟨data, himage, hdata⟩ := save_ok hsave
  have hk : data.length - 1 < data.length := by
    cases himage
    exact Nat.lt_succ_self _
  have hthrows := hall barePath bareTable s₁ (bareCut (data.take (data.length - 1))) data _ hsave
    hdata hk (FileSystem.read_write_self _ _ _) luckyJunk
  obtain ⟨rfl, -⟩ := image_ok bareTable_storable himage
  obtain ⟨s', hload⟩ := load_cut (s := bareCut _) bareTable_storable hk
    (FileSystem.read_write_self _ _ _) fun col hcol => by
      obtain ⟨c, hc, -⟩ := hcol
      cases hc
  rw [hload] at hthrows
  cases hthrows

end Table
end CwDb.Storage
