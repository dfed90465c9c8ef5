import CwDb.Storage.TableFile

/-! The format of a table's file.

Two facts about a reader and the bytes written for a value, both of which survive
sequencing. `ReadsAs`: on these bytes, whatever follows them, the reader returns the
value and leaves what follows. `Lenient`: on these bytes cut short anywhere, the reader
still returns, provided the arbitrary values it takes from then on are zero; for where
the cut ends one read, the next ones find nothing (`Blank`).

Reading a table follows its writing field by field, so both hold of the whole file
behind its version number. -/
namespace CwDb.Storage
open Foundation

section Readers
variable {α β : Type}

/-- `r` reads `bytes` as `a`. -/
def ReadsAs (r : ReadM α) (bytes : Bytes) (a : α) : Prop :=
  ∀ t n, ∃ m, n ≤ m ∧ r ⟨bytes ++ t, n⟩ = .ok a ⟨t, m⟩

/-- Where nothing is left, `r` returns a value with `Q`. -/
def Blank (r : ReadM α) (Q : α → Prop) : Prop :=
  ∀ n, 2 ≤ n → ∃ a m, n ≤ m ∧ Q a ∧ r ⟨[], n⟩ = .ok a ⟨[], m⟩

/-- On the first `k` of `bytes`, fewer than all, `r` returns a value with `Q k`. -/
def Lenient (r : ReadM α) (bytes : Bytes) (Q : Nat → α → Prop) : Prop :=
  ∀ k n, k < bytes.length → 2 ≤ n →
    ∃ a m, n ≤ m ∧ Q k a ∧ r ⟨bytes.take k, n⟩ = .ok a ⟨[], m⟩

theorem ReadsAs.pure (a : α) : ReadsAs (pure a) [] a := fun _ n => ⟨n, le_refl n, rfl⟩

theorem ReadsAs.bind {x : ReadM α} {f : α → ReadM β} {bytes rest : Bytes} {a : α} {b : β}
    (hx : ReadsAs x bytes a) (hf : ReadsAs (f a) rest b) : ReadsAs (x >>= f) (bytes ++ rest) b := by
  intro t n
  obtain ⟨m, hm, hread⟩ := hx (rest ++ t) n
  obtain ⟨m', hm', hrest⟩ := hf t m
  rw [← List.append_assoc] at hread
  exact ⟨m', hm.trans hm', (bind_ok hread).trans hrest⟩

/-- The last step only puts the value together. -/
theorem ReadsAs.last {x : ReadM α} {bytes : Bytes} {a : α} (hx : ReadsAs x bytes a) (g : α → β) :
    ReadsAs (x >>= fun a => Pure.pure (g a)) bytes (g a) := by
  have h := hx.bind (f := fun a => Pure.pure (g a)) (ReadsAs.pure (g a))
  rwa [List.append_nil] at h

/-- What is cut off behind the bytes does not matter. -/
theorem ReadsAs.take {x : ReadM α} {bytes : Bytes} {a : α} (hx : ReadsAs x bytes a) (t : Bytes)
    {k : Nat} (hk : bytes.length ≤ k) (n : Nat) :
    ∃ m, x ⟨(bytes ++ t).take k, n⟩ = .ok a ⟨t.take (k - bytes.length), m⟩ := by
  obtain ⟨j, rfl⟩ := Nat.exists_eq_add_of_le hk
  obtain ⟨m, -, hread⟩ := hx (t.take j) n
  exact ⟨m, by rw [List.take_length_add_append, Nat.add_sub_cancel_left, hread]⟩

theorem Blank.pure {a : α} {Q : α → Prop} (h : Q a) : Blank (pure a) Q :=
  fun n _ => ⟨a, n, le_refl n, h, rfl⟩

theorem Blank.bind {x : ReadM α} {f : α → ReadM β} {P : α → Prop} {Q : β → Prop}
    (hx : Blank x P) (hf : ∀ a, P a → Blank (f a) Q) : Blank (x >>= f) Q := by
  intro n hn
  obtain ⟨a, m, hm, ha, hread⟩ := hx n hn
  obtain ⟨b, m', hm', hb, hrest⟩ := hf a ha m (hn.trans hm)
  exact ⟨b, m', hm.trans hm', hb, (bind_ok hread).trans hrest⟩

theorem Lenient.nil {r : ReadM α} {Q : Nat → α → Prop} : Lenient r [] Q :=
  fun k _ hk => absurd hk (Nat.not_lt_zero k)

/-- The cut falls into the first part, and the second finds nothing, or it falls into
the second. -/
theorem Lenient.bind {x : ReadM α} {f : α → ReadM β} {bytes rest : Bytes} {a : α}
    {P : Nat → α → Prop} {Q : Nat → β → Prop} (hx : ReadsAs x bytes a) (hcut : Lenient x bytes P)
    (hblank : ∀ k a, P k a → Blank (f a) (Q k))
    (hf : Lenient (f a) rest fun k => Q (bytes.length + k)) :
    Lenient (x >>= f) (bytes ++ rest) Q := by
  intro k n hk hn
  by_cases hlt : k < bytes.length
  · obtain ⟨a', m, hm, ha', hread⟩ := hcut k n hlt hn
    obtain ⟨b, m', hm', hb, hrest⟩ := hblank k a' ha' m (hn.trans hm)
    rw [List.take_append_of_le_length hlt.le]
    exact ⟨b, m', hm.trans hm', hb, (bind_ok hread).trans hrest⟩
  · obtain ⟨j, rfl⟩ := Nat.exists_eq_add_of_le (not_lt.mp hlt)
    rw [List.length_append, Nat.add_lt_add_iff_left] at hk
    obtain ⟨m, hm, hread⟩ := hx (rest.take j) n
    obtain ⟨b, m', hm', hb, hrest⟩ := hf j m hk (hn.trans hm)
    rw [List.take_length_add_append]
    exact ⟨b, m', hm.trans hm', hb, (bind_ok hread).trans hrest⟩

theorem Blank.last {x : ReadM α} {P : α → Prop} {Q : β → Prop} (hx : Blank x P) (g : α → β)
    (h : ∀ a, P a → Q (g a)) : Blank (x >>= fun a => Pure.pure (g a)) Q :=
  hx.bind fun a ha => Blank.pure (h a ha)

theorem Lenient.last {x : ReadM α} {bytes : Bytes} {P : Nat → α → Prop} {Q : Nat → β → Prop}
    (hx : Lenient x bytes P) (g : α → β) (h : ∀ k a, P k a → Q k (g a)) :
    Lenient (x >>= fun a => Pure.pure (g a)) bytes Q := by
  intro k n hk hn
  obtain ⟨a, m, hm, ha, hread⟩ := hx k n hk hn
  exact ⟨g a, m, hm, h k a ha, bind_ok hread⟩

end Readers

/-! ### What comes back -/

/-- A string as its file keeps it: whole, unless its length does not fit four bytes. -/
def keptString (s : Str) : Str := s.take (s.length % 256 ^ 4)

def keptValue : Value → Value
  | .null => .null
  | .int i => .int i
  | .str s => .str (keptString s)

def keptColumn (c : ColumnDef) : ColumnDef where
  name := keptString c.name
  type := DataType.ofByte (DataType.byte c.type)
  notNull := c.notNull
  indexed := c.indexed
  hasDefault := c.hasDefault
  defaultValue := if c.hasDefault then keptValue c.defaultValue else .null

/-- A record under its id. -/
def keptRow (row : RecordId × Record) : RecordId × Record :=
  (row.1 % 256 ^ 8, { values := row.2.values.map keptValue })

/-! ### Numbers and strings -/

theorem readPod_run (w old n : Nat) (t : Bytes) (m : Nat) :
    readPod w old ⟨LittleEndian.encode w n ++ t, m⟩ = .ok (n % 256 ^ w) ⟨t, m + 1⟩ := by
  have hlength := LittleEndian.encode_length w n
  have htake : (LittleEndian.encode w n ++ t).take w = LittleEndian.encode w n :=
    List.take_left' hlength
  have hdrop : (LittleEndian.encode w n ++ t).drop w = t := List.drop_left' hlength
  have hkept : old % 256 ^ w / 256 ^ w = 0 :=
    Nat.div_eq_of_lt (Nat.mod_lt _ (Nat.pow_pos (by decide)))
  simp only [readPod, htake, hdrop, hlength, hkept, LittleEndian.decode_encode_mod, Nat.zero_mul,
    Nat.add_zero]

theorem readPod_encode (w old n : Nat) :
    ReadsAs (readPod w old) (LittleEndian.encode w n) (n % 256 ^ w) :=
  fun t m => ⟨m + 1, Nat.le_succ m, readPod_run w old n t m⟩

theorem readChars_self (s : Str) : ReadsAs (readChars s.length) s s := by
  intro t n
  refine ⟨n, le_refl n, ?_⟩
  rw [readChars, List.take_left, List.drop_left, List.length_append,
    Nat.sub_eq_zero_of_le (Nat.le_add_right _ _), List.replicate_zero, List.append_nil]

section Fresh
variable (junk : Nat → Nat)

theorem readFresh_encode (w n : Nat) :
    ReadsAs (readFresh junk w) (LittleEndian.encode w n) (n % 256 ^ w) :=
  fun t m => readPod_encode w (junk m) n t m

theorem readFresh_byte (b : UInt8) : ReadsAs (readFresh junk 1) [b] b.toNat := by
  have hbyte : LittleEndian.encode 1 b.toNat = [b] := by
    rw [LittleEndian.encode, LittleEndian.encode, UInt8.ofNat_toNat]
  have hfit : b.toNat % 256 ^ 1 = b.toNat := Nat.mod_eq_of_lt b.toNat_lt
  have h := readFresh_encode junk 1 b.toNat
  rwa [hbyte, hfit] at h

theorem readString_write (s : Str) : ReadsAs (readString junk) (writeString s) (keptString s) := by
  have hlength : (keptString s).length = s.length % 256 ^ 4 := by
    rw [keptString, List.length_take]
    exact min_eq_left (Nat.mod_le _ _)
  have h := (readFresh_encode junk 4 s.length).bind (f := readChars) (hlength ▸ readChars_self _)
  exact h

/-! ### Values, columns and rows -/

theorem toInt64_mod (i : Int64) :
    (UInt64.ofNat (i.toUInt64.toNat % 256 ^ 8)).toInt64 = i := by
  have hfit : i.toUInt64.toNat % 256 ^ 8 = i.toUInt64.toNat :=
    Nat.mod_eq_of_lt i.toUInt64.toNat_lt
  rw [hfit, UInt64.ofNat_toNat]
  rfl

theorem readValue_write (v : Value) : ReadsAs (readValue junk) (writeValue v) (keptValue v) := by
  cases v with
  | null => exact (readFresh_byte junk 0).bind (ReadsAs.pure _)
  | int i =>
    have h := (readFresh_encode junk 8 i.toUInt64.toNat).last
      fun x => Value.int (UInt64.ofNat x).toInt64
    rw [toInt64_mod] at h
    exact (readFresh_byte junk 1).bind h
  | str s => exact (readFresh_byte junk 2).bind ((readString_write junk s).last Value.str)

theorem readDefault_write (b : Bool) (v : Value) :
    ReadsAs (readDefault junk b) (if b then writeValue v else [])
      (if b then keptValue v else .null) := by
  cases b with
  | true => exact readValue_write junk v
  | false => exact ReadsAs.pure _

theorem columnFlags_bits (c : ColumnDef) :
    decide (columnFlags c &&& 1 ≠ 0) = c.notNull ∧ decide (columnFlags c &&& 2 ≠ 0) = c.indexed ∧
      decide (columnFlags c &&& 4 ≠ 0) = c.hasDefault := by
  rw [columnFlags]
  cases c.notNull <;> cases c.indexed <;> cases c.hasDefault <;> decide

theorem readColumn_write (c : ColumnDef) :
    ReadsAs (readColumn junk) (writeColumn c) (keptColumn c) := by
  obtain ⟨hnotNull, hindexed, hdefault⟩ := columnFlags_bits c
  have hbytes : writeColumn c = writeString c.name ++ ([DataType.byte c.type] ++ ([columnFlags c] ++
      if c.hasDefault then writeValue c.defaultValue else [])) := by
    rw [writeColumn, List.append_assoc]
    rfl
  rw [hbytes]
  refine (readString_write junk c.name).bind ((readFresh_byte junk _).bind
    ((readFresh_byte junk _).bind ?_))
  simp only [UInt8.ofNat_toNat, hnotNull, hindexed, hdefault]
  exact (readDefault_write junk c.hasDefault c.defaultValue).last _

theorem readColumns_write (cs : List ColumnDef) :
    ReadsAs (readColumns junk cs.length) (cs.flatMap writeColumn) (cs.map keptColumn) := by
  induction cs with
  | nil => exact ReadsAs.pure _
  | cons c cs ih => exact (readColumn_write junk c).bind (ih.last fun rest => keptColumn c :: rest)

theorem readValues_write (vs : List Value) :
    ReadsAs (readValues junk vs.length) (vs.flatMap writeValue) (vs.map keptValue) := by
  induction vs with
  | nil => exact ReadsAs.pure _
  | cons v vs ih => exact (readValue_write junk v).bind (ih.last fun rest => keptValue v :: rest)

theorem readRecords_write (cols : Nat) (rows : List (RecordId × Record))
    (harity : ∀ row ∈ rows, row.2.values.length = cols) :
    ReadsAs (readRecords junk cols rows.length) (rows.flatMap fun row => writeRecord row.1 row.2)
      (rows.map keptRow) := by
  induction rows with
  | nil => exact ReadsAs.pure _
  | cons row rows ih =>
    obtain ⟨hrow, hrows⟩ := List.forall_mem_cons.mp harity
    have hvalues := readValues_write junk row.2.values
    rw [hrow] at hvalues
    rw [List.flatMap_cons, writeRecord, List.append_assoc]
    exact (readFresh_encode junk 8 row.1).bind (hvalues.bind ((ih hrows).last
      fun rest => keptRow row :: rest))

/-! ### The whole file -/

/-- What a file holds behind its version. -/
structure Contents where
  name : Str
  columns : List ColumnDef
  nextId : RecordId
  rows : List (RecordId × Record)
  /-- The counts fit their fields. -/
  columns_lt : columns.length < 256 ^ 4
  rows_lt : rows.length < 256 ^ 8
  /-- Every record has a value for each column. -/
  arity : ∀ row ∈ rows, row.2.values.length = columns.length

namespace Contents

def columnBytes (x : Contents) : Bytes :=
  writeString x.name ++ (LittleEndian.encode 4 x.columns.length ++ x.columns.flatMap writeColumn)

def rowBytes (x : Contents) : Bytes :=
  LittleEndian.encode 8 x.nextId ++ (LittleEndian.encode 8 x.rows.length ++
    x.rows.flatMap fun row => writeRecord row.1 row.2)

def body (x : Contents) : Bytes := x.columnBytes ++ x.rowBytes

/-- A file of a version. -/
def file (x : Contents) (version : Nat) : Bytes :=
  LittleEndian.encode 4 kMagic ++ LittleEndian.encode 4 version ++ x.body

/-- What is read from it. -/
def kept (x : Contents) (version : Nat) : TableImage where
  version := version
  name := keptString x.name
  columns := x.columns.map keptColumn
  nextId := x.nextId % 256 ^ 8
  rows := x.rows.map keptRow

end Contents

theorem readBody_file (x : Contents) (version : Nat) (nextId : RecordId) :
    ReadsAs (readBody junk version nextId) x.body (x.kept version) := by
  have hcols := (readFresh_encode junk 4 x.columns.length)
  rw [Nat.mod_eq_of_lt x.columns_lt] at hcols
  have hrows := (readFresh_encode junk 8 x.rows.length)
  rw [Nat.mod_eq_of_lt x.rows_lt] at hrows
  have hrecords := readRecords_write junk x.columns.length x.rows x.arity
  rw [← List.length_map keptColumn] at hrecords
  rw [Contents.body, Contents.columnBytes, Contents.rowBytes, List.append_assoc, List.append_assoc]
  exact (readString_write junk x.name).bind (hcols.bind ((readColumns_write junk x.columns).bind
    ((readPod_encode 8 nextId x.nextId).bind (hrows.bind (hrecords.last
      fun rows => { x.kept version with rows })))))

/-- What follows the body is left unread. -/
theorem readTable_file (x : Contents) {version : Nat}
    (hversion : version = 1 ∨ version = 2 ∨ version = kVersion) (nextId : RecordId) (path : Path)
    (t : Bytes) : ∃ m, readTable junk nextId path ⟨x.file version ++ t, 0⟩ =
      .ok (x.kept version) ⟨t, m⟩ := by
  have hlt : version < 256 ^ 4 := by
    have hknown : kVersion = 3 := rfl
    omega
  have hmagic : readFresh junk 4 ⟨x.file version ++ t, 0⟩ =
      .ok kMagic ⟨LittleEndian.encode 4 version ++ (x.body ++ t), 1⟩ := by
    have h := readPod_run 4 (junk 0) kMagic (LittleEndian.encode 4 version ++ (x.body ++ t)) 0
    have hfit : kMagic % 256 ^ 4 = kMagic := by decide
    rw [hfit] at h
    rwa [Contents.file, List.append_assoc, List.append_assoc]
  have hread : readFresh junk 4 ⟨LittleEndian.encode 4 version ++ (x.body ++ t), 1⟩ =
      .ok version ⟨x.body ++ t, 2⟩ := by
    have h := readPod_run 4 (junk 1) version (x.body ++ t) 1
    rwa [Nat.mod_eq_of_lt hlt] at h
  obtain ⟨m, -, hbody⟩ := readBody_file junk x version nextId t 2
  refine ⟨m, ?_⟩
  rw [readTable, bind_ok hmagic, if_neg fun h => h rfl, bind_ok hread,
    if_neg fun h => hversion.elim h.1 fun hrest => hrest.elim h.2.1 h.2.2]
  exact hbody

end Fresh

/-! ### A table and its file -/

namespace Table
open DiskM

variable {ι : Type}

/-- The rows of some ids that have a record. -/
def rowsIn (t : Table ι) (ids : List RecordId) : List (RecordId × Record) :=
  ids.filterMap fun id => (t.records id).map fun r => (id, r)

theorem rowsIn_length_le (t : Table ι) (ids : List RecordId) :
    (t.rowsIn ids).length ≤ ids.length :=
  List.length_filterMap_le _ _

theorem mem_rowsIn {t : Table ι} {ids : List RecordId} {row : RecordId × Record} :
    row ∈ t.rowsIn ids ↔ row.1 ∈ ids ∧ t.records row.1 = some row.2 := by
  simp only [rowsIn, List.mem_filterMap, Option.map_eq_some_iff]
  constructor
  · rintro ⟨id, hid, r, hr, rfl⟩
    exact ⟨hid, hr⟩
  · exact fun ⟨hid, hr⟩ => ⟨row.1, hid, row.2, hr, rfl⟩

/-- A table the format has room for. -/
structure Storable (t : Table ι) : Prop where
  columns_lt : t.schema.columns.length < 256 ^ 4
  order_lt : t.order.length < 256 ^ 8
  arity : ∀ id ∈ t.order, ∀ r, t.records id = some r →
    r.values.length = t.schema.columns.length

/-- What the file of a table holds. -/
def contents (t : Table ι) (h : t.Storable) : Contents where
  name := t.name
  columns := t.schema.columns
  nextId := t.nextId
  rows := t.rowsIn t.order
  columns_lt := h.columns_lt
  rows_lt := (t.rowsIn_length_le t.order).trans_lt h.order_lt
  arity row hrow := h.arity row.1 (mem_rowsIn.mp hrow).1 row.2 (mem_rowsIn.mp hrow).2

/-- Writing the records: each id has one. -/
theorem writeRecords_ok {t : Table ι} {ids : List RecordId} {data : Bytes}
    (h : writeRecords t ids = .ok data) :
    data = (t.rowsIn ids).flatMap (fun row => writeRecord row.1 row.2) ∧
      (t.rowsIn ids).map Prod.fst = ids := by
  induction ids generalizing data with
  | nil =>
    cases h
    exact ⟨rfl, rfl⟩
  | cons id ids ih =>
    rw [writeRecords] at h
    cases hr : t.records id with
    | none =>
      rw [hr] at h
      cases h
    | some r =>
      rw [hr] at h
      obtain ⟨rest, hrest, hdata⟩ := except_bind_eq_ok.mp h
      cases hdata
      obtain ⟨hbytes, hids⟩ := ih hrest
      have hrows : t.rowsIn (id :: ids) = (id, r) :: t.rowsIn ids :=
        List.filterMap_cons_some (by rw [hr]; rfl)
      exact ⟨by rw [hrows, List.flatMap_cons, hbytes], by rw [hrows, List.map_cons, hids]⟩

theorem image_ok {t : Table ι} (ht : t.Storable) {data : Bytes} (h : t.image = .ok data) :
    data = (t.contents ht).file kVersion ∧ (t.rowsIn t.order).map Prod.fst = t.order := by
  obtain ⟨rows, hrows, hdata⟩ := except_bind_eq_ok.mp h
  cases hdata
  obtain ⟨rfl, hids⟩ := writeRecords_ok hrows
  have hlength : (t.rowsIn t.order).length = t.order.length := by
    rw [← List.length_map Prod.fst, hids]
  refine ⟨?_, hids⟩
  simp only [Contents.file, Contents.body, Contents.columnBytes, Contents.rowBytes, contents,
    hlength, List.append_assoc]

theorem writeRecords_congr {t t' : Table ι} (h : t'.records = t.records) (ids : List RecordId) :
    writeRecords t' ids = writeRecords t ids := by
  induction ids with
  | nil => rfl
  | cons id ids ih =>
    rw [writeRecords, writeRecords, ih, h]

/-- The same but for the indexes and the path. -/
structure Alike (t t' : Table ι) : Prop where
  name : t'.name = t.name
  schema : t'.schema = t.schema
  records : t'.records = t.records
  order : t'.order = t.order
  nextId : t'.nextId = t.nextId

theorem Alike.image {t t' : Table ι} (h : t.Alike t') : t'.image = t.image := by
  rw [Table.image, Table.image, writeRecords_congr h.records, h.order, h.name, h.schema, h.nextId]

variable [TableIndex ι]

section Keeping
variable {t : Table ι}

/-- Opening an index changes nothing else of the table. -/
theorem openIndex_alike (datPath : Path) (col : Nat) :
    Keeps (fun s : OnDisk ι (Table ι) => t.Alike s.obj) (openIndex datPath col) := by
  refine keeps_bind (fun _ h => h) fun u => ?_
  split
  · exact keeps_pure ()
  · refine keeps_bind (fun _ h => h) fun fs => keeps_bind (keeps_fromExcept _) fun disk =>
      keeps_bind (fun _ h => h) fun _ => fun s h => ?_
    exact ⟨h.name, h.schema, h.records, h.order, h.nextId⟩

theorem bindDatPath_alike (datPath : Path) :
    Keeps (fun s : OnDisk ι (Table ι) => t.Alike s.obj) (bindDatPath datPath) := by
  refine keeps_bind (fun s h => ⟨h.name, h.schema, h.records, h.order, h.nextId⟩) fun _ =>
    keeps_bind (fun _ h => h) fun u => ?_
  cases u.datPath with
  | none => exact keeps_pure ()
  | some p => exact keeps_eachColumn (openIndex_alike p) _

theorem onIndex_alike {α : Type} (col : Nat) (disk : ι) (x : EStateM Exn ι α) :
    Keeps (fun s : OnDisk ι (Table ι) => t.Alike s.obj) (onIndex col disk x) := by
  intro s h
  rw [onIndex]
  cases x disk with
  | ok a d => exact ⟨h.name, h.schema, h.records, h.order, h.nextId⟩
  | error e d => exact ⟨h.name, h.schema, h.records, h.order, h.nextId⟩

theorem flushIndexes_alike :
    Keeps (fun s : OnDisk ι (Table ι) => t.Alike s.obj) flushIndexes := by
  refine keeps_bind (fun _ h => h) fun u => keeps_eachColumn (fun col => ?_) _
  refine keeps_bind (fun _ h => h) fun u => ?_
  cases u.indexes col with
  | none => exact keeps_pure ()
  | some disk =>
    dsimp only
    split
    · exact onIndex_alike col disk _
    · exact keeps_pure ()

theorem save_alike (path : Path) :
    Keeps (fun s : OnDisk ι (Table ι) => t.Alike s.obj) (save path) :=
  keeps_bind (bindDatPath_alike path) fun _ => keeps_bind flushIndexes_alike fun _ =>
    keeps_bind (fun _ h => h) fun _ => keeps_bind (keeps_fromExcept _) fun _ _ h => h

end Keeping

/-- A save that returned left the image of the table at the path. -/
theorem save_ok {path : Path} {s s' : OnDisk ι (Table ι)} (h : save path s = .ok () s') :
    ∃ data, s.obj.image = .ok data ∧ s'.fs.read path = some (.bytes data) := by
  have hself : s.obj.Alike s.obj := ⟨rfl, rfl, rfl, rfl, rfl⟩
  obtain ⟨_, s₁, hbind, h⟩ := bind_eq_ok.mp h
  have halike := bindDatPath_alike path s hself
  rw [hbind] at halike
  obtain ⟨_, s₂, hflush, h⟩ := bind_eq_ok.mp h
  have halike₂ := flushIndexes_alike s₁ halike
  rw [hflush] at halike₂
  rw [getObj_bind_apply] at h
  obtain ⟨data, s₃, hdata, h⟩ := bind_eq_ok.mp h
  cases himage : s₂.obj.image with
  | error e =>
    rw [himage] at hdata
    cases hdata
  | ok image =>
    rw [himage] at hdata
    cases hdata
    cases h
    exact ⟨data, (Alike.image halike₂).symm.trans himage, FileSystem.read_write_self _ _ _⟩

/-! ### Opening the indexes of what was read -/

/-- The index in a file of the directory, or a new one where there is none. -/
def indexIn (fs : FileSystem ι) (path : Path) : Except Exn ι :=
  match fs.read path with
  | some (.index file) => TableIndex.openFile path.text file
  | some (.bytes _) => .error (.runtimeError ("Bad index file: " ++ path.text))
  | none => TableIndex.createEmpty

/-- The index file opens. -/
def Opens (fs : FileSystem ι) (path : Path) : Prop := ∃ disk : ι, indexIn fs path = .ok disk

variable {datPath : Path} {s : OnDisk ι (Table ι)}

theorem openIndex_ok {col : Nat} (hnone : s.obj.indexes col = none) {disk : ι}
    (h : indexIn s.fs (datPath.indexFile col) = .ok disk) :
    openIndex datPath col s = .ok ()
      ⟨{ s.obj with indexes := Function.update s.obj.indexes col (some disk) },
        s.fs.write (datPath.indexFile col) (.index (TableIndex.file disk))⟩ := by
  have hsome : ¬ (s.obj.indexes col).isSome = true := by rw [hnone]; exact Bool.false_ne_true
  rw [openIndex, getObj_bind_apply, if_neg hsome, getFs_bind_apply]
  exact bind_ok (congrArg (fun x => (fromExcept x : TableM ι ι) s) h)

theorem openIndex_error {col : Nat} (hnone : s.obj.indexes col = none) {e : Exn}
    (h : (indexIn s.fs (datPath.indexFile col) : Except Exn ι) = .error e) :
    openIndex datPath col s = .error e s := by
  have hsome : ¬ (s.obj.indexes col).isSome = true := by rw [hnone]; exact Bool.false_ne_true
  rw [openIndex, getObj_bind_apply, if_neg hsome, getFs_bind_apply]
  exact bind_error (congrArg (fun x => (fromExcept x : TableM ι ι) s) h)

theorem bindDatPath_eq (path : Path) (s : OnDisk ι (Table ι)) :
    bindDatPath path s = eachColumn (openIndex path) s.obj.schema.indexedColumns
      ⟨{ s.obj with datPath := some path }, s.fs⟩ := rfl

/-- Every index file opens, and each column has what was in its own file. -/
theorem openAll_ok {P : Nat → ι → Prop} {cols : List Nat} (hnodup : cols.Nodup)
    (hnone : ∀ col ∈ cols, s.obj.indexes col = none)
    (hopens : ∀ col ∈ cols, ∃ disk, indexIn s.fs (datPath.indexFile col) = .ok disk ∧ P col disk) :
    ∃ s', eachColumn (openIndex datPath) cols s = .ok () s' ∧
      s'.obj.datPath = s.obj.datPath ∧
      (∀ col ∈ cols, ∃ disk, s'.obj.indexes col = some disk ∧ P col disk) ∧
      ∀ col, col ∉ cols → s'.obj.indexes col = s.obj.indexes col := by
  induction cols generalizing s with
  | nil => exact ⟨s, rfl, rfl, fun _ h => absurd h List.not_mem_nil, fun _ _ => rfl⟩
  | cons col cols ih =>
    obtain ⟨hcol, hnodup⟩ := List.nodup_cons.mp hnodup
    obtain ⟨disk, hdisk, hP⟩ := hopens col List.mem_cons_self
    have hopen := openIndex_ok (hnone col List.mem_cons_self) hdisk
    have hne : ∀ c ∈ cols, c ≠ col := fun c hc heq => hcol (heq ▸ hc)
    obtain ⟨s', hs', hbound, hopened, hothers⟩ := ih (s := ⟨{ s.obj with
        indexes := Function.update s.obj.indexes col (some disk) },
        s.fs.write (datPath.indexFile col) (.index (TableIndex.file disk))⟩) hnodup
      (fun c hc => (Function.update_of_ne (hne c hc) _ _).trans
        (hnone c (List.mem_cons_of_mem _ hc)))
      (fun c hc => by
        have hfile : datPath.indexFile c ≠ datPath.indexFile col :=
          fun h => hne c hc (Path.indexFile_injective h)
        rw [indexIn, FileSystem.read_write_ne _ _ hfile]
        exact hopens c (List.mem_cons_of_mem _ hc))
    refine ⟨s', (bind_ok hopen).trans hs', hbound, ?_, ?_⟩
    · intro c hc
      rcases List.mem_cons.mp hc with rfl | hc
      · exact ⟨disk, (hothers c hcol).trans (Function.update_self _ _ _), hP⟩
      · exact hopened c hc
    · intro c hc
      rw [List.mem_cons, not_or] at hc
      exact (hothers c hc.2).trans (Function.update_of_ne hc.1 _ _)

/-- An index file that does not open stops the loop there or before. -/
theorem openAll_error {cols : List Nat} {col : Nat} (hcol : col ∈ cols)
    (hnone : s.obj.indexes col = none) (hblocked : ¬ Opens s.fs (datPath.indexFile col)) :
    ∃ e s', eachColumn (openIndex datPath) cols s = .error e s' := by
  induction cols generalizing s with
  | nil => cases hcol
  | cons c cols ih =>
    cases hopen : openIndex datPath c s with
    | error e s' => exact ⟨e, s', bind_error hopen⟩
    | ok u s' =>
      have hne : col ≠ c := by
        rintro rfl
        cases hdisk : (indexIn s.fs (datPath.indexFile col) : Except Exn ι) with
        | ok disk => exact hblocked ⟨disk, hdisk⟩
        | error e =>
          rw [openIndex_error hnone hdisk] at hopen
          cases hopen
      have hfile : datPath.indexFile col ≠ datPath.indexFile c :=
        fun h => hne (Path.indexFile_injective h)
      have hkept : s'.obj.indexes col = s.obj.indexes col ∧
          s'.fs.read (datPath.indexFile col) = s.fs.read (datPath.indexFile col) := by
        cases hc : s.obj.indexes c with
        | some disk =>
          have hsome : (s.obj.indexes c).isSome = true := by rw [hc]; rfl
          rw [openIndex, getObj_bind_apply, if_pos hsome] at hopen
          cases hopen
          exact ⟨rfl, rfl⟩
        | none =>
          cases hdisk : (indexIn s.fs (datPath.indexFile c) : Except Exn ι) with
          | error e =>
            rw [openIndex_error hc hdisk] at hopen
            cases hopen
          | ok disk =>
            rw [openIndex_ok hc hdisk] at hopen
            cases hopen
            exact ⟨Function.update_of_ne hne _ _, FileSystem.read_write_ne _ _ hfile⟩
      obtain ⟨e, s'', hs''⟩ := ih (s := s') ((List.mem_cons.mp hcol).resolve_left hne)
        (hkept.1.trans hnone) (by rwa [Opens, indexIn, hkept.2])
      exact ⟨e, s'', (bind_ok hopen).trans hs''⟩

theorem load_of_readTable {junk : Nat → Nat} {path : Path} {s : OnDisk ι (Table ι)} {data : Bytes}
    (hdata : s.fs.read path = some (.bytes data)) {im : TableImage} {w : ReadState}
    (h : readTable junk s.obj.nextId path ⟨data, 0⟩ = .ok im w) :
    load junk path s =
      loadIndexes path im.version w ⟨{ im.table with datPath := s.obj.datPath }, s.fs⟩ := by
  rw [load, getObj_bind_apply, getFs_bind_apply, hdata]
  dsimp only
  rw [h]
  rfl

theorem load_of_readTable_error {junk : Nat → Nat} {path : Path} {s : OnDisk ι (Table ι)}
    {data : Bytes} (hdata : s.fs.read path = some (.bytes data)) {e : Exn} {w : ReadState}
    (h : readTable junk s.obj.nextId path ⟨data, 0⟩ = .error e w) :
    load junk path s = .error e s := by
  rw [load, getObj_bind_apply, getFs_bind_apply, hdata]
  dsimp only
  rw [h]
  rfl

end Table
end CwDb.Storage
