import CwDb.Core.Saving
import CwDb.Foundation.AListRel
import CwDb.Storage.TableInvariant

/-! Every file belongs to a table.

A database that is saved sweeps its directory first, and a table only writes files that are
named after it. So after every statement each file in the directory of a database is one that
the sweep would keep (`Tidy`), and no table that is new meets the index file of another. -/
namespace CwDb
open Foundation Storage DiskM

namespace Storage

/-! ### Names -/

/-- A name as the language spells one. -/
def Plain (name : Str) : Prop := name ≠ [] ∧ dot ∉ name

theorem takeWhile_reverse_append {b : UInt8} (name : Str) {tail : Str} (h : b ∉ tail) :
    ((name ++ b :: tail).reverse.takeWhile (· ≠ b)).reverse = tail := by
  have hall : ∀ c ∈ tail.reverse, (decide (c ≠ b)) = true := by
    intro c hc
    exact decide_eq_true fun heq => h (heq ▸ List.mem_reverse.mp hc)
  rw [List.reverse_append, List.reverse_cons, List.append_assoc, List.takeWhile_append_of_pos hall]
  simp

/-- What follows the last dot of a name is its extension. -/
theorem extension_append {name tail : Str} (hname : name ≠ []) (h : dot ∉ tail) :
    extension (name ++ dot :: tail) = dot :: tail := by
  have hlength := List.length_pos_iff.mpr hname
  rw [extension, takeWhile_reverse_append name h, if_pos (by simp; omega)]

theorem stem_append {name tail : Str} (hname : name ≠ []) (h : dot ∉ tail) :
    stem (name ++ dot :: tail) = name := by
  rw [stem, extension_append hname h, List.length_append, Nat.add_sub_cancel,
    List.take_left]

theorem datSuffix_eq : datSuffix = dot :: Str.ofString "dat" := by decide

theorem idxSuffix_eq : idxSuffix = dot :: Str.ofString "idx" := by decide

theorem dot_notMem_dat : dot ∉ Str.ofString "dat" := by decide

theorem findSub_append (name rest : Str) (h : dot ∉ name) :
    findSub idxSuffix (name ++ (idxSuffix ++ rest)) = some name.length := by
  induction name with
  | nil =>
    rw [idxSuffix_eq]
    simp [findSub]
  | cons b name ih =>
    rw [List.mem_cons, not_or] at h
    have hhere : idxSuffix.isPrefixOf (b :: (name ++ (idxSuffix ++ rest))) = false := by
      rw [idxSuffix_eq, List.isPrefixOf_cons_cons]
      simp [h.1]
    rw [List.cons_append, findSub, hhere, if_neg Bool.false_ne_true, ih h.2]
    rfl

/-- The file of a table is the table's. -/
theorem sweptStem_datPath {name : Str} (h : name ≠ []) : sweptStem (name ++ datSuffix) = some name := by
  have hlength : ¬ (name ++ datSuffix).length < 5 := by
    have := List.length_pos_iff.mpr h
    rw [datSuffix_eq]
    simp [Str.ofString]
    omega
  rw [sweptStem, if_neg hlength, datSuffix_eq, if_pos (extension_append h dot_notMem_dat),
    stem_append h dot_notMem_dat]

/-- A number is written in digits. -/
theorem digit_of_mem_toString {n : Nat} {b : UInt8} (h : b ∈ Str.ofString (toString n)) :
    48 ≤ b.toNat ∧ b.toNat ≤ 57 := by
  obtain ⟨c, hc, rfl⟩ := List.mem_map.mp h
  have hchars : (toString n).toList = Nat.toDigits 10 n := Nat.toList_repr
  rw [hchars] at hc
  have hdigit := Nat.isDigit_of_mem_toDigits (by decide) (by decide) hc
  simp only [Char.isDigit, ge_iff_le, Bool.and_eq_true, decide_eq_true_eq] at hdigit
  have hge : 48 ≤ c.toNat := UInt32.le_iff_toNat_le.mp hdigit.1
  have hle : c.toNat ≤ 57 := UInt32.le_iff_toNat_le.mp hdigit.2
  simp
  omega

theorem dot_notMem_toString (n : Nat) : dot ∉ Str.ofString (toString n) :=
  fun h => absurd (digit_of_mem_toString h).1 (by decide)

theorem toString_ne_dat (n : Nat) : Str.ofString (toString n) ≠ Str.ofString "dat" := by
  intro h
  have hmem : (100 : UInt8) ∈ Str.ofString (toString n) := by
    rw [h]
    decide
  exact absurd (digit_of_mem_toString hmem).2 (by decide)

/-- The files of the indexes of a table are the table's. -/
theorem sweptStem_indexFile (dir : Str) {name : Str} (h : Plain name) (col : Nat) :
    sweptStem ((datPathOf dir name).indexFile col).name = some name := by
  have hstem : stem (name ++ datSuffix) = name := by
    rw [datSuffix_eq, stem_append h.1 dot_notMem_dat]
  have hname : ((datPathOf dir name).indexFile col).name =
      name ++ idxSuffix ++ dot :: Str.ofString (toString col) := by
    show stem (name ++ datSuffix) ++ idxSuffix ++ Str.ofString ("." ++ toString col) = _
    rw [hstem, Str.ofString, String.toList_append, List.map_append]
    rfl
  have hlength : ¬ (name ++ idxSuffix ++ dot :: Str.ofString (toString col)).length < 5 := by
    have := List.length_pos_iff.mpr h.1
    rw [idxSuffix_eq]
    simp [Str.ofString]
    omega
  have hext : extension (name ++ idxSuffix ++ dot :: Str.ofString (toString col)) ≠ datSuffix := by
    rw [extension_append (by simp [h.1]) (dot_notMem_toString col), datSuffix_eq]
    exact fun heq => toString_ne_dat col (List.cons.inj heq).2
  rw [hname, sweptStem, if_neg hlength, if_neg hext, List.append_assoc, findSub_append name _ h.2,
    Option.map_some, List.take_left]

/-! ### What a database keeps -/

variable {ι : Type}

namespace Database

/-- A database is in the directory of its name, and its tables are open. -/
structure Placed (dir : Str) (d : Database ι) : Prop where
  name : d.name = dir
  storageDir : d.storageDir = some dir
  opened : ∀ tbl t, d.tables.lookup tbl = some t → t.Opened

variable {dir : Str} {d : Database ι}

theorem Placed.insert (h : d.Placed dir) (name : Str) {t : Table ι} (ht : t.Opened) :
    Placed dir { d with tables := d.tables.insert name t } where
  name := h.name
  storageDir := h.storageDir
  opened tbl u hu := by
    by_cases htbl : tbl = name
    · subst htbl
      rw [AList.lookup_insert] at hu
      cases hu
      exact ht
    · rw [AList.lookup_insert_ne htbl] at hu
      exact h.opened tbl u hu

theorem keepsFile_of_swept {fname tbl : Str} (hswept : sweptStem fname = some tbl)
    (htbl : (d.tables.lookup tbl).isSome = true) : d.keepsFile fname = true := by
  rw [keepsFile, hswept]
  exact htbl

/-- The file of a table stays. -/
theorem keepsFile_datPath {name : Str} (h : (d.tables.lookup name).isSome = true) :
    d.keepsFile (datPathOf dir name).name = true := by
  by_cases hname : name = []
  · subst hname
    rfl
  · exact keepsFile_of_swept (sweptStem_datPath hname) h

theorem keepsFile_insert {fname : Str} (h : d.keepsFile fname = true) (name : Str) (t : Table ι) :
    keepsFile { d with tables := d.tables.insert name t } fname = true := by
  cases hswept : sweptStem fname with
  | none =>
    rw [keepsFile, hswept]
  | some tbl =>
    rw [keepsFile, hswept] at h
    exact keepsFile_of_swept hswept (isSome_lookup_insert h name t)

end Database

variable [TableIndex ι]

/-! ### Files -/

namespace FileSystem

theorem read_write (fs : FileSystem ι) (p q : Path) (data : FileData ι) :
    (fs.write p data).read q = if q = p then some data else fs.read q := by
  by_cases h : q = p
  · simp [h]
  · rw [if_neg h, read_write_ne _ _ h]

theorem read_remove (fs : FileSystem ι) (p q : Path) :
    (fs.remove p).read q = if q = p then none else fs.read q := by
  cases hd : fs.lookup p.dir with
  | none =>
    have hnone : fs.read p = none := by rw [read, hd, Option.bind_none]
    rw [remove, hd]
    by_cases h : q = p
    · rw [if_pos h, h, hnone]
    · rw [if_neg h]
  | some d =>
    rw [remove, hd]
    show FileSystem.read (AList.insert p.dir (d.erase p.name) fs) q = _
    by_cases hdir : q.dir = p.dir
    · rw [read, read, hdir, AList.lookup_insert, hd, Option.bind_some, Option.bind_some]
      by_cases hname : q.name = p.name
      · have hq : q = p := by
          cases p
          cases q
          simp_all
        rw [if_pos hq, hname, AList.lookup_erase]
      · rw [if_neg fun h => hname (congrArg Path.name h), AList.lookup_erase_ne hname]
    · rw [if_neg fun h => hdir (congrArg Path.dir h), read, read, AList.lookup_insert_ne hdir]

@[simp] theorem read_createDirectory (fs : FileSystem ι) (dir : Str) (p : Path) :
    (fs.createDirectory dir).read p = fs.read p := by
  cases hd : fs.lookup dir with
  | none =>
    rw [createDirectory, hd]
    by_cases hdir : p.dir = dir
    · show FileSystem.read (AList.insert dir ∅ fs) p = _
      rw [read, read, hdir, AList.lookup_insert, hd]
      rfl
    · show FileSystem.read (AList.insert dir ∅ fs) p = _
      rw [read, read, AList.lookup_insert_ne hdir]
  | some d => rw [createDirectory, hd]

theorem read_erase (fs : FileSystem ι) (dir : Str) (p : Path) :
    FileSystem.read (AList.erase dir fs) p = if p.dir = dir then none else fs.read p := by
  by_cases hdir : p.dir = dir
  · rw [if_pos hdir, read, hdir, AList.lookup_erase, Option.bind_none]
  · rw [if_neg hdir, read, read, AList.lookup_erase_ne hdir]

theorem mem_keys_of_read {fs : FileSystem ι} {dir fname : Str}
    (h : (fs.read ⟨dir, fname⟩).isSome = true) : fname ∈ ((fs.lookup dir).getD ∅).keys := by
  rw [read] at h
  cases hd : fs.lookup dir with
  | none =>
    rw [hd] at h
    cases h
  | some d =>
    rw [hd] at h
    exact AList.lookup_isSome.mp h

/-- The files that are new are of some kind. -/
def Adds (P : Path → Prop) (fs fs' : FileSystem ι) : Prop :=
  ∀ p, (fs'.read p).isSome = true → P p ∨ (fs.read p).isSome = true

variable {P Q : Path → Prop} {fs fs' fs'' : FileSystem ι}

theorem Adds.refl : Adds P fs fs := fun _ h => .inr h

theorem Adds.trans (h : Adds P fs fs') (h' : Adds P fs' fs'') : Adds P fs fs'' :=
  fun p hp => (h' p hp).elim .inl (h p)

theorem Adds.imp (h : Adds P fs fs') (hPQ : ∀ p, P p → Q p) : Adds Q fs fs' :=
  fun p hp => (h p hp).imp_left (hPQ p)

theorem Adds.write {p : Path} (hp : P p) (data : FileData ι) : Adds P fs (fs.write p data) := by
  intro q hq
  rw [read_write] at hq
  by_cases hqp : q = p
  · exact .inl (hqp ▸ hp)
  · rw [if_neg hqp] at hq
    exact .inr hq

end FileSystem

/-! ### Tables -/

namespace Table
open FileSystem

/-- An open table, beside the files as they were. -/
structure Still (fs : FileSystem ι) (s : OnDisk ι (Table ι)) : Prop where
  opened : s.obj.Opened
  files : s.fs = fs

variable {fs : FileSystem ι}

theorem still_onIndex {α : Type} (col : Nat) (disk : ι) (x : EStateM Exn ι α) :
    Keeps (Still fs) (onIndex col disk x) := by
  intro s h
  cases hx : x disk with
  | ok a d =>
    rw [onIndex_ok hx]
    exact ⟨h.opened.update col d, h.files⟩
  | error e d =>
    rw [onIndex_error hx]
    exact ⟨h.opened.update col d, h.files⟩

theorem still_flushIndexes : Keeps (Still fs) (flushIndexes (ι := ι)) := by
  refine keeps_bind keeps_getObj fun t => keeps_eachColumn (fun col => ?_) _
  refine keeps_bind keeps_getObj fun t => ?_
  split
  · exact keeps_pure ()
  · split
    · exact still_onIndex col _ _
    · exact keeps_pure ()

theorem openIndex_adds (datPath : Path) (col : Nat) :
    Keeps (fun s : OnDisk ι (Table ι) => Adds (fun p => ∃ c, p = datPath.indexFile c) fs s.fs)
      (openIndex datPath col) := by
  refine keeps_bind keeps_getObj fun t => ?_
  split
  · exact keeps_pure ()
  · refine keeps_bind (fun _ h => h) fun gs => keeps_bind (keeps_fromExcept _) fun disk => ?_
    refine keeps_bind (fun s h => ?_) fun _ => fun _ h => h
    exact h.trans (.write ⟨col, rfl⟩ _)

/-- A table that is bound makes no file but those of its indexes. -/
theorem bindDatPath_adds (datPath : Path) (s : OnDisk ι (Table ι)) :
    Adds (fun p => ∃ c, p = datPath.indexFile c) s.fs (stateOf (bindDatPath datPath s)).fs := by
  show Adds _ s.fs (stateOf (eachColumn (openIndex datPath) s.obj.schema.indexedColumns
    ⟨{ s.obj with datPath := some datPath }, s.fs⟩)).fs
  exact keeps_eachColumn (openIndex_adds datPath) _ _ .refl

/-- A table that is open and saved makes no file but its own. -/
theorem save_adds (path : Path) {s : OnDisk ι (Table ι)} (h : s.obj.Opened) :
    (stateOf (save path s)).obj.Opened ∧ Adds (· = path) s.fs (stateOf (save path s)).fs := by
  have hbound : Still s.fs ⟨{ s.obj with datPath := some path }, s.fs⟩ := ⟨⟨rfl, h.isOpen⟩, rfl⟩
  rw [save, bind_ok (bindDatPath_of_opened h path)]
  have hflushed := still_flushIndexes _ hbound
  cases hflush : flushIndexes ⟨{ s.obj with datPath := some path }, s.fs⟩ with
  | error e s' =>
    rw [hflush] at hflushed
    rw [bind_error hflush]
    exact ⟨hflushed.opened, hflushed.files ▸ .refl⟩
  | ok _ s' =>
    rw [hflush] at hflushed
    rw [bind_ok hflush, getObj_bind_apply]
    cases himage : image s'.obj with
    | error e => exact ⟨hflushed.opened, hflushed.files ▸ .refl⟩
    | ok data =>
      refine ⟨hflushed.opened, ?_⟩
      intro p hp
      have hread : ((((s'.fs.write { path with name := path.name ++ tmpSuffix } (.bytes data)).remove
          { path with name := path.name ++ tmpSuffix }).write path (.bytes data)).read p).isSome =
            true := hp
      rw [read_write, read_remove, read_write] at hread
      by_cases hpath : p = path
      · exact .inl hpath
      · rw [if_neg hpath] at hread
        by_cases htmp : p = { path with name := path.name ++ tmpSuffix }
        · rw [if_pos htmp] at hread
          cases hread
        · rw [if_neg htmp, if_neg htmp] at hread
          exact .inr (hflushed.files ▸ hread)

end Table

/-! ### Databases -/

namespace Database
open FileSystem

/-- A placed database, whose directory has only files it keeps. -/
structure Housed (dir : Str) (fs : FileSystem ι) (s : OnDisk ι (Database ι)) : Prop where
  placed : s.obj.Placed dir
  keeps : ∀ fname, (s.fs.read ⟨dir, fname⟩).isSome = true → s.obj.keepsFile fname = true
  adds : Adds (fun p => p.dir = dir) fs s.fs

variable {dir : Str} {fs : FileSystem ι} {d : Database ι}

/-- A table is put back, or is new, and it made files of its own only. -/
theorem Housed.put {s : OnDisk ι (Database ι)} (h : Housed dir fs s) {name : Str} {t : Table ι}
    {fs' : FileSystem ι} {P : Path → Prop} (ht : t.Opened) (hfs : Adds P s.fs fs')
    (hP : ∀ p, P p → p.dir = dir ∧
      ∀ d : Database ι, (d.tables.lookup name).isSome = true → d.keepsFile p.name = true) :
    Housed dir fs ⟨{ s.obj with tables := s.obj.tables.insert name t }, fs'⟩ where
  placed := h.placed.insert name ht
  keeps fname hread := by
    rcases hfs _ hread with hnew | hold
    · exact (hP _ hnew).2 _ (by simp)
    · exact keepsFile_insert (h.keeps fname hold) name t
  adds := h.adds.trans (hfs.imp fun p hp => (hP p hp).1)

/-- Work on a table that leaves it open, and makes no file but the table's. -/
theorem onTable_housed {α : Type} {name : Str} {x : TableM ι α}
    (hx : ∀ s : OnDisk ι (Table ι), s.obj.Opened →
      (stateOf (x s)).obj.Opened ∧ Adds (· = datPathOf dir name) s.fs (stateOf (x s)).fs) :
    Keeps (Housed dir fs) (onTable name x) := by
  intro s h
  cases ht : s.obj.tables.lookup name with
  | none =>
    rw [onTable, onPart_missing ht]
    exact h
  | some t =>
    rw [onTable, stateOf_onPart ht]
    obtain ⟨hopened, hadds⟩ := hx ⟨t, s.fs⟩ (h.placed.opened name t ht)
    refine h.put hopened hadds fun p hp => ?_
    subst hp
    exact ⟨rfl, fun d hd => keepsFile_datPath hd⟩

theorem eachTable_keeps {P : OnDisk ι (Database ι) → Prop} {f : Str → DatabaseM ι Unit}
    (hf : ∀ name, Keeps P (f name)) (names : List Str) : Keeps P (eachTable f names) := by
  induction names with
  | nil => exact keeps_pure ()
  | cons name names ih => exact keeps_bind (hf name) fun _ => ih

/-- Open tables that are bound again make no file. -/
theorem setStorageDir_run {s : OnDisk ι (Database ι)} (hname : s.obj.name = dir)
    (hopened : ∀ tbl t, s.obj.tables.lookup tbl = some t → t.Opened) :
    ∃ d, setStorageDir dir s = .ok () ⟨d, s.fs⟩ ∧ d.Placed dir := by
  have hloop : ∀ (names : List Str) (d : Database ι), d.Placed dir →
      (∀ name ∈ names, (d.tables.lookup name).isSome = true) →
      ∃ d', eachTable (fun name => onTable name (Table.bindDatPath (datPathOf dir name))) names
        ⟨d, s.fs⟩ = .ok () ⟨d', s.fs⟩ ∧ d'.Placed dir := by
    intro names
    induction names with
    | nil =>
      intro d hd _
      exact ⟨d, rfl, hd⟩
    | cons name names ih =>
      intro d hd hthere
      obtain ⟨t, ht⟩ := Option.isSome_iff_exists.mp (hthere name List.mem_cons_self)
      have hopen := hd.opened name t ht
      have hstep := onTable_ok (s := ⟨d, s.fs⟩) ht
        (Table.bindDatPath_of_opened (s := ⟨t, s.fs⟩) hopen (datPathOf dir name))
      obtain ⟨d', hrest, hd'⟩ := ih _ (hd.insert name (t := { t with
        datPath := some (datPathOf dir name) }) ⟨rfl, hopen.isOpen⟩) fun other hother =>
          isSome_lookup_insert (hthere other (List.mem_cons_of_mem _ hother)) name _
      exact ⟨d', by rw [eachTable, bind_ok hstep, hrest], hd'⟩
  rw [setStorageDir, modifyObj_bind_apply, getObj_bind_apply]
  exact hloop s.obj.tables.keys _ ⟨hname, rfl, hopened⟩ fun name hname =>
    AList.lookup_isSome.mpr hname

/-- After the sweep the files it went over are files that stay. -/
theorem sweepDirectory_run (dir : Str) (fnames : List Str) (s : OnDisk ι (Database ι)) :
    ∃ fs', sweepDirectory dir fnames s = .ok () ⟨s.obj, fs'⟩ ∧ Adds (fun _ => False) s.fs fs' ∧
      ∀ fname ∈ fnames, (fs'.read ⟨dir, fname⟩).isSome = true → s.obj.keepsFile fname = true := by
  induction fnames generalizing s with
  | nil => exact ⟨s.fs, rfl, .refl, fun _ h => by cases h⟩
  | cons fname fnames ih =>
    rw [sweepDirectory, getObj_bind_apply]
    by_cases hkeeps : (!s.obj.keepsFile fname) = true
    · rw [if_pos hkeeps, modifyFs_bind_apply]
      obtain ⟨fs', hrun, hadds, hkept⟩ := ih ⟨s.obj, s.fs.remove ⟨dir, fname⟩⟩
      have hremoved : ∀ p, (fs'.read p).isSome = true → p ≠ ⟨dir, fname⟩ ∧ (s.fs.read p).isSome = true := by
        intro p hp
        have hread := (hadds p hp).resolve_left id
        rw [read_remove] at hread
        by_cases heq : p = ⟨dir, fname⟩
        · rw [if_pos heq] at hread
          cases hread
        · rw [if_neg heq] at hread
          exact ⟨heq, hread⟩
      refine ⟨fs', hrun, fun p hp => .inr (hremoved p hp).2, fun other hother hread => ?_⟩
      rcases List.mem_cons.mp hother with rfl | hother
      · exact absurd rfl (hremoved _ hread).1
      · exact hkept other hother hread
    · rw [if_neg hkeeps]
      obtain ⟨fs', hrun, hadds, hkept⟩ := ih s
      refine ⟨fs', hrun, hadds, fun other hother hread => ?_⟩
      rcases List.mem_cons.mp hother with rfl | hother
      · simpa using hkeeps
      · exact hkept other hother hread

/-- Whatever was in its directory, a database that is saved is housed. -/
theorem saveTo_housed {s : OnDisk ι (Database ι)} (h : s.obj.Placed dir) :
    Housed dir s.fs (stateOf (saveTo dir s)) := by
  obtain ⟨d₁, hset₁, hd₁⟩ := setStorageDir_run (s := ⟨s.obj, s.fs.createDirectory dir⟩) h.name h.opened
  obtain ⟨d₂, hset₂, hd₂⟩ := setStorageDir_run (s := ⟨d₁, s.fs.createDirectory dir⟩) hd₁.name hd₁.opened
  obtain ⟨fs', hsweep, hadds, hkept⟩ := sweepDirectory_run dir
    (((s.fs.createDirectory dir).lookup dir).getD ∅).keys ⟨d₂, s.fs.createDirectory dir⟩
  rw [saveTo, modifyFs_bind_apply, bind_ok hset₁, bind_ok hset₂, getFs_bind_apply, bind_ok hsweep,
    getObj_bind_apply]
  refine eachTable_keeps (fun name => onTable_housed fun s hs => Table.save_adds _ hs) _ _ ?_
  have hold : ∀ p, (fs'.read p).isSome = true → ((s.fs.createDirectory dir).read p).isSome = true :=
    fun p hp => (hadds p hp).resolve_left id
  refine ⟨hd₂, fun fname hread => hkept fname (mem_keys_of_read (hold _ hread)) hread, fun p hp => ?_⟩
  exact .inr (read_createDirectory s.fs dir p ▸ hold p hp)

/-- Nothing but a table's own files goes away with it. -/
theorem dropTable_run {s : OnDisk ι (Database ι)} (h : Placed dir s.obj) (name : Str) :
    (∃ e, dropTable name s = .error e s) ∨
      ∃ d, dropTable name s = .ok () ⟨d, s.fs⟩ ∧ d.Placed dir := by
  rw [dropTable, getObj_bind_apply]
  cases ht : s.obj.tables.lookup name with
  | none => exact .inl ⟨_, rfl⟩
  | some t =>
    refine .inr ⟨_, rfl, h.name, h.storageDir, fun tbl u hu => ?_⟩
    have herased : (s.obj.tables.erase name).lookup tbl = some u := hu
    by_cases htbl : tbl = name
    · rw [htbl, AList.lookup_erase] at herased
      cases herased
    · rw [AList.lookup_erase_ne htbl] at herased
      exact h.opened tbl u herased

section New
variable {lost : Lost} {fs : FileSystem (KeyMap lost)}

/-- A table that is new meets no file of an index. -/
theorem Housed.noIndexes {s : OnDisk (KeyMap lost) (Database (KeyMap lost))} (h : Housed dir fs s)
    {name : Str} (hname : Plain name) (hnew : s.obj.tables.lookup name = none) :
    Table.NoIndexes s.fs (datPathOf dir name) := by
  intro col
  cases hread : s.fs.read ((datPathOf dir name).indexFile col) with
  | none => exact .inl rfl
  | some file =>
    have hkeeps := h.keeps ((datPathOf dir name).indexFile col).name (Option.isSome_iff_exists.mpr
      ⟨file, hread⟩)
    rw [keepsFile, sweptStem_indexFile dir hname] at hkeeps
    simp [hnew] at hkeeps

theorem createTable_housed {name : Str} (hname : Plain name) (schema : TableSchema) :
    Keeps (Housed dir fs) (createTable (ι := KeyMap lost) name schema) := by
  intro s h
  obtain ⟨⟨dbName, tables, storageDir⟩, gs⟩ := s
  have hdir : storageDir = some dir := h.placed.storageDir
  subst hdir
  rw [createTable, getObj_bind_apply]
  by_cases hthere : (tables.lookup name).isSome = true
  · rw [if_pos hthere]
    exact h
  · have hnew := h.noIndexes hname (by simpa using hthere)
    obtain ⟨gs', hbind⟩ := Table.bindDatPath_new lost name schema (datPathOf dir name) hnew
    have hadds := Table.bindDatPath_adds (datPathOf dir name)
      (⟨{ name, schema }, gs⟩ : OnDisk (KeyMap lost) (Table (KeyMap lost)))
    rw [hbind] at hadds
    have hrun := onTable_ok (s := ⟨⟨dbName, tables.insert name { name, schema }, some dir⟩, gs⟩)
      (AList.lookup_insert _) hbind
    simp only [AList.insert_insert] at hrun
    rw [if_neg hthere, modifyObj_bind_apply]
    show Housed dir fs (stateOf (onTable name _ _))
    rw [hrun]
    refine h.put (Table.emptyTable_sound lost name schema (datPathOf dir name)).opened hadds
      fun p hp => ?_
    obtain ⟨col, rfl⟩ := hp
    exact ⟨rfl, fun d hd => keepsFile_of_swept (sweptStem_indexFile dir hname col) hd⟩

end New

end Database
end Storage

/-! ### The server -/

namespace Dbms

variable {ι : Type}

theorem placed_insert {databases : AList fun _ : Str => Database ι}
    (h : ∀ db d, databases.lookup db = some d → d.Placed db) {db : Str} {d : Database ι}
    (hd : d.Placed db) : ∀ db' d', (databases.insert db d).lookup db' = some d' → d'.Placed db' := by
  intro db' d' hd'
  by_cases hdb : db' = db
  · subst hdb
    rw [AList.lookup_insert] at hd'
    cases hd'
    exact hd
  · rw [AList.lookup_insert_ne hdb] at hd'
    exact h db' d' hd'

variable [TableIndex ι]

/-- Every file is in the directory of a database, which keeps it if it is not the one named. -/
structure TidyBut (dir : Option Str) (s : OnDisk ι (Dbms ι)) : Prop where
  placed : ∀ db d, s.obj.databases.lookup db = some d → d.Placed db
  owned : ∀ p, (s.fs.read p).isSome = true → ∃ d, s.obj.databases.lookup p.dir = some d ∧
    (some p.dir ≠ dir → d.keepsFile p.name = true)

/-- Every file is one that the database of its directory keeps. -/
abbrev Tidy (s : OnDisk ι (Dbms ι)) : Prop := TidyBut none s

variable {s : OnDisk ι (Dbms ι)}

theorem Tidy.housed (h : Tidy s) {db : Str} {d : Database ι}
    (hd : s.obj.databases.lookup db = some d) : Database.Housed db s.fs ⟨d, s.fs⟩ where
  placed := h.placed db d hd
  keeps fname hread := by
    obtain ⟨d', hd', hkeeps⟩ := h.owned _ hread
    rw [hd] at hd'
    cases hd'
    exact hkeeps (by simp)
  adds := .refl

/-- A database is put back, its files as they were. -/
theorem TidyBut.putBut {db : Str} {d d' : Database ι} (h : TidyBut (some db) s)
    (hd : s.obj.databases.lookup db = some d) (hd' : d'.Placed db) : TidyBut (some db)
      (⟨{ s.obj with databases := s.obj.databases.insert db d' }, s.fs⟩ : OnDisk ι (Dbms ι)) where
  placed := placed_insert h.placed hd'
  owned p hp := by
    obtain ⟨e, he, hkeeps⟩ := h.owned p hp
    by_cases hdb : p.dir = db
    · subst hdb
      exact ⟨d', AList.lookup_insert _, fun hne => absurd rfl hne⟩
    · exact ⟨e, by rw [AList.lookup_insert_ne hdb]; exact he, hkeeps⟩

/-- A database is put back with its directory tidied. -/
theorem TidyBut.put {db : Str} {d : Database ι} {t : OnDisk ι (Database ι)} (h : TidyBut (some db) s)
    (hd : s.obj.databases.lookup db = some d) (ht : Database.Housed db s.fs t) :
    Tidy (⟨{ s.obj with databases := s.obj.databases.insert db t.obj }, t.fs⟩ : OnDisk ι (Dbms ι)) where
  placed := placed_insert h.placed ht.placed
  owned p hp := by
    by_cases hdb : p.dir = db
    · subst hdb
      exact ⟨t.obj, AList.lookup_insert _, fun _ => ht.keeps p.name hp⟩
    · obtain ⟨d', hd', hkeeps⟩ := h.owned p ((ht.adds p hp).resolve_left hdb)
      exact ⟨d', by rw [AList.lookup_insert_ne hdb]; exact hd', fun _ => hkeeps (by simpa using hdb)⟩

theorem Tidy.but (h : Tidy s) (dir : Str) : TidyBut (some dir) s where
  placed := h.placed
  owned p hp := by
    obtain ⟨d, hd, hkeeps⟩ := h.owned p hp
    exact ⟨d, hd, fun _ => hkeeps (by simp)⟩

/-- Work on a database that stays housed. -/
theorem onDatabase_tidy {α : Type} {x : DatabaseM ι α} {db : Str}
    (hx : ∀ fs, Keeps (Database.Housed db fs) x) : Keeps Tidy (onDatabase db x) := by
  intro s h
  cases hd : s.obj.databases.lookup db with
  | none =>
    rw [onDatabase, onPart_missing hd]
    exact h
  | some d =>
    rw [onDatabase, stateOf_onPart hd]
    exact (h.but db).put hd (hx s.fs _ (h.housed hd))

/-- Saving a database tidies its directory. -/
theorem saveDatabase_tidy {db : Str} {d : Database ι} (h : TidyBut (some db) s)
    (hd : s.obj.databases.lookup db = some d) : Tidy (stateOf (saveDatabase db s)) := by
  rw [saveDatabase, getObj_bind_apply, hd]
  show Tidy (stateOf (onDatabase db (Database.saveTo db) s))
  rw [onDatabase, stateOf_onPart hd]
  exact h.put hd (Database.saveTo_housed (s := ⟨d, s.fs⟩) (h.placed db d hd))

theorem saveDatabase_keeps (db : Str) : Keeps Tidy (saveDatabase (ι := ι) db) := by
  intro s h
  cases hd : s.obj.databases.lookup db with
  | none =>
    rw [saveDatabase, getObj_bind_apply, hd]
    exact h
  | some d => exact saveDatabase_tidy (h.but db) hd

theorem createDatabase_tidy (db : Str) : Keeps Tidy (createDatabase (ι := ι) db) := by
  intro s h
  rw [createDatabase, getObj_bind_apply]
  by_cases hthere : (s.obj.databases.lookup db).isSome = true
  · rw [if_pos hthere]
    exact h
  · rw [if_neg hthere, modifyObj_bind_apply, modifyFs_bind_apply]
    have hnew := onDatabase_ok (s := ⟨{ s.obj with
      databases := s.obj.databases.insert db { name := db } }, s.fs.createDirectory db⟩)
      (AList.lookup_insert _) (rfl : Database.setStorageDir db _ = _)
    rw [hnew]
    simp only [stateOf_ok, AList.insert_insert]
    refine ⟨placed_insert h.placed ⟨rfl, rfl, fun _ _ ht => by cases ht⟩, fun p hp => ?_⟩
    rw [FileSystem.read_createDirectory] at hp
    obtain ⟨d, hd, hkeeps⟩ := h.owned p hp
    have hdb : p.dir ≠ db := by
      intro heq
      rw [← heq, hd] at hthere
      exact hthere rfl
    exact ⟨d, by rw [AList.lookup_insert_ne hdb]; exact hd, hkeeps⟩

theorem dropDatabase_tidy (db : Str) : Keeps Tidy (dropDatabase (ι := ι) db) := by
  intro s h
  rw [dropDatabase, getObj_bind_apply]
  cases hd : s.obj.databases.lookup db with
  | none => exact h
  | some d =>
    refine ⟨fun db' d' hd' => ?_, fun p hp => ?_⟩
    · by_cases hdb : db' = db
      · subst hdb
        have hnone : (s.obj.databases.erase db').lookup db' = some d' := hd'
        rw [AList.lookup_erase] at hnone
        cases hnone
      · have hsome : (s.obj.databases.erase db).lookup db' = some d' := hd'
        rw [AList.lookup_erase_ne hdb] at hsome
        exact h.placed db' d' hsome
    · have hread : (FileSystem.read (AList.erase db s.fs) p).isSome = true := hp
      rw [FileSystem.read_erase] at hread
      by_cases hdb : p.dir = db
      · rw [if_pos hdb] at hread
        cases hread
      · rw [if_neg hdb] at hread
        obtain ⟨d', hd', hkeeps⟩ := h.owned p hread
        refine ⟨d', ?_, hkeeps⟩
        show (s.obj.databases.erase db).lookup p.dir = some d'
        rw [AList.lookup_erase_ne hdb]
        exact hd'

end Dbms
end CwDb
