import CwDb.Storage.TableIndex
import Mathlib.Data.List.AList

/-! The data directory.

Below the root there is one directory per database, and in it the files of its
tables: `t.dat`, and `t.idx.N` for the index of column `N`. Names are byte strings,
cut and matched as `std::filesystem` and `std::string` do it.

A file that an index has open is held by that index: its bytes are what
`TableIndex.file` says, and the entry of the directory is brought up to date when
the process ends. -/
namespace CwDb.Storage
open Foundation

/-! ### Names -/

def dot : UInt8 := 46

/-- `path::extension` of a file name: from its last dot on, if that is not its first
byte. -/
def extension (name : Str) : Str :=
  let tail := (name.reverse.takeWhile (· ≠ dot)).reverse
  if tail.length + 1 < name.length then dot :: tail else []

/-- `path::stem` of a file name. -/
def stem (name : Str) : Str := name.take (name.length - (extension name).length)

/-- `std::string::find`: the first place where the pattern stands. -/
def findSub (pattern : Str) : Str → Option Nat
  | [] => if pattern.isEmpty then some 0 else none
  | b :: bs =>
    if pattern.isPrefixOf (b :: bs) then some 0 else (findSub pattern bs).map (· + 1)

def datSuffix : Str := Str.ofString ".dat"
def idxSuffix : Str := Str.ofString ".idx"
def tmpSuffix : Str := Str.ofString ".tmp"

/-- A file below the root. -/
structure Path where
  dir : Str
  name : Str
  deriving DecidableEq, Repr

def Path.text (p : Path) : String := p.dir.text ++ "/" ++ p.name.text

/-- The file of the index of a column, beside the table's own file. -/
def Path.indexFile (datPath : Path) (col : Nat) : Path where
  dir := datPath.dir
  name := stem datPath.name ++ idxSuffix ++ Str.ofString ("." ++ toString col)

/-- Numbers are told apart by their text. -/
theorem ofString_toString_injective {m n : Nat}
    (h : Str.ofString (toString m) = Str.ofString (toString n)) : m = n := by
  have hdigit : ∀ k : Nat, ∀ c ∈ Nat.toDigits 10 k, c.toNat < 256 := by
    intro k c hc
    have hc := Nat.isDigit_of_mem_toDigits (by decide) (by decide) hc
    simp only [Char.isDigit, ge_iff_le, Bool.and_eq_true, decide_eq_true_eq] at hc
    exact lt_of_le_of_lt (UInt32.le_iff_toNat_le.mp hc.2) (by decide)
  have hback : ∀ k : Nat, (Str.ofString (toString k)).map (fun b => Char.ofNat b.toNat) =
      Nat.toDigits 10 k := by
    intro k
    have hchars : (toString k).toList = Nat.toDigits 10 k := Nat.toList_repr
    rw [Str.ofString, List.map_map, hchars]
    conv_rhs => rw [← List.map_id (Nat.toDigits 10 k)]
    apply List.map_congr_left
    intro c hc
    have hlt := hdigit k c hc
    simp [Nat.mod_eq_of_lt hlt]
  have hdigits : Nat.toDigits 10 m = Nat.toDigits 10 n := by
    rw [← hback m, h, hback n]
  rw [← Nat.ofDigitChars_toDigits (b := 10) (n := m) (by decide) (by decide), hdigits,
    Nat.ofDigitChars_toDigits (by decide) (by decide)]

/-- Every column has a file of its own. -/
theorem Path.indexFile_injective {datPath : Path} {c d : Nat}
    (h : datPath.indexFile c = datPath.indexFile d) : c = d := by
  have hname := List.append_cancel_left (congrArg Path.name h)
  have hsplit : ∀ k : Nat, Str.ofString ("." ++ toString k) = dot :: Str.ofString (toString k) := by
    intro k
    rw [Str.ofString, String.toList_append, List.map_append]
    rfl
  rw [hsplit, hsplit] at hname
  exact ofString_toString_injective (List.cons.inj hname).2

/-- The file of an index is never the file it stands beside: two dots follow the stem. -/
theorem Path.indexFile_ne (datPath : Path) (col : Nat) : datPath.indexFile col ≠ datPath := by
  intro h
  obtain ⟨dir, name⟩ := datPath
  have hname : stem name ++ idxSuffix ++ Str.ofString ("." ++ toString col) = name :=
    congrArg Path.name h
  generalize htail : (name.reverse.takeWhile (· ≠ dot)).reverse = tail
  have hdot : dot ∉ tail := by
    rw [← htail, List.mem_reverse]
    intro hmem
    exact of_decide_eq_true (List.all_eq_true.mp List.all_takeWhile dot hmem) rfl
  have hsuffix : tail <:+ name := by
    have h := List.takeWhile_prefix (· ≠ dot) (l := name.reverse)
    rw [← List.reverse_suffix, List.reverse_reverse, htail] at h
    exact h
  obtain ⟨digits, hdigits⟩ : ∃ digits, idxSuffix ++ Str.ofString ("." ++ toString col) =
      dot :: (Str.ofString "idx" ++ dot :: digits) := by
    refine ⟨Str.ofString (toString col), ?_⟩
    rw [Str.ofString, String.toList_append, List.map_append]
    rfl
  rw [List.append_assoc, hdigits] at hname
  have hlength := congrArg List.length hname
  have hstem : (stem name).length = name.length - (extension name).length := by
    rw [stem, List.length_take]
    exact min_eq_left (Nat.sub_le _ _)
  have hext : extension name = if tail.length + 1 < name.length then dot :: tail else [] := by
    rw [extension, htail]
  by_cases hlong : tail.length + 1 < name.length
  · rw [if_pos hlong] at hext
    rw [List.length_append, hstem, hext, List.length_cons, List.length_cons] at hlength
    have hrest : Str.ofString "idx" ++ dot :: digits <:+ name :=
      ⟨stem name ++ [dot], (List.append_assoc _ _ _).trans hname⟩
    have hsame : tail.length = (Str.ofString "idx" ++ dot :: digits).length := by omega
    have heq : tail = Str.ofString "idx" ++ dot :: digits :=
      (List.suffix_of_suffix_length_le hsuffix hrest hsame.le).eq_of_length hsame
    exact hdot (heq ▸ List.mem_append_right _ List.mem_cons_self)
  · rw [if_neg hlong] at hext
    rw [List.length_append, hstem, hext, List.length_nil, List.length_cons] at hlength
    omega

/-! ### Directories -/

section
variable (ι : Type) [TableIndex ι]

inductive FileData where
  | bytes (data : Bytes)
  | index (file : TableIndex.File ι)

abbrev Directory := AList fun _ : Str => FileData ι

abbrev FileSystem := AList fun _ : Str => Directory ι

/-- An object of the program beside the files it works on. -/
structure OnDisk (α : Type) where
  obj : α
  fs : FileSystem ι

abbrev DiskM (α : Type) := EStateM Exn (OnDisk ι α)

end

variable {ι : Type} [TableIndex ι]

namespace FileSystem

def read (fs : FileSystem ι) (p : Path) : Option (FileData ι) :=
  (fs.lookup p.dir).bind fun d => d.lookup p.name

/-- Writing a file makes its directory. -/
def write (fs : FileSystem ι) (p : Path) (data : FileData ι) : FileSystem ι :=
  fs.insert p.dir (((fs.lookup p.dir).getD ∅).insert p.name data)

def remove (fs : FileSystem ι) (p : Path) : FileSystem ι :=
  match fs.lookup p.dir with
  | none => fs
  | some d => fs.insert p.dir (d.erase p.name)

def createDirectory (fs : FileSystem ι) (dir : Str) : FileSystem ι :=
  match fs.lookup dir with
  | none => fs.insert dir ∅
  | some _ => fs

@[simp] theorem read_write_self (fs : FileSystem ι) (p : Path) (data : FileData ι) :
    (fs.write p data).read p = some data := by
  simp [read, write]

theorem read_write_ne (fs : FileSystem ι) {p q : Path} (data : FileData ι) (h : q ≠ p) :
    (fs.write p data).read q = fs.read q := by
  by_cases hd : q.dir = p.dir
  · have hn : q.name ≠ p.name := fun hn => h (by cases p; cases q; cases hd; cases hn; rfl)
    rw [read, write, read, hd, AList.lookup_insert, Option.bind_some, AList.lookup_insert_ne hn]
    cases fs.lookup p.dir with
    | none => rfl
    | some d => rfl
  · rw [read, write, AList.lookup_insert_ne hd, read]

end FileSystem

namespace DiskM
variable {α β γ : Type}

def getObj : DiskM ι α α := do
  let s ← get
  return s.obj

def getFs : DiskM ι α (FileSystem ι) := do
  let s ← get
  return s.fs

def modifyObj (f : α → α) : DiskM ι α Unit := modify fun s => { s with obj := f s.obj }

def modifyFs (f : FileSystem ι → FileSystem ι) : DiskM ι α Unit :=
  modify fun s => { s with fs := f s.fs }

@[simp] theorem getObj_apply (s : OnDisk ι α) : (getObj : DiskM ι α α) s = .ok s.obj s := rfl
@[simp] theorem getFs_apply (s : OnDisk ι α) : (getFs : DiskM ι α (FileSystem ι)) s = .ok s.fs s :=
  rfl
@[simp] theorem modifyObj_apply (f : α → α) (s : OnDisk ι α) :
    (modifyObj f : DiskM ι α Unit) s = .ok () { s with obj := f s.obj } := rfl
@[simp] theorem modifyFs_apply (f : FileSystem ι → FileSystem ι) (s : OnDisk ι α) :
    (modifyFs f : DiskM ι α Unit) s = .ok () { s with fs := f s.fs } := rfl

@[simp] theorem getObj_bind_apply (f : α → DiskM ι α β) (s : OnDisk ι α) :
    (getObj >>= f) s = f s.obj s := rfl
@[simp] theorem getFs_bind_apply (f : FileSystem ι → DiskM ι α β) (s : OnDisk ι α) :
    (getFs >>= f) s = f s.fs s := rfl
@[simp] theorem modifyObj_bind_apply (g : α → α) (f : Unit → DiskM ι α β) (s : OnDisk ι α) :
    (modifyObj g >>= f) s = f () { s with obj := g s.obj } := rfl
@[simp] theorem modifyFs_bind_apply (g : FileSystem ι → FileSystem ι) (f : Unit → DiskM ι α β)
    (s : OnDisk ι α) : (modifyFs g >>= f) s = f () { s with fs := g s.fs } := rfl

theorem keeps_getObj {P : OnDisk ι α → Prop} : Keeps P (getObj : DiskM ι α α) := fun _ h => h

/-- Work on a part of the object, which `get` finds and `put` stores back. -/
def onPart (get : α → Option β) (put : α → β → α) (missing : Exn) (x : DiskM ι β γ) :
    DiskM ι α γ := fun s =>
  match get s.obj with
  | none => .error missing s
  | some b =>
    match x ⟨b, s.fs⟩ with
    | .ok c t => .ok c ⟨put s.obj t.obj, t.fs⟩
    | .error e t => .error e ⟨put s.obj t.obj, t.fs⟩

section Part
variable {get : α → Option β} {put : α → β → α} {missing : Exn} {x : DiskM ι β γ}
  {s : OnDisk ι α} {b : β}

theorem onPart_missing (h : get s.obj = none) : onPart get put missing x s = .error missing s := by
  rw [onPart, h]

theorem onPart_ok (h : get s.obj = some b) {c : γ} {t : OnDisk ι β} (hx : x ⟨b, s.fs⟩ = .ok c t) :
    onPart get put missing x s = .ok c ⟨put s.obj t.obj, t.fs⟩ := by
  simp only [onPart, h, hx]

theorem onPart_error (h : get s.obj = some b) {e : Exn} {t : OnDisk ι β}
    (hx : x ⟨b, s.fs⟩ = .error e t) :
    onPart get put missing x s = .error e ⟨put s.obj t.obj, t.fs⟩ := by
  simp only [onPart, h, hx]

/-- What work on a part leaves of the whole, thrown or not. -/
theorem stateOf_onPart (h : get s.obj = some b) : stateOf (onPart get put missing x s) =
    ⟨put s.obj (stateOf (x ⟨b, s.fs⟩)).obj, (stateOf (x ⟨b, s.fs⟩)).fs⟩ := by
  cases hx : x ⟨b, s.fs⟩ with
  | ok c t => rw [onPart_ok h hx, stateOf_ok, stateOf_ok]
  | error e t => rw [onPart_error h hx, stateOf_error, stateOf_error]

end Part

end DiskM
end CwDb.Storage
