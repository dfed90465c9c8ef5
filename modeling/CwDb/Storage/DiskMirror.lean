import CwDb.Storage.IndexCalls
import CwDb.Foundation.AListRel

/-! Two data directories with the same files, up to the index files, of which one tracks the
other; and objects beside them. -/
namespace CwDb.Storage
open Foundation DiskM

variable {ι : Type} [TableIndex ι] {lost : Lost}

/-- The same bytes, or the files of two indexes of which one tracks the other. -/
inductive DataMirror (T : Tracking ι lost) : FileData ι → FileData (KeyMap lost) → Prop
  | bytes (data : Bytes) : DataMirror T (.bytes data) (.bytes data)
  | index {file : TableIndex.File ι} {m : KeyMap lost} (h : T.FileRel file m) :
    DataMirror T (.index file) (.index m)

/-- The same files under the same names. -/
def FilesMirror (T : Tracking ι lost) (fs : FileSystem ι) (gs : FileSystem (KeyMap lost)) : Prop :=
  AListRel (AListRel (DataMirror T)) fs gs

namespace FilesMirror
variable {T : Tracking ι lost} {fs : FileSystem ι} {gs : FileSystem (KeyMap lost)}

theorem read (h : FilesMirror T fs gs) (p : Path) :
    Option.Rel (DataMirror T) (fs.read p) (gs.read p) := by
  rw [FileSystem.read, FileSystem.read]
  have hdir := h.lookup p.dir
  cases hg : gs.lookup p.dir with
  | none =>
    rw [hg] at hdir
    rw [rel_none hdir]
    exact .none
  | some e =>
    rw [hg] at hdir
    obtain ⟨d, hd, hde⟩ := rel_some hdir
    rw [hd]
    exact hde.lookup p.name

theorem write (h : FilesMirror T fs gs) (p : Path) {x : FileData ι} {y : FileData (KeyMap lost)}
    (hxy : DataMirror T x y) : FilesMirror T (fs.write p x) (gs.write p y) :=
  h.insert p.dir ((h.getD p.dir .empty).insert p.name hxy)

theorem remove (h : FilesMirror T fs gs) (p : Path) : FilesMirror T (fs.remove p) (gs.remove p) := by
  rw [FileSystem.remove, FileSystem.remove]
  have hdir := h.lookup p.dir
  cases hg : gs.lookup p.dir with
  | none =>
    rw [hg] at hdir
    rw [rel_none hdir]
    exact h
  | some e =>
    rw [hg] at hdir
    obtain ⟨d, hd, hde⟩ := rel_some hdir
    rw [hd]
    exact h.insert p.dir (hde.erase p.name)

theorem createDirectory (h : FilesMirror T fs gs) (dir : Str) :
    FilesMirror T (fs.createDirectory dir) (gs.createDirectory dir) := by
  rw [FileSystem.createDirectory, FileSystem.createDirectory]
  have hdir := h.lookup dir
  cases hg : gs.lookup dir with
  | none =>
    rw [hg] at hdir
    rw [rel_none hdir]
    exact h.insert dir .empty
  | some e =>
    rw [hg] at hdir
    obtain ⟨d, hd, -⟩ := rel_some hdir
    rw [hd]
    exact h

end FilesMirror

/-! ### Objects beside files -/

/-- Related objects, beside files that mirror each other. -/
structure OnMirror (T : Tracking ι lost) {α β : Type} (P : α → β → Prop) (s : OnDisk ι α)
    (v : OnDisk (KeyMap lost) β) : Prop where
  obj : P s.obj v.obj
  files : FilesMirror T s.fs v.fs

/-- Work on a part of each object. -/
theorem onPart_agree {T : Tracking ι lost} {α β γ δ ζ : Type} {P P' : γ → δ → Prop}
    {Q : α → β → Prop}
    {get : α → Option γ} {put : α → γ → α} {get' : β → Option δ} {put' : β → δ → β}
    {missing : Exn} {x : DiskM ι γ ζ} {y : DiskM (KeyMap lost) δ ζ} {s : OnDisk ι α}
    {v : OnDisk (KeyMap lost) β} (h : OnMirror T Q s v)
    (hget : Option.Rel P (get s.obj) (get' v.obj))
    (hput : ∀ b c, P' b c → Q (put s.obj b) (put' v.obj c))
    (hxy : ∀ b c, get s.obj = some b → get' v.obj = some c → P b c →
      Agree (OnMirror T P') (x ⟨b, s.fs⟩) (y ⟨c, v.fs⟩)) :
    Agree (OnMirror T Q) (onPart get put missing x s) (onPart get' put' missing y v) := by
  cases hv : get' v.obj with
  | none =>
    rw [hv] at hget
    rw [onPart_missing (rel_none hget), onPart_missing hv]
    exact .error _ h
  | some c =>
    rw [hv] at hget
    obtain ⟨b, hb, hbc⟩ := rel_some hget
    have hagree := hxy b c hb hv hbc
    cases hy : y ⟨c, v.fs⟩ with
    | ok a v' =>
      rw [hy] at hagree
      obtain ⟨s', hx, h'⟩ := hagree.of_ok
      rw [onPart_ok hb hx, onPart_ok hv hy]
      exact .ok a ⟨hput _ _ h'.obj, h'.files⟩
    | error e v' =>
      rw [hy] at hagree
      obtain ⟨s', hx, h'⟩ := hagree.of_error
      rw [onPart_error hb hx, onPart_error hv hy]
      exact .error e ⟨hput _ _ h'.obj, h'.files⟩

end CwDb.Storage
