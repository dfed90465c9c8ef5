import CwDb.Storage.Page
import CwDb.Foundation.Outcome
import Mathlib.Data.List.AList

/-! The page file behind its write-back cache.

The file is a byte list. Seeking past its end and writing there leaves zeros
between; reading past it fails the stream, and a failed stream fails for good.
The cache holds pages by id, `lru` the cached ids with the one used last in
front. A page written stays in the cache, dirty, until it is evicted or flushed.
With a capacity of 0 nothing is cached.

The eviction loops run while the cache is too large. An eviction shortens `lru`
until it is empty and then does nothing, so a loop that has not ended by then
never ends. -/
namespace CwDb.Storage
open Foundation

structure CacheSlot where
  data : Bytes
  dirty : Bool
  deriving DecidableEq, Repr

structure Pager where
  file : Bytes := []
  /-- `stream_` converts to true. -/
  good : Bool := true
  isOpen : Bool := false
  /-- 32 bits in the code, which wrap: results about runs keep it below that. -/
  pageCount : Nat := 0
  cacheCapacity : Nat := 64
  lru : List PageId := []
  cache : AList fun _ : PageId => CacheSlot := ∅

abbrev PagerM := EStateM Exn Pager

/-- `data` at an offset, zeros up to there where the file was shorter. -/
def writeAt (file : Bytes) (off : Nat) (data : Bytes) : Bytes :=
  (file ++ List.replicate (off - file.length) 0).take off ++ data ++ file.drop (off + data.length)

def zeroPage : Bytes := List.replicate kPageSize 0

namespace Pager

def cacheSize (s : Pager) : Nat := s.cache.entries.length

/-! ### The stream -/

/-- `seekp`, `write` and the check of the stream. -/
def streamWrite (pageId : PageId) (data : Bytes) (what : String) : PagerM Unit := do
  let s ← get
  if s.good then modify fun s => { s with file := writeAt s.file (pageId * kPageSize) data }
  else throw (.runtimeError (what ++ toString pageId))

/-- `seekg`, `read` and the check of the stream. -/
def streamRead (pageId : PageId) : PagerM Bytes := do
  let s ← get
  if s.good && pageId * kPageSize + kPageSize ≤ s.file.length then
    return slice s.file (pageId * kPageSize) kPageSize
  else
    modify fun s => { s with good := false }
    throw (.runtimeError ("Read failed for page " ++ toString pageId))

/-! ### The cache -/

def evictOne : PagerM Unit := do
  let s ← get
  match s.lru.getLast? with
  | none => return
  | some victim =>
    match s.cache.lookup victim with
    | none => modify fun s => { s with lru := s.lru.dropLast }
    | some slot =>
      if slot.dirty then
        streamWrite victim slot.data "Write failed while evicting page "
      modify fun s => { s with cache := s.cache.erase victim, lru := s.lru.dropLast }

/-- `while (tooLarge(cache_.size())) evict_one();` -/
def evictWhile (tooLarge : Nat → Bool) : Nat → PagerM Unit
  | 0 => throw .diverges
  | fuel + 1 => do
    let s ← get
    if tooLarge s.cacheSize then
      evictOne
      evictWhile tooLarge fuel
    else return

def setCacheCapacity (capacity : Nat) : PagerM Unit := do
  modify fun s => { s with cacheCapacity := capacity }
  let s ← get
  evictWhile (fun size => size > capacity) (s.lru.length + 1)

def touchCache (pageId : PageId) : PagerM Unit := do
  let s ← get
  match s.cache.lookup pageId with
  | none => return
  | some _ => modify fun s => { s with lru := pageId :: s.lru.erase pageId }

def checkPageSize (data : Bytes) : PagerM Unit :=
  if data.length ≠ kPageSize then
    throw (.runtimeError ("Page size must be exactly " ++ toString kPageSize))
  else return

def putCache (pageId : PageId) (data : Bytes) (dirty : Bool) : PagerM Unit := do
  checkPageSize data
  let s ← get
  if s.cacheCapacity = 0 then
    if dirty then streamWrite pageId data "Write failed for page "
    else return
  else if (s.cache.lookup pageId).isSome then
    modify fun s => { s with cache := s.cache.insert pageId ⟨data, dirty⟩ }
    touchCache pageId
  else
    evictWhile (fun size => size ≥ s.cacheCapacity) (s.lru.length + 1)
    modify fun s =>
      { s with lru := pageId :: s.lru, cache := s.cache.insert pageId ⟨data, dirty⟩ }

def loadPageFromDisk (pageId : PageId) : PagerM Unit := do
  let s ← get
  if pageId ≥ s.pageCount then
    throw (.runtimeError ("Read past end of page file: page " ++ toString pageId))
  else
    let data ← streamRead pageId
    putCache pageId data false

/-! ### Pages -/

def readPage (pageId : PageId) : PagerM Bytes := do
  let s ← get
  if s.cacheCapacity = 0 then
    if pageId ≥ s.pageCount then
      throw (.runtimeError ("Read past end of page file: page " ++ toString pageId))
    else streamRead pageId
  else
    match s.cache.lookup pageId with
    | some slot =>
      touchCache pageId
      return slot.data
    | none =>
      loadPageFromDisk pageId
      let s ← get
      match s.cache.lookup pageId with
      | none => throw (.runtimeError ("Page cache miss after load: page " ++ toString pageId))
      | some slot => return slot.data

def writePage (pageId : PageId) (data : Bytes) : PagerM Unit := do
  checkPageSize data
  modify fun s => if pageId ≥ s.pageCount then { s with pageCount := pageId + 1 } else s
  putCache pageId data true

def allocatePage : PagerM PageId := do
  let s ← get
  writePage s.pageCount zeroPage
  return s.pageCount

/-! ### The file -/

/-- The dirty pages, one by one, in the order of the cache. -/
def flushPages : List (Sigma fun _ : PageId => CacheSlot) → PagerM Unit
  | [] => return
  | ⟨pageId, slot⟩ :: rest => do
    if slot.dirty then
      streamWrite pageId slot.data "Write failed for page "
      modify fun s => { s with cache := s.cache.replace pageId { slot with dirty := false } }
    flushPages rest

def flushDirtyPages : PagerM Unit := do
  let s ← get
  flushPages s.cache.entries

def flush : PagerM Unit := do
  let s ← get
  if s.isOpen then flushDirtyPages
  else return

def close : PagerM Unit := do
  let s ← get
  if s.isOpen then
    flush
    modify fun s => { s with isOpen := false }
  modify fun s => { s with pageCount := 0, lru := [], cache := ∅ }

/-- `open` on a file: its bytes, or none when there is no such file. It is emptied
when it is to be created, and created when it is not there. -/
def openFile (existing : Option Bytes) (create : Bool) : PagerM Unit := do
  close
  modify fun s =>
    let file := if create then [] else existing.getD []
    { s with file, good := true, isOpen := true, pageCount := file.length / kPageSize
             lru := [], cache := ∅ }

/-! ### What a page written gives back -/

theorem slice_writeAt (file : Bytes) (off : Nat) (data : Bytes) :
    slice (writeAt file off data) off data.length = data := by
  have hfront : ((file ++ List.replicate (off - file.length) 0).take off).length = off := by
    simp only [List.length_take, List.length_append, List.length_replicate]
    omega
  rw [slice, writeAt, List.append_assoc, List.drop_left' hfront, List.take_left' rfl]

theorem writeAt_length (file : Bytes) (off : Nat) (data : Bytes) :
    (writeAt file off data).length = max file.length (off + data.length) := by
  simp only [writeAt, List.length_append, List.length_take, List.length_replicate,
    List.length_drop]
  omega

theorem keeps_streamWrite {P : Pager → Prop} (hfile : ∀ s file, P s → P { s with file })
    (id : PageId) (data : Bytes) (what : String) : Keeps P (streamWrite id data what) := by
  refine keeps_bind keeps_get fun s => ?_
  split
  · exact keeps_modify fun s => hfile s _
  · exact keeps_throw _

/-- What does not look at the file, the cache or its order outlives an eviction. -/
theorem keeps_evictOne {P : Pager → Prop}
    (hstate : ∀ s file lru cache, P s → P { s with file, lru, cache }) : Keeps P evictOne := by
  refine keeps_bind keeps_get fun s => ?_
  split
  · exact keeps_pure _
  · split
    · exact keeps_modify fun s => hstate s s.file _ s.cache
    · split
      · exact keeps_bind (keeps_streamWrite (fun s file => hstate s file s.lru s.cache) _ _ _)
          fun _ => keeps_modify fun s => hstate s s.file _ _
      · exact keeps_modify fun s => hstate s s.file _ _

theorem keeps_evictWhile {P : Pager → Prop}
    (hstate : ∀ s file lru cache, P s → P { s with file, lru, cache }) (tooLarge : Nat → Bool)
    (fuel : Nat) : Keeps P (evictWhile tooLarge fuel) := by
  induction fuel with
  | zero => exact keeps_throw _
  | succ fuel ih =>
    refine keeps_bind keeps_get fun s => ?_
    split
    · exact keeps_bind (keeps_evictOne hstate) fun _ => ih
    · exact keeps_pure _

/-- Reading a cached page. -/
theorem readPage_cached {id : PageId} {c : CacheSlot} {s : Pager} (hc : s.cacheCapacity ≠ 0)
    (hfound : s.cache.lookup id = some c) :
    readPage id s = .ok c.data { s with lru := id :: s.lru.erase id } := by
  rw [readPage, get_bind_apply, if_neg hc, hfound]
  simp only [touchCache, bind_assoc, get_bind_apply, hfound, modify_bind_apply, pure_apply]

/-- A page put into the cache is read back as it is, from the cache or, when nothing
is cached, from the file. -/
theorem readPage_putCache {id : PageId} {data : Bytes} {s s' : Pager} (hid : id < s.pageCount)
    (h : putCache id data true s = .ok () s') : ∃ s'', readPage id s' = .ok data s'' := by
  unfold putCache checkPageSize at h
  by_cases hlen : data.length = kPageSize
  · rw [if_neg (by simpa using hlen), pure_bind_apply, get_bind_apply] at h
    by_cases hc : s.cacheCapacity = 0
    · rw [if_pos hc, if_pos rfl, streamWrite, get_bind_apply] at h
      by_cases hg : s.good = true
      · rw [if_pos hg, modify_apply] at h
        injection h with _ h
        subst h
        have hroom : (s.good && decide (id * kPageSize + kPageSize ≤
            (writeAt s.file (id * kPageSize) data).length)) = true := by
          simp [hg, writeAt_length, hlen]
        refine ⟨{ s with file := writeAt s.file (id * kPageSize) data }, ?_⟩
        rw [readPage, get_bind_apply, if_pos hc, if_neg (by simpa using hid), streamRead,
          get_bind_apply, if_pos hroom, pure_apply, ← hlen, slice_writeAt]
      · rw [if_neg hg] at h
        cases h
    · rw [if_neg hc] at h
      split at h
      · simp only [touchCache, modify_bind_apply, get_bind_apply, AList.lookup_insert,
          modify_apply] at h
        injection h with _ h
        subst h
        exact ⟨_, readPage_cached (c := ⟨data, true⟩) hc (AList.lookup_insert _)⟩
      · obtain ⟨_, s₁, hevict, hput⟩ := bind_eq_ok.mp h
        have hkeep := keeps_evictWhile (P := fun t => t.cacheCapacity = s.cacheCapacity)
          (fun _ _ _ _ ht => ht) (fun size => size ≥ s.cacheCapacity) (s.lru.length + 1) s rfl
        rw [hevict] at hkeep
        rw [modify_apply] at hput
        injection hput with _ hput
        subst hput
        have hc₁ : s₁.cacheCapacity ≠ 0 := fun h₀ => hc (hkeep.symm.trans h₀)
        exact ⟨_, readPage_cached (c := ⟨data, true⟩) hc₁ (AList.lookup_insert _)⟩
  · rw [if_pos hlen] at h
    cases h

/-- A page just written is read back as it is. -/
theorem readPage_writePage {id : PageId} {data : Bytes} {s s' : Pager}
    (h : writePage id data s = .ok () s') : ∃ s'', readPage id s' = .ok data s'' := by
  obtain ⟨_, s₁, _, h⟩ := bind_eq_ok.mp h
  rw [modify_bind_apply] at h
  refine readPage_putCache ?_ h
  split
  · exact Nat.lt_succ_self id
  · rename_i hcount
    exact Nat.lt_of_not_ge hcount

/-- A cache with nothing in it takes any page. -/
theorem writePage_of_nothing_cached (id : PageId) {data : Bytes} {s : Pager}
    (hlen : data.length = kPageSize) (hc : s.cacheCapacity ≠ 0) (hcache : s.cache = ∅) :
    ∃ s', writePage id data s = .ok () s' := by
  have hcheck : ∀ t : Pager, checkPageSize data t = .ok () t := fun t => by
    rw [checkPageSize, if_neg (by simpa using hlen), pure_apply]
  generalize hs₁ : (if id ≥ s.pageCount then { s with pageCount := id + 1 } else s) = s₁
  have hc₁ : s₁.cacheCapacity ≠ 0 := by rw [← hs₁]; split <;> exact hc
  have hcache₁ : s₁.cache = ∅ := by rw [← hs₁]; split <;> exact hcache
  have hevict : evictWhile (fun size => size ≥ s₁.cacheCapacity) (s₁.lru.length + 1) s₁ =
      .ok () s₁ := by
    rw [evictWhile, get_bind_apply, if_neg, pure_apply]
    have hsize : s₁.cacheSize = 0 := by rw [cacheSize, hcache₁]; rfl
    rw [hsize, decide_eq_true_eq]
    omega
  refine ⟨{ s₁ with lru := id :: s₁.lru, cache := s₁.cache.insert id ⟨data, true⟩ }, ?_⟩
  rw [writePage, bind_ok (hcheck s), modify_bind_apply, hs₁, putCache, bind_ok (hcheck s₁),
    get_bind_apply, if_neg hc₁, if_neg (by rw [hcache₁]; exact Bool.false_ne_true), bind_ok hevict,
    modify_apply]

end Pager
end CwDb.Storage
