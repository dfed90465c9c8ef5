import CwDb.Storage.Pager
import CwDb.Foundation.Refinement

/-! The pager as a growing array of pages.

Whatever the cache does, a caller sees an array: `allocate_page` appends a page of
zeros, `write_page` replaces a page or appends one, and nothing else changes a page.
The relation between the two is `Backs`: a cached page is the array's, a page that
is not cached, or cached and clean, is in the file, and every page is one or the
other. `Cached` adds what the cache keeps of its own: `lru` lists the cached ids,
each once, and there are no more of them than the capacity, which is the one set
last. -/
namespace CwDb.Storage
open Foundation

/-! ### Pages of a file -/

/-- Page `id` of the file is there in full, and is `data`. -/
def OnFile (file : Bytes) (id : Nat) (data : Bytes) : Prop :=
  id * kPageSize + kPageSize ≤ file.length ∧ slice file (id * kPageSize) kPageSize = data

theorem slice_getElem? (raw : Bytes) (off n k : Nat) :
    (slice raw off n)[k]? = if k < n then raw[off + k]? else none := by
  rw [slice, List.getElem?_take]
  split
  · rw [List.getElem?_drop]
  · rfl

/-- Behind the bytes written the file is as it was. -/
theorem writeAt_getElem?_ge {file data : Bytes} {off k : Nat} (hk : off + data.length ≤ k) :
    (writeAt file off data)[k]? = file[k]? := by
  have hfront : ((file ++ List.replicate (off - file.length) 0).take off).length = off := by
    simp only [List.length_take, List.length_append, List.length_replicate]
    omega
  rw [writeAt, List.getElem?_append_right (by rw [List.length_append]; omega),
    List.getElem?_drop, List.length_append, hfront]
  congr 1
  omega

/-- And so it is in front of them, as far as it went. -/
theorem writeAt_getElem?_lt {file data : Bytes} {off k : Nat} (hk : k < off)
    (hfile : k < file.length) : (writeAt file off data)[k]? = file[k]? := by
  have hfront : ((file ++ List.replicate (off - file.length) 0).take off).length = off := by
    simp only [List.length_take, List.length_append, List.length_replicate]
    omega
  rw [writeAt, List.append_assoc, List.getElem?_append_left (by omega),
    List.getElem?_take_of_lt hk, List.getElem?_append_left hfile]

theorem page_end_le {i j : Nat} (h : i < j) :
    i * kPageSize + kPageSize ≤ j * kPageSize := by
  rw [← Nat.succ_mul]
  exact Nat.mul_le_mul_right _ h

theorem onFile_writeAt_self (file : Bytes) (id : Nat) {data : Bytes}
    (hlen : data.length = kPageSize) : OnFile (writeAt file (id * kPageSize) data) id data := by
  refine ⟨?_, ?_⟩
  · rw [Pager.writeAt_length, hlen]
    exact Nat.le_max_right _ _
  · rw [← hlen, Pager.slice_writeAt]

theorem OnFile.writeAt {file data other : Bytes} {id i : Nat} (h : OnFile file i data)
    (hne : i ≠ id) (hlen : other.length = kPageSize) :
    OnFile (writeAt file (id * kPageSize) other) i data := by
  obtain ⟨hroom, hdata⟩ := h
  refine ⟨?_, ?_⟩
  · rw [Pager.writeAt_length]
    exact hroom.trans (Nat.le_max_left _ _)
  · rw [← hdata]
    apply List.ext_getElem?
    intro k
    rw [slice_getElem?, slice_getElem?]
    split
    · rename_i hk
      rcases Nat.lt_or_gt_of_ne hne with hlt | hgt
      · have hbefore := page_end_le hlt
        exact writeAt_getElem?_lt (by omega) (by omega)
      · have hafter := page_end_le hgt
        exact writeAt_getElem?_ge (by omega)
    · rfl

/-- A file that has every page of the array and no more is the array's pages in a row. -/
theorem eq_flatten_of_onFile {pages : List Bytes} :
    ∀ {file : Bytes}, file.length = pages.length * kPageSize →
      (∀ id data, pages[id]? = some data → OnFile file id data) → file = pages.flatten := by
  induction pages with
  | nil =>
    intro file hlen _
    simpa using hlen
  | cons page rest ih =>
    intro file hlen hpages
    obtain ⟨hroom, hfirst⟩ := hpages 0 page rfl
    have hrest : file.drop kPageSize = rest.flatten := by
      refine ih ?_ fun id data hid => ?_
      · rw [List.length_drop, hlen, List.length_cons, Nat.succ_mul, Nat.add_sub_cancel]
      · obtain ⟨hroom', hdata⟩ := hpages (id + 1) data hid
        refine ⟨?_, ?_⟩
        · rw [Nat.succ_mul] at hroom'
          rw [List.length_drop]
          exact Nat.le_sub_of_add_le hroom'
        · rw [slice, List.drop_drop, ← hdata, slice, Nat.succ_mul, Nat.add_comm kPageSize]
    rw [List.flatten_cons, ← hrest, ← hfirst, slice, Nat.zero_mul, List.drop_zero,
      List.take_append_drop]

theorem onFile_flatten {pages : List Bytes} (hsize : ∀ p ∈ pages, p.length = kPageSize) :
    ∀ {id : Nat} {data : Bytes}, pages[id]? = some data → OnFile pages.flatten id data := by
  induction pages with
  | nil =>
    intro id data hid
    cases hid
  | cons page rest ih =>
    have hpage : page.length = kPageSize := hsize page List.mem_cons_self
    intro id data hid
    cases id with
    | zero =>
      cases hid
      refine ⟨?_, ?_⟩
      · rw [List.flatten_cons, List.length_append, Nat.zero_mul, Nat.zero_add, hpage]
        exact Nat.le_add_right _ _
      · rw [slice, Nat.zero_mul, List.drop_zero, List.flatten_cons, List.take_left' hpage]
    | succ id =>
      obtain ⟨hroom, hdata⟩ := ih (fun p hp => hsize p (List.mem_cons_of_mem _ hp)) hid
      refine ⟨?_, ?_⟩
      · rw [List.flatten_cons, List.length_append, Nat.succ_mul, hpage, Nat.add_comm]
        exact Nat.add_le_add_left hroom _
      · rw [← hdata, slice, slice, List.flatten_cons, Nat.succ_mul, Nat.add_comm (id * kPageSize),
          ← List.drop_drop, List.drop_left' hpage]

theorem length_flatten_pages {pages : List Bytes} (hsize : ∀ p ∈ pages, p.length = kPageSize) :
    pages.flatten.length = pages.length * kPageSize := by
  induction pages with
  | nil => simp
  | cons page rest ih =>
    rw [List.flatten_cons, List.length_append, hsize page List.mem_cons_self,
      ih fun p hp => hsize p (List.mem_cons_of_mem _ hp), List.length_cons, Nat.succ_mul,
      Nat.add_comm]

/-! ### The relation -/

/-- An array of pages, by id. -/
abbrev PageView := PageId → Option Bytes

theorem update_some {view : PageView} {id i : PageId} {data other : Bytes}
    (h : Function.update view id (some data) i = some other) :
    (i = id ∧ other = data) ∨ (i ≠ id ∧ view i = some other) := by
  by_cases heq : i = id
  · subst heq
    rw [Function.update_self] at h
    cases h
    exact .inl ⟨rfl, rfl⟩
  · rw [Function.update_of_ne heq] at h
    exact .inr ⟨heq, h⟩

namespace Pager

/-- Every page of the array is in the cache or, unless the cache has a newer one,
in the file. -/
structure Backs (view : PageView) (s : Pager) : Prop where
  good : s.good = true
  cached : ∀ id slot, s.cache.lookup id = some slot → view id = some slot.data
  onFile : ∀ id data, view id = some data →
    (∀ slot, s.cache.lookup id = some slot → slot.dirty = false) → OnFile s.file id data
  sizes : ∀ id data, view id = some data → data.length = kPageSize
  file_length : s.file.length ≤ s.pageCount * kPageSize
  view_lt : ∀ id data, view id = some data → id < s.pageCount

/-- `lru` lists the cached ids, each once. -/
structure Listed (s : Pager) : Prop where
  nodup : s.lru.Nodup
  mem : ∀ id, id ∈ s.lru ↔ id ∈ s.cache

theorem Listed.cacheSize {s : Pager} (h : Listed s) : s.cacheSize = s.lru.length := by
  have hperm : s.lru.Perm s.cache.keys :=
    (List.perm_ext_iff_of_nodup h.nodup s.cache.keys_nodup).mpr fun id => by
      rw [h.mem, AList.mem_keys]
  rw [hperm.length_eq, AList.keys, List.keys, List.length_map, Pager.cacheSize]

/-- What no cache operation touches. -/
structure SameOpening (s t : Pager) : Prop where
  cacheCapacity : t.cacheCapacity = s.cacheCapacity
  isOpen : t.isOpen = s.isOpen
  pageCount : t.pageCount = s.pageCount

theorem SameOpening.trans {s t u : Pager} (h : SameOpening s t) (h' : SameOpening t u) :
    SameOpening s u :=
  ⟨h'.cacheCapacity.trans h.cacheCapacity, h'.isOpen.trans h.isOpen,
    h'.pageCount.trans h.pageCount⟩

/-! ### Evictions -/

theorem streamWrite_good (id : PageId) (data : Bytes) (what : String) {s : Pager}
    (h : s.good = true) :
    streamWrite id data what s =
      .ok () { s with file := writeAt s.file (id * kPageSize) data } := by
  rw [streamWrite, get_bind_apply, if_pos h, modify_apply]

/-- A page written to its place in the file is the array's page from then on, if the
cache has no other. -/
theorem Backs.writeAt {view : PageView} {s : Pager} {id : PageId} {data : Bytes}
    (h : Backs view s) (hlen : data.length = kPageSize) (hlt : id < s.pageCount)
    (hsame : ∀ slot, s.cache.lookup id = some slot → slot.data = data) :
    Backs (Function.update view id (some data))
      { s with file := writeAt s.file (id * kPageSize) data } := by
  refine ⟨h.good, fun i slot hi => ?_, fun i other hi hclean => ?_, fun i other hi => ?_, ?_,
    fun i other hi => ?_⟩
  · by_cases heq : i = id
    · subst heq
      rw [Function.update_self, hsame slot hi]
    · rw [Function.update_of_ne heq]
      exact h.cached i slot hi
  · rcases update_some hi with ⟨rfl, rfl⟩ | ⟨heq, hview⟩
    · exact onFile_writeAt_self _ _ hlen
    · exact (h.onFile i other hview hclean).writeAt heq hlen
  · rcases update_some hi with ⟨_, rfl⟩ | ⟨_, hview⟩
    · exact hlen
    · exact h.sizes i other hview
  · show (Storage.writeAt s.file (id * kPageSize) data).length ≤ s.pageCount * kPageSize
    rw [writeAt_length, hlen]
    exact Nat.max_le.mpr ⟨h.file_length, page_end_le hlt⟩
  · rcases update_some hi with ⟨rfl, _⟩ | ⟨_, hview⟩
    · exact hlt
    · exact h.view_lt i other hview

/-- Writing back a page of the array changes nothing but the file. -/
theorem Backs.writeBack {view : PageView} {s : Pager} {id : PageId} {slot : CacheSlot}
    (h : Backs view s) (hslot : s.cache.lookup id = some slot) :
    Backs view { s with file := Storage.writeAt s.file (id * kPageSize) slot.data } := by
  have hid := h.cached id slot hslot
  have hwrite := h.writeAt (h.sizes id _ hid) (h.view_lt id _ hid) fun c hc => by
    rw [hslot] at hc
    cases hc
    rfl
  rwa [← hid, Function.update_eq_self] at hwrite

/-- A page whose copy is in the file may leave the cache. -/
theorem Backs.erase {view : PageView} {s : Pager} {id : PageId} {slot : CacheSlot}
    (h : Backs view s) (hslot : s.cache.lookup id = some slot)
    (hfile : OnFile s.file id slot.data) (lru : List PageId) :
    Backs view { s with cache := s.cache.erase id, lru } := by
  refine { h with cached := fun i c hi => ?_, onFile := fun i data hi hclean => ?_ }
  · by_cases heq : i = id
    · subst heq
      rw [AList.lookup_erase] at hi
      cases hi
    · rw [AList.lookup_erase_ne heq] at hi
      exact h.cached i c hi
  · by_cases heq : i = id
    · subst heq
      rw [h.cached i slot hslot] at hi
      cases hi
      exact hfile
    · refine h.onFile i data hi fun c hc => hclean c ?_
      rw [AList.lookup_erase_ne heq]
      exact hc

theorem Listed.erase {s : Pager} (h : Listed s) {init : List PageId} {victim : PageId}
    (hlru : s.lru = init ++ [victim]) (file : Bytes) :
    Listed { s with file, cache := s.cache.erase victim, lru := init } := by
  have hnodup := h.nodup
  rw [hlru, List.nodup_append] at hnodup
  refine ⟨hnodup.1, fun id => ?_⟩
  show id ∈ init ↔ id ∈ s.cache.erase victim
  rw [AList.mem_erase, ← h.mem, hlru, List.mem_append, List.mem_singleton]
  constructor
  · intro hid
    exact ⟨fun heq => hnodup.2.2 id hid victim (List.mem_singleton.mpr rfl) heq, .inl hid⟩
  · rintro ⟨hne, hid | hid⟩
    · exact hid
    · exact absurd hid hne

/-- An eviction takes the last id off `lru`, and nothing from the array. -/
theorem evictOne_backs {view : PageView} {s : Pager} (h : Backs view s) (hl : Listed s) :
    ∃ t, evictOne s = .ok () t ∧ Backs view t ∧ Listed t ∧ t.lru = s.lru.dropLast ∧
      SameOpening s t := by
  rcases List.eq_nil_or_concat' s.lru with hnil | ⟨init, victim, hlru⟩
  · refine ⟨s, ?_, h, hl, by rw [hnil]; rfl, rfl, rfl, rfl⟩
    rw [evictOne, get_bind_apply, hnil]
    rfl
  · have hlast : s.lru.getLast? = some victim := by rw [hlru, List.getLast?_concat]
    have hdrop : s.lru.dropLast = init := by rw [hlru, List.dropLast_concat]
    obtain ⟨slot, hslot⟩ : ∃ slot, s.cache.lookup victim = some slot := by
      refine Option.isSome_iff_exists.mp (AList.lookup_isSome.mpr ((hl.mem victim).mp ?_))
      rw [hlru]
      exact List.mem_concat_self
    have hview := h.cached victim slot hslot
    by_cases hdirty : slot.dirty = true
    · have hfile := onFile_writeAt_self s.file victim (h.sizes victim _ hview)
      refine ⟨_, ?_, (h.writeBack hslot).erase hslot hfile init, hl.erase hlru _, hdrop.symm,
        rfl, rfl, rfl⟩
      rw [evictOne, get_bind_apply, hlast]
      simp only [hslot, hdirty, if_true]
      rw [bind_ok (streamWrite_good victim slot.data _ h.good), modify_apply, hdrop]
    · refine ⟨_, ?_, h.erase hslot (h.onFile victim _ hview fun c hc => ?_) init,
        hl.erase hlru _, hdrop.symm, rfl, rfl, rfl⟩
      · rw [evictOne, get_bind_apply, hlast]
        simp only [hslot, hdirty]
        rw [← hdrop]
        rfl
      · rw [hslot] at hc
        cases hc
        exact eq_false_of_ne_true hdirty

/-- An eviction loop ends, with the cache no longer too large: at the latest when
nothing is cached. -/
theorem evictWhile_backs {view : PageView} (tooLarge : Nat → Bool) (hzero : tooLarge 0 = false)
    {fuel : Nat} : ∀ {s : Pager}, Backs view s → Listed s → s.lru.length < fuel →
      ∃ t, evictWhile tooLarge fuel s = .ok () t ∧ Backs view t ∧ Listed t ∧
        tooLarge t.cacheSize = false ∧ (∀ id ∈ t.lru, id ∈ s.lru) ∧ SameOpening s t := by
  induction fuel with
  | zero => exact fun _ _ hfuel => absurd hfuel (Nat.not_lt_zero _)
  | succ fuel ih =>
    intro s h hl hfuel
    by_cases hlarge : tooLarge s.cacheSize = true
    · obtain ⟨t, hevict, ht, hlt, hlru, hsame⟩ := evictOne_backs h hl
      have hne : s.lru.length ≠ 0 := fun h0 => by
        rw [hl.cacheSize, h0, hzero] at hlarge
        cases hlarge
      have hshort : t.lru.length < fuel := by
        rw [hlru, List.length_dropLast]
        omega
      obtain ⟨u, hloop, hu, hlu, hsmall, hsub, hsame'⟩ := ih ht hlt hshort
      refine ⟨u, ?_, hu, hlu, hsmall, fun id hid => ?_, hsame.trans hsame'⟩
      · rw [evictWhile, get_bind_apply, if_pos hlarge, bind_ok hevict, hloop]
      · have hmem := hsub id hid
        rw [hlru] at hmem
        exact List.dropLast_subset _ hmem
    · refine ⟨s, ?_, h, hl, eq_false_of_ne_true hlarge, fun _ hid => hid, rfl, rfl, rfl⟩
      rw [evictWhile, get_bind_apply, if_neg hlarge, pure_apply]

/-! ### Pages into the cache -/

/-- A page put into the cache is the array's page from then on. -/
theorem Backs.insert {view : PageView} {s : Pager} {id : PageId} (h : Backs view s)
    (slot : CacheSlot) (hlen : slot.data.length = kPageSize) (hlt : id < s.pageCount)
    (hclean : slot.dirty = false → OnFile s.file id slot.data) (lru : List PageId) :
    Backs (Function.update view id (some slot.data))
      { s with cache := s.cache.insert id slot, lru } := by
  refine ⟨h.good, fun i c hi => ?_, fun i other hi hc => ?_, fun i other hi => ?_,
    h.file_length, fun i other hi => ?_⟩
  · by_cases heq : i = id
    · subst heq
      rw [AList.lookup_insert] at hi
      cases hi
      rw [Function.update_self]
    · rw [AList.lookup_insert_ne heq] at hi
      rw [Function.update_of_ne heq]
      exact h.cached i c hi
  · rcases update_some hi with ⟨rfl, rfl⟩ | ⟨heq, hview⟩
    · exact hclean (hc slot (AList.lookup_insert _))
    · refine h.onFile i other hview fun c hc' => hc c ?_
      rw [AList.lookup_insert_ne heq]
      exact hc'
  · rcases update_some hi with ⟨_, rfl⟩ | ⟨_, hview⟩
    · exact hlen
    · exact h.sizes i other hview
  · rcases update_some hi with ⟨rfl, _⟩ | ⟨_, hview⟩
    · exact hlt
    · exact h.view_lt i other hview

theorem Listed.touch {s : Pager} (h : Listed s) {id : PageId} (hid : id ∈ s.cache) :
    Listed { s with lru := id :: s.lru.erase id } := by
  refine ⟨List.nodup_cons.mpr ⟨fun hmem => ?_, h.nodup.erase id⟩, fun i => ?_⟩
  · exact (h.nodup.mem_erase_iff.mp hmem).1 rfl
  · show i ∈ id :: s.lru.erase id ↔ i ∈ s.cache
    rw [List.mem_cons, h.nodup.mem_erase_iff, h.mem]
    constructor
    · rintro (rfl | ⟨_, hi⟩)
      · exact hid
      · exact hi
    · intro hi
      by_cases heq : i = id
      · exact .inl heq
      · exact .inr ⟨heq, hi⟩

theorem Listed.touch_size {s : Pager} (h : Listed s) {id : PageId} (hid : id ∈ s.cache) :
    (id :: s.lru.erase id).length = s.lru.length := by
  have hmem := (h.mem id).mpr hid
  rw [List.length_cons, List.length_erase_of_mem hmem]
  have := List.length_pos_of_mem hmem
  omega

/-- What an open pager keeps between two calls. -/
structure Cached (view : PageView) (s : Pager) : Prop where
  backs : Backs view s
  listed : Listed s
  size_le : s.cacheSize ≤ s.cacheCapacity

theorem Cached.lookup_none {view : PageView} {s : Pager} (h : Cached view s)
    (hc : s.cacheCapacity = 0) (id : PageId) : s.cache.lookup id = none := by
  have hsize := h.size_le
  rw [hc, h.listed.cacheSize] at hsize
  have hlru := List.eq_nil_of_length_eq_zero (Nat.le_zero.mp hsize)
  rw [AList.lookup_eq_none, ← h.listed.mem, hlru]
  exact List.not_mem_nil

/-- `put_cache`: for a page that was written, or for one just read from the file
that is not cached. -/
theorem putCache_cached {view : PageView} {s : Pager} {id : PageId} {data : Bytes} (dirty : Bool)
    (h : Cached view s) (hlen : data.length = kPageSize) (hlt : id < s.pageCount)
    (hclean : dirty = false →
      view id = some data ∧ s.cache.lookup id = none ∧ s.cacheCapacity ≠ 0) :
    ∃ t, putCache id data dirty s = .ok () t ∧ Cached (Function.update view id (some data)) t ∧
      SameOpening s t ∧
      (s.cacheCapacity ≠ 0 → t.cache.lookup id = some ⟨data, dirty⟩) := by
  have hcheck : checkPageSize data s = .ok () s := by
    rw [checkPageSize, if_neg (by simpa using hlen), pure_apply]
  by_cases hc : s.cacheCapacity = 0
  · cases dirty with
    | false => exact absurd hc (hclean rfl).2.2
    | true =>
      have hnone := h.lookup_none hc
      refine ⟨{ s with file := writeAt s.file (id * kPageSize) data }, ?_,
        ⟨h.backs.writeAt hlen hlt fun slot hslot => ?_, ⟨h.listed.nodup, h.listed.mem⟩,
          h.size_le⟩, ⟨rfl, rfl, rfl⟩, fun hne => absurd hc hne⟩
      · rw [putCache, bind_ok hcheck, get_bind_apply, if_pos hc, if_pos rfl,
          streamWrite_good id data _ h.backs.good]
      · rw [hnone] at hslot
        cases hslot
  · cases hfound : s.cache.lookup id with
    | some old =>
      cases dirty with
      | false =>
        rw [(hclean rfl).2.1] at hfound
        cases hfound
      | true =>
        have hmem : id ∈ s.cache := AList.lookup_isSome.mp (by rw [hfound]; rfl)
        have hdirty : (⟨data, true⟩ : CacheSlot).dirty = false → OnFile s.file id data := by
          intro hfalse
          cases hfalse
        have hins := h.backs.insert ⟨data, true⟩ hlen hlt hdirty (id :: s.lru.erase id)
        have hlisted : Listed { s with
            cache := s.cache.insert id ⟨data, true⟩, lru := id :: s.lru.erase id } := by
          have htouch := h.listed.touch hmem
          refine ⟨htouch.nodup, fun i => ?_⟩
          show i ∈ id :: s.lru.erase id ↔ i ∈ s.cache.insert id ⟨data, true⟩
          rw [AList.mem_insert, show i ∈ id :: s.lru.erase id ↔ i ∈ s.cache from htouch.mem i]
          exact ⟨.inr, fun hi => hi.elim (fun heq => heq ▸ hmem) fun hi => hi⟩
        refine ⟨_, ?_, ⟨hins, hlisted, ?_⟩, ⟨rfl, rfl, rfl⟩, fun _ => AList.lookup_insert _⟩
        · rw [putCache, bind_ok hcheck, get_bind_apply, if_neg hc, hfound,
            if_pos (show (some old).isSome = true from rfl), modify_bind_apply, touchCache,
            get_bind_apply]
          simp only [AList.lookup_insert, modify_apply]
        · rw [hlisted.cacheSize]
          show (id :: s.lru.erase id).length ≤ s.cacheCapacity
          rw [h.listed.touch_size hmem, ← h.listed.cacheSize]
          exact h.size_le
    | none =>
      have hzero : decide (0 ≥ s.cacheCapacity) = false := decide_eq_false (by omega)
      obtain ⟨t, hevict, ht, hlt', hroom, hsub, hsame⟩ :=
        evictWhile_backs (fun size => size ≥ s.cacheCapacity) hzero h.backs h.listed
          (Nat.lt_succ_self _)
      have hnot : id ∉ s.lru := fun hmem =>
        absurd (AList.lookup_isSome.mpr ((h.listed.mem id).mp hmem)) (by simp [hfound])
      have hnot' : id ∉ t.lru := fun hmem => hnot (hsub id hmem)
      have hnone : t.cache.lookup id = none := AList.lookup_eq_none.mpr fun hmem =>
        hnot' ((hlt'.mem id).mpr hmem)
      have hins := ht.insert ⟨data, dirty⟩ hlen (by rw [hsame.pageCount]; exact hlt)
        (fun hd => ht.onFile id data (hclean hd).1 fun slot hslot => by
          rw [hnone] at hslot
          cases hslot) (id :: t.lru)
      have hlisted : Listed { t with
          cache := t.cache.insert id ⟨data, dirty⟩, lru := id :: t.lru } := by
        refine ⟨List.nodup_cons.mpr ⟨hnot', hlt'.nodup⟩, fun i => ?_⟩
        show i ∈ id :: t.lru ↔ i ∈ t.cache.insert id ⟨data, dirty⟩
        rw [List.mem_cons, AList.mem_insert, hlt'.mem]
      refine ⟨_, ?_, ⟨hins, hlisted, ?_⟩, ⟨hsame.cacheCapacity, hsame.isOpen, hsame.pageCount⟩,
        fun _ => AList.lookup_insert _⟩
      · rw [putCache, bind_ok hcheck, get_bind_apply, if_neg hc, hfound, if_neg (by simp),
          bind_ok hevict, modify_apply]
      · rw [hlisted.cacheSize]
        show (id :: t.lru).length ≤ t.cacheCapacity
        have hroom' := of_decide_eq_false hroom
        rw [hlt'.cacheSize] at hroom'
        rw [hsame.cacheCapacity, List.length_cons]
        omega

/-! ### Calls -/

theorem setCacheCapacity_cached {view : PageView} {s : Pager} (h : Cached view s)
    (capacity : Nat) :
    ∃ t, setCacheCapacity capacity s = .ok () t ∧ Cached view t ∧ t.isOpen = s.isOpen ∧
      t.pageCount = s.pageCount ∧ t.cacheCapacity = capacity := by
  have hb : Backs view { s with cacheCapacity := capacity } := { h.backs with }
  have hl : Listed { s with cacheCapacity := capacity } := { h.listed with }
  obtain ⟨t, hevict, ht, hlt, hroom, _, hsame⟩ :=
    evictWhile_backs (fun size => size > capacity) (by simp) hb hl
      (Nat.lt_succ_self _)
  refine ⟨t, ?_, ⟨ht, hlt, ?_⟩, hsame.isOpen, hsame.pageCount, hsame.cacheCapacity⟩
  · rw [setCacheCapacity, modify_bind_apply, get_bind_apply]
    exact hevict
  · rw [hsame.cacheCapacity]
    exact Nat.le_of_not_gt (of_decide_eq_false hroom)

theorem streamRead_onFile {s : Pager} {id : PageId} {data : Bytes} (hg : s.good = true)
    (h : OnFile s.file id data) : streamRead id s = .ok data s := by
  rw [streamRead, get_bind_apply, if_pos (by simpa [hg] using h.1), pure_apply, h.2]

/-- `read_page` gives the array's page, whether it was cached or not. -/
theorem readPage_array {view : PageView} {s : Pager} {id : PageId} {data : Bytes}
    (h : Cached view s) (hid : view id = some data) :
    ∃ t, readPage id s = .ok data t ∧ Cached view t ∧ SameOpening s t := by
  have hlt := h.backs.view_lt id data hid
  by_cases hc : s.cacheCapacity = 0
  · have hfile := h.backs.onFile id data hid fun slot hslot => by
      rw [h.lookup_none hc] at hslot
      cases hslot
    refine ⟨s, ?_, h, rfl, rfl, rfl⟩
    rw [readPage, get_bind_apply, if_pos hc, if_neg (Nat.not_le.mpr hlt),
      streamRead_onFile h.backs.good hfile]
  · cases hfound : s.cache.lookup id with
    | some slot =>
      have hmem : id ∈ s.cache := AList.lookup_isSome.mp (by rw [hfound]; rfl)
      have hdata := h.backs.cached id slot hfound
      rw [hid] at hdata
      cases hdata
      have htouch := h.listed.touch hmem
      refine ⟨{ s with lru := id :: s.lru.erase id }, readPage_cached hc hfound,
        ⟨{ h.backs with }, htouch, ?_⟩, rfl, rfl, rfl⟩
      rw [htouch.cacheSize]
      show (id :: s.lru.erase id).length ≤ s.cacheCapacity
      rw [h.listed.touch_size hmem, ← h.listed.cacheSize]
      exact h.size_le
    | none =>
      have hfile := h.backs.onFile id data hid fun slot hslot => by
        rw [hfound] at hslot
        cases hslot
      obtain ⟨t, hput, ht, hsame, hlook⟩ := putCache_cached false h
        (h.backs.sizes id data hid) hlt fun _ => ⟨hid, hfound, hc⟩
      rw [← hid, Function.update_eq_self] at ht
      have hload : loadPageFromDisk id s = .ok () t := by
        rw [loadPageFromDisk, get_bind_apply, if_neg (Nat.not_le.mpr hlt),
          bind_ok (streamRead_onFile h.backs.good hfile), hput]
      refine ⟨t, ?_, ht, hsame⟩
      rw [readPage, get_bind_apply, if_neg hc, hfound]
      refine (bind_ok hload).trans ?_
      rw [get_bind_apply, hlook hc]
      rfl

/-- `write_page` changes that page of the array and no other. -/
theorem writePage_array {view : PageView} {s : Pager} {data : Bytes} (h : Cached view s)
    (id : PageId) (hlen : data.length = kPageSize) :
    ∃ t, writePage id data s = .ok () t ∧ Cached (Function.update view id (some data)) t ∧
      t.isOpen = s.isOpen ∧ t.cacheCapacity = s.cacheCapacity ∧
      t.pageCount = max s.pageCount (id + 1) := by
  have hcheck : checkPageSize data s = .ok () s := by
    rw [checkPageSize, if_neg (by simpa using hlen), pure_apply]
  have hgrow : (if id ≥ s.pageCount then { s with pageCount := id + 1 } else s) =
      { s with pageCount := max s.pageCount (id + 1) } := by
    split
    · rename_i hge
      rw [Nat.max_eq_right (Nat.le_succ_of_le hge)]
    · rename_i hlt
      rw [Nat.max_eq_left (Nat.not_le.mp hlt)]
  have hcount : s.pageCount ≤ max s.pageCount (id + 1) := Nat.le_max_left _ _
  have hgrown : Cached view { s with pageCount := max s.pageCount (id + 1) } :=
    ⟨{ h.backs with
        file_length := h.backs.file_length.trans (Nat.mul_le_mul_right _ hcount)
        view_lt := fun i other hi => (h.backs.view_lt i other hi).trans_le hcount },
      { h.listed with }, h.size_le⟩
  obtain ⟨t, hput, ht, hsame, _⟩ := putCache_cached true hgrown hlen
    (Nat.lt_of_succ_le (Nat.le_max_right s.pageCount (id + 1))) (fun hfalse => by cases hfalse)
  refine ⟨t, ?_, ht, hsame.isOpen, hsame.cacheCapacity, hsame.pageCount⟩
  rw [writePage, bind_ok hcheck, modify_bind_apply, hgrow, hput]

/-! ### The file -/

theorem kreplace_cons (id : PageId) (slot : CacheSlot) (e : Sigma fun _ : PageId => CacheSlot)
    (es : List (Sigma fun _ : PageId => CacheSlot)) :
    List.kreplace id slot (e :: es) =
      if id = e.1 then ⟨id, slot⟩ :: es else e :: List.kreplace id slot es := by
  split
  · rename_i heq
    exact List.lookmap_cons_some _ _ (if_pos heq)
  · rename_i heq
    exact List.lookmap_cons_none _ _ (if_neg heq)

theorem lookup_replace_self {s : AList fun _ : PageId => CacheSlot} {id : PageId}
    {slot : CacheSlot} (h : id ∈ s) : (s.replace id slot).lookup id = some slot := by
  rw [AList.mem_keys, AList.keys] at h
  show List.dlookup id (List.kreplace id slot s.entries) = some slot
  generalize s.entries = entries at h
  induction entries with
  | nil => cases h
  | cons e es ih =>
    rw [kreplace_cons]
    split
    · rw [List.dlookup_cons_eq]
    · rename_i heq
      rw [List.dlookup_cons_ne _ _ heq]
      rw [List.keys_cons, List.mem_cons] at h
      exact ih (h.resolve_left heq)

theorem lookup_replace_ne {s : AList fun _ : PageId => CacheSlot} {id i : PageId}
    {slot : CacheSlot} (hne : i ≠ id) : (s.replace id slot).lookup i = s.lookup i := by
  show List.dlookup i (List.kreplace id slot s.entries) = List.dlookup i s.entries
  generalize s.entries = entries
  induction entries with
  | nil => rfl
  | cons e es ih =>
    obtain ⟨a, b⟩ := e
    rw [kreplace_cons]
    split
    · rename_i heq
      have hi : i ≠ a := fun h => hne (h.trans heq.symm)
      exact (List.dlookup_cons_ne es _ hne).trans (List.dlookup_cons_ne es _ hi).symm
    · by_cases hi : i = a
      · subst hi
        rw [List.dlookup_cons_eq, List.dlookup_cons_eq]
      · exact (List.dlookup_cons_ne _ _ hi).trans (ih.trans (List.dlookup_cons_ne es _ hi).symm)

/-- A cached page written back may be marked clean. -/
theorem Backs.markClean {view : PageView} {s : Pager} {id : PageId} {slot : CacheSlot}
    (h : Backs view s) (hslot : s.cache.lookup id = some slot)
    (hfile : OnFile s.file id slot.data) :
    Backs view { s with cache := s.cache.replace id { slot with dirty := false } } := by
  have hmem : id ∈ s.cache := AList.lookup_isSome.mp (by rw [hslot]; rfl)
  refine { h with cached := fun i c hi => ?_, onFile := fun i data hi hclean => ?_ }
  · by_cases heq : i = id
    · subst heq
      rw [lookup_replace_self hmem] at hi
      cases hi
      exact h.cached i slot hslot
    · rw [lookup_replace_ne heq] at hi
      exact h.cached i c hi
  · by_cases heq : i = id
    · subst heq
      rw [h.cached i slot hslot] at hi
      cases hi
      exact hfile
    · refine h.onFile i data hi fun c hc => hclean c ?_
      rw [lookup_replace_ne heq]
      exact hc

/-- After the loop of `flush_dirty_pages` the pages it went over are clean. -/
theorem flushPages_backs {view : PageView} {es : List (Sigma fun _ : PageId => CacheSlot)} :
    ∀ {s : Pager}, Backs view s → es.NodupKeys →
      (∀ e ∈ es, s.cache.lookup e.1 = some e.2) →
      ∃ t, flushPages es s = .ok () t ∧ Backs view t ∧ SameOpening s t ∧ t.lru = s.lru ∧
        t.cache.keys = s.cache.keys ∧ (∀ i ∉ es.keys, t.cache.lookup i = s.cache.lookup i) ∧
        ∀ i ∈ es.keys, ∀ slot, t.cache.lookup i = some slot → slot.dirty = false := by
  induction es with
  | nil =>
    intro s h _ _
    exact ⟨s, rfl, h, ⟨rfl, rfl, rfl⟩, rfl, rfl, fun _ _ => rfl, fun i hi => by cases hi⟩
  | cons e rest ih =>
    obtain ⟨id, slot⟩ := e
    intro s h hnodup hes
    rw [List.nodupKeys_cons] at hnodup
    have hslot : s.cache.lookup id = some slot := hes ⟨id, slot⟩ List.mem_cons_self
    have hne : ∀ e ∈ rest, e.1 ≠ id := by
      intro e he heq
      apply hnodup.1
      rw [← heq]
      exact List.mem_keys_of_mem (s := e) he
    by_cases hdirty : slot.dirty = true
    · have hwrite := h.writeBack hslot
      have hfile := onFile_writeAt_self s.file id (h.sizes id _ (h.cached id slot hslot))
      have hclean := hwrite.markClean hslot hfile
      obtain ⟨t, hrest, ht, hsame, hlru, hkeys, hother, hdone⟩ := ih hclean hnodup.2 fun e he => by
        show (s.cache.replace id _).lookup e.1 = some e.2
        rw [lookup_replace_ne (hne e he)]
        exact hes e (List.mem_cons_of_mem _ he)
      refine ⟨t, ?_, ht, ⟨hsame.cacheCapacity, hsame.isOpen, hsame.pageCount⟩, hlru, ?_,
        fun i hi => ?_, fun i hi c hc => ?_⟩
      · rw [flushPages]
        refine Eq.trans ?_ hrest
        simp only [hdirty, if_true]
        exact bind_ok (streamWrite_good id slot.data _ h.good)
      · rw [hkeys, AList.keys_replace]
      · rw [List.keys_cons, List.mem_cons, not_or] at hi
        rw [hother i hi.2]
        exact lookup_replace_ne hi.1
      · rw [List.keys_cons, List.mem_cons] at hi
        by_cases hin : i ∈ rest.keys
        · exact hdone i hin c hc
        · have heq := hi.resolve_right hin
          subst heq
          rw [hother i hin] at hc
          rw [lookup_replace_self (AList.lookup_isSome.mp (by rw [hslot]; rfl))] at hc
          cases hc
          rfl
    · obtain ⟨t, hrest, ht, hsame, hlru, hkeys, hother, hdone⟩ := ih h hnodup.2 fun e he =>
        hes e (List.mem_cons_of_mem _ he)
      refine ⟨t, ?_, ht, hsame, hlru, hkeys, fun i hi => ?_, fun i hi c hc => ?_⟩
      · rw [flushPages]
        refine Eq.trans ?_ hrest
        simp only [hdirty]
        rfl
      · rw [List.keys_cons, List.mem_cons, not_or] at hi
        exact hother i hi.2
      · rw [List.keys_cons, List.mem_cons] at hi
        by_cases hin : i ∈ rest.keys
        · exact hdone i hin c hc
        · have heq := hi.resolve_right hin
          subst heq
          rw [hother i hin, hslot] at hc
          cases hc
          exact eq_false_of_ne_true hdirty

theorem mem_iff_of_keys {s t : AList fun _ : PageId => CacheSlot} (h : t.keys = s.keys)
    (id : PageId) : id ∈ t ↔ id ∈ s := by
  rw [AList.mem_keys, AList.mem_keys, h]

/-- `flush` leaves every page of the array in the file. -/
theorem flush_cached {view : PageView} {s : Pager} (h : Cached view s) (hopen : s.isOpen = true) :
    ∃ t, flush s = .ok () t ∧ Cached view t ∧ SameOpening s t ∧
      ∀ id data, view id = some data → OnFile t.file id data := by
  obtain ⟨t, hflush, ht, hsame, hlru, hkeys, hother, hdone⟩ :=
    flushPages_backs h.backs s.cache.nodupKeys fun e he => AList.mem_lookup_iff.mpr he
  have hlisted : Listed t :=
    ⟨hlru ▸ h.listed.nodup, fun id => by rw [hlru, mem_iff_of_keys hkeys, h.listed.mem]⟩
  refine ⟨t, ?_, ⟨ht, hlisted, ?_⟩, hsame, fun id data hid => ht.onFile id data hid ?_⟩
  · rw [flush, get_bind_apply, if_pos hopen, flushDirtyPages, get_bind_apply, hflush]
  · rw [hlisted.cacheSize, hlru, ← h.listed.cacheSize, hsame.cacheCapacity]
    exact h.size_le
  · intro slot hslot
    by_cases hin : id ∈ s.cache.entries.keys
    · exact hdone id hin slot hslot
    · have hnone : s.cache.lookup id = none := AList.lookup_eq_none.mpr hin
      rw [hother id hin, hnone] at hslot
      cases hslot

/-- An open pager stands for an array: the pages are backed and counted. -/
structure Represents (pages : List Bytes) (s : Pager) : Prop where
  cached : Cached (fun id => pages[id]?) s
  isOpen : s.isOpen = true
  pageCount : s.pageCount = pages.length

theorem Represents.of_cached {pages : List Bytes} {s t : Pager} (h : Represents pages s)
    (ht : Cached (fun id => pages[id]?) t) (hopen : t.isOpen = s.isOpen)
    (hcount : t.pageCount = s.pageCount) : Represents pages t :=
  ⟨ht, hopen.trans h.isOpen, hcount.trans h.pageCount⟩

theorem Represents.flush {pages : List Bytes} {s : Pager} (h : Represents pages s) :
    ∃ t, flush s = .ok () t ∧ Represents pages t ∧ t.file = pages.flatten ∧
      t.cacheCapacity = s.cacheCapacity := by
  obtain ⟨t, hflush, ht, hsame, hfile⟩ := flush_cached h.cached h.isOpen
  have hcount := hsame.pageCount.trans h.pageCount
  refine ⟨t, hflush, h.of_cached ht hsame.isOpen hsame.pageCount,
    eq_flatten_of_onFile (Nat.le_antisymm ?_ ?_) hfile, hsame.cacheCapacity⟩
  · rw [← hcount]
    exact ht.backs.file_length
  · rcases List.eq_nil_or_concat' pages with rfl | ⟨init, page, rfl⟩
    · rw [List.length_nil, Nat.zero_mul]
      exact Nat.zero_le _
    · have hlast := (hfile init.length page (List.getElem?_concat_length)).1
      rw [List.length_append, List.length_singleton, Nat.succ_mul]
      exact hlast

theorem Represents.close {pages : List Bytes} {s : Pager} (h : Represents pages s) :
    ∃ t, close s = .ok () t ∧ t.file = pages.flatten ∧ t.isOpen = false ∧
      t.cacheCapacity = s.cacheCapacity := by
  obtain ⟨t, hflush, ht, hfile, hcap⟩ := h.flush
  refine ⟨{ t with isOpen := false, pageCount := 0, lru := [], cache := ∅ }, ?_, hfile, rfl, hcap⟩
  rw [Pager.close, get_bind_apply, if_pos h.isOpen]
  exact bind_ok hflush

/-- Opening a file that is a row of pages, or no page at all. -/
theorem openFile_represents {pages : List Bytes} (hsize : ∀ p ∈ pages, p.length = kPageSize)
    (existing : Option Bytes) (create : Bool)
    (hfile : (if create then [] else existing.getD []) = pages.flatten) {s : Pager}
    (hclosed : s.isOpen = false) :
    ∃ t, openFile existing create s = .ok () t ∧ Represents pages t ∧
      t.cacheCapacity = s.cacheCapacity := by
  have hcount : pages.flatten.length / kPageSize = pages.length := by
    rw [length_flatten_pages hsize, Nat.mul_div_cancel _ (by decide)]
  refine ⟨{ s with file := pages.flatten, good := true, isOpen := true, pageCount := pages.length
                   lru := [], cache := ∅ }, ?_, ⟨⟨⟨rfl, nofun, fun id data hid _ => ?_, ?_, ?_, ?_⟩,
    ⟨List.nodup_nil, fun id => ?_⟩, Nat.zero_le _⟩, rfl, rfl⟩, rfl⟩
  · have hclose : Pager.close s = .ok () { s with pageCount := 0, lru := [], cache := ∅ } := by
      rw [Pager.close, get_bind_apply, if_neg (by rw [hclosed]; nofun)]
      rfl
    rw [openFile, bind_ok hclose, modify_apply, hfile]
    simp only [hcount]
  · exact onFile_flatten hsize hid
  · intro id data hid
    exact hsize data (List.mem_of_getElem? hid)
  · exact (length_flatten_pages hsize).le
  · intro id data hid
    exact (List.getElem?_eq_some_iff.mp hid).1
  · exact ⟨nofun, fun hmem => absurd hmem (AList.notMem_empty id)⟩

/-! ### Runs -/

/-- The calls on an open pager. `reopen` is `close` and then `open` on the same file,
without `create`. -/
inductive Call where
  | allocatePage
  | writePage (id : PageId) (data : Bytes)
  | readPage (id : PageId)
  | flush
  | setCacheCapacity (capacity : Nat)
  | reopen

inductive Answer where
  | done
  | pageId (id : PageId)
  | data (bytes : Bytes)
  deriving DecidableEq

def Call.run : Call → PagerM Answer
  | .allocatePage => return .pageId (← Pager.allocatePage)
  | .writePage id data => do
    Pager.writePage id data
    return .done
  | .readPage id => return .data (← Pager.readPage id)
  | .flush => do
    Pager.flush
    return .done
  | .setCacheCapacity capacity => do
    Pager.setCacheCapacity capacity
    return .done
  | .reopen => do
    Pager.close
    let s ← get
    openFile (some s.file) false
    return .done

/-- Page `id` of the array replaced, or a page appended. -/
def putPage (pages : List Bytes) (id : Nat) (data : Bytes) : List Bytes :=
  if id < pages.length then pages.set id data else pages ++ [data]

/-- What the calls are about: the pages, and how many of them the cache may hold. -/
structure PageArray where
  pages : List Bytes
  capacity : Nat

/-- The same calls on an array of pages. Page ids and the count are 32-bit numbers, so
that no page is added to `2 ^ 32 - 1` of them. -/
def pageArray : Spec Call PageArray Answer where
  Allowed
    | .allocatePage, a => a.pages.length + 1 < 2 ^ 32
    | .writePage id data, a =>
      id ≤ a.pages.length ∧ id + 1 < 2 ^ 32 ∧ data.length = kPageSize
    | .readPage id, a => id < a.pages.length
    | _, _ => True
  after
    | .allocatePage, a => { a with pages := a.pages ++ [zeroPage] }
    | .writePage id data, a => { a with pages := putPage a.pages id data }
    | .setCacheCapacity capacity, a => { a with capacity }
    | _, a => a
  answer
    | .allocatePage, a => .pageId a.pages.length
    | .readPage id, a => .data (a.pages.getD id [])
    | _, _ => .done

theorem length_zeroPage : zeroPage.length = kPageSize := List.length_replicate

theorem putPage_getElem? {pages : List Bytes} {id : Nat} (hle : id ≤ pages.length) (data : Bytes) :
    (fun i => (putPage pages id data)[i]?) =
      Function.update (fun i => pages[i]?) id (some data) := by
  funext i
  unfold putPage
  split
  · rename_i hlt
    by_cases heq : i = id
    · subst heq
      rw [Function.update_self, List.getElem?_set_self hlt]
    · rw [Function.update_of_ne heq, List.getElem?_set_ne (Ne.symm heq)]
  · have hid : id = pages.length := by omega
    subst hid
    by_cases heq : i = pages.length
    · subst heq
      rw [Function.update_self, List.getElem?_concat_length]
    · rw [Function.update_of_ne heq, List.getElem?_append]
      split
      · rfl
      · rw [List.getElem?_eq_none (l := [data]) (by rw [List.length_singleton]; omega),
          List.getElem?_eq_none (by omega)]

theorem length_putPage {pages : List Bytes} {id : Nat} (hle : id ≤ pages.length) (data : Bytes) :
    (putPage pages id data).length = max pages.length (id + 1) := by
  unfold putPage
  split
  · rw [List.length_set]
    omega
  · rw [List.length_append, List.length_singleton]
    omega

theorem Represents.writePage {pages : List Bytes} {s : Pager} (h : Represents pages s)
    {id : PageId} {data : Bytes} (hle : id ≤ pages.length) (hlen : data.length = kPageSize) :
    ∃ t, Pager.writePage id data s = .ok () t ∧ Represents (putPage pages id data) t ∧
      t.cacheCapacity = s.cacheCapacity := by
  obtain ⟨t, hwrite, ht, hopen, hcap, hcount⟩ := writePage_array h.cached id hlen
  refine ⟨t, hwrite, ⟨?_, hopen.trans h.isOpen, ?_⟩, hcap⟩
  · rw [putPage_getElem? hle]
    exact ht
  · rw [hcount, length_putPage hle, h.pageCount]

theorem Represents.sizes {pages : List Bytes} {s : Pager} (h : Represents pages s) :
    ∀ p ∈ pages, p.length = kPageSize := by
  intro p hp
  obtain ⟨id, hid⟩ := List.mem_iff_getElem?.mp hp
  exact h.cached.backs.sizes id p hid

/-- The pages are the array's, fewer than `2 ^ 32`, and the capacity is. -/
structure Models (a : PageArray) (s : Pager) : Prop where
  represents : Represents a.pages s
  capacity : s.cacheCapacity = a.capacity
  fits : a.pages.length < 2 ^ 32

/-- One call on the pager does what it does on the array. -/
theorem simulates_pageArray : Simulates Models Call.run pageArray := by
  intro call a s h hallowed
  have hrep := h.represents
  cases call with
  | allocatePage =>
    obtain ⟨t, hwrite, ht, hcap⟩ := hrep.writePage (Nat.le_refl _) length_zeroPage
    rw [putPage, if_neg (Nat.lt_irrefl _)] at ht
    refine ⟨t, ?_, ht, hcap.trans h.capacity, ?_⟩
    · have halloc : Pager.allocatePage s = .ok a.pages.length t := by
        rw [allocatePage, get_bind_apply, hrep.pageCount, bind_ok hwrite, pure_apply]
      exact bind_ok halloc
    · show (a.pages ++ [zeroPage]).length < 2 ^ 32
      rw [List.length_append]
      exact hallowed
  | writePage id data =>
    obtain ⟨hle, hid, hlen⟩ := hallowed
    obtain ⟨t, hwrite, ht, hcap⟩ := hrep.writePage hle hlen
    refine ⟨t, bind_ok hwrite, ht, hcap.trans h.capacity, ?_⟩
    show (putPage a.pages id data).length < 2 ^ 32
    rw [length_putPage hle]
    exact Nat.max_lt.mpr ⟨h.fits, hid⟩
  | readPage id =>
    have hid : a.pages[id]? = some (a.pages.getD id []) := by
      rw [List.getD_eq_getElem?_getD, List.getElem?_eq_getElem hallowed]
      rfl
    obtain ⟨t, hread, ht, hsame⟩ := readPage_array hrep.cached hid
    exact ⟨t, bind_ok hread, hrep.of_cached ht hsame.isOpen hsame.pageCount,
      hsame.cacheCapacity.trans h.capacity, h.fits⟩
  | flush =>
    obtain ⟨t, hflush, ht, _, hcap⟩ := hrep.flush
    exact ⟨t, bind_ok hflush, ht, hcap.trans h.capacity, h.fits⟩
  | setCacheCapacity capacity =>
    obtain ⟨t, hset, ht, hopen, hcount, hcap⟩ := setCacheCapacity_cached hrep.cached capacity
    exact ⟨t, bind_ok hset, hrep.of_cached ht hopen hcount, hcap, h.fits⟩
  | reopen =>
    obtain ⟨t, hclose, hfile, hclosed, hcap⟩ := hrep.close
    obtain ⟨u, hopen, hu, hcap'⟩ :=
      openFile_represents hrep.sizes (some t.file) false hfile hclosed
    refine ⟨u, ?_, hu, hcap'.trans (hcap.trans h.capacity), h.fits⟩
    rw [Call.run, bind_ok hclose, get_bind_apply, bind_ok hopen]
    rfl

/-- A run of allowed calls on a pager just opened: it does not throw, every
`read_page` answers with the page last written (zeros if it was only allocated),
and at the end of it, as at the end of every shorter run, the pages are counted in
32 bits, `lru` lists each cached id once, the cache is within the capacity that was
set last, and a flush or a close leaves in the file the pages of the array in a row. -/
theorem runCalls_pageArray (pages : List Bytes) (hsize : ∀ p ∈ pages, p.length = kPageSize)
    (hfits : pages.length < 2 ^ 32) (existing : Option Bytes) (create : Bool)
    (hfile : (if create then [] else existing.getD []) = pages.flatten) (closed : Pager)
    (hclosed : closed.isOpen = false) (calls : List Call)
    (hallowed : pageArray.AllowedRun calls ⟨pages, closed.cacheCapacity⟩) :
    ∃ opened s, openFile existing create closed = .ok () opened ∧
      runCalls Call.run calls opened =
        .ok (pageArray.answers calls ⟨pages, closed.cacheCapacity⟩) s ∧
      s.pageCount = (pageArray.afterRun calls ⟨pages, closed.cacheCapacity⟩).pages.length ∧
      s.pageCount < 2 ^ 32 ∧
      (∀ id, s.lru.count id = if id ∈ s.cache then 1 else 0) ∧
      s.cacheCapacity = (pageArray.afterRun calls ⟨pages, closed.cacheCapacity⟩).capacity ∧
      s.cacheSize ≤ s.cacheCapacity ∧
      (∃ t, flush s = .ok () t ∧
        t.file = (pageArray.afterRun calls ⟨pages, closed.cacheCapacity⟩).pages.flatten) ∧
      ∃ t, Pager.close s = .ok () t ∧
        t.file = (pageArray.afterRun calls ⟨pages, closed.cacheCapacity⟩).pages.flatten := by
  obtain ⟨opened, hopen, hrep, hcap⟩ := openFile_represents hsize existing create hfile hclosed
  obtain ⟨s, hrun, hs⟩ := simulates_pageArray.run calls _ opened ⟨hrep, hcap, hfits⟩ hallowed
  obtain ⟨t, hflush, _, htfile, _⟩ := hs.represents.flush
  obtain ⟨u, hclose, hufile, _⟩ := hs.represents.close
  have hcount := hs.represents.pageCount
  refine ⟨opened, s, hopen, hrun, hcount, hcount ▸ hs.fits, fun id => ?_, hs.capacity,
    hs.represents.cached.size_le, ⟨t, hflush, htfile⟩, ⟨u, hclose, hufile⟩⟩
  have hlisted := hs.represents.cached.listed
  split
  · rename_i hid
    exact List.count_eq_one_of_mem hlisted.nodup ((hlisted.mem id).mpr hid)
  · rename_i hid
    exact List.count_eq_zero_of_not_mem fun hmem => hid ((hlisted.mem id).mp hmem)

/-- Two pages through a cache of one, the first written and both read, uncached at
the end. -/
theorem runCalls_pageArray_twoPages :
    ∃ opened s, openFile none true { cacheCapacity := 1 } = .ok () opened ∧
      runCalls Call.run [.allocatePage, .allocatePage, .writePage 0 (List.replicate kPageSize 1),
          .readPage 1, .setCacheCapacity 0, .readPage 0] opened =
        .ok [.pageId 0, .pageId 1, .done, .data zeroPage, .done,
          .data (List.replicate kPageSize 1)] s ∧
      s.pageCount = 2 ∧ s.cacheCapacity = 0 ∧ s.cacheSize ≤ 0 := by
  obtain ⟨opened, s, hopen, hrun, hcount, _, _, hcap, hsize, _⟩ :=
    runCalls_pageArray [] nofun (by decide) none true rfl { cacheCapacity := 1 } rfl
      [.allocatePage, .allocatePage, .writePage 0 (List.replicate kPageSize 1), .readPage 1,
        .setCacheCapacity 0, .readPage 0]
      ⟨(by decide : 0 + 1 < 2 ^ 32), (by decide : 1 + 1 < 2 ^ 32),
        ⟨Nat.zero_le _, by decide, List.length_replicate⟩, Nat.lt_succ_self 1, trivial,
        Nat.zero_lt_two, trivial⟩
  exact ⟨opened, s, hopen, hrun, hcount, hcap, hsize.trans hcap.le⟩

end Pager
end CwDb.Storage
