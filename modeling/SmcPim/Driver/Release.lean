import SmcPim.Driver.Failures

/-! # `PIM_IOCTL_RELEASE_ALL_DATA` and `pim_release` -/

namespace SmcPim.Driver

open List

/-- What the driver does with the pages and with the arrays `pages.list` and `pages.physical_addr`. -/
inductive Use
  | readList (i : Nat)
  | readPhys (i : Nat)
  | setPageDirty (page : Nat)
  | pageCacheRelease (page : Nat)
  | kfreeList
  | kfreePhys
  deriving DecidableEq, Repr

variable {b : Build} (debug : Bool) (reserved : Nat → Bool) (stale : Nat → Nat)

/-- One round of the loop. A debug build also prints the addresses of the page. -/
def releasePage (i page : Nat) : List Use :=
  (if debug then [.readPhys i, .readList i] else []) ++ .readList i ::
    (if reserved page then [] else [.readList i, .setPageDirty page]) ++
    [.readList i, .pageCacheRelease page, .kfreeList]

/-- The rounds from page `i` on. When the list was freed, `stale` is in its place. -/
def releasePages (list : Nat → Nat) : Nat → Nat → List Use → List Use
  | 0, _, us => us
  | m + 1, i, us =>
    let page := if .kfreeList ∈ us then stale i else list i
    releasePages list m (i + 1) (us ++ releasePage debug reserved i page)

def releaseAllData (pages : Pages) : Except Fault (List Use) :=
  match pages.list with
  | some list => .ok (releasePages debug reserved stale list pages.count 0 [])
  | none => if pages.count = 0 then .ok [] else .error (.undefined "pages.list[i]")

def pimRelease (us : List Use) : List Use := us ++ [.kfreePhys, .kfreeList]

/-! ## Accounting -/

def Use.released : Use → Option Nat
  | .pageCacheRelease page => some page
  | _ => none

def Use.elementRead : Use → Option Nat
  | .readList i => some i
  | _ => none

def readsAfterFree (us : List Use) : List Nat :=
  (us.dropWhile (· ≠ .kfreeList)).filterMap Use.elementRead

structure ReleasedOnce (pinned : List Nat) (us : List Use) : Prop where
  pages : us.filterMap Use.released = pinned
  list : us.count .kfreeList = 1
  phys : us.count .kfreePhys = 1
  reads : readsAfterFree us = []

variable {debug reserved stale} {i page m : Nat} {us : List Use} {list : Nat → Nat}

lemma releasePage_frees (debug : Bool) (reserved : Nat → Bool) (i page : Nat) :
    (releasePage debug reserved i page).count .kfreeList = 1 ∧
    (releasePage debug reserved i page).count .kfreePhys = 0 ∧
    (releasePage debug reserved i page).filterMap Use.released = [page] := by
  unfold releasePage
  cases debug <;> cases reserved page <;> simp [filterMap_cons, Use.released]

lemma readsAfterFree_releasePage (us : List Use) :
    readsAfterFree (releasePage debug reserved i page ++ us) = us.filterMap Use.elementRead := by
  unfold releasePage readsAfterFree
  cases debug <;> cases reserved page <;> simp [dropWhile, filterMap_cons, Use.elementRead]

lemma elementRead_releasePage (debug : Bool) (reserved : Nat → Bool) (i page : Nat) :
    i ∈ (releasePage debug reserved i page).filterMap Use.elementRead :=
  mem_filterMap.mpr ⟨.readList i, by simp [releasePage], rfl⟩

lemma releasePages_freed (hfree : .kfreeList ∈ us) :
    releasePages debug reserved stale list m i us =
      us ++ (range' i m).flatMap fun k => releasePage debug reserved k (stale k) := by
  induction m generalizing i us with
  | zero => simp [releasePages]
  | succ m ih =>
    unfold releasePages
    rw [if_pos hfree, ih (mem_append_left _ hfree), range'_succ, flatMap_cons, append_assoc]

lemma releasePages_eq :
    releasePages debug reserved stale list (m + 1) 0 [] = releasePage debug reserved 0 (list 0) ++
      (range' 1 m).flatMap fun k => releasePage debug reserved k (stale k) := by
  unfold releasePages
  dsimp only
  rw [if_neg not_mem_nil, nil_append, releasePages_freed]
  exact count_pos_iff.mp (by rw [(releasePage_frees ..).1]; exact Nat.one_pos)

lemma rounds_free (debug : Bool) (reserved : Nat → Bool) (xs : List Nat) (f : Nat → Nat) :
    (xs.flatMap fun k => releasePage debug reserved k (f k)).count .kfreeList = xs.length ∧
      (xs.flatMap fun k => releasePage debug reserved k (f k)).count .kfreePhys = 0 ∧
      (xs.flatMap fun k => releasePage debug reserved k (f k)).filterMap Use.released = xs.map f := by
  induction xs with
  | nil => simp
  | cons k xs ih =>
    obtain ⟨h1, h2, h3⟩ := releasePage_frees debug reserved k (f k)
    rw [flatMap_cons, count_append, count_append, filterMap_append, h1, h2, h3, ih.1, ih.2.1, ih.2.2]
    exact ⟨Nat.add_comm _ _, rfl, rfl⟩

lemma rounds_read (f : Nat → Nat) :
    ((range' 1 m).flatMap fun k => releasePage debug reserved k (f k)).filterMap Use.elementRead = [] ↔
      m = 0 := by
  rcases m with _ | m
  · simp
  · refine iff_of_false (fun h => ?_) (Nat.succ_ne_zero m)
    rw [range'_succ, flatMap_cons, filterMap_append, append_eq_nil_iff] at h
    have hread := elementRead_releasePage debug reserved 1 (f 1)
    rw [h.1] at hread
    exact absurd hread not_mem_nil

lemma Succeeds.pages_eq {K : Kernel b} {n : BitVec b.arch.bits} (h : Succeeds debug K n.toNat)
    (hok : K.accessOk = true) (hacc : 3 ≤ K.accessible) (pages : Pages) (addr : BitVec b.arch.bits) :
    (pimIoctl debug K (request addr n) (.start pages)).1.pages =
      ⟨some fun k => (K.getUserPages 0).phys.getD k (K.heap k), n.toNat⟩ := by
  obtain ⟨r, hrun, -⟩ := pimIoctl_request debug addr n pages hok hacc
  obtain ⟨table, htable⟩ := createSliceTable_fst debug K addr.toNat (pinnedRange K pages addr n)
  rw [hrun, htable]
  exact (pinnedRange_pages pages h.list h.pinned).trans (by rw [Nat.mod_eq_of_lt h.count])

/-- The list is freed once for each page and once more, and read after that from the second page on.
-/
theorem release_misuses (debug : Bool) (K : Kernel b) (hok : K.accessOk = true)
    (hacc : 3 ≤ K.accessible) (pages : Pages) (addr n : BitVec b.arch.bits) (hn : 1 ≤ n.toNat)
    (hs : Succeeds debug K n.toNat) (reserved : Nat → Bool) (stale : Nat → Nat) :
    ∃ us, releaseAllData debug reserved stale
          (pimIoctl debug K (request addr n) (.start pages)).1.pages = .ok us ∧
      (pimRelease us).count .kfreeList = n.toNat + 1 ∧ (pimRelease us).count .kfreePhys = 1 ∧
      ((∀ k page, (K.getUserPages 0).phys[k]? = some page → stale k = page) →
        (pimRelease us).filterMap Use.released = (K.getUserPages 0).phys) ∧
      (readsAfterFree (pimRelease us) = [] ↔ n.toNat = 1) ∧
      ¬ ReleasedOnce (K.getUserPages 0).phys (pimRelease us) := by
  obtain ⟨m, hm⟩ : ∃ m, n.toNat = m + 1 := ⟨n.toNat - 1, by omega⟩
  obtain ⟨h1, h2, h3⟩ := releasePage_frees debug reserved 0
    ((K.getUserPages 0).phys.getD 0 (K.heap 0))
  obtain ⟨r1, r2, r3⟩ := rounds_free debug reserved (range' 1 m) stale
  refine ⟨_, by rw [hs.pages_eq hok hacc, hm]; rfl, ?_⟩
  rw [releasePages_eq]
  have hlist : (pimRelease (releasePage debug reserved 0 ((K.getUserPages 0).phys.getD 0 (K.heap 0)) ++
      (range' 1 m).flatMap fun k => releasePage debug reserved k (stale k))).count .kfreeList =
        n.toNat + 1 := by
    unfold pimRelease
    rw [count_append, count_append, h1, r1, length_range', hm]
    simp
    omega
  refine ⟨hlist, ?_, ?_, ?_, fun h => ?_⟩
  · unfold pimRelease
    rw [count_append, count_append, h2, r2]
    rfl
  · intro hstale
    unfold pimRelease
    rw [filterMap_append, filterMap_append, h3, r3]
    have hlen := hs.pinned
    rcases hphys : (K.getUserPages 0).phys with _ | ⟨p, ps⟩
    · rw [hphys, hm] at hlen
      exact absurd hlen (by simp)
    · rw [hphys] at hstale hlen
      have hrest : (range' 1 m).map stale = ps := by
        refine ext_getElem (by simp at hlen ⊢; omega) fun k _ hk => ?_
        rw [getElem_map, getElem_range', Nat.one_mul, Nat.add_comm]
        exact hstale (k + 1) _ (by rw [getElem?_cons_succ, getElem?_eq_getElem hk])
      rw [hrest]
      exact append_nil _
  · unfold pimRelease
    rw [append_assoc, readsAfterFree_releasePage, filterMap_append,
      show filterMap Use.elementRead [.kfreePhys, .kfreeList] = [] from rfl, append_nil, rounds_read, hm]
    omega
  · have := h.list
    omega

def onePage : Kernel ⟨.arm64, 12, true⟩ :=
  { obliging with getUserPages _ := ⟨[0x80001000], 14, by decide⟩ }

lemma onePage_succeeds : Succeeds false onePage (1 : BitVec 64).toNat where
  list := rfl
  pinned := rfl
  count := by decide
  phys := rfl
  table := rfl
  merged := fun h => absurd h.2.1.1 (by decide)
  debug := fun h => absurd h.1 (by decide)

theorem release_misuses_one :
    ∃ us, releaseAllData false (fun _ => false) (fun _ => 0)
        (pimIoctl false onePage (request 0x10000000 1) (.start ⟨none, 0⟩)).1.pages = .ok us ∧
      (pimRelease us).count .kfreeList = 2 := by
  obtain ⟨us, hus, hlist, -⟩ := release_misuses false onePage rfl (by decide) ⟨none, 0⟩ 0x10000000 1
    (by decide) onePage_succeeds (fun _ => false) fun _ => 0
  exact ⟨us, hus, hlist⟩

/-- One page is enough: its round frees the list, and the close of the device does so again. -/
theorem list_freed_twice :
    ∃ us, releaseAllData false (fun _ => false) (fun _ => 0)
        (pimIoctl false onePage (request 0x10000000 1) (.start ⟨none, 0⟩)).1.pages = .ok us ∧
      pimRelease us = [.readList 0, .readList 0, .setPageDirty 0x80001000, .readList 0,
        .pageCacheRelease 0x80001000, .kfreeList, .kfreePhys, .kfreeList] ∧
      ¬ ReleasedOnce [0x80001000] (pimRelease us) :=
  ⟨_, rfl, by decide +kernel, fun h => absurd h.list (by decide +kernel)⟩

end SmcPim.Driver
