import SmcPim.Driver.Merge

/-!
# `PIM_IOCTL_ALLOCATE_DATA`

From `SW/HOST/driver/pim.c`, `pim.h` and `defs.h`. Assertions print and go on. What the rest of the
kernel answers is given.
-/

namespace SmcPim.Driver

open List

/-! ## The rest of the kernel -/

def pimIoctlMaxArgs : Nat := 8

def enomem : Int := 12

def efault : Int := 14

def pageOrder (x : Nat) : Nat :=
  if x ≤ 0x1000 then 0 else if x ≤ 0x2000 then 1 else if x ≤ 0x4000 then 2
  else if x ≤ 0x8000 then 3 else if x ≤ 0x10000 then 4 else if x ≤ 0x20000 then 5
  else if x ≤ 0x40000 then 6 else 11

/-- What `get_user_pages` does with a range: the pages that it pins, or its error. -/
structure Pinned (b : Build) where
  phys : List Nat
  errno : Nat
  inMemory : ∀ x ∈ phys, x + b.pageSize < 2 ^ b.arch.bits

def Pinned.result {b : Build} (g : Pinned b) (nPages : Nat) : Nat :=
  if g.phys = [] ∧ nPages ≠ 0 then b.arch.ulong (2 ^ b.arch.bits - g.errno)
  else b.arch.ulong g.phys.length

structure Kernel (b : Build) where
  /-- `access_ok` of the argument. -/
  accessOk : Bool
  /-- The number of words of the user's block that can be copied. -/
  accessible : Nat
  /-- Whether `kmalloc` gives the page list of each range. -/
  listAllocated : Nat → Bool
  getUserPages : Nat → Pinned b
  /-- Whether `kmalloc` gives the array of physical addresses. -/
  physAllocated : Bool
  /-- The physical address of the pages that `__get_free_pages` gives. -/
  getFreePages : Nat → Option Nat
  /-- What lies in `ioctl_arg` before something is copied there. -/
  stack : Nat → Nat
  /-- The addresses of the pages to which the unwritten part of the page list points. -/
  heap : Nat → Nat
  /-- What follows `physical_addr` in memory. -/
  after : List Nat
  mem : Memory

/-- `kmalloc` of `size` bytes, which for none of them returns a pointer that is not null. -/
def kmalloc (size : Nat) (allocated : Bool) : Bool := size == 0 || allocated

/-! ## One call -/

/-- The static variable `pages`; no list is a null pointer. -/
structure Pages where
  list : Option (Nat → Nat)
  count : Nat

structure Pin where
  addrStart : Nat
  nPages : Nat
  pinned : Option (List Nat)

structure Table extends Published where
  pimSlicecount : Nat
  log : MergeLog

structure Call where
  pages : Pages
  /-- The number of words of `ioctl_arg` that were copied from the user. -/
  copied : Nat
  reads : List Nat
  pins : List Pin
  table : Option Table

def Call.start (pages : Pages) : Call := ⟨pages, 0, [], [], none⟩

/-- A part of the driver's code. It may fault, after it has done something. -/
def Ioctl (α : Type) : Type := Call → Call × Except Fault α

namespace Ioctl

instance : Monad Ioctl where
  pure a := fun c => (c, .ok a)
  bind x f := fun c =>
    match x c with
    | (c, .ok a) => f a c
    | (c, .error e) => (c, .error e)

variable {α β : Type} (x : Ioctl α) (f : α → Ioctl β) (a : α) (c c' : Call) (e : Fault)

@[simp] lemma pure_apply : (pure a : Ioctl α) c = (c, .ok a) := rfl

lemma bind_apply : (x >>= f) c =
    match x c with
    | (c, .ok a) => f a c
    | (c, .error e) => (c, .error e) := rfl

variable {x a c c' e}

lemma bind_ok (h : x c = (c', .ok a)) : (x >>= f) c = f a c' := by
  rw [bind_apply, h]

end Ioctl

variable {b : Build} (debug : Bool) (K : Kernel b) (user : Nat → BitVec b.arch.bits)

def copyFromUser (words : Nat) : Ioctl Bool := fun c =>
  if words ≤ K.accessible then ({ c with copied := max c.copied words }, .ok true) else (c, .ok false)

def argAt (copied i : Nat) : Nat := if i < copied then (user i).toNat else K.stack i

def ioctlArg (i : Nat) : Ioctl Nat := fun c =>
  ({ c with reads := c.reads ++ [i] },
    if i < pimIoctlMaxArgs then .ok (argAt K user c.copied i)
    else .error (.undefined "ioctl_arg[i]"))

/-- `pim_get_user_pages` for the range `i`; nobody looks at what it returns. -/
def pimGetUserPages (i addrStart nPages : Nat) : Ioctl Int := fun c =>
  if kmalloc (b.arch.ulong (nPages * b.arch.bytes)) (K.listAllocated i) then
    let g := K.getUserPages i
    let c := { c with
      pins := c.pins ++ [⟨addrStart, nPages, some g.phys⟩]
      pages := { c.pages with list := some fun k => g.phys.getD k (K.heap k) } }
    if g.result nPages ≠ nPages then (c, .ok (-enomem))
    else ({ c with pages := { c.pages with count := nPages % 2 ^ 32 } }, .ok 0)
  else
    ({ c with pins := c.pins ++ [⟨addrStart, nPages, none⟩], pages := { c.pages with list := none } },
      .ok (-enomem))

def pagePhys (pages : Pages) : Except Fault (List Nat) :=
  match pages.list with
  | some list => .ok ((List.range pages.count).map list)
  | none => if pages.count = 0 then .ok [] else .error (.undefined "pages.list[i]")

/-- `pim_create_slice_table`. `ASSERT_RET` returns in a debug build only, which also looks at the
pages. -/
def createSliceTable (vaddrStart : Nat) : Ioctl Int := fun c =>
  let count := c.pages.count
  if kmalloc (b.arch.ulong (count * b.arch.bytes)) K.physAllocated = false ∧ debug = true then
    (c, .ok (-enomem))
  else if kmalloc (b.arch.ulong (count * b.arch.bytes)) K.physAllocated = false ∧ count ≠ 0 then
    (c, .error (.undefined "pages.physical_addr[i]"))
  else
    match pagePhys c.pages with
    | .error e => (c, .error e)
    | .ok physicalAddr =>
      match K.getFreePages (pageOrder (b.arch.ulong (count * sizeofSlice b.arch))) with
      | none => if debug then (c, .ok (-enomem)) else (c, .error (.undefined "slicetable[0].vaddr"))
      | some slicetablePaddr =>
        let log := mergeSlices b physicalAddr K.after vaddrStart
        if log.finished = false then (c, .error (.undefined "pages.physical_addr[i+c]"))
        else if debug = true ∧ count = 0 then (c, .error (.undefined "pages.physical_addr[i+1]"))
        else
          let published := pimCreateSliceTable b physicalAddr K.after vaddrStart slicetablePaddr K.mem
          ({ c with table := some ⟨published, b.arch.ulong count, log⟩ }, .ok 0)

def getRanges : Nat → Nat → Ioctl Unit
  | 0, _ => pure ()
  | m + 1, i => do
    let addrStart ← ioctlArg K user (2 * i + 1)
    let nPages ← ioctlArg K user (2 * i + 2)
    let _ ← pimGetUserPages K i addrStart nPages
    getRanges m (i + 1)

def allocateData (ioctlArgSize : Nat) : Ioctl Int := do
  getRanges K user (ioctlArgSize / 2 % 2 ^ 32) 0
  let vaddrStart ← ioctlArg K user 1
  let _ ← createSliceTable debug K vaddrStart
  pure 1

/-- `pim_ioctl` with `PIM_IOCTL_ALLOCATE_DATA`. -/
def pimIoctl : Ioctl Int := do
  if K.accessOk = false then return -efault
  if (← copyFromUser K 1) = false then return -efault
  let ioctlArgSize ← ioctlArg K user 0
  if pimIoctlMaxArgs < b.arch.ulong (ioctlArgSize + 1) then return -efault
  if (← copyFromUser K (b.arch.ulong (ioctlArgSize + 1))) = false then return -efault
  allocateData debug K user ioctlArgSize

/-! ## What a call reads and pins -/

variable {debug K user} {c c' : Call} {i m n : Nat}

lemma pimGetUserPages_eq (i addrStart nPages : Nat) (c : Call) :
    ∃ pages pinned r, pimGetUserPages K i addrStart nPages c =
      ({ c with pages := pages, pins := c.pins ++ [⟨addrStart, nPages, pinned⟩] }, .ok r) := by
  unfold pimGetUserPages
  split
  · dsimp only
    split
    · exact ⟨_, _, _, rfl⟩
    · exact ⟨_, _, _, rfl⟩
  · exact ⟨_, _, _, rfl⟩

lemma createSliceTable_fst (debug : Bool) (K : Kernel b) (vaddrStart : Nat) (c : Call) :
    ∃ table, (createSliceTable debug K vaddrStart c).1 = { c with table := table } := by
  unfold createSliceTable
  dsimp only
  split
  · exact ⟨c.table, rfl⟩
  · split
    · exact ⟨c.table, rfl⟩
    · split
      · exact ⟨c.table, rfl⟩
      · split
        · split <;> exact ⟨c.table, rfl⟩
        · split
          · exact ⟨c.table, rfl⟩
          · split <;> exact ⟨_, rfl⟩

lemma ioctlArg_lt (hi : i < pimIoctlMaxArgs) (c : Call) :
    ioctlArg K user i c = ({ c with reads := c.reads ++ [i] }, .ok (argAt K user c.copied i)) := by
  unfold ioctlArg
  rw [if_pos hi]

def rangeAt (K : Kernel b) (user : Nat → BitVec b.arch.bits) (copied i : Nat) : Nat × Nat :=
  (argAt K user copied (2 * i + 1), argAt K user copied (2 * i + 2))

lemma getRanges_eq (K : Kernel b) (user : Nat → BitVec b.arch.bits) (m i : Nat)
    (hi : 2 * (i + m) < pimIoctlMaxArgs) (c : Call) :
    ∃ pages rs ps, getRanges K user m i c =
        (⟨pages, c.copied, c.reads ++ rs, c.pins ++ ps, c.table⟩, .ok ()) ∧
      ps.map (fun p => (p.addrStart, p.nPages)) = (range' i m).map (rangeAt K user c.copied) ∧
      ∀ r ∈ rs, r ≤ 2 * (i + m) := by
  induction m generalizing i c with
  | zero => exact ⟨c.pages, [], [], by simp [getRanges], rfl, by simp⟩
  | succ m ih =>
    unfold getRanges
    rw [Ioctl.bind_ok _ (ioctlArg_lt (by omega) c), Ioctl.bind_ok _ (ioctlArg_lt (by omega) _)]
    generalize hstart : argAt K user c.copied (2 * i + 1) = addrStart
    generalize hpages : argAt K user _ (2 * i + 2) = nPages
    obtain ⟨pages, pinned, r, hpin⟩ := pimGetUserPages_eq (K := K) i addrStart nPages
      ⟨c.pages, c.copied, c.reads ++ [2 * i + 1] ++ [2 * i + 2], c.pins, c.table⟩
    rw [Ioctl.bind_ok _ hpin]
    obtain ⟨pages', rs, ps, hrest, hranges, hrs⟩ := ih (i + 1) (by omega)
      ⟨pages, c.copied, c.reads ++ [2 * i + 1] ++ [2 * i + 2], c.pins ++ [⟨addrStart, nPages, pinned⟩],
        c.table⟩
    refine ⟨pages', (2 * i + 1) :: (2 * i + 2) :: rs, ⟨addrStart, nPages, pinned⟩ :: ps,
      hrest.trans (by simp), ?_, ?_⟩
    · rw [map_cons, range'_succ, map_cons, hranges, rangeAt, hstart]
      rw [← hpages]
    · simp only [mem_cons]
      rintro r (rfl | rfl | hr)
      · omega
      · omega
      · have := hrs r hr
        omega

def Ioctl.Keeps {α : Type} (x : Ioctl α) : Prop :=
  ∀ c, (x c).1.copied = c.copied ∧ c.reads ⊆ (x c).1.reads

namespace Ioctl

variable {α β : Type} {x : Ioctl α} {f : α → Ioctl β}

lemma Keeps.bind (hx : Keeps x) (hf : ∀ a, Keeps (f a)) : Keeps (x >>= f) := by
  intro c
  obtain ⟨hcopied, hreads⟩ := hx c
  rw [bind_apply]
  split
  · rename_i c' a h
    rw [h] at hcopied hreads
    exact ⟨(hf a c').1.trans hcopied, List.Subset.trans hreads (hf a c').2⟩
  · rename_i c' e h
    rw [h] at hcopied hreads
    exact ⟨hcopied, hreads⟩

lemma Keeps.pure (a : α) : Keeps (Pure.pure a : Ioctl α) := fun _ => ⟨rfl, List.Subset.refl _⟩

lemma mem_reads_bind (hf : ∀ a, Keeps (f a)) (h : i ∈ (x c).1.reads) :
    i ∈ ((x >>= f) c).1.reads := by
  rw [bind_apply]
  split
  · rename_i c' a hx
    rw [hx] at h
    exact (hf a c').2 h
  · rename_i c' e hx
    rw [hx] at h
    exact h

end Ioctl

lemma keeps_ioctlArg (i : Nat) : (ioctlArg K user i).Keeps :=
  fun _ => ⟨rfl, subset_append_left _ _⟩

lemma keeps_pimGetUserPages (i addrStart nPages : Nat) :
    (pimGetUserPages K i addrStart nPages).Keeps := by
  intro c
  obtain ⟨pages, pinned, r, h⟩ := pimGetUserPages_eq (K := K) i addrStart nPages c
  rw [h]
  exact ⟨rfl, List.Subset.refl _⟩

lemma keeps_createSliceTable (vaddrStart : Nat) : (createSliceTable debug K vaddrStart).Keeps := by
  intro c
  obtain ⟨table, h⟩ := createSliceTable_fst debug K vaddrStart c
  rw [h]
  exact ⟨rfl, List.Subset.refl _⟩

lemma keeps_getRanges (m i : Nat) : (getRanges K user m i).Keeps := by
  induction m generalizing i with
  | zero => exact .pure ()
  | succ m ih =>
    exact (keeps_ioctlArg _).bind fun _ => (keeps_ioctlArg _).bind fun _ =>
      (keeps_pimGetUserPages _ _ _).bind fun _ => ih (i + 1)

lemma keeps_allocateData (size : Nat) : (allocateData debug K user size).Keeps :=
  (keeps_getRanges _ _).bind fun _ => (keeps_ioctlArg _).bind fun _ =>
    (keeps_createSliceTable _).bind fun _ => .pure 1

lemma one_mem_reads (size : Nat) (c : Call) : 1 ∈ (allocateData debug K user size c).1.reads := by
  have hone : ∀ c : Call, 1 ∈ (ioctlArg K user 1 c).1.reads := fun c => by simp [ioctlArg]
  unfold allocateData
  cases size / 2 % 2 ^ 32 with
  | zero =>
    rw [Ioctl.bind_ok _ (show getRanges K user 0 0 c = (c, .ok ()) from rfl)]
    exact Ioctl.mem_reads_bind (fun _ => (keeps_createSliceTable _).bind fun _ => .pure 1) (hone c)
  | succ m =>
    refine Ioctl.mem_reads_bind (fun _ => (keeps_ioctlArg _).bind fun _ =>
      (keeps_createSliceTable _).bind fun _ => .pure 1) ?_
    exact Ioctl.mem_reads_bind (fun _ => (keeps_ioctlArg _).bind fun _ =>
      (keeps_pimGetUserPages _ _ _).bind fun _ => keeps_getRanges m 1) (hone c)

lemma allocateData_eq (debug : Bool) (K : Kernel b) (user : Nat → BitVec b.arch.bits) {size : Nat}
    (hsize : size < pimIoctlMaxArgs) (c : Call) :
    ∃ pages rs ps table r, allocateData debug K user size c =
        (⟨pages, c.copied, c.reads ++ rs ++ [1], c.pins ++ ps, table⟩, r) ∧
      ps.map (fun p => (p.addrStart, p.nPages)) =
        (range (size / 2)).map (rangeAt K user c.copied) ∧
      (∀ i ∈ rs, i ≤ 2 * (size / 2)) ∧ ∀ v, r = .ok v → v = 1 := by
  unfold pimIoctlMaxArgs at hsize
  have hmod : size / 2 % 2 ^ 32 = size / 2 := Nat.mod_eq_of_lt (by omega)
  obtain ⟨pages, rs, ps, hrun, hps, hrs⟩ := getRanges_eq K user (size / 2) 0
    (by unfold pimIoctlMaxArgs; omega) c
  rw [Nat.zero_add] at hrs
  rw [← range_eq_range'] at hps
  unfold allocateData
  rw [hmod, Ioctl.bind_ok _ hrun, Ioctl.bind_ok _ (ioctlArg_lt (by decide) _)]
  generalize argAt K user _ 1 = vaddrStart
  obtain ⟨table, hfst⟩ := createSliceTable_fst debug K vaddrStart
    ⟨pages, c.copied, c.reads ++ rs ++ [1], c.pins ++ ps, c.table⟩
  rw [Ioctl.bind_apply]
  split
  · rename_i c2 a h
    rw [h] at hfst
    exact ⟨pages, rs, ps, table, .ok 1, congrArg (·, _) hfst, hps, hrs,
      fun v hv => (Except.ok.inj hv).symm⟩
  · rename_i c2 e h
    rw [h] at hfst
    exact ⟨pages, rs, ps, table, .error e, congrArg (·, _) hfst, hps, hrs, fun v hv => by simp at hv⟩

/-! ## Argument safety -/

/-- An error before anything is pinned, or one range, and nothing read that was not copied. -/
structure ArgumentSafe (user : Nat → BitVec b.arch.bits) (result : Call × Except Fault Int) : Prop where
  pins : (∃ v < 0, result.2 = .ok v) ∧ result.1.pins = [] ∨
    ∃ pinned, result.1.pins = [⟨(user 1).toNat, (user 2).toNat, pinned⟩]
  reads : ∀ i ∈ result.1.reads, i < pimIoctlMaxArgs ∧ i < result.1.copied

/-- The block cannot be read, or its count is out of bounds also as a number. -/
def Rejected (K : Kernel b) (count : Nat) : Prop :=
  K.accessOk = false ∨ K.accessible = 0 ∨
    pimIoctlMaxArgs ≤ count ∧ count + 1 < 2 ^ b.arch.bits ∨
    count < pimIoctlMaxArgs ∧ K.accessible < count + 1

lemma copyFromUser_of_le {words : Nat} (h : words ≤ K.accessible) (c : Call) :
    copyFromUser K words c = ({ c with copied := max c.copied words }, .ok true) := if_pos h

lemma copyFromUser_of_lt {words : Nat} (h : K.accessible < words) (c : Call) :
    copyFromUser K words c = (c, .ok false) := if_neg (not_le.mpr h)

lemma maxArgs_lt (a : Arch) : pimIoctlMaxArgs < 2 ^ a.bits := by cases a <;> decide

lemma ulong_count (user : Nat → BitVec b.arch.bits) :
    b.arch.ulong ((user 0).toNat + 1) = (user 0).toNat + 1 ∧ (user 0).toNat + 1 < 2 ^ b.arch.bits ∨
      b.arch.ulong ((user 0).toNat + 1) = 0 ∧ (user 0).toNat + 1 = 2 ^ b.arch.bits := by
  have hlt := (user 0).isLt
  by_cases h : (user 0).toNat + 1 < 2 ^ b.arch.bits
  · exact .inl ⟨Arch.ulong_of_lt h, h⟩
  · have heq : (user 0).toNat + 1 = 2 ^ b.arch.bits := by omega
    exact .inr ⟨by rw [heq, Arch.ulong, Nat.mod_self], heq⟩

lemma pimIoctl_start (pages : Pages) (hok : K.accessOk = true) (hacc : 1 ≤ K.accessible) :
    pimIoctl debug K user (.start pages) =
      (if pimIoctlMaxArgs < b.arch.ulong ((user 0).toNat + 1) then pure (-efault) else do
        if (← copyFromUser K (b.arch.ulong ((user 0).toNat + 1))) = false then return -efault
        allocateData debug K user (user 0).toNat) ⟨pages, 1, [0], [], none⟩ := by
  unfold pimIoctl
  rw [hok, if_neg (by simp), Ioctl.bind_ok _ (copyFromUser_of_le hacc _), if_neg (by simp),
    Ioctl.bind_ok _ (ioctlArg_lt (by decide) _)]
  rfl

lemma pimIoctl_accepted (pages : Pages) (h : ¬ Rejected K (user 0).toNat) :
    pimIoctl debug K user (.start pages) = allocateData debug K user (user 0).toNat
      ⟨pages, max 1 (b.arch.ulong ((user 0).toNat + 1)), [0], [], none⟩ := by
  unfold Rejected at h
  push Not at h
  obtain ⟨hok, hacc, hlarge, hsmall⟩ := h
  have hcount := ulong_count user
  have hfits : b.arch.ulong ((user 0).toNat + 1) ≤ pimIoctlMaxArgs ∧
      b.arch.ulong ((user 0).toNat + 1) ≤ K.accessible := by
    by_cases hlt : (user 0).toNat < pimIoctlMaxArgs
    · have := hsmall hlt
      omega
    · have := hlarge (by omega)
      omega
  rw [pimIoctl_start pages (Bool.eq_true_of_not_eq_false hok) (by omega), if_neg (by omega),
    Ioctl.bind_ok _ (copyFromUser_of_le hfits.2 _), if_neg (by simp)]

lemma pimIoctl_rejected (debug : Bool) (pages : Pages) (h : Rejected K (user 0).toNat) :
    ∃ copied reads, pimIoctl debug K user (.start pages) =
      (⟨pages, copied, reads, [], none⟩, .ok (-efault)) ∧ ∀ i ∈ reads, i = 0 ∧ 0 < copied := by
  by_cases hok : K.accessOk = false
  · refine ⟨0, [], ?_, by simp⟩
    unfold pimIoctl
    rw [if_pos hok]
    rfl
  · by_cases hacc : K.accessible = 0
    · refine ⟨0, [], ?_, by simp⟩
      unfold pimIoctl
      rw [if_neg hok, Ioctl.bind_ok _ (copyFromUser_of_lt (by omega) _), if_pos rfl]
      rfl
    · have hcount := ulong_count user
      have hmax := maxArgs_lt b.arch
      refine ⟨1, [0], ?_, by simp⟩
      rw [pimIoctl_start pages (Bool.eq_true_of_not_eq_false hok) (by omega)]
      split
      · rfl
      · rename_i hle
        have hlt : K.accessible < b.arch.ulong ((user 0).toNat + 1) := by
          unfold Rejected at h
          rcases h with h | h | h | h
          · exact absurd h hok
          · exact absurd h hacc
          · omega
          · omega
        rw [Ioctl.bind_ok _ (copyFromUser_of_lt hlt _), if_pos rfl]
        rfl

/-- A call is safe exactly if it is rejected at once or its count is 2 or 3. -/
theorem argument_safe_iff (debug : Bool) (K : Kernel b) (pages : Pages)
    (user : Nat → BitVec b.arch.bits) :
    ArgumentSafe user (pimIoctl debug K user (.start pages)) ↔
      Rejected K (user 0).toNat ∨ (user 0).toNat = 2 ∨ (user 0).toNat = 3 := by
  by_cases hrej : Rejected K (user 0).toNat
  · obtain ⟨copied, reads, hrun, hreads⟩ := pimIoctl_rejected debug pages hrej
    refine ⟨fun _ => .inl hrej, fun _ => ?_⟩
    rw [hrun]
    refine ⟨.inl ⟨⟨-efault, by decide, rfl⟩, rfl⟩, fun i hi => ?_⟩
    obtain ⟨rfl, hpos⟩ := hreads i hi
    exact ⟨by decide, hpos⟩
  · rw [pimIoctl_accepted pages hrej, or_iff_right hrej]
    have hcount := ulong_count user
    have hmax := maxArgs_lt b.arch
    constructor
    · intro hsafe
      -- The word after the count was copied, so that the count did not wrap and is not 0.
      have hread := (hsafe.reads 1 (one_mem_reads _ _)).2
      rw [(keeps_allocateData _ _).1] at hread
      dsimp only at hread
      have hsize : (user 0).toNat < pimIoctlMaxArgs := by
        unfold Rejected at hrej
        push Not at hrej
        obtain ⟨-, -, hlarge, -⟩ := hrej
        by_contra hge
        have := hlarge (not_lt.mp hge)
        omega
      obtain ⟨pages', rs, ps, table, r, hrun, hps, -, hr⟩ := allocateData_eq debug K user hsize
        ⟨pages, max 1 (b.arch.ulong ((user 0).toNat + 1)), [0], [], none⟩
      rw [hrun] at hsafe
      have hlen := congrArg List.length hps
      rw [List.length_map, List.length_map, List.length_range] at hlen
      rcases hsafe.pins with ⟨⟨v, hneg, hv⟩, -⟩ | ⟨pinned, hpins⟩
      · have := hr v hv
        omega
      · have := congrArg List.length hpins
        simp only [List.nil_append, List.length_singleton] at this
        omega
    · intro htwo
      have hulong : b.arch.ulong ((user 0).toNat + 1) = (user 0).toNat + 1 := by
        unfold pimIoctlMaxArgs at hmax
        omega
      have hsize : (user 0).toNat < pimIoctlMaxArgs := by
        unfold pimIoctlMaxArgs
        omega
      have hhalf : (user 0).toNat / 2 = 1 := by omega
      rw [hulong]
      obtain ⟨pages', rs, ps, table, r, hrun, hps, hrs, -⟩ := allocateData_eq debug K user hsize
        ⟨pages, max 1 ((user 0).toNat + 1), [0], [], none⟩
      rw [hrun]
      rw [hhalf] at hps hrs
      refine ⟨.inr ?_, fun i hi => ?_⟩
      · obtain ⟨p, rfl⟩ := List.length_eq_one_iff.mp (by simpa using congrArg List.length hps)
        have hone : 1 < max 1 ((user 0).toNat + 1) := by omega
        have htwo : 2 < max 1 ((user 0).toNat + 1) := by omega
        simp only [List.map_cons, List.map_nil, List.range_one, rangeAt, argAt, List.cons.injEq,
          Prod.mk.injEq, and_true, Nat.mul_zero, Nat.zero_add, if_pos hone, if_pos htwo] at hps
        exact ⟨p.pinned, by rw [← hps.1, ← hps.2]; rfl⟩
      · simp only [List.mem_append, List.mem_singleton] at hi
        unfold pimIoctlMaxArgs
        dsimp only
        rcases hi with (rfl | hi) | rfl
        · omega
        · have := hrs i hi
          omega
        · omega

def obliging : Kernel ⟨.arm64, 12, true⟩ where
  accessOk := true
  accessible := 8
  listAllocated _ := true
  getUserPages _ := ⟨[], 14, by simp⟩
  physAllocated := true
  getFreePages _ := some 0x80000000
  stack _ := 0
  heap _ := 0
  after := [0]
  mem _ := 0

/-- The count `2 ^ 64 - 1` wraps to 0 and passes the check. -/
theorem wrapped_count_is_unsafe :
    ¬ ArgumentSafe (b := ⟨.arm64, 12, true⟩) (fun _ => 2 ^ 64 - 1)
      (pimIoctl false obliging (fun _ => 2 ^ 64 - 1) (.start ⟨none, 0⟩)) := by
  intro h
  have hread := h.reads 1 (by decide +kernel)
  have hcopied : (pimIoctl false obliging (fun _ => 2 ^ 64 - 1) (.start ⟨none, 0⟩)).1.copied = 1 := by
    decide +kernel
  omega

end SmcPim.Driver
