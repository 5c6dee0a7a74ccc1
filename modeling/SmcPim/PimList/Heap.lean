import SmcPim.Lib.Chain
import SmcPim.PimList.Model

/-! # The two lists of the vector register file -/

namespace SmcPim.PimList

open List Nat Chain

namespace Layout

variable {L : Layout} {m : Memory} {x y v k i j : Nat}

/-! ## Fields -/

def Node (L : Layout) (x : Nat) : Prop := x = L.head ∨ x = L.tail ∨ x ∈ L.blocks

lemma node_block (hx : x ∈ L.blocks) : L.Node x := .inr (.inr hx)

lemma node_head : L.Node L.head := .inl rfl

lemma node_tail : L.Node L.tail := .inr (.inl rfl)

lemma mem_blocks : x ∈ L.blocks ↔ ∃ i < L.numMemBlocks, x = L.vreg + i * L.blockSize := by
  unfold blocks block
  rw [mem_map]
  constructor
  · rintro ⟨i, hi, rfl⟩
    exact ⟨i, mem_range.mp hi, rfl⟩
  · rintro ⟨i, hi, rfl⟩
    exact ⟨i, mem_range.mpr hi, rfl⟩

lemma block_end (hi : i < L.numMemBlocks) : i * L.blockSize + L.blockSize ≤ L.vregSize := by
  rw [← succ_mul]
  exact (le_div_iff_mul_le (mul_pos (by decide) L.arch.bytes_pos)).mp hi

lemma Node.place (h : L.Node x) :
    (∃ c, (c = 2 ∨ c = 3) ∧ x = L.sreg + c * L.blockSize) ∨
      ∃ i, i * L.blockSize + L.blockSize ≤ L.vregSize ∧ x = L.vreg + i * L.blockSize := by
  rcases h with rfl | rfl | h
  · refine .inl ⟨2, .inl rfl, ?_⟩
    unfold head sregAddr blockSize
    omega
  · refine .inl ⟨3, .inr rfl, ?_⟩
    unfold tail sregAddr blockSize
    omega
  · obtain ⟨i, hi, rfl⟩ := mem_blocks.mp h
    exact .inr ⟨i, block_end hi, rfl⟩

lemma Node.pos (h : L.Node x) : 0 < x := by
  have h1 := L.vreg_pos
  have h2 := L.sreg_pos
  obtain ⟨c, -, rfl⟩ | ⟨i, -, rfl⟩ := h.place
  · omega
  · omega

lemma Node.lt (h : L.Node x) : x < 2 ^ L.arch.bits := by
  have h1 := L.vreg_end
  have h2 := L.sreg_end
  have hb := L.arch.bytes_pos
  obtain ⟨c, rfl | rfl, rfl⟩ | ⟨i, hi, rfl⟩ := h.place
  · unfold blockSize
    omega
  · unfold blockSize
    omega
  · unfold blockSize at hi ⊢
    omega

lemma Node.ne_word (hx : L.Node x) (hy : L.Node y) : x ≠ y + L.arch.bytes := by
  have hap := L.apart
  have hb := L.arch.bytes_cases
  have hx := hx.place
  have hy := hy.place
  unfold blockSize at hx hy
  generalize L.arch.bytes = b at *
  obtain ⟨c, hc, rfl⟩ | ⟨i, hi, rfl⟩ := hx <;> obtain ⟨d, hd, rfl⟩ | ⟨j, hj, rfl⟩ := hy <;>
    rcases hb with rfl | rfl <;> omega

lemma Node.ne_sreg (hx : L.Node x) (hj : j < 4) :
    x ≠ L.sregAddr j ∧ x + L.arch.bytes ≠ L.sregAddr j := by
  have hap := L.apart
  have hb := L.arch.bytes_cases
  have hx := hx.place
  unfold blockSize at hx
  unfold sregAddr
  generalize L.arch.bytes = b at *
  obtain ⟨c, hc, rfl⟩ | ⟨i, hi, rfl⟩ := hx <;> rcases hb with rfl | rfl <;> omega

lemma load_store : L.load (L.store m x v) y = if y = x then L.arch.ulong v else L.load m y := by
  unfold load store
  split
  · exact Arch.ulong_ulong _ _
  · rfl

lemma readSreg_lt : L.readSreg m i < 2 ^ L.arch.bits := Arch.ulong_lt _ _

lemma key_setKey : L.key (L.setKey m y v) x = if x = y then L.arch.ulong v else L.key m x :=
  load_store

lemma next_setNext :
    L.next (L.setNext m y v) x = if x = y then L.arch.ulong v else L.next m x := by
  unfold next setNext
  rw [load_store]
  simp only [add_right_cancel_iff]

lemma next_setKey (hx : L.Node x) (hy : L.Node y) : L.next (L.setKey m y v) x = L.next m x := by
  unfold next setKey
  rw [load_store, if_neg (hy.ne_word hx).symm]

lemma key_setNext (hx : L.Node x) (hy : L.Node y) : L.key (L.setNext m y v) x = L.key m x := by
  unfold key setNext
  rw [load_store, if_neg (hx.ne_word hy)]

lemma readSreg_writeSreg :
    L.readSreg (L.writeSreg m i v) j = if j = i then L.arch.ulong v else L.readSreg m j := by
  unfold readSreg writeSreg sregAddr
  rw [load_store]
  have hiff : L.sreg + j * L.arch.bytes = L.sreg + i * L.arch.bytes ↔ j = i := by
    rw [Nat.add_left_cancel_iff, Nat.mul_left_inj (Nat.ne_of_gt L.arch.bytes_pos)]
  simp only [hiff]

section
variable (hx : L.Node x) (hj : j < 4)
include hx hj

lemma key_writeSreg : L.key (L.writeSreg m j v) x = L.key m x := by
  unfold key writeSreg
  rw [load_store, if_neg (hx.ne_sreg hj).1]

lemma next_writeSreg : L.next (L.writeSreg m j v) x = L.next m x := by
  unfold next writeSreg
  rw [load_store, if_neg (hx.ne_sreg hj).2]

lemma readSreg_setKey : L.readSreg (L.setKey m x v) j = L.readSreg m j := by
  unfold readSreg setKey
  rw [load_store, if_neg (hx.ne_sreg hj).1.symm]

lemma readSreg_setNext : L.readSreg (L.setNext m x v) j = L.readSreg m j := by
  unfold readSreg setNext
  rw [load_store, if_neg (hx.ne_sreg hj).2.symm]

end

lemma blocks_nodup : L.blocks.Nodup := by
  apply List.Nodup.map _ nodup_range
  intro i j hij
  unfold block at hij
  exact eq_of_mul_eq_mul_right (mul_pos (by decide) L.arch.bytes_pos)
    (add_left_cancel hij)

lemma length_blocks : L.blocks.length = L.numMemBlocks := by
  unfold blocks
  rw [length_map, length_range]

lemma sentinel_not_mem : L.head ∉ L.blocks ∧ L.tail ∉ L.blocks ∧ L.head ≠ L.tail := by
  have hap := L.apart
  have hb := L.arch.bytes_pos
  refine ⟨?_, ?_, ?_⟩
  · intro h
    obtain ⟨i, hi, heq⟩ := mem_blocks.mp h
    have := block_end hi
    unfold head sregAddr at heq
    omega
  · intro h
    obtain ⟨i, hi, heq⟩ := mem_blocks.mp h
    have := block_end hi
    unfold tail sregAddr at heq
    omega
  · unfold head tail sregAddr
    omega

/-! ## Free blocks -/

lemma key_freeMemoryBlock (hy : L.Node y) :
    L.key (L.freeMemoryBlock m x) y = if y = x then L.readSreg m 3 else L.key m y := by
  unfold freeMemoryBlock
  rw [key_writeSreg hy (by decide)]
  change L.key (L.setKey m x (L.readSreg m 3)) y = _
  rw [key_setKey, Arch.ulong_of_lt readSreg_lt]

lemma next_freeMemoryBlock (hx : L.Node x) (hy : L.Node y) :
    L.next (L.freeMemoryBlock m x) y = L.next m y := by
  unfold freeMemoryBlock
  rw [next_writeSreg hy (by decide)]
  exact next_setKey hy hx

lemma readSreg_freeMemoryBlock (hx : L.Node x) : L.readSreg (L.freeMemoryBlock m x) 3 = x := by
  unfold freeMemoryBlock
  rw [readSreg_writeSreg, if_pos rfl, Arch.ulong_of_lt hx.lt]

lemma freeMemoryBlock_chain {l : List Nat} (h : Chain (L.key m) (L.readSreg m 3) l 0)
    (hx : L.Node x) (hl : ∀ y ∈ l, L.Node y) (hnew : x ∉ l) :
    Chain (L.key (L.freeMemoryBlock m x)) (L.readSreg (L.freeMemoryBlock m x) 3) (x :: l) 0 := by
  rw [readSreg_freeMemoryBlock hx]
  apply Chain.cons
  rw [key_freeMemoryBlock hx, if_pos rfl]
  apply h.congr
  intro y hy
  have hne : y ≠ x := fun heq => hnew (heq ▸ hy)
  rw [key_freeMemoryBlock (hl y hy), if_neg hne]

lemma walk_eq {xs : List Nat} {a c p fuel : Nat} (h : Chain (L.next m) a xs c)
    (hbelow : ∀ x ∈ xs, L.key m x < k) (hpos : ∀ x ∈ xs, 0 < x) (hc : k ≤ L.key m c) (hc0 : 0 < c)
    (hfuel : xs.length < fuel) : L.walk m k fuel p a = .ok ((p :: xs).getLast (by simp), c) := by
  induction xs generalizing a p fuel with
  | nil =>
    obtain rfl := nil_iff.mp h
    obtain ⟨fuel, rfl⟩ := exists_eq_succ_of_ne_zero (Nat.ne_of_gt hfuel)
    unfold walk
    rw [if_neg (by omega), if_neg (by omega)]
    rfl
  | cons x xs ih =>
    obtain ⟨rfl, h⟩ := cons_iff.mp h
    rw [forall_mem_cons] at hbelow hpos
    obtain ⟨fuel, rfl⟩ := exists_eq_succ_of_ne_zero (Nat.ne_of_gt (zero_lt_of_lt hfuel))
    unfold walk
    rw [if_neg (by omega), if_pos hbelow.1, ih h hbelow.2 hpos.2 (by simpa using hfuel)]
    rfl

lemma seek_eq_walk {a p fuel : Nat} : L.seek m k fuel a = (L.walk m k fuel p a).map Prod.snd := by
  induction fuel generalizing a p with
  | zero => rfl
  | succ fuel ih =>
    unfold seek walk
    split_ifs
    · rfl
    · exact ih
    · rfl

lemma seek_eq {xs : List Nat} {a c fuel : Nat} (h : Chain (L.next m) a xs c)
    (hbelow : ∀ x ∈ xs, L.key m x < k) (hpos : ∀ x ∈ xs, 0 < x) (hc : k ≤ L.key m c)
    (hc0 : 0 < c) (hfuel : xs.length < fuel) : L.seek m k fuel a = .ok c := by
  rw [seek_eq_walk, walk_eq (p := a) h hbelow hpos hc hc0 hfuel]
  rfl

end Layout

/-! ## The invariant -/

/-- The nodes of the list between the sentinels, in order, and the free blocks, in order. -/
structure Heap (L : Layout) (m : Memory) (live free : List Nat) : Prop where
  list : Chain (L.next m) L.head (L.head :: live) L.tail
  freeList : Chain (L.key m) (L.readSreg m 3) free 0
  blocks : (live ++ free).Perm L.blocks
  sorted : Ascending (L.key m) live
  below : ∀ x ∈ live, L.key m x < uint32Max
  headKey : L.key m L.head = 0
  tailKey : L.key m L.tail = uint32Max
  tailNext : L.next m L.tail = 0

def keys (L : Layout) (m : Memory) (live : List Nat) : Finset Nat := (live.map (L.key m)).toFinset

namespace Heap

open Layout

variable {L : Layout} {m m' : Memory} {live free xs ys : List Nat} {k fuel x : Nat}

section
variable (h : Heap L m live free)
include h

lemma node_live (hx : x ∈ live) : L.Node x :=
  node_block (h.blocks.mem_iff.mp (mem_append_left _ hx))

lemma node_free (hx : x ∈ free) : L.Node x :=
  node_block (h.blocks.mem_iff.mp (mem_append_right _ hx))

lemma nodup : (live ++ free).Nodup := h.blocks.nodup_iff.mpr blocks_nodup

lemma length_eq : live.length + free.length = L.numMemBlocks := by
  rw [← length_blocks, ← h.blocks.length_eq, length_append]

lemma card_keys : (keys L m live).card = live.length := by
  unfold keys
  rw [toFinset_card_of_nodup h.sorted.nodup_keys, length_map]

end

lemma mem_keys : k ∈ keys L m live ↔ k ∈ live.map (L.key m) := mem_toFinset

structure Same (L : Layout) (m m' : Memory) : Prop where
  key : ∀ x, L.Node x → L.key m' x = L.key m x
  next : ∀ x, L.Node x → L.next m' x = L.next m x
  free : L.readSreg m' 3 = L.readSreg m 3

lemma Same.trans {m'' : Memory} (h : Same L m m') (h' : Same L m' m'') : Same L m m'' :=
  ⟨fun x hx => (h'.key x hx).trans (h.key x hx), fun x hx => (h'.next x hx).trans (h.next x hx),
    h'.free.trans h.free⟩

lemma same_writeSreg {j v : Nat} (hj : j < 3) : Same L m (L.writeSreg m j v) where
  key := fun _ hx => key_writeSreg hx (by omega)
  next := fun _ hx => next_writeSreg hx (by omega)
  free := by rw [readSreg_writeSreg, if_neg (by omega)]

lemma congr (h : Heap L m live free) (hs : Same L m m') : Heap L m' live free where
  list := by
    apply h.list.congr
    intro x hx
    rcases mem_cons.mp hx with rfl | hx
    · exact hs.next _ node_head
    · exact hs.next x (h.node_live hx)
  freeList := by
    rw [hs.free]
    exact h.freeList.congr fun x hx => hs.key x (h.node_free hx)
  blocks := h.blocks
  sorted := h.sorted.congr fun x hx => hs.key x (h.node_live hx)
  below := fun x hx => by
    rw [hs.key x (h.node_live hx)]
    exact h.below x hx
  headKey := by rw [hs.key _ node_head, h.headKey]
  tailKey := by rw [hs.key _ node_tail, h.tailKey]
  tailNext := by rw [hs.next _ node_tail, h.tailNext]

lemma keys_congr (h : Heap L m live free) (hs : Same L m m') : keys L m' live = keys L m live := by
  unfold keys
  rw [map_congr_left fun x hx => hs.key x (h.node_live hx)]

lemma freeLoop_chain {n : Nat} (h0 : L.readSreg m 3 = 0) (hn : n ≤ L.numMemBlocks) :
    Chain (L.key ((range n).foldl (fun m i => L.freeMemoryBlock m (L.block i)) m))
      (L.readSreg ((range n).foldl (fun m i => L.freeMemoryBlock m (L.block i)) m) 3)
      ((range n).map L.block).reverse 0 := by
  induction n with
  | zero => simpa using h0
  | succ n ih =>
    have hblock : ∀ i < L.numMemBlocks, L.Node (L.block i) := fun i hi =>
      node_block (mem_map_of_mem (mem_range.mpr hi))
    rw [range_succ, foldl_append, map_append, reverse_append]
    apply freeMemoryBlock_chain (ih (by omega)) (hblock n (by omega))
    · intro y hy
      obtain ⟨i, hi, rfl⟩ := mem_map.mp (mem_reverse.mp hy)
      exact hblock i (by have := mem_range.mp hi; omega)
    · intro hmem
      obtain ⟨i, hi, heq⟩ := mem_map.mp (mem_reverse.mp hmem)
      have hb : 0 < L.blockSize := mul_pos (by decide) L.arch.bytes_pos
      unfold block at heq
      have := eq_of_mul_eq_mul_right hb (add_left_cancel heq)
      have := mem_range.mp hi
      omega

lemma listInit : Heap L (L.listInit m) [] L.blocks.reverse := by
  obtain ⟨hhead, htail, hne⟩ := L.sentinel_not_mem
  have hbits : uint32Max < 2 ^ L.arch.bits := by
    unfold uint32Max
    cases L.arch <;> decide
  have hloop := freeLoop_chain (L := L) (m := L.writeSreg m 3 0) (n := L.numMemBlocks)
    (by rw [readSreg_writeSreg, if_pos rfl]; rfl) (le_refl _)
  unfold Layout.listInit
  dsimp only
  generalize (range L.numMemBlocks).foldl (fun m i => L.freeMemoryBlock m (L.block i))
    (L.writeSreg m 3 0) = m0 at hloop ⊢
  refine ⟨?_, ?_, ?_, .nil, by simp, ?_, ?_, ?_⟩
  · refine .cons (nil_iff.mpr ?_)
    rw [next_setNext, if_neg hne, next_setKey node_head node_tail, next_setNext, if_pos rfl,
      Arch.ulong_of_lt node_tail.lt]
  · rw [readSreg_setNext node_tail (by decide), readSreg_setKey node_tail (by decide),
      readSreg_setNext node_head (by decide), readSreg_setKey node_head (by decide)]
    apply hloop.congr
    intro x hx
    have hx : x ∈ L.blocks := mem_reverse.mp hx
    have hnode := node_block hx
    have hxt : x ≠ L.tail := fun heq => htail (heq ▸ hx)
    have hxh : x ≠ L.head := fun heq => hhead (heq ▸ hx)
    rw [key_setNext hnode node_tail, key_setKey, if_neg hxt, key_setNext hnode node_head,
      key_setKey, if_neg hxh]
  · exact L.blocks.reverse_perm
  · rw [key_setNext node_head node_tail, key_setKey, if_neg hne, key_setNext node_head node_head,
      key_setKey, if_pos rfl]
    rfl
  · rw [key_setNext node_tail node_tail, key_setKey, if_pos rfl, Arch.ulong_of_lt hbits]
  · rw [next_setNext, if_pos rfl]
    rfl

/-! ## Operations -/

structure Search (L : Layout) (m : Memory) (live : List Nat) (k p c : Nat) (us xs ys : List Nat) :
    Prop where
  split : live = xs ++ ys
  parted : Parted (L.key m) k xs ys
  pred : L.head :: xs = us ++ [p]
  path : Chain (L.next m) (L.next m L.head) xs c
  curr : ys = [] ∧ c = L.tail ∨ ∃ zs, ys = c :: zs

lemma search (h : Heap L m live free) (k : Nat) :
    ∃ p c us xs ys, Search L m live k p c us xs ys := by
  obtain ⟨xs, ys, hsplit, hparted⟩ := h.sorted.parted k
  have hlist := (cons_iff.mp h.list).2
  rw [hsplit] at hlist
  obtain ⟨c, hxs, hys⟩ := append_iff.mp hlist
  have hpred := dropLast_append_getLast (cons_ne_nil L.head xs)
  refine ⟨_, c, _, xs, ys, hsplit, hparted, hpred.symm, hxs, ?_⟩
  cases ys with
  | nil => exact .inl ⟨rfl, nil_iff.mp hys⟩
  | cons y zs => exact .inr ⟨zs, by rw [(cons_iff.mp hys).1]⟩

variable {p c : Nat} {us : List Nat}

section
variable (hs : Search L m live k p c us xs ys)
include hs

section
variable (h : Heap L m live free)
include h

lemma Search.node_curr : L.Node c := by
  rcases hs.curr with ⟨-, rfl⟩ | ⟨zs, rfl⟩
  · exact node_tail
  · exact h.node_live (by rw [hs.split]; simp)

lemma Search.le_key (hk : k ≤ uint32Max) : k ≤ L.key m c := by
  rcases hs.curr with ⟨-, rfl⟩ | ⟨zs, rfl⟩
  · rw [h.tailKey]
    exact hk
  · exact hs.parted.above c mem_cons_self

lemma Search.key_eq_iff (hk : k < uint32Max) : L.key m c = k ↔ k ∈ keys L m live := by
  have hsorted := h.sorted
  rw [mem_keys, hs.split, hs.parted.mem_iff (hs.split ▸ hsorted)]
  rcases hs.curr with ⟨rfl, rfl⟩ | ⟨zs, rfl⟩
  · rw [h.tailKey]
    simp [Nat.ne_of_gt hk]
  · simp

lemma Search.pos : ∀ x ∈ xs, 0 < x := fun x hx =>
  (h.node_live (by rw [hs.split]; exact mem_append_left _ hx)).pos

end

lemma Search.length_le : xs.length ≤ live.length := by
  rw [hs.split, length_append]
  omega

lemma Search.walk_eq (h : Heap L m live free) (hk : k ≤ uint32Max) (hfuel : live.length < fuel) :
    L.walk m k fuel L.head (L.next m L.head) = .ok (p, c) := by
  have hlen := hs.length_le
  rw [Layout.walk_eq hs.path hs.parted.below (hs.pos h) (hs.le_key h hk) (hs.node_curr h).pos
    (by omega)]
  simp [hs.pred]

lemma Search.whole : us ++ p :: ys = L.head :: live := by
  rw [hs.split, ← cons_append, hs.pred, append_assoc, singleton_append]

lemma Search.list (h : Heap L m live free) : Chain (L.next m) L.head (us ++ p :: ys) L.tail := by
  rw [hs.whole]
  exact h.list

end

section
variable (h : Heap L m live free)
include h

lemma nodup_whole : (L.head :: live).Nodup := by
  rw [nodup_cons]
  refine ⟨?_, (nodup_append.mp h.nodup).1⟩
  exact fun hmem => L.sentinel_not_mem.1 (h.blocks.mem_iff.mp (mem_append_left _ hmem))

lemma node_whole (hx : x ∈ L.head :: live) : L.Node x := by
  rcases mem_cons.mp hx with rfl | hx
  · exact node_head
  · exact h.node_live hx

lemma tail_not_mem : L.tail ∉ L.head :: live := by
  intro hmem
  rcases mem_cons.mp hmem with heq | hmem
  · exact L.sentinel_not_mem.2.2 heq.symm
  · exact L.sentinel_not_mem.2.1 (h.blocks.mem_iff.mp (mem_append_left _ hmem))

lemma free_not_mem (hx : x ∈ free) : x ∉ L.head :: live := by
  intro hmem
  rcases mem_cons.mp hmem with rfl | hmem
  · exact L.sentinel_not_mem.1 (h.blocks.mem_iff.mp (mem_append_right _ hx))
  · exact (nodup_append.mp h.nodup).2.2 x hmem x hx rfl

lemma free_ne_tail (hx : x ∈ free) : L.tail ≠ x := by
  rintro rfl
  exact L.sentinel_not_mem.2.1 (h.blocks.mem_iff.mp (mem_append_right _ hx))

end

lemma Search.nodup (hs : Search L m live k p c us xs ys) (h : Heap L m live free) :
    (us ++ p :: ys).Nodup := by
  rw [hs.whole]
  exact h.nodup_whole

end Heap

end SmcPim.PimList
