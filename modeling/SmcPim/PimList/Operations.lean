import SmcPim.PimList.Heap

/-! # The operations of the list -/

namespace SmcPim.PimList

open Layout List

variable {L : Layout} {m m' : Memory} {live free xs ys us : List Nat} {k fuel x y f p c v : Nat}

lemma uint32Max_lt (L : Layout) : uint32Max < 2 ^ L.arch.bits := by
  unfold uint32Max
  cases L.arch <;> decide

/-! ## A new node -/

def link (L : Layout) (m : Memory) (f k c p : Nat) : Memory :=
  L.setNext (L.setNext (L.setKey (L.writeSreg m 3 (L.freeNext m f)) f k) f c) p f

lemma key_link (hf : L.Node f) (hp : L.Node p) (hy : L.Node y) (hk : k < 2 ^ L.arch.bits) :
    L.key (link L m f k c p) y = if y = f then k else L.key m y := by
  unfold link
  rw [key_setNext hy hp, key_setNext hy hf, key_setKey, key_writeSreg hy (by decide),
    Arch.ulong_of_lt hk]

lemma next_link (hf : L.Node f) (hc : L.Node c) (hy : L.Node y) :
    L.next (link L m f k c p) y = if y = p then f else if y = f then c else L.next m y := by
  unfold link
  rw [next_setNext, next_setNext, next_setKey hy hf, next_writeSreg hy (by decide),
    Arch.ulong_of_lt hf.lt, Arch.ulong_of_lt hc.lt]

lemma readSreg_link (hf : L.Node f) (hp : L.Node p) :
    L.readSreg (link L m f k c p) 3 = L.key m f := by
  unfold link
  rw [readSreg_setNext hp (by decide), readSreg_setNext hf (by decide),
    readSreg_setKey hf (by decide), readSreg_writeSreg, if_pos rfl]
  exact Arch.ulong_ulong _ _

namespace Heap

lemma link {fs : List Nat} (h : Heap L m live (f :: fs)) (hs : Search L m live k p c us xs ys)
    (hk : k < uint32Max) (hnot : k ∉ keys L m live) :
    Heap L (link L m f k c p) (xs ++ f :: ys) fs ∧
      keys L (PimList.link L m f k c p) (xs ++ f :: ys) = insert k (keys L m live) := by
  have hlist := hs.list h
  have hf : L.Node f := h.node_free mem_cons_self
  have hfwhole : f ∉ L.head :: live := h.free_not_mem mem_cons_self
  have hpwhole : p ∈ L.head :: live := by simp [← hs.whole]
  have hp : L.Node p := h.node_whole hpwhole
  have hc := hs.node_curr h
  have hlt := Nat.lt_trans hk (uint32Max_lt L)
  have hkeyf : L.key (PimList.link L m f k c p) f = k := by
    rw [key_link hf hp hf hlt, if_pos rfl]
  have hkey : ∀ y ∈ L.head :: live, L.key (PimList.link L m f k c p) y = L.key m y := by
    intro y hy
    have hne : y ≠ f := fun heq => hfwhole (heq ▸ hy)
    rw [key_link hf hp (h.node_whole hy) hlt, if_neg hne]
  have hnext : ∀ y ∈ L.head :: live, y ≠ p →
      L.next (PimList.link L m f k c p) y = L.next m y := by
    intro y hy hne
    have hyf : y ≠ f := fun heq => hfwhole (heq ▸ hy)
    rw [next_link hf hc (h.node_whole hy), if_neg hne, if_neg hyf]
  have hxys : ∀ y ∈ xs ++ ys, L.key (PimList.link L m f k c p) y = L.key m y := fun y hy =>
    hkey y (mem_cons_of_mem _ (hs.split ▸ hy))
  have hmap := map_congr_left hxys
  refine ⟨⟨?_, ?_, ?_, ?_, ?_, ?_, ?_, ?_⟩, ?_⟩
  · have hpf : f ≠ p := fun heq => hfwhole (heq ▸ hpwhole)
    rw [← cons_append, hs.pred, append_assoc, singleton_append]
    apply hlist.insert (hs.nodup h)
    · rw [next_link hf hc hp, if_pos rfl]
    · rw [next_link hf hc hf, if_neg hpf, if_pos rfl, hlist.next_eq]
      rcases hs.curr with ⟨rfl, rfl⟩ | ⟨zs, rfl⟩
      · rfl
      · rfl
    · exact fun y hy => hnext y (hs.whole ▸ hy)
  · rw [readSreg_link hf hp]
    apply (Chain.cons_iff.mp h.freeList).2.congr
    intro y hy
    have hne : y ≠ f := fun heq =>
      (nodup_cons.mp (nodup_append.mp h.nodup).2.1).1 (heq ▸ hy)
    rw [key_link hf hp (h.node_free (mem_cons_of_mem _ hy)) hlt, if_neg hne]
  · refine List.Perm.trans ?_ h.blocks
    rw [hs.split, append_assoc, append_assoc, cons_append]
    exact perm_middle.symm.append_left xs
  · have hparted : Parted (L.key (PimList.link L m f k c p)) k xs ys := by
      refine ⟨fun y hy => ?_, fun y hy => ?_⟩
      · rw [hxys y (mem_append_left _ hy)]
        exact hs.parted.below y hy
      · rw [hxys y (mem_append_right _ hy)]
        exact hs.parted.above y hy
    apply hparted.insert ((hs.split ▸ h.sorted : Ascending (L.key m) (xs ++ ys)).congr hxys) hkeyf
    rw [hmap, ← hs.split]
    exact fun hmem => hnot (mem_keys.mpr hmem)
  · intro y hy
    have hcase : y = f ∨ y ∈ live := by
      rw [hs.split, mem_append]
      rw [mem_append, mem_cons] at hy
      tauto
    rcases hcase with rfl | hy
    · rw [hkeyf]
      exact hk
    · rw [hkey y (mem_cons_of_mem _ hy)]
      exact h.below y hy
  · rw [hkey _ mem_cons_self, h.headKey]
  · rw [key_link hf hp node_tail hlt, if_neg (h.free_ne_tail mem_cons_self), h.tailKey]
  · have hpt : L.tail ≠ p := fun heq => h.tail_not_mem (heq ▸ hpwhole)
    rw [next_link hf hc node_tail, if_neg hpt, if_neg (h.free_ne_tail mem_cons_self),
      h.tailNext]
  · rw [keys, keySet_insert hxys, hkeyf, hs.split]
    rfl

end Heap

/-! ## A node that goes -/

def unlink (L : Layout) (m : Memory) (c p : Nat) : Memory :=
  L.freeMemoryBlock (L.setNext m p (L.next m c)) c

lemma key_unlink (hp : L.Node p) (hy : L.Node y) :
    L.key (unlink L m c p) y = if y = c then L.readSreg m 3 else L.key m y := by
  unfold unlink
  rw [key_freeMemoryBlock hy, readSreg_setNext hp (by decide), key_setNext hy hp]

lemma next_unlink (hc : L.Node c) (hy : L.Node y) :
    L.next (unlink L m c p) y = if y = p then L.next m c else L.next m y := by
  unfold unlink
  rw [next_freeMemoryBlock hc hy, next_setNext]
  congr 1
  exact Arch.ulong_ulong _ _

lemma Heap.unlink {zs : List Nat} (h : Heap L m live free)
    (hs : Search L m live k p c us xs (c :: zs)) (hkc : L.key m c = k) :
    Heap L (unlink L m c p) (xs ++ zs) (c :: free) ∧
      keys L (PimList.unlink L m c p) (xs ++ zs) = (keys L m live).erase k := by
  have hlist := hs.list h
  have hpwhole : p ∈ L.head :: live := by simp [← hs.whole]
  have hp : L.Node p := h.node_whole hpwhole
  have hclive : c ∈ live := by simp [hs.split]
  have hc : L.Node c := h.node_live hclive
  have hlive : (xs ++ c :: zs).Nodup := hs.split ▸ (nodup_append.mp h.nodup).1
  have hcnot : c ∉ xs ++ zs := (nodup_middle.mp hlive).notMem
  have hsub : ∀ y ∈ xs ++ zs, y ∈ live := by
    intro y hy
    rw [hs.split]
    simp only [mem_append, mem_cons] at hy ⊢
    tauto
  have hkey : ∀ y ∈ xs ++ zs, L.key (PimList.unlink L m c p) y = L.key m y := by
    intro y hy
    have hne : y ≠ c := fun heq => hcnot (heq ▸ hy)
    rw [key_unlink hp (h.node_live (hsub y hy)), if_neg hne]
  have hsorted : Ascending (L.key m) (xs ++ zs) := h.sorted.sublist (by
    rw [hs.split]
    exact (sublist_cons_self c zs).append_left xs)
  have hnext : ∀ y ∈ L.head :: live, y ≠ p →
      L.next (PimList.unlink L m c p) y = L.next m y := by
    intro y hy hne
    rw [next_unlink hc (h.node_whole hy), if_neg hne]
  refine ⟨⟨?_, ?_, ?_, ?_, ?_, ?_, ?_, ?_⟩, ?_⟩
  · rw [← cons_append, hs.pred, append_assoc, singleton_append]
    apply hlist.remove (hs.nodup h)
    · rw [next_unlink hc hp, if_pos rfl]
    · exact fun y hy => hnext y (hs.whole ▸ hy)
  · have hfree : Chain (L.key (L.setNext m p (L.next m c)))
        (L.readSreg (L.setNext m p (L.next m c)) 3) free 0 := by
      rw [readSreg_setNext hp (by decide)]
      exact h.freeList.congr fun y hy => key_setNext (h.node_free hy) hp
    apply freeMemoryBlock_chain hfree hc (fun y hy => h.node_free hy)
    exact fun hmem => h.free_not_mem hmem (mem_cons_of_mem _ hclive)
  · refine List.Perm.trans ?_ h.blocks
    rw [hs.split, append_assoc, append_assoc, cons_append]
    exact perm_middle.append_left xs
  · exact hsorted.congr hkey
  · intro y hy
    rw [hkey y hy]
    exact h.below y (hsub y hy)
  · have hch : L.head ≠ c := fun heq => (nodup_cons.mp h.nodup_whole).1 (heq ▸ hclive)
    rw [key_unlink hp node_head, if_neg hch, h.headKey]
  · have hct : L.tail ≠ c := fun heq => h.tail_not_mem (mem_cons_of_mem _ (heq ▸ hclive))
    rw [key_unlink hp node_tail, if_neg hct, h.tailKey]
  · have hpt : L.tail ≠ p := fun heq => h.tail_not_mem (heq ▸ hpwhole)
    rw [next_unlink hc node_tail, if_neg hpt, h.tailNext]
  · have hnodup : ((xs ++ c :: zs).map (L.key m)).Nodup := hs.split ▸ h.sorted.nodup_keys
    rw [keys, keySet_erase hnodup hkey, hkc, hs.split]
    rfl

namespace Heap

section
variable (h : Heap L m live free) (hk : k < uint32Max)
include h hk

lemma listAdd (hfuel : live.length < fuel) :
    (k ∈ keys L m live ∧ L.listAdd m fuel k = .ok (m, 0)) ∨
      (k ∉ keys L m live ∧ free = [] ∧ L.listAdd m fuel k = .ok (m, 0)) ∨
      (k ∉ keys L m live ∧ ∃ f fs m' live', free = f :: fs ∧ L.listAdd m fuel k = .ok (m', 1) ∧
        Heap L m' live' fs ∧ keys L m' live' = insert k (keys L m live)) := by
  obtain ⟨p, c, us, xs, ys, hs⟩ := h.search k
  have hiff := hs.key_eq_iff h hk
  unfold Layout.listAdd
  rw [hs.walk_eq h (Nat.le_of_lt hk) hfuel, ok_bind]
  dsimp only
  by_cases hin : L.key m c = k
  · rw [if_pos hin]
    exact .inl ⟨hiff.mp hin, rfl⟩
  · have hnot : k ∉ keys L m live := fun hmem => hin (hiff.mpr hmem)
    rw [if_neg hin]
    unfold allocMemoryBlock
    cases free with
    | nil =>
      have hzero : L.readSreg m 3 = 0 := Chain.nil_iff.mp h.freeList
      refine .inr (.inl ⟨hnot, rfl, ?_⟩)
      simp [hzero]
    | cons f fs =>
      have hhead : L.readSreg m 3 = f := (Chain.cons_iff.mp h.freeList).1
      have hpos : f ≠ 0 := Nat.ne_of_gt (h.node_free mem_cons_self).pos
      obtain ⟨hheap, hkeys⟩ := h.link hs hk hnot
      refine .inr (.inr ⟨hnot, f, fs, _, _, rfl, ?_, hheap, hkeys⟩)
      simp only [hhead, ne_eq, hpos, not_false_eq_true, if_true, if_false]
      rfl

lemma listRemove (hfuel : live.length < fuel) :
    (k ∉ keys L m live ∧ L.listRemove m fuel k = .ok (m, 0)) ∨
      (k ∈ keys L m live ∧ ∃ c m' live', L.listRemove m fuel k = .ok (m', 1) ∧
        Heap L m' live' (c :: free) ∧ keys L m' live' = (keys L m live).erase k) := by
  obtain ⟨p, c, us, xs, ys, hs⟩ := h.search k
  have hiff := hs.key_eq_iff h hk
  unfold Layout.listRemove
  rw [hs.walk_eq h (Nat.le_of_lt hk) hfuel, ok_bind]
  dsimp only
  by_cases hin : L.key m c = k
  · rw [if_neg (not_not.mpr hin)]
    rcases hs.curr with ⟨-, rfl⟩ | ⟨zs, rfl⟩
    · rw [h.tailKey] at hin
      exact absurd hin (Nat.ne_of_gt hk)
    · obtain ⟨hheap, hkeys⟩ := h.unlink hs hin
      exact .inr ⟨hiff.mp hin, c, _, _, rfl, hheap, hkeys⟩
  · rw [if_pos hin]
    exact .inl ⟨fun hmem => hin (hiff.mpr hmem), rfl⟩

lemma listContains (hfuel : live.length + 1 < fuel) :
    L.listContains m fuel k = .ok (if k = 0 ∨ k ∈ keys L m live then 1 else 0) := by
  unfold Layout.listContains
  rcases Nat.eq_zero_or_pos k with rfl | hpos
  · rw [Layout.seek_eq (.nil L.head) (by simp) (by simp) (Nat.zero_le _) node_head.pos (by simp; omega),
      ok_bind, h.headKey]
    simp
  · obtain ⟨p, c, us, xs, ys, hs⟩ := h.search k
    have hbelow : ∀ x ∈ L.head :: xs, L.key m x < k := by
      rw [forall_mem_cons, h.headKey]
      exact ⟨hpos, hs.parted.below⟩
    have hxpos : ∀ x ∈ L.head :: xs, 0 < x := by
      rw [forall_mem_cons]
      exact ⟨node_head.pos, hs.pos h⟩
    have hlen := hs.length_le
    rw [Layout.seek_eq (.cons hs.path) hbelow hxpos (hs.le_key h (Nat.le_of_lt hk))
      (hs.node_curr h).pos (by simp; omega), ok_bind]
    simp only [hs.key_eq_iff h hk, Nat.ne_of_gt hpos, false_or]
    split <;> rfl

end

end Heap

end SmcPim.PimList
