import SmcPim.Tree.Keys

/-! # Searches in the tree -/

namespace SmcPim.TreeSearch

open Stops List Nat Params
open Host (Stop)

variable {p : Params} {mem mem₀ : ℕ → ℕ} {fuel : ℕ}

/-! ## One search -/

lemma descend_lookup {σ : Type} {a : Arch} {visit : ℕ → σ → (ℕ × ℕ × ℕ) × σ} {I : σ → Prop} {goal : ℕ}
    (hvisit : ∀ curr s, I s →
      (visit curr s).1 = (mem curr, mem (curr + p.word), mem (curr + 2 * p.word)) ∧ I (visit curr s).2)
    {t : BinaryTree (ℕ × ℕ)} {ptr checksum : ℕ} {s : σ} (htree : IsTree p mem ptr t) (hfuel : t.height < fuel) (hs : I s)
    (hchecksum : checksum < 2 ^ a.bits) :
    ∃ s', descend a visit goal fuel ptr checksum s =
      .ok ((lookup (t.map Prod.snd) goal).1, a.ulong (checksum + (lookup (t.map Prod.snd) goal).2), s') ∧ I s' := by
  induction t generalizing ptr fuel checksum s with
  | nil =>
    obtain ⟨fuel, rfl⟩ : ∃ f, fuel = f + 1 := ⟨fuel - 1, by omega⟩
    refine ⟨s, ?_, hs⟩
    have hnull : ptr = 0 := htree
    rw [descend, if_pos hnull, BinaryTree.map, lookup, add_zero, Arch.ulong_of_lt hchecksum]
  | node x left right ihl ihr =>
    obtain ⟨fuel, rfl⟩ : ∃ f, fuel = f + 1 := ⟨fuel - 1, by omega⟩
    obtain ⟨addr, key⟩ := x
    obtain ⟨hne, rfl, hkey, hleft, hright⟩ := htree
    rw [BinaryTree.height, add_lt_add_iff_right, max_lt_iff] at hfuel
    obtain ⟨hread, hI⟩ := hvisit ptr s hs
    have hstep : a.ulong (checksum + 1) < 2 ^ a.bits := Arch.ulong_lt a _
    have hsum : ∀ v, a.ulong (a.ulong (checksum + 1) + v) = a.ulong (checksum + (v + 1)) := by
      intro v
      rw [Arch.ulong_add_left, add_assoc, add_comm 1 v]
    rw [descend, if_neg hne]
    simp only [hread, hkey, BinaryTree.map, lookup, gt_iff_lt]
    split
    · exact ⟨_, rfl, hI⟩
    · split
      · have hfound := ihl hleft hfuel.1 hI hstep
        rw [hsum] at hfound
        exact hfound
      · have hfound := ihr hright hfuel.2 hI hstep
        rw [hsum] at hfound
        exact hfound

lemma loadNode_reads (curr : ℕ) (mem' : ℕ → ℕ) (h : mem' = mem) :
    (loadNode p curr mem').1 = (mem curr, mem (curr + p.word), mem (curr + 2 * p.word)) ∧ (loadNode p curr mem').2 = mem := by
  subst h
  exact ⟨rfl, rfl⟩

structure Calm (mem : ℕ → ℕ) (m : Machine World DmaRes ℕ) : Prop where
  mem : m.world.mem = mem
  pending : m.pending = []
  mishaps : m.mishaps = []

lemma fetchNode_reads (ends : ℕ → List ℕ) (curr : ℕ) (m : Machine World DmaRes ℕ) (h : Calm mem m) :
    (fetchNode p ends curr m).1 = (mem curr, mem (curr + p.word), mem (curr + 2 * p.word)) ∧
      Calm mem (fetchNode p ends curr m).2 := by
  let E := engine p ends
  let I : World → Prop := fun w => w.mem = mem
  let post : ℕ → World → Prop := fun addr w =>
    (w.vreg 0, w.vreg 1, w.vreg 2) = (mem addr, mem (addr + p.word), mem (addr + 2 * p.word))
  have hstable : Engine.Stable E post I [(DmaRes.res0, curr)] := by
    refine ⟨fun x _ w hw => hw, fun x _ w hw => ?_, fun x hx y hy hne => ?_⟩
    · have hmem : w.mem = mem := hw
      simp [post, E, engine, readNode, hmem]
    · rw [mem_singleton.mp hx, mem_singleton.mp hy] at hne
      exact absurd rfl hne
  have hnone : Engine.Stable E post I ([] : List (DmaRes × ℕ)) := hstable.mono (by simp)
  have hstart : Engine.Awaits post I [] m := Engine.Awaits.start h.mem h.pending
  have hreq := hstart.request hnone (r := DmaRes.res0) (d := curr) (by simp)
  have hwait : Engine.Awaits post (fun w => I w ∧ post curr w) [] (E.wait [.res0] (E.request .res0 curr m)) :=
    (hreq.wait hstable [.res0]).mono fun w hw => ⟨hw.1, hw.2 (.res0, curr) (by simp) (by simp)⟩
  have hleft : Engine.Stable E post (fun w => I w ∧ post curr w) ([] : List (DmaRes × ℕ)) :=
    ⟨by simp, by simp, by simp⟩
  have hact : Engine.Awaits post (fun w => I w ∧ post curr w) []
      (E.act (fun _ => true) id (E.wait [.res0] (E.request .res0 curr m))) :=
    hwait.act hleft (fun _ hw => hw) (by simp)
  refine ⟨hact.inv.2, hact.inv.1, ?_, ?_⟩
  · exact eq_nil_iff_forall_not_mem.mpr fun x hx => not_mem_nil (hact.known x hx)
  · have hapart : Engine.Apart E [(DmaRes.res0, curr)] := ⟨by simp, by simp⟩
    refine (hwait.act_calm hleft id (by simp)).trans ?_
    rw [Engine.wait_mishaps, hstart.request_calm hnone (by simp) hapart]
    exact h.mishaps

/-! ## The tree and the search list -/

lemma numNodes_eq (hfits : p.Fits) : p.numNodes = 2 ^ p.height - 1 := by
  have hlt := Nat.pow_lt_pow_right one_lt_two hfits.height_lt
  have hpos := Nat.two_pow_pos p.height
  rw [numNodes, pow2_eq hfits.height_lt, Arch.sub_of_le hpos hlt]

lemma field_lt {k f : ℕ} (hk : k < 2 ^ p.height - 1) (hf : f < 3) : p.field k f < p.place
    (2 ^ p.height - 1) := by
  have hw := word_pos p
  have hnext : p.place (k + 1) ≤ p.place (2 ^ p.height - 1) := by
    unfold place
    exact Nat.add_le_add_left (Nat.mul_le_mul_right _ hk) _
  have hfield : p.field k f < p.place (k + 1) := by
    rw [← place_add, one_mul, field, nodeSize]
    exact Nat.add_lt_add_left (Nat.mul_lt_mul_of_pos_right hf hw) _
  exact hfield.trans_le hnext

lemma mem_places {k : ℕ} : k ∈ places p.height 0 ↔ k < 2 ^ p.height - 1 := by
  rw [(places_zero_perm p.height).mem_iff, mem_range]

structure Ready (p : Params) (rand : ℕ → ℕ) (s : App) : Prop where
  tree : IsTree p s.mem s.tree (stored p p.height 0 0)
  searchList : s.searchList = p.place (2 ^ p.height - 1)
  goals : ∀ i < p.numOperations, goal p s i = rand i % (2 ^ p.height - 1)
  blocks : s.region.blocks =
    (List.range p.height).map (fun l => ⟨p.place (2 ^ l - 1), 2 ^ l * p.nodeSize⟩) ++
      [⟨p.place (2 ^ p.height - 1), p.numOperations * p.word⟩]

section
variable (hheight : 1 ≤ p.height) (hfits : p.Fits)
include hheight hfits

lemma initTree_root {s : App × ℕ} (hrows : Rows p mem₀ p.height s)
    (hzero : ∀ k < 2 ^ p.height - 1, ∀ f < 3, mem₀ (p.field k f) = 0) (hfuel : p.height < fuel) :
    ∃ mem, initTree p fuel s.1.mem s.1.tree 0 p.numNodes = .ok mem ∧
      IsTree p mem s.1.tree (stored p p.height 0 0) := by
  have hroot : s.1.tree = rootPtr p p.height 0 := by
    rw [hrows.tree hheight, rootPtr, if_neg (by omega), place, zero_mul, add_zero]
  have hwired : Wired p s.1.mem p.height 0 :=
    hrows.linked.wired hzero (l := 0) (Nat.zero_add _) (zero_le _) (by decide)
  have hnodup : (places p.height 0).Nodup := (places_zero_perm p.height).nodup_iff.mpr nodup_range
  have hroom : 0 + 2 ^ p.height ≤ 2 ^ p.host.arch.bits := by
    rw [Nat.zero_add]
    exact (Nat.pow_lt_pow_right one_lt_two hfits.height_lt).le
  obtain ⟨mem, heq, hkeyed⟩ := initTree_keyed hnodup hwired hroom hfuel
  rw [hroot, numNodes_eq hfits]
  exact ⟨mem, heq, hkeyed.tree⟩

lemma initSearchList_ready (rand : ℕ → ℕ) {s : App}
    (haligned : s.region.aligned = p.place (2 ^ p.height - 1))
    (hblocks : s.region.blocks = (range p.height).map fun l => ⟨p.place (2 ^ l - 1), 2 ^ l * p.nodeSize⟩)
    (htree : IsTree p s.mem s.tree (stored p p.height 0 0)) :
    ∃ s', initSearchList p rand s = .ok s' ∧ Ready p rand s' := by
  have hsize : p.host.arch.ulong (p.numOperations * p.word) = p.numOperations * p.word := by
    have := hfits.lt
    have := base_pos p
    exact Arch.ulong_of_lt (by omega)
  have hnodes : p.numNodes ≠ 0 := by
    have : 2 ^ 1 ≤ 2 ^ p.height := Nat.pow_le_pow_right two_pos hheight
    rw [numNodes_eq hfits]
    omega
  have hw := word_pos p
  let I : ℕ → App → Prop := fun k s' =>
    s'.region = (s.region.allocateRegion (p.numOperations * p.word)).2 ∧ s'.tree = s.tree ∧
      s'.searchList = s.region.aligned ∧ (∀ x < s.region.aligned, s'.mem x = s.mem x) ∧
      ∀ i < k, goal p s' i = rand i % (2 ^ p.height - 1)
  have hloop : Ends (fun _ => False) (I p.numOperations) (loopE (drawKey p rand) p.numOperations
      { s with
        searchList := s.region.aligned
        region := (s.region.allocateRegion (p.numOperations * p.word)).2 }) := by
    refine loopE_ends I ⟨rfl, rfl, rfl, fun _ _ => rfl, by simp⟩ ?_
    rintro k s' - ⟨hregion, hroot, hlist, hrest, hgoals⟩
    rw [drawKey, if_neg hnodes]
    refine ⟨hregion, hroot, hlist, fun x hx => ?_, fun i hi => ?_⟩
    · dsimp only
      rw [hlist, Function.update_of_ne (by omega)]
      exact hrest x hx
    · unfold goal
      dsimp only
      rcases Nat.lt_succ_iff_lt_or_eq.mp hi with hlt | rfl
      · have hne : i * p.word ≠ k * p.word := by
          rw [Ne, Nat.mul_left_inj hw.ne']
          omega
        rw [Function.update_of_ne (by omega)]
        exact hgoals i hlt
      · rw [Function.update_self, numNodes_eq hfits]
  obtain ⟨s', heq, hregion, hroot, hlist, hrest, hgoals⟩ := ends_false_iff.mp hloop
  refine ⟨s', ?_, ?_, hlist.trans haligned, hgoals, ?_⟩
  · unfold initSearchList
    rw [hsize]
    exact heq
  · rw [hroot]
    refine IsTree.congr (fun k hk f hf => hrest _ ?_) htree
    rw [haligned]
    exact field_lt (mem_places.mp hk) hf
  · rw [hregion]
    unfold Host.Region.allocateRegion
    rw [hblocks, haligned]

lemma setup_ready (rand : ℕ → ℕ) (hzero : ∀ k < 2 ^ p.height - 1, ∀ f < 3, mem₀ (p.field k f) = 0)
    (hfuel : p.height < fuel) : ∃ s, setup p rand fuel mem₀ = .ok s ∧ Ready p rand s := by
  obtain ⟨above, hrows⟩ := createTree_rows hfits mem₀
  obtain ⟨mem, heq, htree⟩ := initTree_root hheight hfits hrows hzero hfuel
  unfold setup
  dsimp only at heq ⊢
  rw [heq]
  exact initSearchList_ready hheight hfits rand hrows.aligned hrows.blocks htree

end

/-! ## All searches -/

def keys (p : Params) : BinaryTree ℕ := (stored p p.height 0 0).map Prod.snd

lemma keys_height (p : Params) : (keys p).height = p.height := by
  rw [keys, height_map, stored, height_map, height_perfect]

lemma inorder_stored_keys (p : Params) :
    (inorder (stored p p.height 0 0)).map Prod.snd = range (2 ^ p.height - 1) := by
  rw [stored, inorder_map, map_map, range_eq_range', ← inorder_perfect_keys p.height 0 0]
  rfl

lemma inorder_stored_places (p : Params) :
    (inorder (stored p p.height 0 0)).map Prod.fst = (places p.height 0).map p.place := by
  rw [stored, inorder_map, map_map, ← inorder_perfect_places p.height 0 0, map_map]
  rfl

lemma keys_lookup {goal : ℕ} (h : goal < 2 ^ p.height - 1) :
    (lookup (keys p) goal).1 = true ∧ 1 ≤ (lookup (keys p) goal).2 ∧ (lookup (keys p) goal).2 ≤ p.height := by
  have hkeys : inorder (keys p) = range (2 ^ p.height - 1) := by rw [keys, inorder_map, inorder_stored_keys]
  have hbst : Bst (keys p) := by
    rw [Bst, hkeys]
    exact pairwise_lt_range
  have hmem : goal ∈ inorder (keys p) := by
    rw [hkeys]
    exact mem_range.mpr h
  obtain ⟨hfound, hone⟩ := hbst.lookup_found hmem
  exact ⟨hfound, hone, keys_height p ▸ lookup_le_height (keys p) goal⟩

section
variable {rand : ℕ → ℕ} {s : App}

def visited (p : Params) (s : App) (n : ℕ) : ℕ := ∑ i ∈ Finset.range n, (lookup (keys p) (goal p s i)).2

section
variable (hready : Ready p rand s) (hheight : 1 ≤ p.height) (hfuel : p.height < fuel)
include hready hheight hfuel

lemma Ready.search {σ : Type} {visit : ℕ → σ → (ℕ × ℕ × ℕ) × σ} {I : σ → Prop}
    (hvisit : ∀ curr x, I x →
      (visit curr x).1 = (s.mem curr, s.mem (curr + p.word), s.mem (curr + 2 * p.word)) ∧ I (visit curr x).2)
    {i : ℕ} (hi : i < p.numOperations) {x : σ} (hx : I x) :
    ∃ x', descend p.host.arch visit (goal p s i) fuel s.tree (p.host.arch.ulong (visited p s i)) x =
      .ok (true, p.host.arch.ulong (visited p s (i + 1)), x') ∧ I x' := by
  have hgoal : goal p s i < 2 ^ p.height - 1 := by
    have : 2 ^ 1 ≤ 2 ^ p.height := Nat.pow_le_pow_right two_pos hheight
    rw [hready.goals i hi]
    exact Nat.mod_lt _ (by omega)
  have hstored : (stored p p.height 0 0).height < fuel := by
    rw [stored, height_map, height_perfect]
    exact hfuel
  obtain ⟨x', heq, hI⟩ := descend_lookup hvisit hready.tree hstored hx (Arch.ulong_lt p.host.arch (visited p s i))
  refine ⟨x', heq.trans ?_, hI⟩
  have hfound := (keys_lookup hgoal).1
  rw [keys] at hfound
  rw [hfound, Arch.ulong_add_left, visited, visited, Finset.sum_range_succ, keys]

lemma Ready.golden :
    goldenSearch p fuel s = .ok (p.host.arch.ulong (visited p s p.numOperations)) := by
  have hloop : Ends (fun _ => False) (fun c => c = p.host.arch.ulong (visited p s p.numOperations)) (goldenSearch p fuel s) := by
    refine loopE_ends (fun k c => c = p.host.arch.ulong (visited p s k)) rfl fun k c hk hc => ?_
    obtain ⟨mem', heq, -⟩ := hready.search hheight hfuel loadNode_reads hk rfl
    rw [hc, heq]
    rfl
  obtain ⟨c, heq, rfl⟩ := ends_false_iff.mp hloop
  exact heq

lemma Ready.default :
    kernelDefault p fuel s = .ok (p.host.arch.ulong (visited p s p.numOperations), false) := by
  have hloop : Ends (fun _ => False) (fun x => x = (p.host.arch.ulong (visited p s p.numOperations), false))
      (kernelDefault p fuel s) := by
    refine loopE_ends (fun k x => x = (p.host.arch.ulong (visited p s k), false)) rfl fun k x hk hx => ?_
    obtain ⟨mem', heq, -⟩ := hready.search hheight hfuel loadNode_reads hk rfl
    rw [hx, heq]
    rfl
  obtain ⟨x, heq, rfl⟩ := ends_false_iff.mp hloop
  exact heq

lemma Ready.dma (ends : ℕ → List ℕ) (vreg : ℕ → ℕ) : ∃ m, kernelDma p ends fuel s vreg =
      .ok (p.host.arch.ulong (visited p s p.numOperations), false, m) ∧ Calm s.mem m := by
  have hloop : Ends (fun _ => False)
      (fun x => (x.1 = p.host.arch.ulong (visited p s p.numOperations) ∧ x.2.1 = false) ∧ Calm s.mem x.2.2)
      (kernelDma p ends fuel s vreg) := by
    refine loopE_ends (fun k (x : ℕ × Bool × Machine World DmaRes ℕ) =>
      (x.1 = p.host.arch.ulong (visited p s k) ∧ x.2.1 = false) ∧ Calm s.mem x.2.2)
      ⟨⟨rfl, rfl⟩, rfl, rfl, rfl⟩ fun k x hk hx => ?_
    obtain ⟨⟨hc, herror⟩, hcalm⟩ := hx
    obtain ⟨m, heq, hm⟩ := hready.search hheight hfuel (fetchNode_reads ends) hk hcalm
    rw [hc, heq, herror]
    exact ⟨⟨rfl, rfl⟩, hm⟩
  obtain ⟨⟨c, e, m⟩, heq, ⟨rfl, rfl⟩, hm⟩ := ends_false_iff.mp hloop
  exact ⟨m, heq, hm⟩

end

end

def cells (size : ℕ) (b : Host.Block) : List ℕ := (List.range (b.size / size)).map fun j => b.start + j * size

lemma row_cells (p : Params) (l : ℕ) :
    cells p.nodeSize ⟨p.place (2 ^ l - 1), 2 ^ l * p.nodeSize⟩ = (row 0 l).map p.place := by
  have hsize : 0 < p.nodeSize := by
    have := word_pos p
    unfold nodeSize
    omega
  rw [cells, Nat.mul_div_cancel _ hsize, row, Nat.zero_add, one_mul, range'_eq_map_range, map_map]
  simp only [place_add]
  rfl

lemma rows_before (p : Params) :
    ((range p.height).map fun l => (⟨p.place (2 ^ l - 1), 2 ^ l * p.nodeSize⟩ : Host.Block)).Pairwise
      Host.Block.Before := by
  rw [pairwise_map]
  refine pairwise_lt_range.imp fun {l l'} hlt => ?_
  have hpos := Nat.two_pow_pos l
  have hle : 2 ^ (l + 1) ≤ 2 ^ l' := Nat.pow_le_pow_right two_pos hlt
  rw [pow_succ] at hle
  rw [Host.Block.Before, place_add, place, place]
  exact Nat.add_le_add_left (Nat.mul_le_mul_right _ (by omega)) _

lemma field_zero_of_region
    (hzero : ∀ x, p.host.regionRaw ≤ x → x < p.host.regionEnd p.requiredMemSize → mem₀ x = 0) :
    ∀ k < 2 ^ p.height - 1, ∀ f < 3, mem₀ (p.field k f) = 0 := by
  intro k hk f hf
  obtain ⟨pad, hpad, hbase⟩ := p.host.aligned_eq
  have hlt := field_lt hk hf
  have hstart : p.base ≤ p.field k f := by
    unfold field place
    omega
  have hrows : p.place (2 ^ p.height - 1) ≤ p.base + 2 ^ p.height * p.nodeSize := by
    unfold place
    exact Nat.add_le_add_left (Nat.mul_le_mul_right _ (Nat.sub_le _ _)) _
  unfold base at hstart hrows
  refine hzero _ (by omega) ?_
  unfold Host.Config.regionEnd Host.Config.maxRegionSize requiredMemSize
  omega

/-- Every key is found within `height` visits, and the kernels return the golden checksum. -/
theorem setup_searches (p : Params) (hheight : 1 ≤ p.height) (hfits : p.Fits) (mem₀ : ℕ → ℕ)
    (hzero : ∀ x, p.host.regionRaw ≤ x → x < p.host.regionEnd p.requiredMemSize → mem₀ x = 0) (rand : ℕ → ℕ) (fuel : ℕ)
    (hfuel : p.height < fuel) :
    ∃ s t rows, setup p rand fuel mem₀ = .ok s ∧ IsTree p s.mem s.tree t ∧
      (inorder t).map Prod.snd = List.range (2 ^ p.height - 1) ∧
      s.region.blocks = rows ++ [⟨s.searchList, p.numOperations * p.word⟩] ∧ rows.length = p.height ∧
      rows.Pairwise Host.Block.Before ∧ ((inorder t).map Prod.fst).Perm (rows.flatMap (cells p.nodeSize)) ∧
      (∀ goal < 2 ^ p.height - 1, ∃ visits, 1 ≤ visits ∧ visits ≤ p.height ∧
        descend p.host.arch (loadNode p) goal fuel s.tree 0 s.mem = .ok (true, visits, s.mem)) ∧
      (∀ i < p.numOperations, goal p s i = rand i % (2 ^ p.height - 1)) ∧
      ∃ checksum, goldenSearch p fuel s = .ok checksum ∧ kernelDefault p fuel s = .ok (checksum, false) ∧
        ∀ ends vreg, ∃ m, kernelDma p ends fuel s vreg = .ok (checksum, false, m) ∧ m.mishaps = [] := by
  obtain ⟨s, heq, hready⟩ := setup_ready hheight hfits rand (field_zero_of_region hzero) hfuel
  refine ⟨s, stored p p.height 0 0, _, heq, hready.tree, inorder_stored_keys p, ?_, ?_, rows_before p, ?_, ?_,
    hready.goals, _, hready.golden hheight hfuel, hready.default hheight hfuel, fun ends vreg => ?_⟩
  · rw [hready.blocks, hready.searchList]
  · rw [List.length_map, List.length_range]
  · rw [inorder_stored_places, List.flatMap_map]
    simp only [row_cells]
    rw [← List.map_flatMap]
    exact (places_perm p.height 0).map p.place
  · intro goal hgoal
    obtain ⟨hfound, hone, hle⟩ := keys_lookup hgoal
    have hstored : (stored p p.height 0 0).height < fuel := by
      rw [stored, height_map, height_perfect]
      exact hfuel
    obtain ⟨mem', hdescend, rfl⟩ := descend_lookup loadNode_reads hready.tree hstored rfl (Nat.two_pow_pos _)
    refine ⟨_, hone, hle, hdescend.trans ?_⟩
    have hbound : (lookup (keys p) goal).2 < 2 ^ p.host.arch.bits :=
      hle.trans_lt (Nat.lt_two_pow_self.trans (Nat.pow_lt_pow_right one_lt_two hfits.height_lt))
    rw [keys] at hfound hbound
    rw [hfound, Nat.zero_add, Arch.ulong_of_lt hbound, keys]
  · obtain ⟨m, hdma, hcalm⟩ := hready.dma hheight hfuel ends vreg
    exact ⟨m, hdma, hcalm.mishaps⟩

theorem setup_searches_three_levels :
    let p : Params := { host := .arm, height := 3, numOperations := 10 }
    ∃ s checksum, setup p id 4 (fun _ => 0) = .ok s ∧ goldenSearch p 4 s = .ok checksum ∧
      kernelDefault p 4 s = .ok (checksum, false) := by
  intro p
  obtain ⟨s, t, rows, hsetup, -, -, -, -, -, -, -, -, checksum, hgolden, hdefault, -⟩ :=
    setup_searches p (by decide) (by decide +kernel : p.host.regionEnd p.requiredMemSize ≤ 2 ^ p.host.arch.bits)
      (fun _ => 0) (fun _ _ _ => rfl) id 4 (by decide)
  exact ⟨s, checksum, hsetup, hgolden, hdefault⟩

end SmcPim.TreeSearch
