import SmcPim.Lib.Strung
import SmcPim.Sgraph.Successors

/-! # Where the graph lies -/

namespace SmcPim.Sgraph

open Stops List Nat Params

variable {p : Params} {rand : ℕ → ℕ} {s t : Build} {fuel i k n : ℕ}

def Params.word (p : Params) : ℕ := p.host.arch.bytes

def Params.base (p : Params) : ℕ := p.host.initRegion.aligned

def Params.queueBytes (p : Params) : ℕ := if p.kernel = .bfs then p.nodes * p.word else 0

def Params.lists (p : Params) : ℕ := p.base + p.nodes * p.nodeSize + p.queueBytes

def Node.successorBlock (n : Node) : ℕ × ℕ := (n.successors, n.outDegree)

def Node.weightBlock (n : Node) : ℕ × ℕ := (n.weights, n.outDegree)

structure Placed (p : Params) (k : ℕ) (s : Build) : Prop where
  packed : s.region.Packed p.base
  nodesPtr : s.nodesPtr = p.base
  queue : p.kernel = .bfs → s.queue = p.base + p.nodes * p.nodeSize
  length : s.nodes.length = k
  degree : ∀ n ∈ s.nodes, n.outDegree ≤ p.maxOutdegree - 1
  strung : Strung p.word p.lists (s.nodes.map Node.successorBlock) s.successorsSize s.region.aligned
  weightsSize : s.weightsSize = 0
  weights : ∀ n ∈ s.nodes, n.weights = 0

lemma allocateSuccessors_spec (h : Placed p k s) :
    (allocateSuccessors p n s).1 = (if n = 0 then 0 else s.region.aligned) ∧
      (allocateSuccessors p n s).2.region.Packed p.base ∧
      (allocateSuccessors p n s).2.region.aligned = s.region.aligned + n * p.word ∧
      (allocateSuccessors p n s).2.successorsSize = s.successorsSize + n * p.word ∧
      (allocateSuccessors p n s).2.nodesPtr = s.nodesPtr ∧ (allocateSuccessors p n s).2.queue = s.queue ∧
      (allocateSuccessors p n s).2.weightsSize = s.weightsSize := by
  unfold allocateSuccessors
  split
  · rename_i hn
    subst hn
    exact ⟨rfl, h.packed, by simp, by simp, rfl, rfl, rfl⟩
  · exact ⟨rfl, h.packed.allocate, rfl, rfl, rfl, rfl, rfl⟩

lemma Placed.added (h : Placed p k s) (hn : n ≤ p.maxOutdegree - 1) (hadded : Added p i n s t) :
    Placed p (k + 1) t := by
  obtain ⟨d, succs, teenager, rfl, -⟩ := hadded
  obtain ⟨hptr, hpacked, haligned, hsize, hnodes, hqueue, hweights⟩ := allocateSuccessors_spec (n := n) h
  refine ⟨hpacked, hnodes.trans h.nodesPtr, fun hbfs => hqueue.trans (h.queue hbfs), ?_, ?_, ?_,
    hweights.trans h.weightsSize, ?_⟩
  · simp [h.length]
  · intro m hm
    rcases mem_append.mp hm with hm | hm
    · exact h.degree m hm
    · rw [mem_singleton.mp hm]
      exact hn
  · simp only [map_append, map_cons, map_nil]
    rw [haligned, hsize, Node.successorBlock, hptr]
    exact h.strung.snoc n
  · intro m hm
    rcases mem_append.mp hm with hm | hm
    · exact h.weights m hm
    · rw [mem_singleton.mp hm]

lemma Placed.aligned_le (h : Placed p k s) : s.region.aligned ≤ p.lists + k *
    (p.maxOutdegree - 1) * p.word := by
  have hdegree : ∀ x ∈ s.nodes.map Node.successorBlock, x.2 ≤ p.maxOutdegree - 1 := by
    simpa [Node.successorBlock] using h.degree
  have hsize := h.strung.size_le hdegree
  rw [length_map, h.length] at hsize
  rw [h.strung.next_eq]
  omega

structure Weighted (p : Params) (s : Build) (k : ℕ) (t : Build) : Prop where
  packed : t.region.Packed p.base
  nodesPtr : t.nodesPtr = s.nodesPtr
  queue : t.queue = s.queue
  successorsSize : t.successorsSize = s.successorsSize
  edges : t.nodes.map Node.edges = s.nodes.map Node.edges
  strung : Strung p.word s.region.aligned ((t.nodes.take k).map Node.weightBlock) t.weightsSize t.region.aligned
  later : ∀ n ∈ t.nodes.drop k, n.weights = 0

lemma Weighted.step (h : Weighted p s k t) (hk : k < t.nodes.length) :
    Weighted p s (k + 1) (createWeights p rand k t) := by
  have hnode : t.nodes[k]? = some t.nodes[k] := getElem?_eq_getElem hk
  have hedges := (createWeights_edges p rand k t).trans h.edges
  have hdrop : ∀ n ∈ t.nodes.drop (k + 1), n.weights = 0 := fun n hn =>
    h.later n (by rw [drop_eq_getElem_cons hk]; exact mem_cons_of_mem _ hn)
  have hsnoc := h.strung.snoc t.nodes[k].outDegree
  unfold createWeights at hedges ⊢
  rw [hnode] at hedges ⊢
  simp only at hedges ⊢
  split at hedges
  · rename_i hdegree
    rw [if_pos hdegree]
    refine { h with edges := hedges, strung := ?_, later := hdrop }
    have hzero : t.nodes[k].weights = 0 := h.later _ (by rw [drop_eq_getElem_cons hk]; exact mem_cons_self)
    simp only [hdegree, if_true, zero_mul, add_zero] at hsnoc
    rwa [take_add_one, hnode, Option.toList_some, map_append, map_cons, map_nil, Node.weightBlock,
      hzero, hdegree]
  · rename_i hdegree
    rw [if_neg hdegree]
    refine ⟨h.packed.allocate, h.nodesPtr, h.queue, h.successorsSize, hedges, ?_, ?_⟩
    · simp only [if_neg hdegree] at hsnoc
      simp only [Build.allocate, take_add_one, take_set_of_le le_rfl, getElem?_set_self hk, Option.toList_some,
        map_append, map_cons, map_nil]
      exact hsnoc
    · rw [drop_set_of_lt k.lt_succ_self]
      exact hdrop

lemma Weighted.map_eq {α : Type*} (ht : Weighted p s k t) (f : ℕ × ℕ × ℕ × List ℕ × Bool → α) :
    t.nodes.map (fun n => f n.edges) = s.nodes.map fun n => f n.edges := by
  have := congrArg (map f) ht.edges
  simpa [Function.comp_def] using this

lemma Weighted.degree (h : Placed p p.nodes s) (ht : Weighted p s k t) :
    ∀ n ∈ t.nodes, n.outDegree ≤ p.maxOutdegree - 1 := by
  intro n hn
  have hmem : n.outDegree ∈ t.nodes.map (fun n => n.edges.2.1) := mem_map_of_mem hn
  rw [ht.map_eq fun e => e.2.1] at hmem
  obtain ⟨m, hm, heq⟩ := mem_map.mp hmem
  exact heq ▸ h.degree m hm

lemma Weighted.aligned_le (h : Placed p p.nodes s) (ht : Weighted p s p.nodes t) :
    t.region.aligned ≤ p.lists + 2 * (p.nodes * (p.maxOutdegree - 1) * p.word) := by
  have hdegree : ∀ x ∈ (t.nodes.take p.nodes).map Node.weightBlock, x.2 ≤ p.maxOutdegree - 1 := by
    intro x hx
    obtain ⟨n, hn, rfl⟩ := mem_map.mp hx
    exact Weighted.degree h ht n (mem_of_mem_take hn)
  have hlen : ((t.nodes.take p.nodes).map Node.weightBlock).length ≤ p.nodes := by
    rw [length_map]
    exact length_take_le _ _
  have hsize := ht.strung.size_le hdegree
  have hmul := Nat.mul_le_mul_right p.word (Nat.mul_le_mul_right (p.maxOutdegree - 1) hlen)
  have haligned := h.aligned_le
  rw [ht.strung.next_eq]
  omega

/-! ## The whole graph -/

structure Built (p : Params) (s : Build) : Prop where
  nodesPtr : s.nodesPtr = p.base
  queue : p.kernel = .bfs → s.queue = p.base + p.nodes * p.nodeSize
  length : s.nodes.length = p.nodes
  successors : Strung p.word p.lists (s.nodes.map Node.successorBlock) s.successorsSize (p.lists + s.successorsSize)
  weights : p.kernel = .bellmanFord → Strung p.word (p.lists + s.successorsSize) (s.nodes.map Node.weightBlock)
    s.weightsSize (p.lists + s.successorsSize + s.weightsSize)
  fits : p.lists + s.successorsSize + s.weightsSize < p.host.regionEnd p.requiredMemSize

end SmcPim.Sgraph
