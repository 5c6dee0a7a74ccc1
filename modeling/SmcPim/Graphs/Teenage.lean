import SmcPim.Graphs.Dense
import SmcPim.Graphs.Walks

/-!
# Teenage followers in a sparse graph

From `SW/PIM/kernels/sgraph_teenage_follower.c` and `SW/HOST/app/offload_sgraph/defs.hh`. Successors are
indices of nodes.
-/

namespace SmcPim.Graphs.Teenage

open Engine

/-- The edges of a node. The pointer `successors` leads to a list that does not change. -/
structure Edges where
  outDegree : ℕ
  successors : ℕ → ℕ

abbrev Node := Graphs.Node Edges

structure Params where
  arch : Arch
  nodes : ℕ
  nodesCount : ℕ

section
variable (p : Params)

def addEdge (r c : ℕ) (nodes : ℤ → Node) : ℤ → Node := incr p.arch ((nodes r).edges.successors c) nodes

def addNode (r : ℕ) (nodes : ℤ → Node) : ℤ → Node :=
  if (nodes r).teenager then loop (addEdge p r) (nodes r).edges.outDegree nodes else nodes

def kernelDefault (nodes : ℤ → Node) : (ℤ → Node) × ℕ :=
  let nodes := loop (addNode p) p.nodes nodes
  (nodes, totalFollowers p.arch p.nodes nodes)

/-! ## `kernel_dma1` and `kernel_best` -/

def dma1 : Scheme Node (Bool × Edges) Unit where
  count := p.nodesCount
  fixed := Node.fixed
  wanted t := t.1
  degree t := t.2.outDegree
  resources := [.res1]
  content _ t := t.2.successors
  edge _ words x := (incr p.arch (words 0) x.1, ())
  counter k := k

/-- The lists are requested of teenagers with successors only. -/
def best : Scheme Node (Bool × Edges) Unit := { dma1 p with wanted := fun t => t.1 && t.2.outDegree != 0 }

variable (ends : ℕ → List ℕ)

def result (m : Machine (World Node Unit) DmaRes Transfer) : (ℤ → Node) × ℕ :=
  (m.world.nodes, totalFollowers p.arch p.nodes m.world.nodes)

def kernelDma1 (w : World Node Unit) : (ℤ → Node) × ℕ :=
  result p ((dma1 p).direct ends p.nodes (.boot (.boot w))).machine

def kernelBest (w : World Node Unit) : (ℤ → Node) × ℕ :=
  result p ((best p).ahead ends p.nodes (.boot (.boot w))).machine

end

variable {p : Params} {nodes₀ ns : ℤ → Node}

lemma edges_fixed (r n : ℕ) (ns : ℤ → Node) (i : ℤ) : (loop (addEdge p r) n ns i).fixed =
    (ns i).fixed :=
  loop_keeps (fun ns => (ns i).fixed) (fun _ _ => incr_fixed ..) n ns

lemma addNode_fixed (r : ℕ) (ns : ℤ → Node) (i : ℤ) : (addNode p r ns i).fixed = (ns i).fixed := by
  unfold addNode
  split
  · exact edges_fixed ..
  · rfl

lemma nodes_fixed (n : ℕ) (ns : ℤ → Node) (i : ℤ) : (loop (addNode p) n ns i).fixed = (ns i).fixed :=
  loop_keeps (fun ns => (ns i).fixed) (fun r ns => addNode_fixed r ns i) n ns

/-! ## The kernels follow `kernel_default` -/

def soFar (p : Params) (nodes₀ : ℤ → Node) (r c : ℕ) : ℤ → Node :=
  loop (addEdge p r) c (loop (addNode p) r nodes₀)

lemma soFar_fixed (r c : ℕ) (i : ℤ) : (soFar p nodes₀ r c i).fixed = (nodes₀ i).fixed :=
  (edges_fixed ..).trans (nodes_fixed ..)

lemma soFar_succ (r c : ℕ) :
    soFar p nodes₀ r (c + 1) = incr p.arch ((nodes₀ r).edges.successors c) (soFar p nodes₀ r c) := by
  have hedges : (soFar p nodes₀ r c r).edges = (nodes₀ r).edges := congrArg Prod.snd (soFar_fixed r c r)
  unfold soFar at hedges ⊢
  rw [loop_succ, addEdge, hedges]

lemma soFar_next (r : ℕ) :
    soFar p nodes₀ (r + 1) 0 =
      if (nodes₀ r).teenager then soFar p nodes₀ r (nodes₀ r).edges.outDegree else soFar p nodes₀ r 0 := by
  have hfixed := nodes_fixed (p := p) r nodes₀ r
  have hteen : (loop (addNode p) r nodes₀ r).teenager = (nodes₀ r).teenager := congrArg Prod.fst hfixed
  have hedges : (loop (addNode p) r nodes₀ r).edges = (nodes₀ r).edges := congrArg Prod.snd hfixed
  unfold soFar
  rw [loop_zero, loop_succ, addNode, hteen, hedges]
  rfl

lemma dma1_keeps (p : Params) (nodes₀ : ℤ → Node) :
    (dma1 p).Keeps nodes₀ p.nodes fun r c x => x = (soFar p nodes₀ r c, ()) where
  kept r c x hx := by
    rw [hx]
    exact soFar_fixed r c
  edge r _ c x nd words hx _ _ _ hwords := by
    have hword : words 0 = (nodes₀ r).edges.successors c := hwords 0 Nat.one_pos
    rw [hx, soFar_succ, ← hword]
    rfl
  next r _ x hwanted hx := by
    have hteen : (nodes₀ r).teenager = true := hwanted
    rw [hx, soFar_next, if_pos hteen]
    rfl
  skip r _ x hwanted hx := by
    have hteen : (nodes₀ r).teenager = false := hwanted
    rw [hx, soFar_next, hteen]
    rfl

lemma best_keeps (p : Params) (nodes₀ : ℤ → Node) :
    (best p).Keeps nodes₀ p.nodes fun r c x => x = (soFar p nodes₀ r c, ()) where
  kept := (dma1_keeps p nodes₀).kept
  edge r hr c x nd words hx hwanted := (dma1_keeps p nodes₀).edge r hr c x nd words hx (Bool.and_eq_true_iff.mp hwanted).1
  next r hr x hwanted := (dma1_keeps p nodes₀).next r hr x (Bool.and_eq_true_iff.mp hwanted).1
  skip r hr x hwanted hx := by
    rcases Bool.and_eq_false_iff.mp hwanted with hteen | hdegree
    · exact (dma1_keeps p nodes₀).skip r hr x hteen hx
    · -- A teenager without successors.
      have hzero : (nodes₀ r).edges.outDegree = 0 := not_not.mp (bne_iff_ne.not.mp (Bool.eq_false_iff.mp hdegree))
      rw [hx, soFar_next, hzero, ite_self]

lemma best_sound (hcount : 0 < p.nodesCount) : (best p).Sound :=
  ⟨hcount, List.nodup_singleton _, by simp [best, dma1]⟩

def Fits (p : Params) (nodes : ℤ → Node) : Prop :=
  ∀ r < p.nodes, (nodes r).edges.outDegree * p.arch.bytes ≤ maxXferSize

lemma Fits.counts (h : Fits p nodes₀) : (best p).Counts nodes₀ p.nodes := by
  refine ⟨fun r hr => ?_, fun _ _ => rfl⟩
  have hle : (nodes₀ r).edges.outDegree ≤ maxXferSize := (Nat.le_mul_of_pos_right _ p.arch.bytes_pos).trans (h r hr)
  exact hle.trans_lt (by decide)

lemma result_eq {m : Machine (World Node Unit) DmaRes Transfer}
    (hm : m.world.data = (soFar p nodes₀ p.nodes 0, ())) : result p m = kernelDefault p nodes₀ := by
  have hnodes : m.world.nodes = loop (addNode p) p.nodes nodes₀ := congrArg Prod.fst hm
  unfold result
  rw [hnodes]
  rfl

/-! ## The total -/

section
variable {ε : Type} {a : Arch} {n c : ℕ}

lemma totalFollowers_succ (nodes : ℤ → Graphs.Node ε) :
    totalFollowers a (n + 1) nodes = a.ulong (totalFollowers a n nodes + (nodes n).followers) := rfl

lemma totalFollowers_lt (nodes : ℤ → Graphs.Node ε) : totalFollowers a n nodes < 2 ^ a.bits := by
  cases n with
  | zero => exact Nat.two_pow_pos _
  | succ n => exact a.ulong_lt _

lemma totalFollowers_eq_zero {nodes : ℤ → Graphs.Node ε} (h : ∀ r < n, (nodes r).followers = 0) :
    totalFollowers a n nodes = 0 := by
  induction n with
  | zero => rfl
  | succ n ih =>
    rw [totalFollowers_succ, ih fun r hr => h r (by omega), h n n.lt_succ_self]
    exact Nat.zero_mod _

lemma totalFollowers_incr_of_le (hc : n ≤ c) (nodes : ℤ → Graphs.Node ε) :
    totalFollowers a n (incr a c nodes) = totalFollowers a n nodes := by
  induction n with
  | zero => rfl
  | succ n ih =>
    have hne : (n : ℤ) ≠ c := by omega
    rw [totalFollowers_succ, totalFollowers_succ, ih (by omega), incr, Function.update_of_ne hne]

lemma totalFollowers_incr (hc : c < n) (nodes : ℤ → Graphs.Node ε) :
    totalFollowers a n (incr a c nodes) = a.ulong (totalFollowers a n nodes + 1) := by
  induction n with
  | zero => omega
  | succ n ih =>
    rw [totalFollowers_succ, totalFollowers_succ, Arch.ulong_add_left]
    rcases Nat.lt_succ_iff_lt_or_eq.mp hc with hlt | rfl
    · have hne : (n : ℤ) ≠ c := by omega
      rw [ih hlt, incr, Function.update_of_ne hne, Arch.ulong_add_left, Nat.add_right_comm]
    · rw [totalFollowers_incr_of_le le_rfl, incr, Function.update_self, Nat.add_comm, Arch.ulong_add_left]
      congr 1
      omega

end

def Closed (p : Params) (nodes : ℤ → Node) : Prop :=
  ∀ r < p.nodes, ∀ c < (nodes r).edges.outDegree, (nodes r).edges.successors c < p.nodes

/-- The out-degrees of the teenagers among the first nodes. -/
def teenageDegrees (nodes : ℤ → Node) (r : ℕ) : ℕ :=
  ∑ q ∈ Finset.range r, if (nodes q).teenager then (nodes q).edges.outDegree else 0

lemma total_edges {r c : ℕ} (hclosed : Closed p nodes₀) (hr : r < p.nodes)
    (hc : c ≤ (nodes₀ r).edges.outDegree) :
    totalFollowers p.arch p.nodes (soFar p nodes₀ r c) =
      p.arch.ulong (totalFollowers p.arch p.nodes (soFar p nodes₀ r 0) + c) := by
  induction c with
  | zero => exact (Arch.ulong_of_lt (totalFollowers_lt ..)).symm
  | succ c ih =>
    rw [soFar_succ, totalFollowers_incr (hclosed r hr c hc), ih (by omega), Arch.ulong_add_left]
    rfl

lemma total_nodes {r : ℕ} (hclosed : Closed p nodes₀)
    (hzero : ∀ r < p.nodes, (nodes₀ r).followers = 0) (hr : r ≤ p.nodes) :
    totalFollowers p.arch p.nodes (soFar p nodes₀ r 0) = p.arch.ulong (teenageDegrees nodes₀ r) := by
  induction r with
  | zero => exact (totalFollowers_eq_zero hzero).trans (Nat.zero_mod _).symm
  | succ r ih =>
    rw [soFar_next, teenageDegrees, Finset.sum_range_succ, ← teenageDegrees]
    split
    · rw [total_edges hclosed hr le_rfl, ih (by omega), Arch.ulong_add_left]
    · exact ih (by omega)

/-- `kernel_dma1` and `kernel_best` count as `kernel_default` does. -/
theorem kernels_eq_kernelDefault (p : Params) (hcount : 1 ≤ p.nodesCount) (ends : ℕ → List ℕ)
    (w : World Node Unit)
    (hfits : Fits p w.nodes) :
    kernelDma1 p ends w = kernelDefault p w.nodes ∧ kernelBest p ends w = kernelDefault p w.nodes ∧
      (Closed p w.nodes → (∀ r < p.nodes, (w.nodes r).followers = 0) →
        (kernelDefault p w.nodes).2 = p.arch.ulong (teenageDegrees w.nodes p.nodes)) := by
  refine ⟨?_, ?_, fun hclosed hzero => total_nodes hclosed hzero le_rfl⟩
  · exact result_eq (Scheme.direct_ends (dma1_keeps p w.nodes) hcount (.boot rfl)).data
  · exact result_eq (Scheme.ahead_ends (best_keeps p w.nodes) (best_sound hcount) hfits.counts (.boot rfl)).data

theorem kernels_eq_kernelDefault_ring :
    let p : Params := ⟨.arm, 3, 2⟩
    let w : World Node Unit :=
      ⟨fun i => ⟨i != 1, 0, 1, fun _ => (i.toNat + 1) % 3⟩, (), fun _ _ => ⟨false, 0, 0, fun _ => 0⟩, fun _ _ => 0⟩
    kernelDma1 p (fun _ => []) w = kernelDefault p w.nodes ∧ kernelBest p (fun _ => []) w = kernelDefault p w.nodes ∧
      (kernelDefault p w.nodes).2 = p.arch.ulong (teenageDegrees w.nodes p.nodes) := by
  intro p w
  obtain ⟨hdma1, hbest, htotal⟩ := kernels_eq_kernelDefault p (by decide) (fun _ => []) w fun _ _ =>
    (by decide : 1 * Arch.arm.bytes ≤ maxXferSize)
  exact ⟨hdma1, hbest, htotal (fun r hr c _ => Nat.mod_lt _ (by decide)) fun _ _ => rfl⟩

end SmcPim.Graphs.Teenage
