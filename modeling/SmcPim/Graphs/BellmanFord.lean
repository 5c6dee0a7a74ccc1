import SmcPim.Graphs.Teenage

/-!
# Bellman-Ford on a sparse graph

From `SW/PIM/kernels/sgraph_bellman_ford.c`, `SW/HOST/app/offload_sgraph/utils.hh` and, for the atomic minimum,
`GEM5/gem5/src/mem/abstract_mem.cc`. Successors are indices of nodes.
-/

namespace SmcPim.Graphs.BellmanFord

open Engine

structure Edges where
  weights : ℕ → ℕ
  id : ℕ
  outDegree : ℕ
  successors : ℕ → ℕ

structure Node extends Edges where
  distance : ℕ

abbrev Params := Teenage.Params

def nc (a : Arch) : ℕ := 2 ^ a.bits - 1

def setDistance (i : ℤ) (d : ℕ) (nodes : ℤ → Node) : ℤ → Node :=
  Function.update nodes i { nodes i with distance := d }

section
variable (p : Params)

def resetGraphStats (nodes : ℤ → Node) : ℤ → Node :=
  setDistance 0 0 (loop (fun i => setDistance (i + 1) (nc p.arch)) (p.nodes - 1) nodes)

/-! ## `run_golden` and `kernel_default` -/

def relaxes (r c : ℕ) (nodes : ℤ → Node) : Bool :=
  (nodes r).distance != nc p.arch &&
    decide (p.arch.ulong ((nodes r).distance + (nodes r).weights c) < (nodes ((nodes r).successors c)).distance)

def assign (r c : ℕ) (nodes : ℤ → Node) : ℤ → Node :=
  setDistance ((nodes r).successors c) (p.arch.ulong ((nodes r).distance + (nodes r).weights c)) nodes

def relaxEdge (r c : ℕ) (nodes : ℤ → Node) : ℤ → Node := if relaxes p r c nodes then assign p r c nodes else nodes

/-- The nodes, with the checksum. -/
def goldenEdge (r c : ℕ) (x : (ℤ → Node) × ℕ) : (ℤ → Node) × ℕ :=
  (relaxEdge p r c x.1, p.arch.ulong (x.2 + (x.1 r).weights c))

/-- The weights of the edges that are not relaxed are not added. -/
def defaultEdge (r c : ℕ) (x : (ℤ → Node) × ℕ) : (ℤ → Node) × ℕ :=
  if relaxes p r c x.1 then (assign p r c x.1, p.arch.ulong (x.2 + (x.1 r).weights c)) else x

def forEdges (edge : ℕ → ℕ → (ℤ → Node) × ℕ → (ℤ → Node) × ℕ) (n : ℕ) : (ℤ → Node) × ℕ → (ℤ → Node) × ℕ :=
  loop (fun r x => loop (edge r) (x.1 r).outDegree x) n

def runGolden (nodes : ℤ → Node) : (ℤ → Node) × ℕ := forEdges (goldenEdge p) p.nodes (nodes, 0)

def kernelDefault (nodes : ℤ → Node) : (ℤ → Node) × ℕ := forEdges (defaultEdge p) p.nodes (nodes, 0)

/-! ## `kernel_atomicmin`, `kernel_simpledma` and `kernel_best` -/

/-- `HMC_CMD_MIN` on a word of the architecture. -/
def imin (operand m : ℕ) : Except Fault ℕ :=
  if p.arch.bytes = 4 then .ok (if operand % 2 ^ 32 < m then operand % 2 ^ 32 else m)
  else .error (.panic "not implemented yet!")

def plainMin (sum m : ℕ) : Except Fault ℕ := .ok (if sum < m then sum else m)

/-- The checksum, the panic that ended the run, and for every edge the distances of the copy and of
its node. -/
structure Acc where
  checksum : ℕ
  fault : Option Fault
  used : List (ℕ × ℕ)

/-- An edge from a copy `u` of its node. The words are the successor and the weight. -/
def relaxCopy (curr : ℕ → ℕ) (store : ℕ → ℕ → Except Fault ℕ) (u : Node) (words : ℕ → ℕ) (x : (ℤ → Node) × Acc) :
    (ℤ → Node) × Acc :=
  match x.2.fault with
  | some _ => x
  | none =>
    let used := x.2.used ++ [(u.distance, (x.1 u.id).distance)]
    match store (p.arch.ulong (curr u.distance + words 1)) (x.1 (words 0)).distance with
    | .ok d => (setDistance (words 0) d x.1, ⟨p.arch.ulong (x.2.checksum + words 1), none, used⟩)
    | .error e => (x.1, ⟨x.2.checksum, some e, used⟩)

def atomicmin : Scheme Node Edges Acc where
  count := p.nodesCount
  fixed := Node.toEdges
  wanted _ := true
  degree t := t.outDegree
  resources := [.res1, .res2]
  content i t := if i = 0 then t.successors else t.weights
  edge := relaxCopy p id (imin p)
  -- The sign is extended if a `ulong_t` is wider.
  counter k := p.arch.ulong (if k < 2 ^ 31 then k else 2 ^ 64 - 2 ^ 32 + k)

def simpledma : Scheme Node Edges Acc := { atomicmin p with wanted := fun t => t.outDegree != 0 }

/-- With or without `USE_HMC_ATOMIC_CMD`. `curr_distance` is `unsigned`. -/
def best (atomics : Bool) : Scheme Node Edges Acc :=
  { simpledma p with edge := relaxCopy p (· % 2 ^ 32) (if atomics then imin p else plainMin) }

def boot (w : World Node Acc) : Scheme.Walk Node Acc := .boot (.boot { w with acc := ⟨0, none, []⟩ })

variable (ends : ℕ → List ℕ) (w : World Node Acc)

def runAtomicmin : Scheme.Walk Node Acc := (atomicmin p).direct ends p.nodes (boot w)

def runSimpledma : Scheme.Walk Node Acc := (simpledma p).fetched ends p.nodes (boot w)

def runBest (atomics : Bool) : Scheme.Walk Node Acc := (best p atomics).ahead ends p.nodes (boot w)

end

def result (s : Scheme.Walk Node Acc) : Except Fault ((ℤ → Node) × ℕ) :=
  match s.machine.world.acc.fault with
  | some e => .error e
  | none => .ok (s.machine.world.nodes, s.machine.world.acc.checksum)

variable {p : Params} {nodes₀ ns : ℤ → Node}

/-! ## What no kernel changes -/

@[simp] lemma setDistance_toEdges (i : ℤ) (d : ℕ) (ns : ℤ → Node) (j : ℤ) :
    (setDistance i d ns j).toEdges = (ns j).toEdges := by
  unfold setDistance
  by_cases hj : j = i
  · rw [hj, Function.update_self]
  · rw [Function.update_of_ne hj]

lemma setDistance_distance (i : ℤ) (d : ℕ) (ns : ℤ → Node) (j : ℤ) :
    (setDistance i d ns j).distance = if j = i then d else (ns j).distance := by
  unfold setDistance
  by_cases hj : j = i
  · rw [hj, Function.update_self, if_pos rfl]
  · rw [Function.update_of_ne hj, if_neg hj]

lemma relaxEdge_toEdges (r c : ℕ) (ns : ℤ → Node) (i : ℤ) :
    (relaxEdge p r c ns i).toEdges = (ns i).toEdges := by
  unfold relaxEdge
  split
  · exact setDistance_toEdges ..
  · rfl

lemma resetGraphStats_toEdges (ns : ℤ → Node) (i : ℤ) : (resetGraphStats p ns i).toEdges =
    (ns i).toEdges :=
  (setDistance_toEdges ..).trans
    (loop_keeps (fun ns : ℤ → Node => (ns i).toEdges) (fun _ _ => setDistance_toEdges ..) _ _)

/-! ## The nodes of `run_golden` -/

def soFar (p : Params) (nodes₀ : ℤ → Node) (r c : ℕ) : ℤ → Node :=
  loop (relaxEdge p r) c (loop (fun r ns => loop (relaxEdge p r) (ns r).outDegree ns) r nodes₀)

lemma soFar_toEdges (r c : ℕ) (i : ℤ) : (soFar p nodes₀ r c i).toEdges = (nodes₀ i).toEdges := by
  have hedges (r n : ℕ) (ns : ℤ → Node) : (loop (relaxEdge p r) n ns i).toEdges = (ns i).toEdges :=
    loop_keeps (fun ns => (ns i).toEdges) (fun _ _ => relaxEdge_toEdges ..) n ns
  exact (hedges ..).trans (loop_keeps (fun ns : ℤ → Node => (ns i).toEdges) (fun _ _ => hedges ..) _ _)

lemma soFar_succ (r c : ℕ) : soFar p nodes₀ r (c + 1) = relaxEdge p r c (soFar p nodes₀ r c) := rfl

lemma soFar_next (r : ℕ) : soFar p nodes₀ (r + 1) 0 = soFar p nodes₀ r (nodes₀ r).outDegree := by
  have hdegree : (soFar p nodes₀ r 0 r).outDegree = (nodes₀ r).outDegree :=
    congrArg Edges.outDegree (soFar_toEdges r 0 r)
  rw [← hdegree]
  rfl

lemma soFar_weights (r c : ℕ) : (soFar p nodes₀ r c r).weights = (nodes₀ r).weights :=
  congrArg Edges.weights (soFar_toEdges r c r)

lemma forEdges_inv (nodes₀ : ℤ → Node) {edge : ℕ → ℕ → (ℤ → Node) × ℕ → (ℤ → Node) × ℕ}
    {I : ℕ → ℕ → (ℤ → Node) × ℕ → Prop} (hdegree : ∀ r x, I r 0 x → (x.1 r).outDegree = (nodes₀ r).outDegree)
    (hedge : ∀ r c x, I r c x → I r (c + 1) (edge r c x))
    (hnext : ∀ r x, I r (nodes₀ r).outDegree x → I (r + 1) 0 x) {x : (ℤ → Node) × ℕ} (h : I 0 0 x) (n : ℕ) :
    I n 0 (forEdges edge n x) := by
  refine loop_inv (fun r => I r 0) h fun r x _ hx => hnext r _ ?_
  rw [hdegree r x hx]
  exact loop_inv (I r) hx fun c x _ => hedge r c x

def total (nodes₀ : ℤ → Node) (f : ℕ → ℕ → ℕ) (r c : ℕ) : ℕ :=
  ∑ q ∈ Finset.range r, ∑ j ∈ Finset.range (nodes₀ q).outDegree, f q j + ∑ j ∈ Finset.range c, f r j

section
variable {f g : ℕ → ℕ → ℕ}

lemma total_succ (r c : ℕ) : total nodes₀ f r (c + 1) = total nodes₀ f r c + f r c := by
  rw [total, total, Finset.sum_range_succ, Nat.add_assoc]

lemma total_next (r : ℕ) : total nodes₀ f (r + 1) 0 = total nodes₀ f r (nodes₀ r).outDegree := by
  rw [total, total, Finset.sum_range_succ, Finset.sum_range_zero, Nat.add_zero]

end

def weightsOf (p : Params) (nodes₀ : ℤ → Node) (test : Bool) (r c : ℕ) : ℕ :=
  if relaxes p r c (soFar p nodes₀ r c) = test then (nodes₀ r).weights c else 0

lemma runGolden_eq (p : Params) (nodes₀ : ℤ → Node) :
    runGolden p nodes₀ =
      (soFar p nodes₀ p.nodes 0, p.arch.ulong (total nodes₀ (fun r => (nodes₀ r).weights) p.nodes 0)) := by
  refine forEdges_inv nodes₀
    (I := fun r c x => x = (soFar p nodes₀ r c, p.arch.ulong (total nodes₀ (fun r => (nodes₀ r).weights) r c)))
    ?_ ?_ ?_ ?_ p.nodes
  · rintro r x rfl
    exact congrArg Edges.outDegree (soFar_toEdges r 0 r)
  · rintro r c x rfl
    rw [goldenEdge, total_succ, soFar_succ, soFar_weights, Arch.ulong_add_left]
  · rintro r x rfl
    rw [soFar_next, total_next]
  · exact Prod.ext rfl (Nat.zero_mod _).symm

lemma kernelDefault_eq (p : Params) (nodes₀ : ℤ → Node) :
    kernelDefault p nodes₀ =
      (soFar p nodes₀ p.nodes 0, p.arch.ulong (total nodes₀ (weightsOf p nodes₀ true) p.nodes 0)) := by
  refine forEdges_inv nodes₀
    (I := fun r c x => x = (soFar p nodes₀ r c, p.arch.ulong (total nodes₀ (weightsOf p nodes₀ true) r c)))
    ?_ ?_ ?_ ?_ p.nodes
  · rintro r x rfl
    exact congrArg Edges.outDegree (soFar_toEdges r 0 r)
  · rintro r c x rfl
    rw [defaultEdge, total_succ, soFar_succ, relaxEdge, soFar_weights, weightsOf]
    dsimp only
    split
    · rw [Arch.ulong_add_left]
    · rw [Nat.add_zero]
  · rintro r x rfl
    rw [soFar_next, total_next]
  · exact Prod.ext rfl (Nat.zero_mod _).symm

end SmcPim.Graphs.BellmanFord
