import SmcPim.Graphs.SecondLoop
import SmcPim.Graphs.Teenage

/-!
# The PageRank kernels

From `SW/PIM/kernels/sgraph_page_rank.c`. The number of iterations depends on a test of
floating-point numbers. Here it is given, and the arithmetic is any.
-/

namespace SmcPim.Graphs.PageRank

open Engine

structure Node (φ : Type) where
  pageRank : φ
  nextRank : φ
  edges : Teenage.Edges

structure Ranks (φ : Type) where
  nodes : ℕ
  nodesCount : ℕ
  /-- `1.0 / (float)NODES`. -/
  first : φ
  /-- `0.15 / (float)NODES`. -/
  rest : φ
  /-- `0.85 * page_rank / (float)out_degree`. -/
  delta : φ → ℕ → φ
  add : φ → φ → φ

variable {φ : Type}

section
variable (g : Ranks φ) (ends : ℕ → List ℕ)

def Ranks.params : Params (Node φ) := ⟨g.nodes, g.nodesCount, fun n => { n with pageRank := n.nextRank, nextRank := g.rest }⟩

def spread (u : Node φ) (i : ℕ) (nodes : ℤ → Node φ) : ℤ → Node φ :=
  Function.update nodes i
    { nodes i with nextRank := g.add (nodes i).nextRank (g.delta u.pageRank u.edges.outDegree) }

/-! ## The first loop -/

def firstLoop : Scheme (Node φ) Teenage.Edges (List (Node φ)) where
  count := g.nodesCount
  fixed := Node.edges
  wanted _ := true
  degree t := t.outDegree
  resources := [.res1]
  content _ t := t.successors
  edge u words x := (spread g u (words 0) x.1, x.2)
  counter k := k

/-- In `kernel_best` the successors are read by DMA, if there are any. -/
def firstBest : Scheme (Node φ) Teenage.Edges (List (Node φ)) :=
  { firstLoop g with wanted := fun t => t.outDegree != 0 }

def initNode (i : ℕ) : Machine (World (Node φ) (List (Node φ))) DmaRes Transfer →
    Machine (World (Node φ) (List (Node φ))) DmaRes Transfer :=
  useBufs ends [] fun w =>
    (Function.update w.nodes i { w.nodes i with pageRank := g.first, nextRank := g.rest }, w.acc)

def initNodes : Machine (World (Node φ) (List (Node φ))) DmaRes Transfer →
    Machine (World (Node φ) (List (Node φ))) DmaRes Transfer := loop (initNode g ends) g.nodes

def updateInPlace (i : ℕ) : Machine (World (Node φ) (List (Node φ))) DmaRes Transfer →
    Machine (World (Node φ) (List (Node φ))) DmaRes Transfer :=
  useBufs ends [] fun w => updateNode g.params i w.data

def dma1Iteration (s : Scheme.Walk (Node φ) (List (Node φ))) : Scheme.Walk (Node φ) (List (Node φ)) :=
  let s := (firstLoop g).direct ends g.nodes s
  ⟨s.node, loop (updateInPlace g ends) g.nodes s.machine⟩

def kernelDma1 (k : ℕ) (m : Machine (World (Node φ) (List (Node φ))) DmaRes Transfer) :
    Machine (World (Node φ) (List (Node φ))) DmaRes Transfer :=
  (loop (fun _ => dma1Iteration g ends) (k + 1) (.boot (initNodes g ends m))).machine

/-! ## `kernel_dma2` and `kernel_best` -/

/-- `nodes_ping` and `nodes_pong`, and the buffers of the second loop. -/
structure Pass (φ : Type) where
  node : Cursor
  second : State (Node φ)

def iteration (first : Scheme.Walk (Node φ) (List (Node φ)) → Scheme.Walk (Node φ) (List (Node φ))) (s : Pass φ) :
    Pass φ :=
  let w := first ⟨s.node, s.second.machine⟩
  ⟨w.node, secondLoop g.params ends { s.second with machine := w.machine }⟩

def dma2Iteration : Pass φ → Pass φ := iteration g ends ((firstLoop g).direct ends g.nodes)

def kernelDma2 (k : ℕ) (m : Machine (World (Node φ) (List (Node φ))) DmaRes Transfer) :
    Machine (World (Node φ) (List (Node φ))) DmaRes Transfer :=
  (loop (fun _ => dma2Iteration g ends) (k + 1) ⟨⟨0, 1, 0⟩, dma2Buffers (initNodes g ends m)⟩).second.machine

def bestIteration : Pass φ → Pass φ := iteration g ends ((firstBest g).fetched ends g.nodes)

def kernelBest (k : ℕ) (m : Machine (World (Node φ) (List (Node φ))) DmaRes Transfer) :
    Machine (World (Node φ) (List (Node φ))) DmaRes Transfer :=
  (loop (fun _ => bestIteration g ends) (k + 1) ⟨⟨0, 1, 0⟩, bestBuffers (initNodes g ends m)⟩).second.machine

end

variable {g : Ranks φ} {ends : ℕ → List ℕ} {nodes₀ : ℤ → Node φ}
  {m : Machine (World (Node φ) (List (Node φ))) DmaRes Transfer}

/-! ## Nothing goes wrong in one iteration -/

def SameEdges (nodes₀ : ℤ → Node φ) (_ _ : ℕ) (x : (ℤ → Node φ) × List (Node φ)) : Prop := Kept Node.edges nodes₀ x.1

lemma kept_update {ns : ℤ → Node φ} (h : Kept Node.edges nodes₀ ns) (i : ℤ) {n : Node φ}
    (hn : n.edges = (ns i).edges) : Kept Node.edges nodes₀ (Function.update ns i n) := by
  intro j
  by_cases hj : j = i
  · rw [hj, Function.update_self, hn]
    exact h i
  · rw [Function.update_of_ne hj]
    exact h j

lemma firstLoop_keeps (g : Ranks φ) (nodes₀ : ℤ → Node φ) : (firstLoop g).Keeps nodes₀ g.nodes
    (SameEdges nodes₀) where
  kept _ _ _ hx := hx
  edge _ _ _ x _ words hx _ _ _ _ := by
    refine kept_update hx (words 0) ?_
    rfl
  next _ _ _ _ hx := hx
  skip _ _ _ _ hx := hx

lemma firstBest_keeps (g : Ranks φ) (nodes₀ : ℤ → Node φ) : (firstBest g).Keeps nodes₀ g.nodes
    (SameEdges nodes₀) where
  kept _ _ _ hx := hx
  edge _ _ _ x _ words hx _ _ _ _ := by
    refine kept_update hx (words 0) ?_
    rfl
  next _ _ _ _ hx := hx
  skip _ _ _ _ hx := hx

lemma firstBest_sound (hcount : 0 < g.nodesCount) : (firstBest g).Sound :=
  ⟨hcount, List.nodup_singleton _, by simp [firstBest, firstLoop]⟩

structure Idle (nodes₀ : ℤ → Node φ) (m : Machine (World (Node φ) (List (Node φ))) DmaRes Transfer) : Prop where
  kept : Kept Node.edges nodes₀ m.world.nodes
  pending : m.pending = []
  calm : m.mishaps = []

lemma useBufs_nil_mishaps (f : World (Node φ) (List (Node φ)) → (ℤ → Node φ) × List (Node φ)) :
    (useBufs ends [] f m).mishaps = m.mishaps :=
  act_mishaps _ fun _ _ => by simp

lemma Idle.useBufs (h : Idle nodes₀ m)
    {f : World (Node φ) (List (Node φ)) → (ℤ → Node φ) × List (Node φ)}
    (hf : ∀ w : World (Node φ) (List (Node φ)), Kept Node.edges nodes₀ w.nodes → Kept Node.edges nodes₀ (f w).1) :
    Idle nodes₀ (Graphs.useBufs ends [] f m) := by
  have htick := (tick_inv (E := engine ends) (m := m) (fun w l => Kept Node.edges nodes₀ w.nodes ∧ l = [])
    (fun _ l x l' _ hl => absurd hl.2 (by simp)) ⟨h.kept, h.pending⟩).1
  refine ⟨?_, ?_, (useBufs_nil_mishaps f).trans h.calm⟩
  · unfold Graphs.useBufs
    rw [act_world]
    exact hf _ htick.1
  · unfold Graphs.useBufs
    rw [act_pending]
    exact htick.2

lemma Idle.initNodes (h : Idle nodes₀ m) : Idle nodes₀ (initNodes g ends m) :=
  loop_inv (fun _ => Idle nodes₀) h fun i _ _ h => h.useBufs fun w hw => by
    refine kept_update hw i ?_
    rfl

lemma kernelDma1_calm (hcount : 0 < g.nodesCount) (h : Idle nodes₀ m) :
    (kernelDma1 g ends 0 m).mishaps = [] := by
  have hinit : Idle nodes₀ (initNodes g ends m) := h.initNodes
  have hends : Scheme.Ends (SameEdges nodes₀ g.nodes 0) ((firstLoop g).direct ends g.nodes (.boot (initNodes g ends m))) :=
    Scheme.direct_ends (firstLoop_keeps g nodes₀) hcount ⟨.inl ⟨rfl, rfl⟩, hinit.kept, hinit.pending, hinit.calm⟩
  exact (loop_keeps Machine.mishaps (fun _ _ => useBufs_nil_mishaps _) _ _).trans hends.calm

/-! ## Iterations of the second kind

They wait for all transfers at their end. -/

structure Between (nodes₀ : ℤ → Node φ) (s : Pass φ) : Prop where
  bufs : (s.node.ping = 0 ∧ s.node.pong = 1) ∨ (s.node.ping = 1 ∧ s.node.pong = 0)
  distinct : Distinct s.second
  idle : Idle nodes₀ s.second.machine

lemma Between.iteration {s : Pass φ}
    {first : Scheme.Walk (Node φ) (List (Node φ)) → Scheme.Walk (Node φ) (List (Node φ))}
    (hfirst : ∀ s, Scheme.Starts (SameEdges nodes₀ 0 0) s → Scheme.Ends (SameEdges nodes₀ g.nodes 0) (first s))
    (hnodes : 0 < g.nodes) (hcount : g.nodes ≤ g.nodesCount) (h : Between nodes₀ s) :
    Between nodes₀ (iteration g ends first s) := by
  have hends := hfirst ⟨s.node, s.second.machine⟩ ⟨h.bufs, h.idle.kept, h.idle.pending, h.idle.calm⟩
  have hdistinct : Distinct { s.second with machine := (first ⟨s.node, s.second.machine⟩).machine } :=
    ⟨h.distinct.rp, h.distinct.rw, h.distinct.pw⟩
  obtain ⟨hupdated, hcalm, hdistinct'⟩ :=
    secondLoop_spec (p := g.params) hdistinct hends.pending hnodes (hnodes.trans_le hcount) ends
  refine ⟨hends.bufs, hdistinct', ?_, hupdated.pending, (hcalm hcount).trans hends.calm⟩
  intro i
  have hkept : (_ : Node φ).edges = _ := hends.data i
  rw [← hkept]
  refine (congrArg Node.edges (hupdated.nodes i)).trans ?_
  split <;> rfl

lemma kernelDma2_idle (hnodes : 0 < g.nodes) (hcount : g.nodes ≤ g.nodesCount) (k : ℕ)
    (h : Idle nodes₀ m) : Idle nodes₀ (kernelDma2 g ends k m) := by
  have hstart : Between nodes₀ ⟨⟨0, 1, 0⟩, dma2Buffers (initNodes g ends m)⟩ :=
    ⟨.inl ⟨rfl, rfl⟩, ⟨by simp [dma2Buffers], by simp [dma2Buffers], by simp [dma2Buffers]⟩, h.initNodes⟩
  exact (loop_inv (fun _ => Between nodes₀) hstart fun _ s _ hs => hs.iteration
    (fun s hs => Scheme.direct_ends (firstLoop_keeps g nodes₀) (hnodes.trans_le hcount) hs) hnodes hcount).idle

lemma kernelBest_idle (hnodes : 0 < g.nodes) (hcount : g.nodes ≤ g.nodesCount) (k : ℕ)
    (h : Idle nodes₀ m) : Idle nodes₀ (kernelBest g ends k m) := by
  have hstart : Between nodes₀ ⟨⟨0, 1, 0⟩, bestBuffers (initNodes g ends m)⟩ :=
    ⟨.inl ⟨rfl, rfl⟩, ⟨by simp [bestBuffers], by simp [bestBuffers], by simp [bestBuffers]⟩, h.initNodes⟩
  exact (loop_inv (fun _ => Between nodes₀) hstart fun _ s _ hs => hs.iteration
    (fun s hs => Scheme.fetched_ends (firstBest_keeps g nodes₀) (firstBest_sound (hnodes.trans_le hcount))
      (fun t ht => by simpa [firstBest, firstLoop] using ht) hs) hnodes hcount).idle

end SmcPim.Graphs.PageRank
