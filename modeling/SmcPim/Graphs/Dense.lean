import SmcPim.Graphs.Scratchpad

/-!
# Teenage followers in a dense graph

From `SW/PIM/kernels/dgraph_teenage_follower.c` and `SW/HOST/app/offload_dgraph/defs.hh`. The edges
are in a matrix of words, row by row.
-/

namespace SmcPim.Graphs

open Engine List

/-! ## Followers -/

/-- What a node says of its edges is in `ε`. -/
structure Node (ε : Type) where
  teenager : Bool
  followers : ℕ
  edges : ε

def Node.fixed {ε : Type} (n : Node ε) : Bool × ε := (n.teenager, n.edges)

/-- `nodes[c].followers++`, also by `HMC_ATOMIC___INCR`. -/
def incr {ε : Type} (a : Arch) (c : ℤ) (nodes : ℤ → Node ε) : ℤ → Node ε :=
  Function.update nodes c { nodes c with followers := a.ulong ((nodes c).followers + 1) }

def totalFollowers {ε : Type} (a : Arch) (n : ℕ) (nodes : ℤ → Node ε) : ℕ :=
  loop (fun r total => a.ulong (total + (nodes r).followers)) n 0

lemma incr_fixed {ε : Type} (a : Arch) (c : ℤ) (nodes : ℤ → Node ε) (i : ℤ) :
    (incr a c nodes i).fixed = (nodes i).fixed := by
  unfold incr
  by_cases hi : i = c
  · rw [hi, Function.update_self]
    rfl
  · rw [Function.update_of_ne hi]

namespace Dense

structure Params where
  arch : Arch
  nodes : ℕ
  adj : ℕ → ℕ
  nodesCount : ℕ
  adjCount : ℕ

section
variable (p : Params)

def Params.nc : ℕ := 2 ^ p.arch.bits - 1

def addEdge (r c : ℕ) (nodes : ℤ → Node Unit) : ℤ → Node Unit :=
  if p.adj (r * p.nodes + c) ≠ p.nc then incr p.arch c nodes else nodes

def addRow (r : ℕ) (nodes : ℤ → Node Unit) : ℤ → Node Unit :=
  if (nodes r).teenager then loop (addEdge p r) p.nodes nodes else nodes

def kernelDefault (nodes : ℤ → Node Unit) : (ℤ → Node Unit) × ℕ :=
  let nodes := loop (addRow p) p.nodes nodes
  (nodes, totalFollowers p.arch p.nodes nodes)

/-! ## `kernel_dma2` -/

def nodes : Stream DmaRes Transfer := nodesStream p.nodesCount fun i => i < p.nodes

def row (r : ℕ) : Stream DmaRes Transfer where
  res := .res1
  chunk c k := .readWords (fun j => p.adj (r * p.nodes + c + j)) p.adjCount k
  count := p.adjCount
  fetch c := c < p.nodes

/-- `pi0`, `po0` and `rr`, and `pi1`, `po1` and `cc`. -/
structure State where
  node : Cursor
  adj : Cursor
  machine : Machine (World (Node Unit) Unit) DmaRes Transfer

variable (ends : ℕ → List ℕ)

def dmaEdge (r c : ℕ) (s : State) : State :=
  let (adj, m) := (row p r).refill (engine ends) c s.adj s.machine
  let m := useBufs ends [adj.ping]
    (fun w => (if w.wordBuf adj.ping adj.pos ≠ p.nc then incr p.arch c w.nodes else w.nodes, ())) m
  { s with adj := adj.next, machine := m }

def dmaRow (r : ℕ) (s : State) : State :=
  let m := (engine ends).request .res1 ((row p r).chunk 0 s.adj.pong) s.machine
  loop (dmaEdge p ends r) p.nodes { s with adj := { s.adj with pos := p.adjCount }, machine := m }

def dmaNode (r : ℕ) (s : State) : State :=
  let (node, m) := (nodes p).refill (engine ends) r s.node s.machine
  let m := peek ends node.ping m
  let s := { s with node := node, machine := m }
  let s := if (m.world.nodeBuf node.ping node.pos).teenager then dmaRow p ends r s else s
  { s with node := s.node.next }

def kernelDma2 (w : World (Node Unit) Unit) : Machine (World (Node Unit) Unit) DmaRes Transfer × ℕ :=
  let m := (engine ends).request .res0 ((nodes p).chunk 0 1) (Machine.boot w)
  let s := loop (dmaNode p ends) p.nodes ⟨⟨0, 1, p.nodesCount⟩, ⟨2, 3, p.adjCount⟩, m⟩
  (s.machine, totalFollowers p.arch p.nodes s.machine.world.nodes)

end

/-! ## The matrix -/

variable {p : Params} {ends : ℕ → List ℕ} {nodes₀ ns : ℤ → Node Unit} {known : List Transfer}
  {l : List (DmaRes × Transfer)} {r c : ℕ} {s : State}

lemma addEdge_fixed (r c : ℕ) (ns : ℤ → Node Unit) (i : ℤ) : (addEdge p r c ns i).fixed =
    (ns i).fixed := by
  unfold addEdge
  split
  · exact incr_fixed ..
  · rfl

lemma edges_fixed (r n : ℕ) (ns : ℤ → Node Unit) (i : ℤ) :
    (loop (addEdge p r) n ns i).fixed = (ns i).fixed :=
  loop_keeps (fun ns => (ns i).fixed) (fun c ns => addEdge_fixed r c ns i) n ns

lemma addRow_fixed (r : ℕ) (ns : ℤ → Node Unit) (i : ℤ) : (addRow p r ns i).fixed = (ns i).fixed := by
  unfold addRow
  split
  · exact edges_fixed ..
  · rfl

/-! ## `kernel_dma2` follows `kernel_default` -/

/-- The nodes are as `kernel_default` has them, and the copies are right. -/
abbrev Follows (nodes₀ ns : ℤ → Node Unit) (ends : ℕ → List ℕ) :=
  Ready Node.fixed nodes₀ ends (· = (ns, ()))

lemma kept_of_fixed (h : ∀ i, (ns i).fixed = (nodes₀ i).fixed) :
    ∀ x, x = (ns, ()) → Kept Node.fixed nodes₀ x.1 := by
  rintro _ rfl
  exact h

structure InRow (p : Params) (nodes₀ ns : ℤ → Node Unit) (ends : ℕ → List ℕ) (known : List Transfer)
    (l : List (DmaRes × Transfer)) (r c : ℕ) (s : State) : Prop where
  cursor : s.adj.Before 2 3 p.adjCount c
  ready : Follows nodes₀ (loop (addEdge p r) c ns) ends ((row p r).loaded c s.adj ++ known)
    ((row p r).ahead c s.adj ++ l) s.machine

structure Others (known : List Transfer) (l : List (DmaRes × Transfer)) : Prop where
  resource : DmaRes.res1 ∉ l.map Prod.fst
  bufs : ∀ d ∈ known ++ l.map Prod.snd, d.buf < 2

lemma Others.free (h : Others known l) {buf : ℕ} (hbuf : 2 ≤ buf) :
    (row p r).Free Transfer.buf Transfer.IsRead known l buf := by
  refine ⟨fun _ => trivial, fun i hmem => ?_, h.resource⟩
  obtain ⟨d, hd, heq⟩ := mem_map.mp hmem
  have hlt := h.bufs d hd
  have : d.buf = buf := heq
  omega

lemma InRow.edge (h : InRow p nodes₀ ns ends known l r c s) (hothers : Others known l)
    (hns : ∀ i, (ns i).fixed = (nodes₀ i).fixed) (hadj : 0 < p.adjCount) (hc : c < p.nodes) :
    InRow p nodes₀ ns ends known l r (c + 1) (dmaEdge p ends r c s) := by
  have hat := Stream.refill_at (S := row p r) (E := engine ends) (m := s.machine) h.cursor hadj
  have hready : Follows nodes₀ (loop (addEdge p r) c ns) ends _ _ _ :=
    h.ready.refill h.cursor (decide_eq_true hc) (hothers.free (by decide)) (hothers.free (by decide))
      fun _ _ => by simp [row, Transfer.buf]
  unfold dmaEdge
  generalize (row p r).refill (engine ends) c s.adj s.machine = q at hat hready
  obtain ⟨adj, m⟩ := q
  dsimp only at hat hready ⊢
  refine ⟨hat.next, Runs.advance ?_⟩
  dsimp only
  refine Ready.useBufs hready (by simp; exact .inl rfl) (· = (loop (addEdge p r) (c + 1) ns, ()))
    (kept_of_fixed fun i => (edges_fixed ..).trans (hns i)) fun w hw hpost => ?_
  have hword := hpost _ mem_cons_self adj.pos hat.lt
  have hindex : r * p.nodes + (c - adj.pos) + adj.pos = r * p.nodes + c := by
    have := hat.back
    omega
  dsimp only at hword hw ⊢
  rw [hindex] at hword
  have hnodes : w.nodes = loop (addEdge p r) c ns := congrArg Prod.fst hw
  rw [loop_succ, addEdge, ← hword, hnodes]

lemma InRow.row (h : InRow p nodes₀ ns ends known l r 0 s) (hothers : Others known l)
    (hns : ∀ i, (ns i).fixed = (nodes₀ i).fixed) (hadj : 0 < p.adjCount) :
    InRow p nodes₀ ns ends known l r p.nodes (loop (dmaEdge p ends r) p.nodes s) :=
  loop_inv (InRow p nodes₀ ns ends known l r) h fun _ _ hc hs => hs.edge hothers hns hadj hc

lemma row_ahead (hc : s.adj.Before 2 3 p.adjCount p.nodes) : (row p r).ahead p.nodes s.adj = [] := by
  refine if_neg ?_
  have := hc.le
  simp only [row, decide_eq_true_eq, not_lt]
  omega

lemma dmaRow_spec (h : Follows nodes₀ ns ends known l s.machine) (hothers : Others known l)
    (hbufs : (s.adj.ping = 2 ∧ s.adj.pong = 3) ∨ (s.adj.ping = 3 ∧ s.adj.pong = 2))
    (hns : ∀ i, (ns i).fixed = (nodes₀ i).fixed) (hadj : 0 < p.adjCount) (hnodes : 0 < p.nodes) :
    Follows nodes₀ (loop (addEdge p r) p.nodes ns) ends known l (dmaRow p ends r s).machine ∧
      (dmaRow p ends r s).adj.Before 2 3 p.adjCount p.nodes ∧ (dmaRow p ends r s).node = s.node := by
  have hstart : InRow p nodes₀ ns ends known l r 0
      { s with
        adj := { s.adj with pos := p.adjCount }
        machine := (engine ends).request .res1 ((row p r).chunk 0 s.adj.pong) s.machine } := by
    have hpong : 2 ≤ s.adj.pong := by omega
    refine ⟨⟨hbufs, le_rfl, fun hlt => absurd hlt (lt_irrefl _)⟩, ?_⟩
    exact h.start_stream (decide_eq_true hnodes) (hothers.free hpong)
  have hend := hstart.row hothers hns hadj
  refine ⟨?_, hend.cursor, ?_⟩
  · have hready := hend.ready
    rw [row_ahead hend.cursor] at hready
    exact hready.forget (sublist_append_right ..)
  · exact loop_keeps State.node (fun c s => (rfl : (dmaEdge p ends r c s).node = s.node)) _ _

structure BeforeNode (p : Params) (nodes₀ : ℤ → Node Unit) (ends : ℕ → List ℕ) (r : ℕ) (s : State) : Prop where
  cursor : s.node.Before 0 1 p.nodesCount r
  adj : (s.adj.ping = 2 ∧ s.adj.pong = 3) ∨ (s.adj.ping = 3 ∧ s.adj.pong = 2)
  ready : Follows nodes₀ (loop (addRow p) r nodes₀) ends ((nodes p).loaded r s.node ++ [])
    ((nodes p).ahead r s.node ++ []) s.machine

lemma free_node (buf : ℕ) : (nodes p).Free Transfer.buf Transfer.IsRead [] [] buf :=
  ⟨fun _ => trivial, fun _ => not_mem_nil, not_mem_nil⟩

lemma others_node {node : Cursor} (hat : node.At 0 1 p.nodesCount r) :
    Others [(nodes p).current r node] ((nodes p).ahead r node ++ []) := by
  have hbufs := hat.bufs
  have hahead : ∀ x ∈ (nodes p).ahead r node ++ [], x.1 = .res0 ∧ x.2.buf = node.pong := by
    intro x hx
    rw [append_nil] at hx
    unfold Stream.ahead at hx
    split at hx
    · rw [mem_singleton.mp hx]
      exact ⟨rfl, rfl⟩
    · exact absurd hx not_mem_nil
  constructor
  · intro hmem
    obtain ⟨x, hx, hres⟩ := mem_map.mp hmem
    rw [(hahead x hx).1] at hres
    cases hres
  · intro d hd
    rcases mem_append.mp hd with hd | hd
    · rw [mem_singleton.mp hd]
      change node.ping < 2
      omega
    · obtain ⟨x, hx, rfl⟩ := mem_map.mp hd
      rw [(hahead x hx).2]
      omega

lemma nodes_ahead {node : Cursor} (hc : node.Before 0 1 p.nodesCount p.nodes) :
    (nodes p).ahead p.nodes node ++ [] = [] := by
  rw [append_nil]
  refine if_neg ?_
  have := hc.le
  simp only [nodes, nodesStream, decide_eq_true_eq, not_lt]
  omega

lemma BeforeNode.node (h : BeforeNode p nodes₀ ends r s) (hcount : 0 < p.nodesCount)
    (hadj : 0 < p.adjCount)
    (hr : r < p.nodes) : BeforeNode p nodes₀ ends (r + 1) (dmaNode p ends r s) := by
  have hat := Stream.refill_at (S := nodes p) (E := engine ends) (m := s.machine) h.cursor hcount
  have hready : Follows nodes₀ (loop (addRow p) r nodes₀) ends _ _ _ :=
    h.ready.refill h.cursor (decide_eq_true hr) (free_node 0) (free_node 1)
      fun _ _ => by simp [nodes, nodesStream, Transfer.buf]
  have hfixed : ∀ i, (loop (addRow p) r nodes₀ i).fixed = (nodes₀ i).fixed :=
    fun i => loop_keeps (fun ns => (ns i).fixed) (fun r ns => addRow_fixed r ns i) r nodes₀
  unfold dmaNode
  generalize (nodes p).refill (engine ends) r s.node s.machine = q at hat hready
  obtain ⟨node, m⟩ := q
  dsimp only at hat hready ⊢
  have hpeek : Follows nodes₀ (loop (addRow p) r nodes₀) ends _ _ (peek ends node.ping m) :=
    Ready.peek hready (kept_of_fixed hfixed) mem_cons_self
  have hteen : ((peek ends node.ping m).world.nodeBuf node.ping node.pos).teenager =
      (loop (addRow p) r nodes₀ r).teenager := by
    have hcopy := copy_eq hat (hpeek.loaded.2 _ mem_cons_self)
    exact congrArg Prod.fst (hcopy.trans (hfixed r).symm)
  rw [hteen]
  split
  · rename_i hyes
    obtain ⟨hrow, hadj', hnode⟩ := dmaRow_spec (r := r) (s := ⟨node, s.adj, peek ends node.ping m⟩) hpeek
      (others_node hat) h.adj hfixed hadj (by omega)
    refine ⟨?_, hadj'.bufs, ?_⟩
    · rw [hnode]
      exact hat.next
    · rw [loop_succ, addRow, if_pos hyes, hnode]
      exact hrow.advance
  · rename_i hno
    refine ⟨hat.next, h.adj, ?_⟩
    rw [loop_succ, addRow, if_neg hno]
    exact hpeek.advance

lemma boot_before (hnodes : 0 < p.nodes) (w : World (Node Unit) Unit) :
    BeforeNode p w.nodes ends 0
      ⟨⟨0, 1, p.nodesCount⟩, ⟨2, 3, p.adjCount⟩,
        (engine ends).request .res0 ((nodes p).chunk 0 1) (Machine.boot w)⟩ := by
  refine ⟨⟨.inl ⟨rfl, rfl⟩, le_rfl, fun h => absurd h (lt_irrefl _)⟩, .inl ⟨rfl, rfl⟩, ?_⟩
  have hstart : Follows w.nodes w.nodes ends [] [] (Machine.boot w) :=
    .start (fills ends (kept_of_fixed fun _ => rfl)) rfl rfl rfl
  exact hstart.start_stream (decide_eq_true hnodes) (free_node 1)

/-- `kernel_dma2` counts as `kernel_default` does, and keeps to the rules of the DMA. -/
theorem kernelDma2_eq_kernelDefault (p : Params) (hnodes : 1 ≤ p.nodes) (hcount : 1 ≤ p.nodesCount)
    (hadj : 1 ≤ p.adjCount) (ends : ℕ → List ℕ) (w : World (Node Unit) Unit) :
    ((kernelDma2 p ends w).1.world.nodes, (kernelDma2 p ends w).2) = kernelDefault p w.nodes ∧
      (kernelDma2 p ends w).1.mishaps = [] ∧ (kernelDma2 p ends w).1.pending = [] := by
  have hend : BeforeNode p w.nodes ends p.nodes
      (loop (dmaNode p ends) p.nodes ⟨⟨0, 1, p.nodesCount⟩, ⟨2, 3, p.adjCount⟩,
        (engine ends).request .res0 ((nodes p).chunk 0 1) (Machine.boot w)⟩) :=
    loop_inv (BeforeNode p w.nodes ends) (boot_before hnodes w) fun _ _ hr hs => hs.node hcount hadj hr
  have hnil := nodes_ahead hend.cursor
  have hready := hend.ready
  rw [hnil] at hready
  have hworld : (kernelDma2 p ends w).1.world.nodes = loop (addRow p) p.nodes w.nodes :=
    congrArg Prod.fst hready.loaded.1
  refine ⟨?_, hready.calm, List.eq_nil_iff_forall_not_mem.mpr fun x hx => List.not_mem_nil (hready.awaits.known x hx)⟩
  exact Prod.ext hworld (congrArg (totalFollowers p.arch p.nodes) hworld)

theorem kernelDma2_eq_kernelDefault_three :
    let p : Params := ⟨.arm, 3, fun i => if i % 2 = 0 then 1 else 2 ^ 32 - 1, 2, 2⟩
    let w : World (Node Unit) Unit := ⟨fun i => ⟨i != 1, 0, ()⟩, (), fun _ _ => ⟨false, 0, ()⟩, fun _ _ => 0⟩
    ((kernelDma2 p (fun _ => []) w).1.world.nodes, (kernelDma2 p (fun _ => []) w).2) = kernelDefault p w.nodes ∧
      (kernelDma2 p (fun _ => []) w).1.mishaps = [] ∧ (kernelDma2 p (fun _ => []) w).1.pending = [] :=
  kernelDma2_eq_kernelDefault _ (by decide) (by decide) (by decide) _ _

end Dense

end SmcPim.Graphs
