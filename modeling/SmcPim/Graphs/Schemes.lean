import SmcPim.Graphs.Scratchpad

/-!
# How the kernels walk over a sparse graph

The kernels in `SW/PIM/kernels/sgraph_*.c` read the nodes in chunks, always one chunk ahead. They
differ in how they get the lists of a node: from memory, by DMA before they work on the node, or by
DMA while they work on the node before.
-/

namespace SmcPim.Graphs

open Engine

/-- What a kernel does. What no kernel changes of a node is in `τ`. -/
structure Scheme (ν τ α : Type) where
  count : ℕ
  fixed : ν → τ
  /-- The nodes whose lists are read. -/
  wanted : τ → Bool
  degree : τ → ℕ
  /-- The lists of a node, each with its resource. -/
  resources : List DmaRes
  content : ℕ → τ → ℕ → ℕ
  /-- What is done for an edge, from a copy of the node and the words of its lists. -/
  edge : ν → (ℕ → ℕ) → (ℤ → ν) × α → (ℤ → ν) × α
  /-- `num_pongs`, an `int`, as the type of the counter that it is compared with. -/
  counter : ℕ → ℕ

variable {ν τ α : Type}

namespace Scheme

section
variable (K : Scheme ν τ α) (ends : ℕ → List ℕ)

def nodes : Stream DmaRes Transfer := nodesStream K.count fun _ => true

def copy (c : Cursor) (w : World ν α) : ν := w.nodeBuf c.ping c.pos

/-! ## Lists from memory -/

structure Walk (ν α : Type) where
  node : Cursor
  machine : Machine (World ν α) DmaRes Transfer

/-- `nodes_ping` and `nodes_pong` at the start of a kernel. -/
def Walk.boot (m : Machine (World ν α) DmaRes Transfer) : Walk ν α := ⟨⟨0, 1, 0⟩, m⟩

def directEdge (c : Cursor) (j : ℕ) : Machine (World ν α) DmaRes Transfer → Machine (World ν α) DmaRes Transfer :=
  useBufs ends [c.ping] fun w =>
    K.edge (copy c w) (fun i => K.content i (K.fixed (copy c w)) j) w.data

def directNode (r : ℕ) (s : Walk ν α) : Walk ν α :=
  let (c, m) := K.nodes.refill (engine ends) r s.node s.machine
  let m := peek ends c.ping m
  let t := K.fixed (copy c m.world)
  ⟨c.next, if K.wanted t then loop (K.directEdge ends c) (K.degree t) m else m⟩

/-- The first chunk is requested, into the second buffer. -/
def start (s : Walk ν α) : Walk ν α :=
  ⟨⟨s.node.ping, s.node.pong, K.count⟩, (engine ends).request .res0 (K.nodes.chunk 0 s.node.pong) s.machine⟩

def direct (n : ℕ) (s : Walk ν α) : Walk ν α := loop (K.directNode ends) n (K.start ends s)

/-! ## Lists by DMA -/

def listTransfers (t : τ) (base : ℕ) : List (DmaRes × Transfer) :=
  K.resources.zipIdx.map fun x => (x.1, .readWords (K.content x.2 t) (K.degree t) (base + x.2))

def requestLists (t : τ) (base : ℕ) (m : Machine (World ν α) DmaRes Transfer) :
    Machine (World ν α) DmaRes Transfer :=
  (K.listTransfers t base).foldl (fun m x => (engine ends).request x.1 x.2 m) m

def listBufs (base : ℕ) : List ℕ := (List.range K.resources.length).map (base + ·)

def fetchedEdge (c : Cursor) (base j : ℕ) :
    Machine (World ν α) DmaRes Transfer → Machine (World ν α) DmaRes Transfer :=
  useBufs ends (c.ping :: K.listBufs base) fun w => K.edge (copy c w) (fun i => w.wordBuf (base + i) j) w.data

def fetchedNode (r : ℕ) (s : Walk ν α) : Walk ν α :=
  let (c, m) := K.nodes.refill (engine ends) r s.node s.machine
  let m := peek ends c.ping m
  let t := K.fixed (copy c m.world)
  let m := if K.wanted t then K.requestLists ends t 2 m else m
  let m := (engine ends).wait K.resources m
  let m := peek ends c.ping m
  let t := K.fixed (copy c m.world)
  ⟨c.next, loop (K.fetchedEdge ends c 2) (K.degree t) m⟩

def fetched (n : ℕ) (s : Walk ν α) : Walk ν α := loop (K.fetchedNode ends) n (K.start ends s)

/-! ## Lists by DMA, one node ahead -/

/-- `num_pongs` without a node: the `int` -1. -/
def noPongs : ℕ := 2 ^ 32 - 1

structure Ahead (ν α : Type) where
  node : Cursor
  ping : ℕ
  pong : ℕ
  numPongs : ℕ
  kept : Option ν
  machine : Machine (World ν α) DmaRes Transfer

def aheadEdge (n : Option ν) (base j : ℕ) :
    Machine (World ν α) DmaRes Transfer → Machine (World ν α) DmaRes Transfer :=
  useBufs ends (K.listBufs base) fun w =>
    match n with
    | none => w.data
    | some n => K.edge n (fun i => w.wordBuf (base + i) j) w.data

def drain (s : Ahead ν α) : Ahead ν α :=
  if s.numPongs ≠ noPongs then
    { s with
      numPongs := noPongs
      machine := loop (K.aheadEdge ends s.kept s.ping) (K.counter s.numPongs) s.machine }
  else s

def fetchAhead (r : ℕ) (s : Ahead ν α) : Ahead ν α :=
  let (c, m) := K.nodes.refill (engine ends) r s.node s.machine
  let m := peek ends c.ping m
  let t := K.fixed (copy c m.world)
  { s with node := c, machine := if K.wanted t then K.requestLists ends t s.pong m else m }

def takeOver (s : Ahead ν α) : Ahead ν α :=
  let m := peek ends s.node.ping s.machine
  let n := copy s.node m.world
  if K.wanted (K.fixed n) then
    { node := s.node.next
      ping := s.pong
      pong := s.ping
      numPongs := K.degree (K.fixed n) % 2 ^ 32
      kept := some n
      machine := (engine ends).wait K.resources m }
  else { s with node := s.node.next, machine := m }

def aheadNode (r : ℕ) (s : Ahead ν α) : Ahead ν α := K.takeOver ends (K.drain ends (K.fetchAhead ends r s))

def ahead (n : ℕ) (s : Walk ν α) : Walk ν α :=
  let s := K.start ends s
  let s := K.drain ends (loop (K.aheadNode ends) n
    ⟨s.node, 2, 2 + K.resources.length, noPongs, none, s.machine⟩)
  ⟨s.node, s.machine⟩

end

end Scheme

end SmcPim.Graphs
