import SmcPim.Host.Region
import SmcPim.Resident
import SmcPim.Task.Pages

/-!
# The balanced search tree

`create_tree`, `init_tree`, `init_search_list` and `golden_search` of `offload_tree/main.cc`, and
the two kernels of `PIM/kernels/tree_search.c`. A node is the three words `key`, `left` and `right`.
All addresses in use are whole words apart, so that no two words overlap.
-/

namespace SmcPim.TreeSearch

open Stops
open Host (Stop)

structure Params where
  host : Host.Config
  height : ℕ
  numOperations : ℕ

def Params.word (p : Params) : ℕ := p.host.arch.bytes

def Params.nodeSize (p : Params) : ℕ := 3 * p.word

def Params.requiredMemSize (p : Params) : ℕ := 2 ^ p.height * p.nodeSize + p.numOperations * p.word

def pow2 (a : Arch) (value : ℕ) : ℕ := loop (fun _ res => a.ulong (res * 2)) value 1

structure App where
  mem : ℕ → ℕ
  region : Host.Region
  tree : ℕ
  searchList : ℕ

/-! ## The host -/

section
variable (p : Params)

def Params.numNodes : ℕ := p.host.arch.sub (pow2 p.host.arch p.height) 1

/-- `pn[j].left = &cn[j*2]` and `pn[j].right = &cn[j*2+1]` -/
def link (pn cn j : ℕ) (mem : ℕ → ℕ) : ℕ → ℕ :=
  let mem := Function.update mem (pn + j * p.nodeSize + p.word) (cn + j * 2 * p.nodeSize)
  Function.update mem (pn + j * p.nodeSize + 2 * p.word) (cn + (j * 2 + 1) * p.nodeSize)

/-- The application with `pn`, the row above. -/
def createRow (i : ℕ) (s : App × ℕ) : App × ℕ :=
  let (cn, region) := s.1.region.allocateRegion (p.host.arch.ulong (pow2 p.host.arch i * p.nodeSize))
  if i = 0 then ({ s.1 with region, tree := cn }, cn)
  else ({ s.1 with region, mem := loop (link p s.2 cn) (pow2 p.host.arch (i - 1)) s.1.mem }, cn)

def createTree (s : App) : App := (loop (createRow p) p.height (s, 0)).1

def initTree : ℕ → (ℕ → ℕ) → ℕ → ℕ → ℕ → Except Stop (ℕ → ℕ)
  | 0, _, _, _, _ => .error .outOfFuel
  | fuel + 1, mem, current, start, count =>
    if current = 0 then .ok mem
    else do
      let a := p.host.arch
      let half := a.sub count 1 / 2
      let mem ← initTree fuel mem (mem (current + p.word)) start half
      let mem ← initTree fuel mem (mem (current + 2 * p.word)) (a.ulong (start + half + 1)) half
      .ok (Function.update mem current (a.ulong (start + count / 2)))

variable (rand : ℕ → ℕ)

def drawKey (i : ℕ) (s : App) : Except (Stop × App) App :=
  if p.numNodes = 0 then .error (.divisionByZero, s)
  else .ok { s with mem := Function.update s.mem (s.searchList + i * p.word) (rand i % p.numNodes) }

def initSearchList (s : App) : Except (Stop × App) App :=
  let (searchList, region) := s.region.allocateRegion (p.host.arch.ulong (p.numOperations * p.word))
  loopE (drawKey p rand) p.numOperations { s with searchList, region }

/-- `main` up to the offloading, in memory `mem`. -/
def setup (fuel : ℕ) (mem : ℕ → ℕ) : Except (Stop × App) App := do
  let s := createTree p { mem, region := p.host.initRegion, tree := 0, searchList := 0 }
  match initTree p fuel s.mem s.tree 0 p.numNodes with
  | .error e => .error (e, s)
  | .ok mem => initSearchList p rand { s with mem }

end

/-! ## The searches -/

/-- The loop `while (curr)`, with `visit` for how a node is read: its key, and its children. -/
def descend {σ : Type} (a : Arch) (visit : ℕ → σ → (ℕ × ℕ × ℕ) × σ) (goal : ℕ) :
    ℕ → ℕ → ℕ → σ → Except Stop (Bool × ℕ × σ)
  | 0, _, _, _ => .error .outOfFuel
  | fuel + 1, curr, checksum, s =>
    if curr = 0 then .ok (false, checksum, s)
    else
      let ((key, left, right), s) := visit curr s
      let checksum := a.ulong (checksum + 1)
      if key = goal then .ok (true, checksum, s)
      else if key > goal then descend a visit goal fuel left checksum s
      else descend a visit goal fuel right checksum s

section
variable (p : Params)

def loadNode (curr : ℕ) (mem : ℕ → ℕ) : (ℕ × ℕ × ℕ) × (ℕ → ℕ) :=
  ((mem curr, mem (curr + p.word), mem (curr + 2 * p.word)), mem)

def goal (s : App) (i : ℕ) : ℕ := s.mem (s.searchList + i * p.word)

def goldenSearch (fuel : ℕ) (s : App) : Except Stop ℕ :=
  loopE (fun i checksum => do
    let (found, checksum, _) ← descend p.host.arch (loadNode p) (goal p s i) fuel s.tree checksum s.mem
    if found then .ok checksum else .error .exit) p.numOperations 0

/-- The checksum, and whether `PIM_ERROR_REG` was set. -/
def kernelDefault (fuel : ℕ) (s : App) : Except Stop (ℕ × Bool) :=
  loopE (fun i (x : ℕ × Bool) => do
    let (found, checksum, _) ← descend p.host.arch (loadNode p) (goal p s i) fuel s.tree x.1 s.mem
    .ok (checksum, x.2 || !found)) p.numOperations (0, false)

structure World where
  mem : ℕ → ℕ
  vreg : ℕ → ℕ

/-- A transfer reads three words at an address into `PIM_VREG`. -/
def readNode (addr : ℕ) (w : World) : World :=
  { w with vreg := fun i => if i < 3 then w.mem (addr + i * p.word) else w.vreg i }

def engine (ends : ℕ → List ℕ) : Engine World ℕ where
  effect := readNode p
  meets _ _ := true
  ends := ends

variable (ends : ℕ → List ℕ)

def fetchNode (curr : ℕ) (m : Machine World DmaRes ℕ) : (ℕ × ℕ × ℕ) × Machine World DmaRes ℕ :=
  let E := engine p ends
  let m := E.wait [.res0] (E.request .res0 curr m)
  let m := E.act (fun _ => true) id m
  ((m.world.vreg 0, m.world.vreg 1, m.world.vreg 2), m)

def kernelDma (fuel : ℕ) (s : App) (vreg : ℕ → ℕ) : Except Stop (ℕ × Bool × Machine World DmaRes ℕ) :=
  loopE (fun i (x : ℕ × Bool × Machine World DmaRes ℕ) => do
    let (found, checksum, m) ← descend p.host.arch (fetchNode p ends) (goal p s i) fuel s.tree x.1 x.2.2
    .ok (checksum, x.2.1 || !found, m)) p.numOperations (0, false, Machine.boot ⟨s.mem, vreg⟩)

end

end SmcPim.TreeSearch
