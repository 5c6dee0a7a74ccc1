import SmcPim.Lib.Merge
import SmcPim.Lib.Runs
import SmcPim.Lib.Tally

/-!
# The counters of the generators

From `host_generator_pthread.cpp` in `All_Summer2017/Jack` and `host_generator_thread.cpp` in
`host/gen_multi`. Each access to an atomic variable and each operation of the list is one step. The
second program makes its operations under a spin lock.
-/

namespace SmcPim.Counters

structure SetList (κ L : Type*) [DecidableEq κ] where
  empty : L
  keys : L → Finset κ
  exec : SetOp κ → L → Bool × L
  keys_empty : keys empty = ∅
  answer : ∀ op l, (exec op l).1 = op.answer (keys l)
  after : ∀ op l, keys (exec op l).2 = op.after (keys l)

inductive Program
  | pthread
  | thread
  deriving DecidableEq

structure Config (κ : Type*) where
  leftBound : ℤ
  rightBound : ℤ
  containPercent : ℤ
  /-- `range` in `main`, which is 101 for the default bounds. -/
  initRange : ℤ
  initialSize : ℤ
  maxSize : ℤ
  totalOps : ℤ
  toKey : ℤ → κ

/-- `range` in `func_gen`. -/
def Config.range {κ : Type*} (cfg : Config κ) : ℤ := cfg.rightBound - cfg.leftBound + 1

inductive Pc (κ : Type*)
  | test
  /-- `lock.exchange(true)`. -/
  | acquire
  | count
  | draw
  /-- `size > 0`, for a `remove`. -/
  | stock (key : κ)
  /-- `size < maxsz`, for an `add`. -/
  | room (key : κ)
  | call (op : SetOp κ)
  | report (op : SetOp κ) (r : Bool)
  | resize (op : SetOp κ) (r : Bool)
  /-- `lock.exchange(false)`. -/
  | release
  | done

structure State (κ L τ : Type*) where
  opCount : ℤ
  size : ℤ
  lock : Bool
  list : L
  pc : τ → Pc κ
  log : τ → List (Entry κ)

/-- A step of a thread, with what `rand` gives it if it calls it. -/
structure Act (τ : Type*) where
  who : τ
  randKey : ℕ
  randTemp : ℕ

section
variable {κ L τ : Type*} [DecidableEq κ] [DecidableEq τ] (k : Program) (cfg : Config κ) (M : SetList κ L)

/-- A turn of the loop in `main`, with what `rand` gives. -/
def fillStep (x : ℤ × L) (randKey : ℕ) : ℤ × L :=
  if x.1 < cfg.initialSize then
    let y := M.exec (.add (cfg.toKey ((randKey : ℤ).tmod cfg.initRange + cfg.leftBound))) x.2
    (if y.1 then x.1 + 1 else x.1, y.2)
  else x

def fill (rands : List ℕ) : ℤ × L := rands.foldl (fillStep cfg M) (0, M.empty)

def init (rands : List ℕ) : State κ L τ where
  opCount := 0
  size := (fill cfg M rands).1
  lock := false
  list := (fill cfg M rands).2
  pc := fun _ => .test
  log := fun _ => []

/-! ## The threads -/

/-- What a thread does with the numbers from `rand`. Only the second program tests the size before a `remove`. -/
def chosen (a : Act τ) : Pc κ :=
  let keyValue := cfg.toKey ((a.randKey : ℤ).tmod cfg.range + cfg.leftBound)
  let randTemp : ℤ := (a.randTemp : ℤ) % 100 + 1
  if randTemp ≤ cfg.containPercent then .call (.contains keyValue)
  else if cfg.containPercent + (100 - cfg.containPercent).tdiv 2 < randTemp then
    match k with
    | .pthread => .call (.remove keyValue)
    | .thread => .stock keyValue
  else .room keyValue

def resized (size : ℤ) : SetOp κ → Bool → ℤ
  | .add _, true => size + 1
  | .remove _, true => size - 1
  | _, _ => size

def State.goto (s : State κ L τ) (t : τ) (p : Pc κ) : State κ L τ := { s with pc := Function.update s.pc t p }

def step (s : State κ L τ) (a : Act τ) : Option (State κ L τ) :=
  match s.pc a.who with
  | .test =>
    if s.opCount < cfg.totalOps then
      match k with
      | .pthread => some (s.goto a.who .count)
      | .thread => some (s.goto a.who .acquire)
    else some (s.goto a.who .done)
  | .acquire => if s.lock then some (s.goto a.who .test) else some { s.goto a.who .count with lock := true }
  | .count => some { s.goto a.who .draw with opCount := s.opCount + 1 }
  | .draw => some (s.goto a.who (chosen k cfg a))
  | .stock key => some (s.goto a.who (.call (if 0 < s.size then .remove key else .add key)))
  | .room key => some (s.goto a.who (.call (if s.size < cfg.maxSize then .add key else .remove key)))
  | .call op =>
    let x := M.exec op s.list
    some { s.goto a.who (.report op x.1) with list := x.2 }
  | .report op r =>
    some { s.goto a.who (.resize op r) with log := Function.update s.log a.who (s.log a.who ++ [⟨op, r⟩]) }
  | .resize op r =>
    match k with
    | .pthread => some { s.goto a.who .test with size := resized s.size op r }
    | .thread => some { s.goto a.who .release with size := resized s.size op r }
  | .release => some { s.goto a.who .test with lock := false }
  | .done => none

end

end SmcPim.Counters
