import SmcPim.Checker.Sequential

/-!
# The consistency checker

From `host/test_consistency/consist_test.cpp`. The logs are given as they are parsed.
-/

namespace SmcPim.Checker

/-- What is printed at the end. An empty vector of logs is indexed if there is no thread. -/
inductive Verdict
  | initDiffers
  | tooManyThreads
  | undefined
  | passed
  | failed
  deriving DecidableEq

structure State where
  list : List ℕ
  predLoc : ℕ → ℕ

/-- `srch_num` is an `int`: what it is as a `ulong_t`. -/
def srchNum (x : ℕ) : ℕ :=
  let low := x % 2 ^ 32
  if low < 2 ^ 31 then low else low + (2 ^ 64 - 2 ^ 32)

/-- The command that is searched for, and whether to leave it out (`dont_add`, `dont_rmv`). -/
structure Sought where
  command : SetOp ℕ
  skip : Bool

def sought (e : Entry ℕ) (calculated : Bool) : Option Sought :=
  match e.op, e.res, calculated with
  | .add x, true, false => some ⟨.remove (srchNum x), true⟩
  | .add x, false, true => some ⟨.add (srchNum x), false⟩
  | .contains x, true, false => some ⟨.add (srchNum x), false⟩
  | .contains x, false, true => some ⟨.remove (srchNum x), false⟩
  | .remove x, true, false => some ⟨.add (srchNum x), true⟩
  | .remove x, false, true => some ⟨.remove (srchNum x), false⟩
  | _, _, _ => none

section
variable (logs : List (List (Entry ℕ)))

def search (command : SetOp ℕ) (predLoc : ℕ → ℕ) : Option (ℕ × ℕ) :=
  (List.range logs.length).tail.findSome? fun t =>
    (((logs.getD t []).drop (predLoc t)).findIdx? (· == ⟨command, true⟩)).map fun i => (t, predLoc t + i)

/-- A command that was successful is repeated, unless it is a `contains`. -/
def repeatEntry (l : List ℕ) (e : Entry ℕ) : List ℕ :=
  match e.res, e.op with
  | true, .add x => (add x l).2
  | true, .remove x => (remove x l).2
  | _, _ => l

def catchUp (c : Sought) (t loc : ℕ) (s : State) : State :=
  let before := ((logs.getD t []).drop (s.predLoc t)).take (loc - s.predLoc t)
  let l := before.foldl repeatEntry s.list
  ⟨if c.skip then l else (exec l c.command).2, Function.update s.predLoc t (loc + 1)⟩

/-- The big loop, with what is left of the log of the main thread. -/
def check : List (Entry ℕ) → State → Verdict
  | [], _ => .passed
  | e :: rest, s =>
    let s' : State := { s with list := (exec s.list e.op).2 }
    match sought e (exec s.list e.op).1 with
    | none => check rest s'
    | some c =>
      match search logs c.command s.predLoc with
      | none => .failed
      | some (t, loc) => check rest (catchUp logs c t loc s')

end

end SmcPim.Checker
