import SmcPim.Checker.Decimal
import SmcPim.Checker.Sequential
import SmcPim.Lib.While

/-!
# The checker with time stamps

From `host/test_consistency/timestamp_test.cpp`. Each loop whose end depends on the file is given a
supply of turns. The stack is taken to have room for the arrays, so that an `int` has room for their
indices.
-/

namespace SmcPim.Timestamp

open Checker (str2ulong)

/-! ## Reading -/

def strcomp (s1 s2 : List Char) : Bool :=
  if s1.length = s2.length then (s1.zip s2).all fun x => decide (x.1 = x.2) else false

lemma strcomp_iff {s1 s2 : List Char} : strcomp s1 s2 = true ↔ s1 = s2 := by
  unfold strcomp
  split_ifs with hlength
  · induction s1 generalizing s2 with
    | nil => simp [List.length_eq_zero_iff.mp hlength.symm]
    | cons c s1 ih =>
      cases s2 with
      | nil => simp at hlength
      | cons d s2 =>
        rw [List.length_cons, List.length_cons, Nat.add_right_cancel_iff] at hlength
        simp [ih hlength]
  · simp only [false_iff]
    rintro rfl
    exact hlength rfl

def mainCpp : List Char := "(main.cpp):".toList

def added : List Char := "added".toList

def printFrom : List Char := "Print_from_Thread_ID".toList

/-- The words of `infile` that are not read yet, and `temp`. -/
structure Input where
  rest : List (List Char)
  temp : List Char

/-- `infile >> temp`. At the end of the file `temp` keeps its value. -/
def Input.read (i : Input) : Input :=
  match i.rest with
  | [] => i
  | w :: rest => ⟨rest, w⟩

/-- Nothing is read from a file that is missing. -/
def openLog (log : Option (List Char)) : Input := ⟨Text.words (log.getD []), []⟩

structure Header where
  input : Input
  state : ℕ
  initSize : ℕ

def Header.step (s : Header) : Header :=
  match s.state with
  | 0 =>
    let i := s.input.read
    { s with input := i, state := if strcomp mainCpp i.temp then 1 else 0 }
  | 1 =>
    let i := s.input.read
    { s with input := i, state := if strcomp mainCpp i.temp then 1 else if strcomp added i.temp then 2 else 0 }
  | 2 =>
    let i := s.input.read
    ⟨Input.read^[7] i, 3, str2ulong i.temp⟩
  | _ => s

def addRead (s : Input × List ℕ) : Input × List ℕ :=
  let i := s.1.read
  (i, (Checker.add (str2ulong i.temp) s.2).2)

/-! ## The records -/

structure Record where
  typ : Char
  val : ℕ
  res : Bool
  stp : ℕ
  deriving DecidableEq

structure Arrays (ttop : ℕ) where
  comTyp : Fin ttop → Char
  comVal : Fin ttop → ℕ
  comRes : Fin ttop → Bool
  comStp : Fin ttop → ℕ

variable {ttop : ℕ}

def Arrays.record (a : Arrays ttop) (i : Fin ttop) : Record := ⟨a.comTyp i, a.comVal i, a.comRes i, a.comStp i⟩

def Arrays.store (a : Arrays ttop) (i : Fin ttop) (r : Record) : Arrays ttop where
  comTyp := Function.update a.comTyp i r.typ
  comVal := Function.update a.comVal i r.val
  comRes := Function.update a.comRes i r.res
  comStp := Function.update a.comStp i r.stp

structure Reading (ttop : ℕ) where
  input : Input
  arrays : Arrays ttop
  count : ℕ
  /-- A record was stored behind the end of the arrays. -/
  outside : Bool

/-- `temp[0]`, which is the null character if `temp` is empty. -/
def Input.first (i : Input) : Char := i.temp.headD (Char.ofNat 0)

def Reading.more (s : Reading ttop) : Bool := !s.input.rest.isEmpty

def Reading.step (s : Reading ttop) : Reading ttop :=
  let i := s.input.read
  if strcomp printFrom i.temp then
    let typ := i.read.read
    let val := typ.read
    let res := val.read
    let stp := res.read.read
    if h : s.count < ttop then
      let r : Record := ⟨typ.first, str2ulong val.temp, decide (res.first = '1'), str2ulong stp.temp⟩
      { s with input := stp, arrays := s.arrays.store ⟨s.count, h⟩ r, count := s.count + 1 }
    else { s with input := stp, count := s.count + 1, outside := true }
  else { s with input := i }

/-! ## Sorting -/

/-- The inner loop, which leaves `temp_min` and `j_min`. -/
def least (comStp : Fin ttop → ℕ) (i : Fin ttop) : ℕ × Fin ttop :=
  ((List.finRange ttop).drop (i + 1)).foldl (fun m j => if comStp j < m.1 then (comStp j, j) else m) (comStp i, i)

def exchange {α : Type} (com : Fin ttop → α) (i jMin : Fin ttop) : Fin ttop → α :=
  let tp := com i
  Function.update (Function.update com i (com jMin)) jMin tp

def sortStep (a : Arrays ttop) (i : Fin ttop) : Arrays ttop :=
  let jMin := (least a.comStp i).2
  ⟨exchange a.comTyp i jMin, exchange a.comVal i jMin, exchange a.comRes i jMin, exchange a.comStp i jMin⟩

def sort (a : Arrays ttop) : Arrays ttop := (List.finRange ttop).foldl sortStep a

/-! ## Checking -/

/-- The operation with another result and its place, a letter that is none, or `Test passed`. -/
inductive Output
  | differs (op : SetOp ℕ) (ii : ℕ)
  | invalid (typ : Char) (ii : ℕ)
  | passed
  deriving DecidableEq

def Record.command (r : Record) : Option (SetOp ℕ) :=
  if r.typ = 'a' then some (.add r.val)
  else if r.typ = 'c' then some (.contains r.val)
  else if r.typ = 'r' then some (.remove r.val)
  else none

def check : ℕ → List Record → List ℕ → Output
  | _, [], _ => .passed
  | ii, r :: rs, myList =>
    match r.command with
    | none => .invalid r.typ ii
    | some op =>
      if r.res ≠ (Checker.exec myList op).1 then .differs op ii else check (ii + 1) rs (Checker.exec myList op).2

def verdict (a : Arrays ttop) (myList : List ℕ) : Output := check 0 (List.ofFn (sort a).record) myList

inductive Outcome
  | printed (o : Output)
  | storedOutside
  deriving DecidableEq

/-- What stands in an array before the program writes to it is `junk`. -/
def timestampTest (junk : ∀ ttop, Arrays ttop) (fuel : ℕ) (log : Option (List Char)) : Option Outcome := do
  let header ← whileLoop (fun s => s.state != 3) Header.step fuel ⟨openLog log, 0, 0⟩
  let filled := addRead^[header.initSize] (header.input, [])
  let input := Input.read^[7] filled.1
  let ttop := str2ulong input.temp
  let reading ← whileLoop Reading.more Reading.step fuel ⟨input, junk ttop, 0, false⟩
  some (if reading.outside then .storedOutside else .printed (verdict reading.arrays filled.2))

end SmcPim.Timestamp
