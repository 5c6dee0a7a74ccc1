import SmcPim.Lib.Stops

/-!
# Words, addresses and faults

The driver and the PIM compute with words of their architecture, gem5 with 64 bits.
-/

namespace SmcPim

/-- The PIM has the architecture of the host: ARMv7 or ARMv8. -/
inductive Arch
  | arm | arm64
  deriving DecidableEq, Repr

/-- The parameter `pim_arch`. -/
def Arch.bits : Arch → Nat
  | .arm => 32
  | .arm64 => 64

def Arch.bytes (a : Arch) : Nat := a.bits / 8

def Arch.ulong (a : Arch) (n : Nat) : Nat := n % 2 ^ a.bits

/-- Conversion to `Addr`, which is 64 bits wide in gem5. -/
def addr64 (n : Nat) : Nat := n % 2 ^ 64

def sub64 (a b : Nat) : Nat := addr64 (a + 2 ^ 64 - b)

/-- `(Addr)-1`, the answer of a failed lookup. -/
def noAddr : Nat := 2 ^ 64 - 1

/-- The word of memory at each byte address. -/
def Memory := Nat → Nat

/-- The simulator stops: `panic` with its text, `assert` with its condition, or undefined behaviour.
-/
inductive Fault
  | panic (msg : String)
  | assertion (cond : String)
  | undefined (expr : String)
  deriving DecidableEq, Repr

/-- `assert(p)`, with the condition as the source writes it. -/
def assert (p : Prop) [Decidable p] (cond : String) : Except Fault Unit :=
  if p then .ok () else .error (.assertion cond)

/-! ## Arithmetic without overflow, and steps that do not fault -/

lemma Arch.pow_bits_le (a : Arch) : 2 ^ a.bits ≤ 2 ^ 64 := by cases a <;> decide

lemma Arch.bytes_pos (a : Arch) : 0 < a.bytes := by cases a <;> decide

lemma Arch.bytes_cases (a : Arch) : a.bytes = 4 ∨ a.bytes = 8 := by cases a <;> decide

variable {n : Nat} {p : Prop} {cond : String} {α : Type} {x : Except Fault α}

lemma Arch.ulong_of_lt {a : Arch} (h : n < 2 ^ a.bits) : a.ulong n = n :=
  Nat.mod_eq_of_lt h

lemma Arch.ulong_lt (a : Arch) (n : Nat) : a.ulong n < 2 ^ a.bits :=
  Nat.mod_lt _ (Nat.two_pow_pos _)

@[simp] lemma Arch.ulong_ulong (a : Arch) (n : Nat) : a.ulong (a.ulong n) = a.ulong n :=
  Nat.mod_mod _ _

@[simp] lemma Arch.ulong_add_left (a : Arch) (m n : Nat) :
    a.ulong (a.ulong m + n) = a.ulong (m + n) := Nat.mod_add_mod m _ n

lemma Arch.ulong_le (a : Arch) (n : Nat) : a.ulong n ≤ n := Nat.mod_le _ _

lemma addr64_of_lt (h : n < 2 ^ 64) : addr64 n = n := Nat.mod_eq_of_lt h

lemma sub64_of_le {a b : Nat} (h : b ≤ a) (ha : a < 2 ^ 64) : sub64 a b = a - b := by
  unfold sub64 addr64
  omega

lemma assert_eq_ok [Decidable p] {u : Unit} : assert p cond = .ok u ↔ p := by
  unfold assert
  split
  · simp [*]
  · simp [*]

lemma assert_ok [Decidable p] (h : p) : assert p cond = .ok () :=
  if_pos h

def faultOf {α : Type} : Except Fault α → Option Fault
  | .error e => some e
  | .ok _ => none

lemma faultOf_eq_some {e : Fault} : faultOf x = some e ↔ x = .error e := by
  rcases x with e' | a
  · simp [faultOf]
  · simp [faultOf]

/-! ## Steps that do not panic -/

def NoPanic {α : Type} (x : Except Fault α) : Prop := ∀ m, x ≠ .error (.panic m)

lemma NoPanic.bind {β : Type} {f : α → Except Fault β} (hx : NoPanic x)
    (hf : ∀ a, x = .ok a → NoPanic (f a)) : NoPanic (x >>= f) := by
  rcases x with e | a
  · intro m hm
    exact hx m (by simpa [Bind.bind, Except.bind] using hm)
  · exact hf a rfl

end SmcPim
