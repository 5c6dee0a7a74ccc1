import Mathlib

/-! # The life of a mutex -/

namespace SmcPim.Mutex

inductive Use (τ : Type*)
  | init
  | lock (t : τ)
  | unlock (t : τ)
  | destroy
  deriving DecidableEq

inductive Status (τ : Type*)
  | absent
  | free
  | held (t : τ)
  deriving DecidableEq

variable {α τ : Type*} [DecidableEq α] [DecidableEq τ]

/-- What a use makes of a mutex, if it is a right one. -/
def Status.after : Status τ → Use τ → Option (Status τ)
  | absent, .init => some free
  | free, .lock t => some (held t)
  | held t, .unlock u => if t = u then some free else none
  | free, .destroy => some absent
  | _, _ => none

def uses (p : α) (l : List (α × Use τ)) : List (Use τ) := (l.filter (·.1 = p)).map (·.2)

def status (p : α) (l : List (α × Use τ)) : Option (Status τ) := (uses p l).foldlM Status.after .absent

/-- Each mutex at `p` was initialised once before its use, and destroyed once while it was free. -/
def WellUsed (p : α) (l : List (α × Use τ)) : Prop := status p l = some .absent

instance (p : α) (l : List (α × Use τ)) : Decidable (WellUsed p l) := decEq _ _

variable {p q : α} {u : Use τ} {l l' : List (α × Use τ)} {m : Status τ}

omit [DecidableEq τ] in
lemma uses_append : uses p (l ++ l') = uses p l ++ uses p l' := by simp [uses]

omit [DecidableEq τ] in
lemma mem_uses : u ∈ uses p l ↔ (p, u) ∈ l := by
  simp only [uses, List.mem_map, List.mem_filter, decide_eq_true_eq, Prod.exists]
  constructor
  · rintro ⟨q, v, ⟨hmem, rfl⟩, rfl⟩
    exact hmem
  · exact fun hmem => ⟨p, u, ⟨hmem, rfl⟩, rfl⟩

lemma status_append : status p (l ++ l') = (status p l).bind fun m =>
    (uses p l').foldlM Status.after m := by
  rw [status, uses_append, List.foldlM_append]
  rfl

lemma status_self : status p (l ++ [(p, u)]) = (status p l).bind fun m => m.after u := by
  rw [status_append]
  congr 1
  funext m
  simp [uses]

lemma status_of_ne (h : q ≠ p) : status p (l ++ [(q, u)]) = status p l := by
  rw [status_append]
  simp [uses, h]

lemma status_append_none (h : status p l = none) : status p (l ++ l') = none := by
  rw [status_append, h]
  rfl

lemma status_append_of_unused (h : uses p l' = []) : status p (l ++ l') = status p l := by
  rw [status_append, h]
  cases status p l <;> rfl

lemma status_of_not_init (hinit : (p, .init) ∉ l) (hused : (p, u) ∈ l) : status p l = none := by
  unfold status
  cases huses : uses p l with
  | nil => exact absurd (mem_uses.mpr hused) (by simp [huses])
  | cons u us =>
    have hmem : (p, u) ∈ l := mem_uses.mp (huses ▸ List.mem_cons_self)
    cases u with
    | init => exact absurd hmem hinit
    | lock t | unlock t | destroy => rfl

end SmcPim.Mutex
