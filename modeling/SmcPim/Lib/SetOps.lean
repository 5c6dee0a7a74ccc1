import Mathlib

/-! # The operations of a set -/

namespace SmcPim

open Finset

inductive SetOp (κ : Type*)
  | contains (k : κ)
  | add (k : κ)
  | remove (k : κ)
  deriving DecidableEq

namespace SetOp

variable {κ : Type*}

def key : SetOp κ → κ
  | contains k | add k | remove k => k

variable [DecidableEq κ]

def answer (S : Finset κ) : SetOp κ → Bool
  | contains k => decide (k ∈ S)
  | add k => decide (k ∉ S)
  | remove k => decide (k ∈ S)

def after (S : Finset κ) : SetOp κ → Finset κ
  | contains _ => S
  | add k => insert k S
  | remove k => S.erase k

/-- The answer of a set that holds at most `cap` keys. -/
def answerIn (cap : ℕ) (S : Finset κ) : SetOp κ → Bool
  | contains k => decide (k ∈ S)
  | add k => decide (k ∉ S ∧ S.card < cap)
  | remove k => decide (k ∈ S)

def afterIn (cap : ℕ) (S : Finset κ) : SetOp κ → Finset κ
  | contains _ => S
  | add k => if S.card < cap then insert k S else S
  | remove k => S.erase k

def answersIn (cap : ℕ) : Finset κ → List (SetOp κ) → List Bool
  | _, [] => []
  | S, op :: ops => op.answerIn cap S :: answersIn cap (op.afterIn cap S) ops

def finalIn (cap : ℕ) (S : Finset κ) (ops : List (SetOp κ)) : Finset κ :=
  ops.foldl (fun S op => op.afterIn cap S) S

variable {cap : ℕ} {S : Finset κ} {op : SetOp κ}

lemma mem_of_mem_afterIn {k : κ} (h : k ∈ op.afterIn cap S) : k = op.key ∨ k ∈ S := by
  cases op with
  | contains x => exact .inr h
  | add x =>
    dsimp only [afterIn] at h
    split at h
    · exact mem_insert.mp h
    · exact .inr h
  | remove x => exact .inr (mem_of_mem_erase h)

lemma answerIn_eq (h : (op.after S).card ≤ cap) : op.answerIn cap S = op.answer S := by
  cases op with
  | contains k => rfl
  | add k =>
    by_cases hk : k ∈ S
    · simp [answerIn, answer, hk]
    · rw [after, card_insert_of_notMem hk] at h
      simp [answerIn, answer, hk, Nat.lt_of_succ_le h]
  | remove k => rfl

lemma afterIn_eq (h : (op.after S).card ≤ cap) : op.afterIn cap S = op.after S := by
  cases op with
  | contains k => rfl
  | add k =>
    by_cases hk : k ∈ S
    · simp [afterIn, after, hk]
    · rw [after, card_insert_of_notMem hk] at h
      exact if_pos (Nat.lt_of_succ_le h)
  | remove k => rfl

lemma eq_add_of_card_lt (hS : S.card ≤ cap) (h : cap < (op.after S).card) :
    ∃ k, op = .add k ∧ k ∉ S ∧ S.card = cap := by
  cases op with
  | contains k => exact absurd h (Nat.not_lt.mpr hS)
  | add k =>
    have hle := card_insert_le k S
    have hk : k ∉ S := by
      intro hk
      rw [after, insert_eq_of_mem hk] at h
      exact absurd h (Nat.not_lt.mpr hS)
    exact ⟨k, rfl, hk, Nat.le_antisymm hS (Nat.le_of_lt_succ (Nat.lt_of_lt_of_le h hle))⟩
  | remove k => exact absurd h (Nat.not_lt.mpr (le_trans (card_erase_le) hS))

lemma mem_of_mem_after {k : κ} (h : k ∈ op.after S) : k = op.key ∨ k ∈ S := by
  cases op with
  | contains x => exact .inr h
  | add x => exact mem_insert.mp h
  | remove x => exact .inr (mem_of_mem_erase h)

/-! ## Operations one after the other -/

def answers : Finset κ → List (SetOp κ) → List Bool
  | _, [] => []
  | S, op :: ops => op.answer S :: answers (op.after S) ops

def final (S : Finset κ) (ops : List (SetOp κ)) : Finset κ := ops.foldl after S

variable {T : Finset κ} {ops ops' : List (SetOp κ)} {op' : SetOp κ} {k : κ}

lemma answer_congr (h : op.key ∈ S ↔ op.key ∈ T) : op.answer S = op.answer T := by
  cases op <;> simpa [answer, key] using h

lemma mem_after_of_ne (h : op.key ≠ k) : k ∈ op.after S ↔ k ∈ S := by
  cases op with
  | contains x => rfl
  | add x | remove x => simp [after, show k ≠ x from fun hk => h hk.symm]

lemma mem_after_self (h : op.key ∈ S ↔ op.key ∈ T) : op.key ∈ op.after S ↔ op.key ∈ op.after T := by
  cases op with
  | contains x => exact h
  | add x | remove x => simp [after, key]

lemma after_comm (h : op.key ≠ op'.key) : op'.after (op.after S) = op.after (op'.after S) := by
  ext k
  by_cases hk : op.key = k
  · subst hk
    rw [mem_after_of_ne h.symm]
    exact mem_after_self (mem_after_of_ne h.symm).symm
  · rw [mem_after_of_ne hk]
    by_cases hk' : op'.key = k
    · subst hk'
      exact mem_after_self (mem_after_of_ne hk)
    · rw [mem_after_of_ne hk', mem_after_of_ne hk', mem_after_of_ne hk]

lemma answers_eq_map (h : (ops.map key).Nodup) : answers S ops = ops.map (answer S) := by
  induction ops generalizing S with
  | nil => rfl
  | cons op ops ih =>
    rw [List.map_cons, List.nodup_cons] at h
    rw [answers, List.map_cons, ih h.2]
    congr 1
    refine List.map_congr_left fun op' hop' => answer_congr (mem_after_of_ne ?_)
    intro heq
    exact h.1 (heq ▸ List.mem_map_of_mem hop')

lemma final_perm (hp : ops.Perm ops') (h : (ops.map key).Nodup) : final S ops = final S ops' := by
  refine hp.foldl_eq' (fun op hop op' hop' T => ?_) S
  by_cases heq : op = op'
  · rw [heq]
  · exact after_comm fun hkey => heq (List.inj_on_of_nodup_map h hop hop' hkey)

end SetOp

end SmcPim
