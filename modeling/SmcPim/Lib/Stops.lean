import Mathlib

/-! # Computations that may stop -/

namespace SmcPim

lemma bind_eq_ok {ε α β : Type} {x : Except ε α} {f : α → Except ε β} {r : β} :
    x >>= f = .ok r ↔ ∃ a, x = .ok a ∧ f a = .ok r := by
  rcases x with e | a
  · simp [Bind.bind, Except.bind]
  · simp [Bind.bind, Except.bind]

lemma ok_bind {ε α β : Type} (a : α) (f : α → Except ε β) : (Except.ok a >>= f) = f a := rfl

namespace Stops

variable {ε α β : Type} {E : ε → Prop} {P Q : α → Prop}

def Ends (E : ε → Prop) (P : α → Prop) : Except ε α → Prop
  | .ok a => P a
  | .error e => E e

variable {x : Except ε α} {E' : ε → Prop} {body : ℕ → α → Except ε α} {n m : ℕ} {s : α}

lemma Ends.bind {R : β → Prop} {f : α → Except ε β} (h : Ends E P x)
    (hf : ∀ a, P a → Ends E R (f a)) : Ends E R (x >>= f) := by
  cases x with
  | error e => exact h
  | ok a => exact hf a h

lemma Ends.imp (h : Ends E P x) (hE : ∀ e, E e → E' e) (hP : ∀ a, P a → Q a) : Ends E' Q x := by
  cases x with
  | error e => exact hE e h
  | ok a => exact hP a h

lemma Ends.and (h : Ends E P x) (h' : Ends E' Q x) :
    Ends (fun e => E e ∧ E' e) (fun a => P a ∧ Q a) x := by
  cases x with
  | error e | ok a => exact ⟨h, h'⟩

lemma ends_false_iff : Ends (fun _ => False) P x ↔ ∃ a, x = .ok a ∧ P a := by
  cases x with
  | error e | ok a => simp [Ends]

def loopE (body : ℕ → α → Except ε α) : ℕ → α → Except ε α
  | 0, s => .ok s
  | n + 1, s => loopE body n s >>= body n

lemma loopE_zero (body : ℕ → α → Except ε α) (s : α) : loopE body 0 s = .ok s := rfl

lemma loopE_succ (body : ℕ → α → Except ε α) (n : ℕ) (s : α) : loopE body
    (n + 1) s = loopE body n s >>= body n := rfl

lemma loopE_ends (I : ℕ → α → Prop) (h0 : I 0 s)
    (hbody : ∀ k s, k < n → I k s → Ends E (I (k + 1)) (body k s)) : Ends E (I n) (loopE body n s) := by
  induction n with
  | zero => exact h0
  | succ n ih =>
    rw [loopE_succ]
    exact (ih fun k s hk => hbody k s (hk.trans n.lt_succ_self)).bind fun t ht => hbody n t n.lt_succ_self ht

lemma loopE_error {e : ε} (h : loopE body m s = .error e)
    (hmn : m ≤ n) : loopE body n s = .error e := by
  induction n, hmn using Nat.le_induction with
  | base => exact h
  | succ n _ ih =>
    rw [loopE_succ, ih]
    rfl

lemma loopE_from {t : α} (I : α → Prop) (h : loopE body m s = .ok t) (hI : I t)
    (hbody : ∀ k s, I s → Ends E I (body k s)) (hmn : m ≤ n) : Ends E I (loopE body n s) := by
  induction n, hmn using Nat.le_induction with
  | base =>
    rw [h]
    exact hI
  | succ n _ ih =>
    rw [loopE_succ]
    exact ih.bind fun s hs => hbody n s hs

end Stops

end SmcPim
