import SmcPim.Checker.Model

/-! # What the verdicts of the checker say -/

namespace SmcPim.Checker

open List

def KeysMeet (P : ℕ → Prop) (init : List (ℕ × Bool)) (logs : List (List (Entry ℕ))) : Prop :=
  (∀ x ∈ init, P x.1) ∧ ∀ log ∈ logs, ∀ e ∈ log, P e.op.key

variable {S : Finset ℕ} {l : List ℕ} {init : List (ℕ × Bool)} {logs : List (List (Entry ℕ))} {es : List (Entry ℕ)}
  {s : State} {n lo : ℕ}

lemma KeysMeet.imp {P Q : ℕ → Prop} (h : KeysMeet P init logs) (hPQ : ∀ x, P x → Q x) :
    KeysMeet Q init logs :=
  ⟨fun x hx => hPQ _ (h.1 x hx), fun log hlog e he => hPQ _ (h.2 log hlog e he)⟩

/-! ## One thread -/

section
variable (a b : List (Entry ℕ)) (n : ℕ)

end

/-! ## Soundness -/

end SmcPim.Checker
