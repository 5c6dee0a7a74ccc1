import SmcPim.Lib.SetOps

/-! # Logs of threads, merged -/

namespace SmcPim

open List

variable {τ ε κ : Type*} [DecidableEq τ]

/-- The entries of each thread are those of its log, in their order. -/
def Merges (log : τ → List ε) (m : List (τ × ε)) : Prop :=
  ∀ t, (m.filter fun x => x.1 = t).map Prod.snd = log t

namespace Merges

variable {log : τ → List ε} {m : List (τ × ε)} {t : τ} {e : ε}

lemma nil (h : ∀ t, log t = []) : Merges log [] := fun t => (h t).symm

lemma concat (h : Merges log m) (t : τ) (e : ε) :
    Merges (Function.update log t (log t ++ [e])) (m ++ [(t, e)]) := by
  intro u
  rw [filter_append, map_append, h u]
  by_cases hu : u = t
  · rw [hu, Function.update_self]
    simp
  · rw [Function.update_of_ne hu]
    simp [Ne.symm hu]

lemma mem_log (h : Merges log m) {x : τ × ε} (hx : x ∈ m) : x.2 ∈ log x.1 := by
  rw [← h x.1]
  exact mem_map_of_mem (mem_filter.mpr ⟨hx, decide_eq_true rfl⟩)

lemma only (h : Merges log m) (hlog : ∀ u ≠ t, log u = []) : m.map Prod.snd = log t := by
  have hall : ∀ x ∈ m, x.1 = t := by
    intro x hx
    by_contra hne
    have hmem := h.mem_log hx
    rw [hlog x.1 hne] at hmem
    exact absurd hmem not_mem_nil
  rw [← h t, filter_eq_self.mpr fun x hx => decide_eq_true (hall x hx)]

end Merges

structure Entry (κ : Type*) where
  op : SetOp κ
  res : Bool
  deriving DecidableEq

variable [DecidableEq κ]

def Answered (S : Finset κ) (es : List (Entry κ)) : Prop := SetOp.answers S (es.map Entry.op) = es.map Entry.res

instance (S : Finset κ) (es : List (Entry κ)) : Decidable (Answered S es) := inferInstanceAs (Decidable (_ = _))

section
variable {S : Finset κ} {es : List (Entry κ)} {e : Entry κ}

lemma answered_nil (S : Finset κ) : Answered S [] := rfl

lemma answered_cons : Answered S (e :: es) ↔ e.op.answer S = e.res ∧ Answered (e.op.after S) es := by
  simp [Answered, SetOp.answers]

lemma answered_concat :
    Answered S (es ++ [e]) ↔ Answered S es ∧ e.op.answer (SetOp.final S (es.map Entry.op)) = e.res := by
  induction es generalizing S with
  | nil => simp [Answered, SetOp.answers, SetOp.final]
  | cons e' es ih =>
    rw [cons_append, answered_cons, answered_cons, ih, and_assoc]
    rfl

lemma final_concat :
    SetOp.final S ((es ++ [e]).map Entry.op) = e.op.after (SetOp.final S (es.map Entry.op)) := by
  simp [SetOp.final]

end

end SmcPim
