import SmcPim.Lib.Runs
import SmcPim.Lib.SetOps

/-! # Atomic objects -/

namespace SmcPim

variable {τ σ ο ρ ι : Type*}

/-- What an operation does to the state of an object, and what it answers. -/
structure Sequential (σ ο ρ : Type*) where
  after : σ → ο → σ
  answer : σ → ο → ρ

/-- A step of a thread: it calls, it returns, or it does something that only `ι` tells apart. -/
inductive Label (τ ο ρ ι : Type*)
  | call (t : τ) (op : ο)
  | ret (t : τ) (r : ρ)
  | step (t : τ) (i : ι)
  deriving DecidableEq

def Label.seen : Label τ ο ρ ι → Option (Label τ ο ρ Empty)
  | call t op => some (.call t op)
  | ret t r => some (.ret t r)
  | step _ _ => none

inductive Status (ο ρ : Type*)
  | idle
  | pending (op : ο)
  | answered (r : ρ)

@[ext] structure Atomic (τ σ ο ρ : Type*) where
  state : σ
  status : τ → Status ο ρ

namespace Atomic

variable [DecidableEq τ] {O : Sequential σ ο ρ} {a b : Atomic τ σ ο ρ} {t : τ} {op : ο} {r : ρ}

inductive Step (O : Sequential σ ο ρ) :
    Atomic τ σ ο ρ → Label τ ο ρ Unit → Atomic τ σ ο ρ → Prop
  | call {a : Atomic τ σ ο ρ} {t : τ} {op : ο} (h : a.status t = .idle) :
      Step O a (.call t op) ⟨a.state, Function.update a.status t (.pending op)⟩
  | take {a : Atomic τ σ ο ρ} {t : τ} {op : ο} (h : a.status t = .pending op) :
      Step O a (.step t ())
        ⟨O.after a.state op, Function.update a.status t (.answered (O.answer a.state op))⟩
  | ret {a : Atomic τ σ ο ρ} {t : τ} {r : ρ} (h : a.status t = .answered r) :
      Step O a (.ret t r) ⟨a.state, Function.update a.status t .idle⟩

def start (x : σ) : Atomic τ σ ο ρ := ⟨x, fun _ => .idle⟩

def history (ls : List (Label τ ο ρ ι)) : List (Label τ ο ρ Empty) := ls.filterMap Label.seen

/-- The atomic object, from `x`, can show the same history and be in the state `a`. -/
def Explains (O : Sequential σ ο ρ) (x : σ) (ls : List (Label τ ο ρ ι)) (a : Atomic τ σ ο ρ) : Prop :=
  ∃ as, Runs.Steps (Step O) (start x) as a ∧ history as = history ls

def Matches (O : Sequential σ ο ρ) (a : Atomic τ σ ο ρ) (l : Label τ ο ρ ι) (b : Atomic τ σ ο ρ) :
    Prop :=
  ∃ as, Runs.Steps (Step O) a as b ∧ history as = history [l]

lemma Matches.call (h : a.status t = .idle)
    (hb : b = ⟨a.state, Function.update a.status t (.pending op)⟩) :
    Matches (ι := ι) O a (.call t op) b :=
  ⟨[.call t op], hb ▸ .single (.call h), rfl⟩

lemma Matches.ret (h : a.status t = .answered r)
    (hb : b = ⟨a.state, Function.update a.status t .idle⟩) : Matches (ι := ι) O a (.ret t r) b :=
  ⟨[.ret t r], hb ▸ .single (.ret h), rfl⟩

variable {i : ι} {x : σ} {ls : List (Label τ ο ρ ι)}

lemma Matches.none (hb : b = a) : Matches O a (.step t i) b := by
  subst hb
  exact ⟨[], .nil _, rfl⟩

lemma Matches.take {u : τ} (h : a.status u = .pending op)
    (hb : b = ⟨O.after a.state op, Function.update a.status u (.answered (O.answer a.state op))⟩) :
    Matches O a (.step t i) b :=
  ⟨[.step u ()], hb ▸ .single (.take h), rfl⟩

lemma Explains.refl (O : Sequential σ ο ρ) (x : σ) :
    Explains O x ([] : List (Label τ ο ρ ι)) (start x) :=
  ⟨[], .nil _, rfl⟩

lemma Explains.append {l : Label τ ο ρ ι}
    (h : Explains O x ls a) (hl : Matches O a l b) : Explains O x (ls ++ [l]) b := by
  obtain ⟨as, hrun, hseen⟩ := h
  obtain ⟨bs, hrun', hseen'⟩ := hl
  refine ⟨as ++ bs, hrun.append hrun', ?_⟩
  unfold history at hseen hseen' ⊢
  rw [List.filterMap_append, List.filterMap_append, hseen, hseen']

/-- A system each of whose steps the object can match shows only histories of the object. -/
lemma explains_of_matches {S : Type*} {step : S → Label τ ο ρ ι → S → Prop}
    {R : S → Atomic τ σ ο ρ → Prop}
    (hstep : ∀ s l s' a, R s a → step s l s' → ∃ b, Matches O a l b ∧ R s' b) {s s' : S}
    (hrun : Runs.Steps step s ls s') (h0 : R s (start x)) : ∃ a, Explains O x ls a ∧ R s' a := by
  suffices h : ∀ (ks : List (Label τ ο ρ ι)) a, Explains O x ks a → R s a →
      ∃ b, Explains O x (ks ++ ls) b ∧ R s' b from h [] _ (Explains.refl O x) h0
  clear h0
  induction hrun with
  | nil s =>
    intro ks a hks hR
    exact ⟨a, by rwa [List.append_nil], hR⟩
  | @cons s t u l ls hs _ ih =>
    intro ks a hks hR
    obtain ⟨b, hmatch, hRt⟩ := hstep s l t a hR hs
    obtain ⟨c, hc, hRu⟩ := ih (ks ++ [l]) b (hks.append hmatch) hRt
    rw [List.append_assoc] at hc
    exact ⟨c, hc, hRu⟩

end Atomic

def setObject (κ : Type*) [DecidableEq κ] : Sequential (Finset κ) (SetOp κ) Bool where
  after S op := op.after S
  answer S op := op.answer S

end SmcPim
