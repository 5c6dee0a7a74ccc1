import Mathlib

/-!
# Runs of a labelled transition system

A system is a step relation `S → L → S → Prop`.
-/

namespace SmcPim.Runs

variable {S L : Type*}

/-- From `s`, the labels `ls` lead to the last state. -/
inductive Steps (step : S → L → S → Prop) : S → List L → S → Prop
  | nil (s : S) : Steps step s [] s
  | cons {s t u : S} {l : L} {ls : List L} :
      step s l t → Steps step t ls u → Steps step s (l :: ls) u

/-- The steps of `step` that `ok` allows in the state before them. -/
def Restrict (step : S → L → S → Prop) (ok : S → L → Prop) : S → L → S → Prop :=
  fun s l t => ok s l ∧ step s l t

variable {step : S → L → S → Prop}

variable {s t u : S} {ls ms : List L} {l : L} {step' ok : S → L → S → Prop} {P : S → Prop}
  {E : Type*} {f : S → L → Except E S}

/-- What holds at the start and is kept by every step holds after every run. -/
lemma Steps.inv (I : S → Prop) (hstep : ∀ s l t, I s → step s l t → I t) (h : Steps step s ls t)
    (h0 : I s) : I t := by
  induction h with
  | nil => exact h0
  | cons hs _ ih => exact ih (hstep _ _ _ h0 hs)

lemma Steps.append (h : Steps step s ls t) (h' : Steps step t ms u) :
    Steps step s (ls ++ ms) u := by
  induction h with
  | nil => exact h'
  | cons hs _ ih => exact .cons hs (ih h')

lemma Steps.of_append (h : Steps step s (ls ++ ms) u) :
    ∃ t, Steps step s ls t ∧ Steps step t ms u := by
  induction ls generalizing s with
  | nil => exact ⟨s, .nil s, h⟩
  | cons l ls ih =>
    rcases h with _ | ⟨hs, h⟩
    obtain ⟨t, hls, hms⟩ := ih h
    exact ⟨t, .cons hs hls, hms⟩

lemma Steps.single (h : step s l t) : Steps step s [l] t :=
  .cons h (.nil t)

lemma Steps.mono (h : Steps step s ls t)
    (hstep : ∀ s l t, step s l t → step' s l t) : Steps step' s ls t := by
  induction h with
  | nil => exact .nil _
  | cons hs _ ih => exact .cons (hstep _ _ _ hs) ih

lemma Steps.of_labels {P : L → Prop} (h : Steps step s ls t) (hP : ∀ l ∈ ls, P l)
    (hstep : ∀ s l t, P l → step s l t → step' s l t) : Steps step' s ls t := by
  induction h with
  | nil => exact .nil _
  | cons hs _ ih =>
    rw [List.forall_mem_cons] at hP
    exact .cons (hstep _ _ _ hP.1 hs) (ih hP.2)

/-! ## Moments of a run -/

/-- In one of the states that the run `ls` from `s` passes, the first and the last included. -/
def Moment (step : S → L → S → Prop) (s : S) (ls : List L) (P : S → Prop) : Prop :=
  ∃ ms m, ms <+: ls ∧ Steps step s ms m ∧ P m

lemma Moment.last (h : Steps step s ls t) (ht : P t) : Moment step s ls P :=
  ⟨ls, t, List.prefix_refl ls, h, ht⟩

lemma Moment.mono (h : Moment step s ls P) (ks : List L) : Moment step s (ls ++ ks) P := by
  obtain ⟨ms, m, hms, hm, hP⟩ := h
  exact ⟨ms, m, hms.trans (List.prefix_append ls ks), hm, hP⟩

lemma Steps.inv_history (I : List L → S → Prop) (h0 : I [] s)
    (hstep : ∀ ls t l u, Steps step s ls t → I ls t → step t l u → I (ls ++ [l]) u) (h : Steps step s ls t) : I ls t := by
  suffices hs : ∀ ks m, Steps step s ks m → I ks m → Steps step m ls t → I (ks ++ ls) t from
    hs [] s (.nil s) h0 h
  clear h h0
  intro ks m hks hI h
  induction h generalizing ks with
  | nil => rwa [List.append_nil]
  | @cons m n t l ls hs _ ih =>
    have h := ih (ks ++ [l]) (hks.append (.single hs)) (hstep ks m l n hks hI hs)
    rwa [List.append_assoc] at h

/-- Both systems step, the second by what `f` makes of the label, and are related afterwards. -/
def Alongside {A M : Type*} (step : S → L → S → Prop) (step' : A → M → A → Prop) (f : L → M) (R : S → A → Prop) :
    S × A → L → S × A → Prop :=
  fun x l y => step x.1 l y.1 ∧ step' x.2 (f l) y.2 ∧ R y.1 y.2

lemma Steps.alongside {A M : Type*} {step' : A → M → A → Prop} {f : L → M} {R : S → A → Prop}
    (hstep : ∀ s l t a, R s a → step s l t → ∃ b, step' a (f l) b ∧ R t b) {a : A} (h : Steps step s ls t) (h0 : R s a) :
    ∃ b, Steps (Alongside step step' f R) (s, a) ls (t, b) ∧ R t b := by
  induction h generalizing a with
  | nil => exact ⟨a, .nil _, h0⟩
  | @cons _ m _ l _ hs _ ih =>
    obtain ⟨b, hb, hR⟩ := hstep _ l m a h0 hs
    obtain ⟨c, hc, hR'⟩ := ih hR
    exact ⟨c, .cons (t := (m, b)) ⟨hs, hb, hR⟩ hc, hR'⟩

/-! ## Systems that compute their next state -/

section Partial
variable (next : S → L → Option S)

/-- The step relation of a partial function: a label with no next state cannot be taken. -/
def Next : S → L → S → Prop := fun s l t => next s l = some t

def exec : S → List L → Option S
  | s, [] => some s
  | s, l :: ls => (next s l).bind fun t => exec t ls

lemma steps_iff_exec (s t : S) (ls : List L) :
    Steps (Next next) s ls t ↔ exec next s ls = some t := by
  constructor
  · intro h
    induction h with
    | nil => rfl
    | cons hs _ ih => rw [exec, show next _ _ = _ from hs]; exact ih
  · intro h
    induction ls generalizing s with
    | nil => rw [exec, Option.some.injEq] at h; subst h; exact .nil _
    | cons l ls ih =>
      rw [exec, Option.bind_eq_some_iff] at h
      obtain ⟨m, hm, hrest⟩ := h
      exact .cons hm (ih m hrest)

/-- What shows of a run, if `event` is what shows of a step. -/
def trace {M : Type*} (event : S → L → Option M) : S → List L → List M
  | _, [] => []
  | s, l :: ls => (event s l).toList ++ (next s l).elim [] fun t => trace event t ls

variable {next}

lemma Steps.simulate {A M : Type*} (event : S → L → Option M) {step' : A → M → A → Prop}
    (R : S → A → Prop)
    (hstep : ∀ s l t a, R s a → next s l = some t → ∃ b, Steps step' a (event s l).toList b ∧ R t b)
    {s t : S} {ls : List L} {a : A} (h : Steps (Next next) s ls t) (h0 : R s a) :
    ∃ b, Steps step' a (trace next event s ls) b ∧ R t b := by
  induction h generalizing a with
  | nil => exact ⟨a, .nil a, h0⟩
  | cons hs _ ih =>
    obtain ⟨b, hb, hR⟩ := hstep _ _ _ _ h0 hs
    obtain ⟨c, hc, hR'⟩ := ih hR
    refine ⟨c, ?_, hR'⟩
    rw [trace, show next _ _ = _ from hs]
    exact hb.append hc

end Partial

/-- The next state of a system that may fail, when it does not. -/
def succeed {E : Type*} (f : S → L → Except E S) : S → L → Option S := fun s l => (f s l).toOption

lemma next_succeed : Next (succeed f) s l t ↔ f s l = .ok t := by
  unfold Next succeed
  rcases f s l with e | u
  · simp [Except.toOption]
  · simp [Except.toOption]

/-- The same, for steps with a condition that can be checked. -/
def guarded {E : Type*} (f : S → L → Except E S) (ok : S → L → S → Prop)
    [∀ s l t, Decidable (ok s l t)] : S → L → Option S :=
  fun s l => (f s l).toOption.filter fun t => decide (ok s l t)

lemma guarded_eq_some [∀ s l t, Decidable (ok s l t)] :
    guarded f ok s l = some t ↔ f s l = .ok t ∧ ok s l t := by
  unfold guarded
  rw [Option.filter_eq_some_iff, decide_eq_true_iff]
  exact and_congr_left fun _ => next_succeed

lemma steps_of_guarded
    [∀ s l t, Decidable (ok s l t)] (hstep : ∀ s l t, f s l = .ok t → ok s l t → step s l t) (h : exec (guarded f ok) s ls = some t) : Steps step s ls t := by
  induction ls generalizing s with
  | nil =>
    rw [exec, Option.some.injEq] at h
    subst h
    exact .nil _
  | cons l ls ih =>
    rw [exec, Option.bind_eq_some_iff] at h
    obtain ⟨m, hm, hrest⟩ := h
    obtain ⟨hf, hok⟩ := guarded_eq_some.mp hm
    exact .cons (hstep s l m hf hok) (ih hrest)

end SmcPim.Runs
