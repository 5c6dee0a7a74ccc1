import Mathlib

/-! # Loops with a condition -/

namespace SmcPim

variable {S : Type*}

/-- `while (test) body`, for at most `fuel` turns. -/
def whileLoop (test : S → Bool) (body : S → S) : ℕ → S → Option S
  | 0, s => if test s then none else some s
  | fuel + 1, s => if test s then whileLoop test body fuel (body s) else some s

variable {test : S → Bool} {body : S → S} {fuel : ℕ} {s t : S}

lemma whileLoop_stop (h : test s = false) : whileLoop test body fuel s = some s := by
  cases fuel <;> simp [whileLoop, h]

lemma whileLoop_turn (h : test s = true) : whileLoop test body
    (fuel + 1) s = whileLoop test body fuel (body s) := by
  rw [whileLoop, if_pos h]

lemma eq_of_whileLoop_stop (h : test s = false) (ht : whileLoop test body fuel s = some t) : t = s :=
  Option.some.inj (ht.symm.trans (whileLoop_stop h))

lemma whileLoop_ends (fuel : ℕ) (I : S → Prop) (measure : S → ℕ)
    (hbody : ∀ s, I s → test s = true → I (body s) ∧ measure (body s) < measure s) (hs : I s) (hfuel : measure s ≤ fuel) :
    ∃ t, whileLoop test body fuel s = some t ∧ I t ∧ test t = false := by
  induction fuel generalizing s with
  | zero =>
    cases htest : test s with
    | false => exact ⟨s, whileLoop_stop htest, hs, htest⟩
    | true =>
      have := (hbody s hs htest).2
      omega
  | succ fuel ih =>
    cases htest : test s with
    | false => exact ⟨s, whileLoop_stop htest, hs, htest⟩
    | true =>
      obtain ⟨hI, hlt⟩ := hbody s hs htest
      rw [whileLoop_turn htest]
      exact ih hI (by omega)

lemma whileLoop_inv (I : S → Prop) (hbody : ∀ s, I s → test s = true → I (body s)) (hs : I s)
    (h : whileLoop test body fuel s = some t) : I t ∧ test t = false := by
  induction fuel generalizing s with
  | zero =>
    cases htest : test s with
    | false =>
      obtain rfl := eq_of_whileLoop_stop htest h
      exact ⟨hs, htest⟩
    | true => simp [whileLoop, htest] at h
  | succ fuel ih =>
    cases htest : test s with
    | false =>
      obtain rfl := eq_of_whileLoop_stop htest h
      exact ⟨hs, htest⟩
    | true =>
      rw [whileLoop_turn htest] at h
      exact ih (hbody s hs htest) h

lemma whileLoop_never (I : S → Prop) (htest : ∀ s, I s → test s = true)
    (hbody : ∀ s, I s → I (body s)) (hs : I s) : whileLoop test body fuel s = none := by
  cases h : whileLoop test body fuel s with
  | none => rfl
  | some t =>
    obtain ⟨hI, hstop⟩ := whileLoop_inv I (fun s hs _ => hbody s hs) hs h
    rw [htest t hI] at hstop
    cases hstop

/-! ## What a loop comes to -/

/-- With enough turns, the loop ends in `t`. -/
def Leads (test : S → Bool) (body : S → S) (s t : S) : Prop := ∃ fuel, whileLoop test body fuel s = some t

namespace Leads

lemma stop (h : test s = false) : Leads test body s s := ⟨0, whileLoop_stop h⟩

lemma turn (h : test s = true) (ht : Leads test body (body s) t) : Leads test body s t := by
  obtain ⟨fuel, ht⟩ := ht
  exact ⟨fuel + 1, (whileLoop_turn h).trans ht⟩

lemma unique {t' : S} (ht : Leads test body s t) (ht' : Leads test body s t') : t = t' := by
  obtain ⟨fuel, ht⟩ := ht
  obtain ⟨fuel', ht'⟩ := ht'
  induction fuel generalizing s fuel' with
  | zero =>
    cases htest : test s with
    | false => rw [eq_of_whileLoop_stop htest ht, eq_of_whileLoop_stop htest ht']
    | true => simp [whileLoop, htest] at ht
  | succ fuel ih =>
    cases htest : test s with
    | false => rw [eq_of_whileLoop_stop htest ht, eq_of_whileLoop_stop htest ht']
    | true =>
      cases fuel' with
      | zero => simp [whileLoop, htest] at ht'
      | succ fuel' =>
        rw [whileLoop_turn htest] at ht ht'
        exact ih ht fuel' ht'

end Leads

end SmcPim
