import SmcPim.Lib.Engine
import SmcPim.Lib.Stops

/-! # Programs that draw from a stream -/

namespace SmcPim.Draws

open Stops

variable {S ε : Type} {drawn : S → ℕ}

structure Reads (drawn : S → ℕ) (f : (ℕ → ℕ) → S → S) : Prop where
  le : ∀ rand s, drawn s ≤ drawn (f rand s)
  congr : ∀ rand rand' s, (∀ i < drawn (f rand s), rand' i = rand i) → f rand' s = f rand s

lemma Reads.loop {body : (ℕ → ℕ) → ℕ → S → S} (h : ∀ k, Reads drawn fun rand => body rand k) (n : ℕ) :
    Reads drawn fun rand => loop (body rand) n := by
  induction n with
  | zero => exact ⟨fun _ _ => le_rfl, fun _ _ _ _ => rfl⟩
  | succ n ih =>
    refine ⟨fun rand s => (ih.le rand s).trans ((h n).le rand _), fun rand rand' s hsame => ?_⟩
    rw [loop_succ] at hsame
    have hle := (h n).le rand (SmcPim.loop (body rand) n s)
    rw [loop_succ, loop_succ, ih.congr rand rand' s fun i hi => hsame i (hi.trans_le hle)]
    exact (h n).congr rand rand' _ hsame

structure ReadsE (drawn : S → ℕ) (f : (ℕ → ℕ) → S → Except ε S) : Prop where
  le : ∀ {rand s t}, f rand s = .ok t → drawn s ≤ drawn t
  congr : ∀ {rand s t}, f rand s = .ok t → ∀ rand', (∀ i < drawn t, rand' i = rand i) → f rand' s = .ok t

lemma ReadsE.loopE {body : (ℕ → ℕ) → ℕ → S → Except ε S}
    (h : ∀ k, ReadsE drawn fun rand => body rand k) (n : ℕ) :
    ReadsE drawn fun rand => loopE (body rand) n := by
  induction n with
  | zero =>
    refine ⟨fun {rand s t} ht => ?_, fun {rand s t} ht rand' _ => ht⟩
    cases ht
    exact le_rfl
  | succ n ih =>
    constructor
    · intro rand s t ht
      obtain ⟨u, hu, ht⟩ := bind_eq_ok.mp ht
      exact (ih.le hu).trans ((h n).le ht)
    · intro rand s t ht rand' hsame
      obtain ⟨u, hu, ht⟩ := bind_eq_ok.mp ht
      have hle := (h n).le ht
      rw [loopE_succ, ih.congr hu rand' fun i hi => hsame i (hi.trans_le hle)]
      exact (h n).congr ht rand' hsame

def redraw (rand : ℕ → ℕ) (n : ℕ) (v : ℕ → ℕ) (i : ℕ) : ℕ := if i < n then rand i else v (i - n)

lemma redraw_before {rand v : ℕ → ℕ} {n i : ℕ} (h : i < n) : redraw rand n v i = rand i := if_pos h

lemma redraw_after (rand v : ℕ → ℕ) (n j : ℕ) : redraw rand n v (n + j) = v j := by
  rw [redraw, if_neg (by omega), Nat.add_sub_cancel_left]

lemma redraw_le {rand v : ℕ → ℕ} {n b : ℕ} (hrand : ∀ i, rand i ≤ b) (hv : ∀ i, v i ≤ b) (i : ℕ) :
    redraw rand n v i ≤ b := by
  unfold redraw
  split
  · exact hrand i
  · exact hv _

end SmcPim.Draws
