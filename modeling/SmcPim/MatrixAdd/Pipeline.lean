import SmcPim.MatrixAdd.Model

/-! # The pipeline of `kernel_best` -/

namespace SmcPim.MatrixAdd

open Engine

variable {p : Params} {w₀ w : World} {d d' : Transfer} {ping pong base lo hi k x : ℕ}

variable {x y n a b j : ℕ} {src dst : ℕ → Fin 256} {c : Sums}

/-! ## Buffers -/

lemma overlap_eq_false (h : y + p.xferSize ≤ x ∨ x + p.xferSize ≤ y) : overlap p x y = false := by
  unfold overlap
  simp
  omega

lemma le_of_overlap (h : overlap p x y = false) : y + p.xferSize ≤ x ∨ x + p.xferSize ≤ y := by
  unfold overlap at h
  simp at h
  omega

lemma copy_inside (hj : j < n) : copy n src a dst b (b + j) = src (a + j) := by
  unfold copy
  rw [if_pos ⟨by omega, by omega⟩, Nat.add_sub_cancel_left]

lemma copy_outside {o : ℕ} (ho : o < b ∨ b + n ≤ o) : copy n src a dst b o = dst o := by
  unfold copy
  rw [if_neg (by omega)]

/-! ## What the transfers are for -/

section
variable (p) (w₀)

def sumByte (o : ℕ) : Fin 256 :=
  let n := p.arch.bytes
  let i := o / n
  byteOf (p.arch.ulong (load n (w₀.mem .A) (i * n) + load n (w₀.mem .B) (i * n))) (o % n)

def readA (k base : ℕ) : Transfer := ⟨.A, k * p.xferSize, bufA p base, false⟩
def readB (k base : ℕ) : Transfer := ⟨.B, k * p.xferSize, bufB p base, false⟩
def writeC (k base : ℕ) : Transfer := ⟨.C, k * p.xferSize, bufC p base, true⟩

def post (d : Transfer) (w : World) : Prop :=
  if d.write then ∀ j < p.xferSize, w.mem .C (d.offset + j) = sumByte p w₀ (d.offset + j)
  else ∀ j < p.xferSize, w.vreg (d.vreg + j) = w₀.mem d.matrix (d.offset + j)

structure Sums where
  burst : ℕ
  base : ℕ
  length : ℕ

structure Holds (lo hi : ℕ) (reads : List Transfer) (sums : List Sums) (w : World) : Prop where
  fixed : ∀ M, M ≠ .C → w.mem M = w₀.mem M
  right : ∀ o < lo, w.mem .C o = sumByte p w₀ o
  rest : ∀ o, hi ≤ o → w.mem .C o = w₀.mem .C o
  loaded : ∀ d ∈ reads, d.write = false ∧ post p w₀ d w
  summed : ∀ c ∈ sums, c.length ≤ p.xferSize ∧
    ∀ o < c.length, w.vreg (bufC p c.base + o) = sumByte p w₀ (c.burst * p.xferSize + o)

def Fits (lo hi : ℕ) (reads : List Transfer) (sums : List Sums) (d : Transfer) : Prop :=
  if d.write then ∃ c ∈ sums, d = writeC p c.burst c.base ∧ c.length = p.xferSize ∧
    lo ≤ c.burst * p.xferSize ∧ (c.burst + 1) * p.xferSize ≤ hi
  else d.matrix ≠ .C ∧ (∀ d' ∈ reads, overlap p d.vreg d'.vreg = false) ∧
    ∀ c ∈ sums, overlap p d.vreg (bufC p c.base) = false

end

variable {reads : List Transfer} {sums : List Sums}

lemma effect_read (hd : d.write = false) :
    effect p d w = { w with vreg := copy p.xferSize (w.mem d.matrix) d.offset w.vreg d.vreg } := by
  unfold effect
  rw [if_neg (by simp [hd])]

lemma effect_write (k base : ℕ) :
    effect p (writeC p k base) w =
      w.setMem .C (copy p.xferSize w.vreg (bufC p base) (w.mem .C) (k * p.xferSize)) := rfl

lemma effect_read_vreg (hd : d.write = false) (hy : overlap p d.vreg y = false)
    (hj : j < p.xferSize) : (effect p d w).vreg (y + j) = w.vreg (y + j) := by
  rw [effect_read hd]
  refine copy_outside ?_
  have hle := le_of_overlap hy
  omega

lemma Holds.effect_read (h : Holds p w₀ lo hi reads sums w) (hd : d.write = false)
    (hreads : ∀ d' ∈ reads, overlap p d.vreg d'.vreg = false)
    (hsums : ∀ c ∈ sums, overlap p d.vreg (bufC p c.base) = false) :
    Holds p w₀ lo hi reads sums (effect p d w) := by
  have hmem : (effect p d w).mem = w.mem := by rw [MatrixAdd.effect_read hd]
  refine ⟨?_, ?_, ?_, ?_, ?_⟩
  · rw [hmem]
    exact h.fixed
  · rw [hmem]
    exact h.right
  · rw [hmem]
    exact h.rest
  · intro d' hd'
    obtain ⟨hread, hpost⟩ := h.loaded d' hd'
    refine ⟨hread, ?_⟩
    unfold post at hpost ⊢
    rw [if_neg (by simp [hread])] at hpost ⊢
    intro j hj
    rw [effect_read_vreg hd (hreads d' hd') hj]
    exact hpost j hj
  · intro c hc
    obtain ⟨hlen, hc'⟩ := h.summed c hc
    refine ⟨hlen, fun o ho => ?_⟩
    rw [effect_read_vreg hd (hsums c hc) (ho.trans_le hlen)]
    exact hc' o ho

section
variable (h : Holds p w₀ lo hi reads sums w) (hc : c ∈ sums) (hlen : c.length = p.xferSize)
include h hc hlen

lemma Holds.write_byte (o : ℕ) :
    (effect p (writeC p c.burst c.base) w).mem .C o =
      if c.burst * p.xferSize ≤ o ∧ o < c.burst * p.xferSize + p.xferSize then sumByte p w₀ o
      else w.mem .C o := by
  rw [effect_write]
  change copy p.xferSize w.vreg (bufC p c.base) (w.mem .C) (c.burst * p.xferSize) o = _
  split
  · rename_i ho
    have hsum := (h.summed c hc).2 (o - c.burst * p.xferSize) (by omega)
    obtain ⟨j, rfl⟩ := Nat.exists_eq_add_of_le ho.1
    rw [Nat.add_sub_cancel_left] at hsum
    rw [copy_inside (by omega), hsum]
  · exact copy_outside (by omega)

lemma Holds.effect_write (hlo : lo ≤ c.burst * p.xferSize) (hhi : (c.burst + 1) * p.xferSize ≤ hi) :
    Holds p w₀ lo hi reads sums (effect p (writeC p c.burst c.base) w) := by
  rw [Nat.add_one_mul] at hhi
  refine ⟨?_, ?_, ?_, ?_, ?_⟩
  · intro M hM
    rw [MatrixAdd.effect_write]
    exact (Function.update_of_ne hM ..).trans (h.fixed M hM)
  · intro o ho
    rw [h.write_byte hc hlen, if_neg (by omega)]
    exact h.right o ho
  · intro o ho
    rw [h.write_byte hc hlen, if_neg (by omega)]
    exact h.rest o ho
  · intro d hd
    obtain ⟨hread, hpost⟩ := h.loaded d hd
    refine ⟨hread, ?_⟩
    unfold post at hpost ⊢
    rw [if_neg (by simp [hread])] at hpost ⊢
    exact hpost
  · exact h.summed

end

lemma stable {ends : ℕ → List ℕ} {l : List (DmaRes × Transfer)}
    (hapart : Apart (engine p ends) l) (hfits : ∀ x ∈ l, Fits p lo hi reads sums x.2) :
    Stable (engine p ends) (post p w₀) (Holds p w₀ lo hi reads sums) l := by
  refine ⟨?_, ?_, ?_⟩
  · intro x hx w hw
    have hfit := hfits x hx
    unfold Fits at hfit
    split at hfit
    · obtain ⟨c, hc, heq, hlen, hlo, hhi⟩ := hfit
      rw [heq]
      exact hw.effect_write hc hlen hlo hhi
    · rename_i hread
      exact hw.effect_read (by simpa using hread) hfit.2.1 hfit.2.2
  · intro x hx w hw
    have hfit := hfits x hx
    unfold Fits at hfit
    unfold post
    split at hfit
    · rename_i hwrite
      obtain ⟨c, hc, heq, hlen, hlo, hhi⟩ := hfit
      rw [if_pos hwrite, heq]
      intro j hj
      refine (hw.write_byte hc hlen _).trans (if_pos ⟨?_, ?_⟩)
      · exact Nat.le_add_right ..
      · exact Nat.add_lt_add_left hj _
    · rename_i hread
      rw [if_neg hread]
      intro j hj
      change (effect p x.2 w).vreg _ = _
      rw [MatrixAdd.effect_read (by simpa using hread), ← hw.fixed _ hfit.1]
      exact copy_inside hj
  · intro x hx y hy hyx w hw hpost
    have hfit := hfits y hy
    unfold Fits at hfit
    unfold post at hpost ⊢
    split at hfit
    · obtain ⟨c, hc, heq, hlen, hlo, hhi⟩ := hfit
      rw [heq]
      split at hpost
      · rename_i hwrite
        rw [if_pos hwrite]
        intro j hj
        refine (hw.write_byte hc hlen _).trans ?_
        split
        · rfl
        · exact hpost j hj
      · rename_i hread
        rw [if_neg hread]
        exact hpost
    · rename_i hread
      have hyread : y.2.write = false := by simpa using hread
      split at hpost
      · rename_i hwrite
        rw [if_pos hwrite]
        change ∀ j < p.xferSize, (effect p y.2 w).mem .C _ = _
        rw [MatrixAdd.effect_read hyread]
        exact hpost
      · rename_i hxread
        rw [if_neg hxread]
        intro j hj
        exact (effect_read_vreg hyread (hapart.places y hy x hx hyx) hj).trans (hpost j hj)

end SmcPim.MatrixAdd
