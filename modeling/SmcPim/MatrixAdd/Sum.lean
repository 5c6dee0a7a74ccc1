import SmcPim.MatrixAdd.Bursts

/-! # The sum of two matrices -/

namespace SmcPim.MatrixAdd

open Nat

variable {p : Params} {w : World}

lemma Arch.pow_bytes (a : Arch) : 256 ^ a.bytes = 2 ^ a.bits := by
  cases a <;> rfl

variable {n i : ℕ} {w' : World}

lemma load_byteOf {x addr : ℕ} {mem : ℕ → Fin 256} (h : ∀ i < n, mem (addr + i) = byteOf x i) :
    load n mem addr = x % 256 ^ n := by
  induction n with
  | zero => simp [load, mod_one]
  | succ n ih =>
    have hlow := ih fun i hi => h i (by omega)
    unfold load at hlow ⊢
    rw [Finset.sum_range_succ, hlow, h n n.lt_succ_self, mod_pow_succ, mul_comm (256 ^ n)]
    rfl

lemma load_sumByte {mem : ℕ → Fin 256}
    (h : ∀ o, i * p.arch.bytes ≤ o → o < (i + 1) * p.arch.bytes → mem o = sumByte p w o) :
    load p.arch.bytes mem (i * p.arch.bytes) = p.arch.ulong
      (load p.arch.bytes (w.mem .A) (i * p.arch.bytes) + load p.arch.bytes (w.mem .B) (i * p.arch.bytes)) := by
  rw [load_byteOf (x := p.arch.ulong (load p.arch.bytes (w.mem .A) (i * p.arch.bytes) +
    load p.arch.bytes (w.mem .B) (i * p.arch.bytes))), Arch.pow_bytes]
  · exact Arch.ulong_ulong ..
  · intro j hj
    rw [h _ (Nat.le_add_right ..) (by rw [Nat.succ_mul]; omega)]
    exact sumByte_add i hj

/-! ## `kernel_default` -/

structure SumsTo (p : Params) (w : World) (n : ℕ) (mem : Matrix → ℕ → Fin 256) : Prop where
  fixed : ∀ M, M ≠ .C → mem M = w.mem M
  right : ∀ o < n, mem .C o = sumByte p w o
  rest : ∀ o, n ≤ o → mem .C o = w.mem .C o

lemma SumsTo.unique {mem mem' : Matrix → ℕ → Fin 256} (h : SumsTo p w n mem)
    (h' : SumsTo p w n mem') : mem = mem' := by
  funext M o
  by_cases hM : M = .C
  · rw [hM]
    rcases lt_or_ge o n with ho | ho
    · rw [h.right o ho, h'.right o ho]
    · rw [h.rest o ho, h'.rest o ho]
  · rw [h.fixed M hM, h'.fixed M hM]

lemma SumsTo.addElement {mem : Matrix → ℕ → Fin 256} (h : SumsTo p w (i * p.arch.bytes) mem) :
    SumsTo p w ((i + 1) * p.arch.bytes) (addElement p i mem) := by
  have hA := h.fixed .A (by decide)
  have hB := h.fixed .B (by decide)
  rw [Nat.succ_mul]
  unfold MatrixAdd.addElement
  dsimp only
  refine ⟨?_, ?_, ?_⟩
  · intro M hM
    rw [Function.update_of_ne hM]
    exact h.fixed M hM
  · intro o ho
    rw [Function.update_self, hA, hB]
    by_cases hold : o < i * p.arch.bytes
    · rw [store_outside (.inl hold)]
      exact h.right o hold
    · obtain ⟨j, rfl⟩ := Nat.exists_eq_add_of_le (Nat.le_of_not_lt hold)
      have hj : j < p.arch.bytes := by omega
      rw [store_inside hj, sumByte_add i hj]
  · intro o ho
    rw [Function.update_self, store_outside (.inr ho)]
    exact h.rest o (by omega)

lemma kernelDefault_spec (p : Params) (w : World) :
    SumsTo p w (p.ss * p.arch.bytes) (kernelDefault p w.mem) :=
  loop_inv (fun i mem => SumsTo p w (i * p.arch.bytes) mem)
    ⟨fun _ _ => rfl, fun o ho => by omega, fun _ _ => rfl⟩ fun _ _ _ h => h.addElement

/-! ## `kernel_best` -/

/-- `C` becomes the sum of `A` and `B`, and nothing else changes. -/
structure Added (p : Params) (w w' : World) : Prop where
  sum : ∀ i < p.size * p.size, load p.arch.bytes (w'.mem .C) (i * p.arch.bytes) = p.arch.ulong
    (load p.arch.bytes (w.mem .A) (i * p.arch.bytes) + load p.arch.bytes (w.mem .B) (i * p.arch.bytes))
  rest : ∀ o, p.size * p.size * p.arch.bytes ≤ o → w'.mem .C o = w.mem .C o
  fixed : ∀ M, M ≠ .C → w'.mem M = w.mem M

def Params.burstBytes (p : Params) : ℕ := p.numBursts * p.xferSize

lemma kernelBest_sumsTo (hmax : p.xferSize ≤ p.maxXferSize) (hdvd : p.arch.bytes ∣ p.xferSize)
    (ends : ℕ → List ℕ) (w : World) : SumsTo p w p.burstBytes (kernelBest p ends w).world.mem := by
  obtain ⟨h, -, -⟩ := kernelBest_spec hmax hdvd ends w
  exact { h with }

lemma burstBytes_le (p : Params) : p.burstBytes ≤ p.arch.ulong
    (p.ss * p.arch.bytes) := div_mul_le_self ..

lemma burstBytes_eq_iff (p : Params) : p.burstBytes = p.size * p.size * p.arch.bytes ↔
    p.xferSize ∣ p.size * p.size * p.arch.bytes ∧ p.size * p.size * p.arch.bytes < 2 ^ p.arch.bits := by
  constructor
  · intro h
    have hle := burstBytes_le p
    have hlt := p.arch.ulong_lt (p.ss * p.arch.bytes)
    exact ⟨⟨p.numBursts, by rw [← h, mul_comm, Params.burstBytes]⟩, by omega⟩
  · rintro ⟨hdvd, hlt⟩
    have hsize : p.size * p.size < 2 ^ p.arch.bits :=
      (Nat.le_mul_of_pos_right _ p.arch.bytes_pos).trans_lt hlt
    have hss : p.ss = p.size * p.size := Arch.ulong_of_lt hsize
    rw [Params.burstBytes, Params.numBursts, hss, Arch.ulong_of_lt hlt, Nat.div_mul_cancel hdvd]

lemma SumsTo.added (h : SumsTo p w (p.size * p.size * p.arch.bytes) w'.mem) : Added p w w' := by
  refine ⟨fun i hi => load_sumByte fun o _ ho => h.right o (ho.trans_le ?_), h.rest, h.fixed⟩
  exact mul_le_mul_right _ hi

lemma Added.not_kept (hi : i < p.size * p.size)
    (h : Added p ⟨fun M _ => if M = .C then 1 else 0, fun _ => 0⟩ w') : w'.mem .C (i * p.arch.bytes) ≠ 1 := by
  intro hkept
  have hzero : load p.arch.bytes (w'.mem .C) (i * p.arch.bytes) = 0 := by
    rw [h.sum i hi]
    simp [load, Arch.ulong]
  have hbyte : (w'.mem .C (i * p.arch.bytes + 0)).val * 256 ^ 0 ≤
      load p.arch.bytes (w'.mem .C) (i * p.arch.bytes) :=
    Finset.single_le_sum (f := fun j => (w'.mem .C (i * p.arch.bytes + j)).val * 256 ^ j)
      (fun _ _ => zero_le _) (Finset.mem_range.mpr p.arch.bytes_pos)
  rw [add_zero, hkept, hzero] at hbyte
  exact absurd hbyte (by decide)

/-- `kernel_best` adds the matrices just when they are a whole number of bursts. -/
theorem kernelBest_adds_iff (p : Params) (hdvd : p.arch.bytes ∣ p.xferSize)
    (hmax : p.xferSize ≤ p.maxXferSize) (ends : ℕ → List ℕ) :
    (∀ w, Added p w (kernelBest p ends w).world ∧ (kernelBest p ends w).world.mem = kernelDefault p w.mem) ↔
      p.xferSize ∣ p.size * p.size * p.arch.bytes ∧ p.size * p.size * p.arch.bytes < 2 ^ p.arch.bits := by
  rw [← burstBytes_eq_iff]
  constructor
  · intro h
    by_contra hne
    have hle := (burstBytes_le p).trans ((Arch.ulong_le ..).trans (mul_le_mul_right _ (Arch.ulong_le ..)))
    obtain ⟨i, hi⟩ : p.arch.bytes ∣ p.burstBytes := hdvd.mul_left _
    rw [mul_comm] at hi
    have hlt : i < p.size * p.size := by
      refine lt_of_mul_lt_mul_right (a := p.arch.bytes) ?_ (Nat.zero_le _)
      omega
    -- The word behind the last burst keeps what was in `C`.
    refine (h _).1.not_kept hlt ?_
    exact (kernelBest_sumsTo hmax hdvd ends _).rest _ hi.le
  · intro heq w
    have hbest := kernelBest_sumsTo hmax hdvd ends w
    have hdefault := kernelDefault_spec p w
    have hlt : p.size * p.size * p.arch.bytes < 2 ^ p.arch.bits := ((burstBytes_eq_iff p).mp heq).2
    have hss : p.ss = p.size * p.size :=
      Arch.ulong_of_lt ((Nat.le_mul_of_pos_right _ p.arch.bytes_pos).trans_lt hlt)
    rw [heq] at hbest
    rw [hss] at hdefault
    exact ⟨hbest.added, hbest.unique hdefault⟩

theorem kernelBest_adds_iff_oneBurst :
    (∀ w, Added ⟨.arm, 4, 4, 1⟩ w (kernelBest ⟨.arm, 4, 4, 1⟩ (fun _ => []) w).world ∧
      (kernelBest ⟨.arm, 4, 4, 1⟩ (fun _ => []) w).world.mem = kernelDefault ⟨.arm, 4, 4, 1⟩ w.mem) ↔
        4 ∣ 1 * 1 * Arch.arm.bytes ∧ 1 * 1 * Arch.arm.bytes < 2 ^ Arch.arm.bits :=
  kernelBest_adds_iff ⟨.arm, 4, 4, 1⟩ (by decide) (by decide) fun _ => []

/-- Nine words in bursts of two: the last word of `C` stays as it was. -/
theorem kernelBest_misses_lastWord :
    let w : World := ⟨fun M _ => if M = .C then 1 else 0, fun _ => 0⟩
    (kernelBest ⟨.arm, 8, 8, 3⟩ (fun _ => []) w).world.mem .C 32 = 1 ∧ kernelDefault ⟨.arm, 8, 8, 3⟩ w.mem .C 32 = 0 := by
  decide +kernel

end SmcPim.MatrixAdd
