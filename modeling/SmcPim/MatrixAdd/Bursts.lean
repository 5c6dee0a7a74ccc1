import SmcPim.MatrixAdd.Pipeline

/-! # Burst by burst -/

namespace SmcPim.MatrixAdd

open Engine List Nat DmaRes

variable {p : Params} {w₀ w : World} {ends : ℕ → List ℕ} {x : ℕ} {s : State}

def Placed (p : Params) (ping pong : ℕ) : Prop :=
  (ping = 0 ∧ pong = p.maxXferSize * 3) ∨ (ping = p.maxXferSize * 3 ∧ pong = 0)

variable {ping pong i j base : ℕ} {y : DmaRes × Transfer}

lemma Placed.symm (h : Placed p ping pong) : Placed p pong ping :=
  Or.imp And.symm And.symm (Or.symm h)

section
variable (p)

def leaving (base : ℕ) : ℕ → List (DmaRes × Transfer)
  | 0 => []
  | k + 1 => [(.res4, writeC p k base)]

def leavingSums (base : ℕ) : ℕ → List Sums
  | 0 => []
  | k + 1 => [⟨k, base, p.xferSize⟩]

def coming (base x : ℕ) : List (DmaRes × Transfer) :=
  if x + 1 < p.numBursts then [(.res2, readA p (x + 1) base), (.res3, readB p (x + 1) base)] else []

def comingReads (base x : ℕ) : List Transfer := if x < p.numBursts then [readA p x base, readB p x base] else []

end

structure Before (p : Params) (w₀ : World) (x : ℕ) (s : State) : Prop where
  placed : Placed p s.ping s.pong
  awaits : Awaits (post p w₀)
    (Holds p w₀ ((x - 1) * p.xferSize) (x * p.xferSize) (comingReads p s.ping x) (leavingSums p s.pong x))
    (leaving p s.pong x) s.machine
  calm : s.machine.mishaps = []

structure During (p : Params) (w₀ : World) (x made : ℕ) (s : State) : Prop where
  placed : Placed p s.ping s.pong
  awaits : Awaits (post p w₀)
    (Holds p w₀ ((x - 1) * p.xferSize) (x * p.xferSize) (comingReads p s.ping x)
      (⟨x, s.ping, made⟩ :: leavingSums p s.pong x))
    (leaving p s.pong x ++ coming p s.pong x) s.machine
  calm : s.machine.mishaps = []

structure After (p : Params) (w₀ : World) (x : ℕ) (s : State) : Prop where
  placed : Placed p s.ping s.pong
  awaits : Awaits (post p w₀)
    (Holds p w₀ (x * p.xferSize) ((x + 1) * p.xferSize) [] (leavingSums p s.ping (x + 1)))
    (coming p s.pong x ++ leaving p s.ping (x + 1)) s.machine
  calm : s.machine.mishaps = []

/-! ## The transfers of a burst do not meet -/

lemma apart_places (hij : i ≠ j) :
    overlap p (base + p.xferSize * i) (base + p.xferSize * j) = false := by
  apply overlap_eq_false
  rcases lt_or_gt_of_ne hij with hlt | hlt
  · have := mul_le_mul_left p.xferSize (succ_le_of_lt hlt)
    rw [mul_succ] at this
    omega
  · have := mul_le_mul_left p.xferSize (succ_le_of_lt hlt)
    rw [mul_succ] at this
    omega

lemma mem_leaving (hy : y ∈ leaving p base x) : ∃ k, x = k + 1 ∧ y = (.res4, writeC p k base) := by
  cases x with
  | zero => simp [leaving] at hy
  | succ k => exact ⟨k, rfl, by simpa [leaving] using hy⟩

lemma mem_coming (hy : y ∈ coming p base x) :
    x + 1 < p.numBursts ∧ (y = (.res2, readA p (x + 1) base) ∨ y = (.res3, readB p (x + 1) base)) := by
  unfold coming at hy
  split at hy
  · exact ⟨‹_›, by simpa using hy⟩
  · simp at hy

lemma mem_comingReads {d : Transfer} (hd : d ∈ comingReads p base x) :
    d = readA p x base ∨ d = readB p x base := by
  unfold comingReads at hd
  split at hd
  · simpa using hd
  · simp at hd

lemma mem_leavingSums {c : Sums} (hc : c ∈ leavingSums p base x) : c.base = base := by
  cases x with
  | zero => simp [leavingSums] at hc
  | succ k =>
    rw [leavingSums, mem_singleton] at hc
    rw [hc]

lemma mem_during (hy : y ∈ leaving p base x ++ coming p base x) :
    y = (.res4, writeC p (x - 1) base) ∨ y = (.res2, readA p (x + 1) base) ∨
      y = (.res3, readB p (x + 1) base) := by
  rcases mem_append.mp hy with hy | hy
  · obtain ⟨k, rfl, rfl⟩ := mem_leaving hy
    exact .inl rfl
  · exact .inr (mem_coming hy).2

lemma apart_during (ends : ℕ → List ℕ) (base x : ℕ) :
    Apart (engine p ends) (leaving p base x ++ coming p base x) := by
  have hplace : ∀ i j, i ≠ j → overlap p (base + p.xferSize * i) (base + p.xferSize * j) = false :=
    fun i j => apart_places
  constructor
  · intro y hy z hz hyz
    rcases mem_during hy with rfl | rfl | rfl <;> rcases mem_during hz with rfl | rfl | rfl <;>
      first | rfl | cases hyz
  · intro y hy z hz hyz
    rcases mem_during hy with rfl | rfl | rfl <;> rcases mem_during hz with rfl | rfl | rfl <;>
      first | exact absurd rfl hyz | exact hplace _ _ (by decide)

variable {reads : List Transfer} {sums : List Sums}

lemma fits_coming {lo hi : ℕ}
    (hreads : ∀ i < 2, ∀ d ∈ reads, overlap p (pong + p.xferSize * i) d.vreg = false)
    (hsums : ∀ i < 2, ∀ c ∈ sums, overlap p (pong + p.xferSize * i) (bufC p c.base) = false)
    (hy : y ∈ coming p pong x) : Fits p lo hi reads sums y.2 := by
  rcases (mem_coming hy).2 with rfl | rfl
  · exact ⟨nofun, hreads 0 (by decide), hsums 0 (by decide)⟩
  · exact ⟨nofun, hreads 1 (by decide), hsums 1 (by decide)⟩

lemma fits_leaving (hsub : leavingSums p pong x ⊆ sums) (hy : y ∈ leaving p pong x) :
    Fits p ((x - 1) * p.xferSize) (x * p.xferSize) reads sums y.2 := by
  obtain ⟨k, rfl, rfl⟩ := mem_leaving hy
  exact ⟨⟨k, pong, p.xferSize⟩, hsub (by simp [leavingSums]), rfl, rfl, le_rfl, le_rfl⟩

section
variable (hmax : p.xferSize ≤ p.maxXferSize)
include hmax

lemma apart_halves (h : Placed p ping pong) (hi : i < 3)
    (hj : j < 3) : overlap p (ping + p.xferSize * i) (pong + p.xferSize * j) = false := by
  apply overlap_eq_false
  have h3 : p.xferSize * 3 ≤ p.maxXferSize * 3 := mul_le_mul_right 3 hmax
  have hi' : p.xferSize * i ≤ p.xferSize * 2 := mul_le_mul_left _ (by omega)
  have hj' : p.xferSize * j ≤ p.xferSize * 2 := mul_le_mul_left _ (by omega)
  rcases h with ⟨rfl, rfl⟩ | ⟨rfl, rfl⟩ <;> omega

lemma apart_after (hplaced : Placed p ping pong) (ends : ℕ → List ℕ) (x : ℕ) :
    Apart (engine p ends) ((.res4, writeC p x ping) :: coming p pong x) := by
  have hcoming : Apart (engine p ends) (coming p pong x) :=
    (apart_during ends pong x).mono (subset_append_right ..)
  constructor
  · intro y hy z hz hyz
    rcases mem_cons.mp hy with rfl | hy <;> rcases mem_cons.mp hz with rfl | hz
    · rfl
    · rcases (mem_coming hz).2 with rfl | rfl <;> cases hyz
    · rcases (mem_coming hy).2 with rfl | rfl <;> cases hyz
    · exact hcoming.resources y hy z hz hyz
  · intro y hy z hz hyz
    rcases mem_cons.mp hy with rfl | hy <;> rcases mem_cons.mp hz with rfl | hz
    · exact absurd rfl hyz
    · rcases (mem_coming hz).2 with rfl | rfl <;>
        exact apart_halves hmax hplaced (by decide) (by decide)
    · rcases (mem_coming hy).2 with rfl | rfl <;>
        exact apart_halves hmax hplaced.symm (by decide) (by decide)
    · exact hcoming.places y hy z hz hyz

lemma stable_during (hplaced : Placed p ping pong) (w₀ : World) (ends : ℕ → List ℕ) (x made : ℕ) :
    Stable (engine p ends) (post p w₀)
      (Holds p w₀ ((x - 1) * p.xferSize) (x * p.xferSize) (comingReads p ping x)
        (⟨x, ping, made⟩ :: leavingSums p pong x))
      (leaving p pong x ++ coming p pong x) := by
  refine stable (apart_during ends pong x) fun y hy => ?_
  rcases mem_append.mp hy with hy | hy
  · exact fits_leaving (subset_cons_self ..) hy
  · refine fits_coming ?_ ?_ hy
    · intro i hi d hd
      rcases mem_comingReads hd with rfl | rfl
      · exact apart_halves (j := 0) hmax hplaced.symm (by omega) (by decide)
      · exact apart_halves (j := 1) hmax hplaced.symm (by omega) (by decide)
    · intro i hi c hc
      rcases mem_cons.mp hc with rfl | hc
      · exact apart_halves (j := 2) hmax hplaced.symm (by omega) (by decide)
      · rw [mem_leavingSums hc]
        exact apart_places (by omega)

lemma stable_after (hplaced : Placed p ping pong) (w₀ : World) (ends : ℕ → List ℕ) (x : ℕ) :
    Stable (engine p ends) (post p w₀)
      (Holds p w₀ (x * p.xferSize) ((x + 1) * p.xferSize) [] (leavingSums p ping (x + 1)))
      (coming p pong x ++ leaving p ping (x + 1)) := by
  have hapart : Apart (engine p ends) (coming p pong x ++ leaving p ping (x + 1)) :=
    (apart_after hmax hplaced ends x).mono (by simp [leaving])
  refine stable hapart fun y hy => ?_
  rcases mem_append.mp hy with hy | hy
  · refine fits_coming (by simp) (fun i hi c hc => ?_) hy
    rw [mem_leavingSums hc]
    exact apart_halves hmax hplaced.symm (by omega) (by decide)
  · exact fits_leaving (fun c hc => hc) hy

lemma Before.fillPong (h : Before p w₀ x s) : During p w₀ x 0 (fillPong p ends x s) := by
  have hstable := stable_during hmax h.placed w₀ ends x 0
  have hapart := apart_during (p := p) ends s.pong x
  have hstart : Awaits (post p w₀) (Holds p w₀ ((x - 1) * p.xferSize) (x * p.xferSize) (comingReads p s.ping x)
      (⟨x, s.ping, 0⟩ :: leavingSums p s.pong x)) (leaving p s.pong x) s.machine :=
    h.awaits.mono fun w hw => { hw with summed := by simpa using hw.summed }
  unfold MatrixAdd.fillPong
  dsimp only
  split
  · rename_i hx
    rw [coming, if_pos hx] at hstable hapart
    have hA : (res2, readA p (x + 1) s.pong) ∉ leaving p s.pong x := by
      intro hmem
      obtain ⟨k, -, hk⟩ := mem_leaving hmem
      cases hk
    have hB : (res3, readB p (x + 1) s.pong) ∉ leaving p s.pong x ++ [(.res2, readA p (x + 1) s.pong)] := by
      intro hmem
      rcases mem_append.mp hmem with hmem | hmem
      · obtain ⟨k, -, hk⟩ := mem_leaving hmem
        cases hk
      · cases mem_singleton.mp hmem
    have hl : Stable (engine p ends) (post p w₀) _ (leaving p s.pong x) :=
      hstable.mono (subset_append_left ..)
    have hl' : Stable (engine p ends) (post p w₀) _ (leaving p s.pong x ++ [(.res2, readA p (x + 1) s.pong)]) :=
      hstable.mono (by simp)
    have hreadA := hstart.request hl hA
    refine ⟨h.placed, ?_, ?_⟩
    · have hreadB := hreadA.request hl' hB
      rw [append_assoc] at hreadB
      rw [coming, if_pos hx]
      exact hreadB
    · exact (hreadA.request_calm hl' hB (hapart.mono (by simp))).trans
        ((hstart.request_calm hl hA (hapart.mono (by simp))).trans h.calm)
  · rename_i hx
    refine ⟨h.placed, ?_, h.calm⟩
    rw [coming, if_neg hx, append_nil]
    exact hstart

end

/-! ## One word of the sum -/

section
variable {ping pong j : ℕ}

variable {n x o addr lo hi : ℕ} {mem : ℕ → Fin 256} {d : Transfer}

lemma store_outside (ho : o < addr ∨ addr + n ≤ o) : store n mem addr x o = mem o := by
  unfold store
  rw [if_neg (by omega)]

lemma store_inside (ho : o < n) : store n mem addr x (addr + o) = byteOf x o := by
  unfold store
  rw [if_pos ⟨by omega, by omega⟩, Nat.add_sub_cancel_left]

lemma load_congr {a b : ℕ} {mem' : ℕ → Fin 256} (h : ∀ i < n, mem (a + i) = mem' (b + i)) :
    load n mem a = load n mem' b := by
  unfold load
  refine Finset.sum_congr rfl fun i hi => ?_
  rw [h i (Finset.mem_range.mp hi)]

lemma word_le (hj : j < p.xferSize / p.arch.bytes) : j * p.arch.bytes + p.arch.bytes ≤ p.xferSize :=
  calc j * p.arch.bytes + p.arch.bytes = (j + 1) * p.arch.bytes := (succ_mul ..).symm
    _ ≤ p.xferSize / p.arch.bytes * p.arch.bytes := mul_le_mul_right _ hj
    _ ≤ p.xferSize := div_mul_le_self ..

lemma addWord_vreg {y : ℕ} (hy : overlap p (bufC p ping) y = false) (ho : o < p.xferSize)
    (hj : j < p.xferSize / p.arch.bytes) : (addWord p ping j w).vreg (y + o) = w.vreg (y + o) := by
  refine store_outside ?_
  have hle := le_of_overlap hy
  have hword := word_le hj
  omega

lemma post_addWord (hd : overlap p (bufC p ping) d.vreg = false)
    (hj : j < p.xferSize / p.arch.bytes) (h : post p w₀ d w) : post p w₀ d (addWord p ping j w) := by
  unfold post at h ⊢
  split at h
  · rw [if_pos ‹_›]
    exact h
  · rw [if_neg ‹_›]
    intro o ho
    rw [addWord_vreg hd ho hj]
    exact h o ho

lemma sumByte_add (i : ℕ) (ho : o < p.arch.bytes) : sumByte p w₀ (i * p.arch.bytes + o) =
      byteOf (p.arch.ulong (load p.arch.bytes (w₀.mem .A) (i * p.arch.bytes) +
        load p.arch.bytes (w₀.mem .B) (i * p.arch.bytes))) o := by
  have hdiv : (i * p.arch.bytes + o) / p.arch.bytes = i := by
    rw [add_comm, add_mul_div_right _ _ (by omega), div_eq_of_lt ho, zero_add]
  unfold sumByte
  dsimp only
  rw [hdiv, add_comm (i * _), add_mul_mod_self_right, mod_eq_of_lt ho]

lemma sumByte_word (hdvd : p.arch.bytes ∣ p.xferSize) (ho : o < p.arch.bytes) :
    sumByte p w₀ (x * p.xferSize + (j * p.arch.bytes + o)) =
      byteOf (p.arch.ulong (load p.arch.bytes (w₀.mem .A) (x * p.xferSize + j * p.arch.bytes) +
        load p.arch.bytes (w₀.mem .B) (x * p.xferSize + j * p.arch.bytes))) o := by
  obtain ⟨q, hq⟩ := hdvd
  have hoff : x * p.xferSize + j * p.arch.bytes = (x * q + j) * p.arch.bytes := by
    rw [hq]
    ring
  rw [← add_assoc, hoff]
  exact sumByte_add _ ho

lemma Holds.load_read (h : Holds p w₀ lo hi reads sums w) (hd : d ∈ reads)
    (hj : j < p.xferSize / p.arch.bytes) :
    load p.arch.bytes w.vreg (d.vreg + j * p.arch.bytes) =
      load p.arch.bytes (w₀.mem d.matrix) (d.offset + j * p.arch.bytes) := by
  have hword := word_le hj
  obtain ⟨hread, hpost⟩ := h.loaded d hd
  rw [post, if_neg (by simp [hread])] at hpost
  refine load_congr fun i hi => ?_
  rw [add_assoc, add_assoc]
  exact hpost _ (by omega)

lemma Holds.addWord (h : Holds p w₀ lo hi reads (⟨x, ping, j * p.arch.bytes⟩ :: sums) w)
    (hA : readA p x ping ∈ reads) (hB : readB p x ping ∈ reads) (hdvd : p.arch.bytes ∣ p.xferSize)
    (hj : j < p.xferSize / p.arch.bytes)
    (hreads : ∀ d ∈ reads, overlap p (bufC p ping) d.vreg = false)
    (hsums : ∀ c ∈ sums, overlap p (bufC p ping) (bufC p c.base) = false) :
    Holds p w₀ lo hi reads (⟨x, ping, (j + 1) * p.arch.bytes⟩ :: sums) (addWord p ping j w) := by
  have hword := word_le hj
  have hloadA : load p.arch.bytes w.vreg (bufA p ping + j * p.arch.bytes) =
      load p.arch.bytes (w₀.mem .A) (x * p.xferSize + j * p.arch.bytes) := h.load_read hA hj
  have hloadB : load p.arch.bytes w.vreg (bufB p ping + j * p.arch.bytes) =
      load p.arch.bytes (w₀.mem .B) (x * p.xferSize + j * p.arch.bytes) := h.load_read hB hj
  refine { h with loaded := ?_, summed := ?_ }
  · intro d hd
    obtain ⟨hread, hpost⟩ := h.loaded d hd
    exact ⟨hread, post_addWord (hreads d hd) hj hpost⟩
  · intro c hc
    rcases mem_cons.mp hc with rfl | hc
    · obtain ⟨-, hmade⟩ := h.summed _ mem_cons_self
      dsimp only at hmade ⊢
      refine ⟨by rw [succ_mul]; exact hword, fun o ho => ?_⟩
      rw [succ_mul] at ho
      by_cases hold : o < j * p.arch.bytes
      · refine (store_outside (.inl ?_)).trans (hmade o hold)
        omega
      · obtain ⟨i, rfl⟩ := Nat.exists_eq_add_of_le (Nat.le_of_not_lt hold)
        have hi : i < p.arch.bytes := by omega
        rw [sumByte_word hdvd hi, ← add_assoc]
        refine (store_inside hi).trans ?_
        rw [hloadA, hloadB]
    · obtain ⟨hlen, hmade⟩ := h.summed c (mem_cons_of_mem _ hc)
      refine ⟨hlen, fun o ho => ?_⟩
      rw [addWord_vreg (hsums c hc) (ho.trans_le hlen) hj]
      exact hmade o ho

end

/-! ## The rest of the loop body -/

lemma leaving_filter (base x : ℕ) : (leaving p base x).filter (fun y => y.1 ∉ [res4]) = [] := by
  rw [filter_eq_nil_iff]
  intro y hy
  obtain ⟨k, -, rfl⟩ := mem_leaving hy
  simp

lemma Holds.arrived (base : ℕ)
    (h : Holds p w₀ ((x - 1) * p.xferSize) (x * p.xferSize) reads sums w)
    (hpost : ∀ y ∈ leaving p base x, post p w₀ y.2 w) : ∀ o < x * p.xferSize, w.mem .C o = sumByte p w₀ o := by
  intro o ho
  by_cases hold : o < (x - 1) * p.xferSize
  · exact h.right o hold
  · cases x with
    | zero => omega
    | succ k =>
      have hsums := hpost _ mem_cons_self
      rw [succ_mul] at ho
      simp only [Nat.add_sub_cancel] at hold
      obtain ⟨i, rfl⟩ := Nat.exists_eq_add_of_le (Nat.le_of_not_lt hold)
      exact hsums i (by omega)

section
variable (hmax : p.xferSize ≤ p.maxXferSize)
include hmax

lemma disturbs_during (hplaced : Placed p ping pong)
    (hy : y ∈ leaving p pong x ++ coming p pong x) : disturbs p ping y.2 = false := by
  have hhalf : ∀ i j, i < 3 → j < 3 → overlap p (pong + p.xferSize * i) (ping + p.xferSize * j) = false :=
    fun i j => apart_halves hmax hplaced.symm
  have hdisturbs : ∀ i < 3, y.2.vreg = pong + p.xferSize * i → disturbs p ping y.2 = false := by
    intro i hi hvreg
    simp only [disturbs, hvreg, bufA, bufB, bufC, hhalf i _ hi (by decide : 0 < 3),
      hhalf i _ hi (by decide : 1 < 3), hhalf i _ hi (by decide : 2 < 3), Bool.or_false, Bool.and_false]
  rcases mem_during hy with rfl | rfl | rfl
  · exact hdisturbs 2 (by decide) rfl
  · exact hdisturbs 0 (by decide) rfl
  · exact hdisturbs 1 (by decide) rfl

lemma During.addWord (h : During p w₀ x (j * p.arch.bytes) s) (hx : x < p.numBursts)
    (hdvd : p.arch.bytes ∣ p.xferSize) (hj : j < p.xferSize / p.arch.bytes) :
    During p w₀ x ((j + 1) * p.arch.bytes)
      { s with machine := (engine p ends).act (disturbs p s.ping) (addWord p s.ping j) s.machine } := by
  have hstable := stable_during hmax h.placed w₀ ends x (j * p.arch.bytes)
  have hhalf : ∀ i, i < 3 → overlap p (bufC p s.ping) (s.pong + p.xferSize * i) = false :=
    fun i => apart_halves hmax h.placed (by decide)
  have hreads : comingReads p s.ping x = [readA p x s.ping, readB p x s.ping] := if_pos hx
  refine ⟨h.placed, h.awaits.act hstable (fun w hw => hw.addWord ?_ ?_ hdvd hj ?_ ?_) ?_,
    (h.awaits.act_calm hstable _ fun y => disturbs_during hmax h.placed).trans h.calm⟩
  · simp [hreads]
  · simp [hreads]
  · intro d hd
    rcases mem_comingReads hd with rfl | rfl
    · exact apart_places (by decide)
    · exact apart_places (by decide)
  · intro c hc
    rw [mem_leavingSums hc]
    exact hhalf 2 (by decide)
  · intro y hy w _ hpost
    refine post_addWord ?_ hj hpost
    rcases mem_during hy with rfl | rfl | rfl
    · exact hhalf 2 (by decide)
    · exact hhalf 0 (by decide)
    · exact hhalf 1 (by decide)

lemma During.workOnPing (h : During p w₀ x 0 s) (hx : x < p.numBursts)
    (hdvd : p.arch.bytes ∣ p.xferSize) : During p w₀ x p.xferSize (workOnPing p ends s) := by
  have hloop : During p w₀ x (p.xferSize / p.arch.bytes * p.arch.bytes) (MatrixAdd.workOnPing p ends s) :=
    loop_inv (fun j m => During p w₀ x (j * p.arch.bytes) { s with machine := m }) (by simpa using h)
      fun j m hj hm => hm.addWord hmax hx hdvd hj
  rwa [Nat.div_mul_cancel hdvd] at hloop

lemma During.writeBack (h : During p w₀ x p.xferSize s) : After p w₀ x (writeBack p ends x s) := by
  have hfilter : (leaving p s.pong x ++ coming p s.pong x).filter (fun y => y.1 ∉ [res4]) =
      coming p s.pong x := by
    rw [filter_append, leaving_filter, nil_append, filter_eq_self]
    intro y hy
    rcases (mem_coming hy).2 with rfl | rfl <;> rfl
  have hwait := h.awaits.wait (stable_during hmax h.placed w₀ ends x p.xferSize) [.res4]
  rw [hfilter] at hwait
  have harrived : Awaits (post p w₀)
      (Holds p w₀ (x * p.xferSize) ((x + 1) * p.xferSize) [] (leavingSums p s.ping (x + 1)))
      (coming p s.pong x) ((engine p ends).wait [.res4] s.machine) := by
    refine hwait.mono fun w ⟨hw, hpost⟩ => ⟨hw.fixed, hw.arrived s.pong fun y hy => ?_, ?_, by simp, ?_⟩
    · refine hpost y (mem_append_left _ hy) ?_
      obtain ⟨k, -, rfl⟩ := mem_leaving hy
      simp
    · intro o ho
      rw [succ_mul] at ho
      exact hw.rest o (by omega)
    · intro c hc
      rw [leavingSums, mem_singleton] at hc
      rw [hc]
      exact hw.summed _ mem_cons_self
  have hstable : Stable (engine p ends) (post p w₀) _ (coming p s.pong x) :=
    (stable_after hmax h.placed w₀ ends x).mono (subset_append_left ..)
  have hnew : (res4, writeC p x s.ping) ∉ coming p s.pong x := by
    intro hmem
    rcases (mem_coming hmem).2 with heq | heq <;> cases heq
  refine ⟨h.placed, harrived.request hstable hnew, ?_⟩
  exact (harrived.request_calm hstable hnew (apart_after hmax h.placed ends x)).trans
    ((wait_mishaps _ _).trans h.calm)

lemma After.swap (h : After p w₀ x s) : Before p w₀ (x + 1) (swap p ends s) := by
  have hstable := stable_after hmax h.placed w₀ ends x
  have hwait := (h.awaits.wait hstable [.res2]).wait (hstable.wait [.res2]) [.res3]
  have hfilter : ((coming p s.pong x ++ leaving p s.ping (x + 1)).filter fun y => y.1 ∉ [res2]).filter
      (fun y => y.1 ∉ [res3]) = leaving p s.ping (x + 1) := by
    unfold coming leaving
    split <;> rfl
  rw [hfilter] at hwait
  refine ⟨h.placed.symm, hwait.mono ?_, ?_⟩
  · rintro w ⟨⟨hw, hA⟩, hB⟩
    refine { hw with loaded := ?_ }
    intro d hd
    unfold comingReads at hd
    split at hd
    · rename_i hx
      have hcoming : coming p s.pong x = [(.res2, readA p (x + 1) s.pong), (.res3, readB p (x + 1) s.pong)] :=
        if_pos hx
      rw [hcoming] at hA hB
      rcases mem_pair.mp hd with rfl | rfl
      · exact ⟨rfl, hA (.res2, readA p (x + 1) s.pong) (by simp) (by simp)⟩
      · exact ⟨rfl, hB (.res3, readB p (x + 1) s.pong) (by simp) (by simp)⟩
    · simp at hd
  · exact (wait_mishaps _ _).trans ((wait_mishaps _ _).trans h.calm)

lemma Before.burst (h : Before p w₀ x s) (hx : x < p.numBursts)
    (hdvd : p.arch.bytes ∣ p.xferSize) : Before p w₀ (x + 1) (burst p ends x s) :=
  (((h.fillPong hmax).workOnPing hmax hx hdvd).writeBack hmax).swap hmax

end

/-! ## The kernel -/

lemma fillPing_before : Before p w₀ 0 (fillPing p ends w₀) := by
  have hA : (⟨.A, 0, bufA p 0, false⟩ : Transfer) = readA p 0 0 := by simp [readA]
  have hB : (⟨.B, 0, bufB p 0, false⟩ : Transfer) = readB p 0 0 := by simp [readB]
  have hAB : overlap p (bufA p 0) (bufB p 0) = false := apart_places (by decide)
  have hBA : overlap p (bufB p 0) (bufA p 0) = false := apart_places (by decide)
  have hapart : Apart (engine p ends) [(res0, readA p 0 0), (.res1, readB p 0 0)] := by
    constructor
    · simp
    · simp [engine, readA, readB, hAB, hBA]
  have hstable : Stable (engine p ends) (post p w₀) (Holds p w₀ 0 0 [] [])
      [(res0, readA p 0 0), (.res1, readB p 0 0)] := by
    refine stable hapart ?_
    simp [Fits, readA, readB]
  have hnil : Stable (engine p ends) (post p w₀) (Holds p w₀ 0 0 [] []) ([] : List (DmaRes × Transfer)) :=
    hstable.mono (nil_subset _)
  have hone : Stable (engine p ends) (post p w₀) (Holds p w₀ 0 0 [] []) ([] ++ [(res0, readA p 0 0)]) :=
    hstable.mono (by simp)
  have hstart : Awaits (post p w₀) (Holds p w₀ 0 0 [] []) [] (Machine.boot w₀ : Machine World DmaRes Transfer) :=
    .start ⟨fun _ _ => rfl, fun o ho => absurd ho (not_lt_zero o), fun _ _ => rfl, by simp, by simp⟩ rfl
  have hreadA := hstart.request hnil (r := .res0) (d := readA p 0 0) (by simp)
  have hreadB := hreadA.request hone (r := .res1) (d := readB p 0 0) (by simp)
  have hwait := (hreadB.wait hstable [.res0]).wait (hstable.wait [.res0]) [.res1]
  unfold fillPing
  dsimp only
  rw [hA, hB]
  refine ⟨.inl ⟨rfl, rfl⟩, ?_, ?_⟩
  · rw [zero_tsub, zero_mul]
    refine hwait.mono ?_
    rintro w ⟨⟨hw, hpostA⟩, hpostB⟩
    refine { hw with loaded := ?_ }
    intro d hd
    rcases mem_comingReads hd with rfl | rfl
    · exact ⟨rfl, hpostA (.res0, readA p 0 0) (by simp) (by simp)⟩
    · exact ⟨rfl, hpostB (.res1, readB p 0 0) (by simp) (by simp)⟩
  · refine (wait_mishaps _ _).trans ((wait_mishaps _ _).trans ?_)
    exact (hreadA.request_calm hone (by simp) (hapart.mono (by simp))).trans
      (hstart.request_calm hnil (by simp) (hapart.mono (by simp)))

lemma stable_before (w₀ : World) (ends : ℕ → List ℕ) (x : ℕ) : Stable (engine p ends) (post p w₀)
      (Holds p w₀ ((x - 1) * p.xferSize) (x * p.xferSize) (comingReads p ping x) (leavingSums p pong x))
      (leaving p pong x) := by
  have hapart : Apart (engine p ends) (leaving p pong x) :=
    (apart_during ends pong x).mono (subset_append_left ..)
  exact stable hapart fun y hy => fits_leaving (fun c hc => hc) hy

lemma kernelBest_spec (hmax : p.xferSize ≤ p.maxXferSize) (hdvd : p.arch.bytes ∣ p.xferSize)
    (ends : ℕ → List ℕ) (w₀ : World) :
    Holds p w₀ (p.numBursts * p.xferSize) (p.numBursts * p.xferSize) [] [] (kernelBest p ends w₀).world ∧
      (kernelBest p ends w₀).pending = [] ∧ (kernelBest p ends w₀).mishaps = [] := by
  have hloop : Before p w₀ p.numBursts (loop (burst p ends) p.numBursts (fillPing p ends w₀)) :=
    loop_inv (Before p w₀) fillPing_before fun _ _ hx hs => hs.burst hmax hx hdvd
  have hwait := hloop.awaits.wait (stable_before w₀ ends p.numBursts) [.res4]
  rw [leaving_filter] at hwait
  obtain ⟨hw, hpost⟩ := hwait.inv
  refine ⟨⟨hw.fixed, ?_, hw.rest, by simp, by simp⟩, ?_, (wait_mishaps _ _).trans hloop.calm⟩
  · refine hw.arrived _ fun y hy => hpost y hy ?_
    obtain ⟨k, -, rfl⟩ := mem_leaving hy
    simp
  · exact eq_nil_iff_forall_not_mem.mpr fun y hy => not_mem_nil (hwait.known y hy)

/-- `kernel_best` keeps to the rules of the DMA. -/
theorem kernelBest_hazardFree (p : Params) (hdvd : p.arch.bytes ∣ p.xferSize)
    (hmax : p.xferSize ≤ p.maxXferSize)
    (ends : ℕ → List ℕ) (w : World) :
    (kernelBest p ends w).mishaps = [] ∧ (kernelBest p ends w).pending = [] :=
  have h := kernelBest_spec hmax hdvd ends w
  ⟨h.2.2, h.2.1⟩

theorem kernelBest_hazardFree_twoBursts :
    (kernelBest ⟨.arm, 8, 8, 2⟩ (fun _ => [0]) ⟨fun _ _ => 0, fun _ => 0⟩).mishaps = [] ∧
      (kernelBest ⟨.arm, 8, 8, 2⟩ (fun _ => [0]) ⟨fun _ _ => 0, fun _ => 0⟩).pending = [] :=
  kernelBest_hazardFree ⟨.arm, 8, 8, 2⟩ (by decide) (by decide) (fun _ => [0]) ⟨fun _ _ => 0, fun _ => 0⟩

end SmcPim.MatrixAdd
