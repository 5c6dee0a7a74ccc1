import SmcPim.Counters.Model

/-! # The bounds of the generators -/

namespace SmcPim.Counters

open Function Option State SetOp

variable {κ L τ : Type*} [DecidableEq κ] {k : Program} {cfg : Config κ} {M : SetList κ L} {s s' : State κ L τ} {a : Act τ}

/-! ## What a thread counts for -/

@[simp] def Pc.counting : Pc κ → ℤ
  | .acquire | .count => 1
  | _ => 0

@[simp] def Pc.unlogged : Pc κ → ℤ
  | .draw | .stock _ | .room _ | .call _ | .report _ _ => 1
  | _ => 0

@[simp] def Pc.adding : Pc κ → ℤ
  | .call (.add _) | .report (.add _) _ | .resize (.add _) _ => 1
  | _ => 0

@[simp] def Pc.uncounted : Pc κ → ℤ
  | .report op r | .resize op r => resized 0 op r
  | _ => 0

/-- Between `lock.exchange(true)` and `lock.exchange(false)`, in the second program. -/
@[simp] def Pc.inside : Pc κ → ℤ
  | .test | .acquire | .done => 0
  | _ => 1

variable [Fintype τ]

/-- A test may be passed if the threads that have passed it before leave room. -/
def Fits (k : Program) (cfg : Config κ) (s : State κ L τ) (a : Act τ) : Prop :=
  match s.pc a.who with
  | .test => s.opCount < cfg.totalOps → s.opCount + tally Pc.counting s.pc < cfg.totalOps
  | .room _ => k = .pthread → s.size < cfg.maxSize → s.size + tally Pc.adding s.pc < cfg.maxSize
  | _ => True

structure Inv (k : Program) (cfg : Config κ) (M : SetList κ L) (s : State κ L τ) : Prop where
  logged : tally (fun l : List (Entry κ) => (l.length : ℤ)) s.log + tally Pc.unlogged s.pc = s.opCount
  total : s.opCount + tally Pc.counting s.pc ≤ cfg.totalOps
  ended : ∀ t, s.pc t = .done → cfg.totalOps ≤ s.opCount
  card : ((M.keys s.list).card : ℤ) = s.size + tally Pc.uncounted s.pc
  room : s.size + tally Pc.adding s.pc ≤ cfg.maxSize
  alone : k = .thread → tally Pc.inside s.pc = s.lock.toNat
  stock : k = .pthread → ∀ t key, s.pc t ≠ .stock key

omit [Fintype τ] in
lemma card_exec (M : SetList κ L) (op : SetOp κ) (l : L) :
    ((M.keys (M.exec op l).2).card : ℤ) = resized (M.keys l).card op (M.exec op l).1 := by
  rw [M.after, M.answer]
  cases op with
  | contains x => simp [after, resized]
  | add x =>
    by_cases hx : x ∈ M.keys l
    · simp [after, answer, resized, hx]
    · simp [after, answer, resized, hx]
  | remove x =>
    by_cases hx : x ∈ M.keys l
    · have hpos := Finset.card_pos.mpr ⟨x, hx⟩
      simp only [after, answer, resized, hx, decide_true, Finset.card_erase_of_mem hx]
      omega
    · simp [after, answer, resized, hx]

omit [Fintype τ] [DecidableEq κ] in
lemma resized_eq (n : ℤ) (op : SetOp κ) (r : Bool) : resized n op r = n + resized 0 op r := by
  cases op <;> cases r <;> simp [resized, sub_eq_add_neg]

section
omit [DecidableEq κ]

lemma uncounted_le_adding (p : Pc κ) : p.uncounted ≤ p.adding := by
  cases p with
  | report op r | resize op r => cases op <;> cases r <;> simp [Pc.uncounted, Pc.adding, resized]
  | call op => cases op <;> simp [Pc.uncounted, Pc.adding]
  | _ => exact le_rfl

lemma adding_le_inside (p : Pc κ) : p.adding ≤ p.inside := by
  cases p with
  | call op | report op r | resize op r => cases op <;> simp [Pc.adding, Pc.inside]
  | _ => simp [Pc.adding, Pc.inside]

lemma inside_nonneg (p : Pc κ) : 0 ≤ p.inside := by
  cases p <;> simp

end

section
variable [DecidableEq τ] {t : τ} {p : Pc κ}

lemma Inv.move (hinv : Inv k cfg M s) (hpc : s'.pc = update s.pc t p)
    (hlogged : tally (fun l : List (Entry κ) => (l.length : ℤ)) s'.log + p.unlogged - s'.opCount =
      tally (fun l : List (Entry κ) => (l.length : ℤ)) s.log + (s.pc t).unlogged - s.opCount)
    (htotal : s'.opCount + tally Pc.counting s.pc - (s.pc t).counting + p.counting ≤ cfg.totalOps)
    (hcount : s.opCount ≤ s'.opCount) (hended : p = .done → cfg.totalOps ≤ s'.opCount)
    (hcard : ((M.keys s'.list).card : ℤ) - s'.size - p.uncounted =
      (M.keys s.list).card - s.size - (s.pc t).uncounted)
    (hroom : s'.size + tally Pc.adding s.pc - (s.pc t).adding + p.adding ≤ cfg.maxSize)
    (halone : k = .thread → s'.lock.toNat - p.inside = s.lock.toNat - (s.pc t).inside)
    (hstock : k = .pthread → ∀ key, p ≠ .stock key) : Inv k cfg M s' := by
  obtain ⟨hlogged0, -, hended0, hcard0, -, halone0, hstock0⟩ := hinv
  refine ⟨?_, ?_, fun u hu => ?_, ?_, ?_, fun hk => ?_, fun hk u key => ?_⟩
  · rw [hpc, tally_update]
    omega
  · rw [hpc, tally_update]
    omega
  · rw [hpc] at hu
    by_cases hut : u = t
    · rw [hut, update_self] at hu
      exact hended hu
    · rw [update_of_ne hut] at hu
      exact (hended0 u hu).trans hcount
  · rw [hpc, tally_update]
    omega
  · rw [hpc, tally_update]
    omega
  · have h := halone hk
    have h0 := halone0 hk
    rw [hpc, tally_update]
    omega
  · rw [hpc]
    by_cases hut : u = t
    · rw [hut, update_self]
      exact hstock hk key
    · rw [update_of_ne hut]
      exact hstock0 hk u key

omit [DecidableEq τ] in
lemma Inv.adding_le (hinv : Inv .thread cfg M s) (hin : (s.pc t).inside = 1)
    (hadd : (s.pc t).adding = 0) : tally Pc.adding s.pc ≤ 0 := by
  have hgap := tally_gap (f := s.pc) adding_le_inside t
  have halone := hinv.alone rfl
  have hone := s.lock.toNat_le
  omega

lemma Inv.step (hinv : Inv k cfg M s) (hmax : 0 < cfg.maxSize) (hfits : Fits k cfg s a)
    (hs : step k cfg M s a = some s') : Inv k cfg M s' := by
  have htotal := hinv.total
  have hroom := hinv.room
  unfold Counters.step at hs
  unfold Fits at hfits
  cases ht : s.pc a.who with
  | test =>
    simp only [ht] at hs hfits
    split_ifs at hs with hlt
    · have hfits := hfits hlt
      cases k <;> obtain rfl := some.inj hs <;>
        refine hinv.move rfl ?_ ?_ ?_ ?_ ?_ ?_ ?_ ?_ <;> simp [ht, goto] <;> omega
    · obtain rfl := some.inj hs
      refine hinv.move rfl ?_ ?_ ?_ ?_ ?_ ?_ ?_ ?_ <;> simp [ht, goto] <;> omega
  | acquire =>
    simp only [ht] at hs
    split_ifs at hs with hlock
    · obtain rfl := some.inj hs
      refine hinv.move rfl ?_ ?_ ?_ ?_ ?_ ?_ ?_ ?_ <;> simp [ht, goto] <;> omega
    · obtain rfl := some.inj hs
      refine hinv.move rfl ?_ ?_ ?_ ?_ ?_ ?_ ?_ ?_ <;> simp [ht, goto, hlock] <;> omega
  | count =>
    simp only [ht] at hs
    obtain rfl := some.inj hs
    refine hinv.move rfl ?_ ?_ ?_ ?_ ?_ ?_ ?_ ?_ <;> simp [ht, goto] <;> omega
  | draw =>
    simp only [ht] at hs
    obtain rfl := some.inj hs
    unfold chosen
    cases k <;> dsimp only <;> split_ifs <;>
      refine hinv.move rfl ?_ ?_ ?_ ?_ ?_ ?_ ?_ ?_ <;> simp [ht, goto] <;> omega
  | stock key =>
    simp only [ht] at hs
    obtain rfl := some.inj hs
    cases k with
    | pthread => exact absurd ht (hinv.stock rfl a.who key)
    | thread =>
      have hadd := hinv.adding_le (t := a.who) (by rw [ht]; rfl) (by rw [ht]; rfl)
      split_ifs with hpos <;> refine hinv.move rfl ?_ ?_ ?_ ?_ ?_ ?_ ?_ ?_ <;> simp [ht, goto] <;> omega
  | room key =>
    simp only [ht] at hs hfits
    obtain rfl := some.inj hs
    have hleft : s.size < cfg.maxSize → s.size + tally Pc.adding s.pc < cfg.maxSize := by
      cases k with
      | pthread => exact hfits rfl
      | thread =>
        have hadd := hinv.adding_le (t := a.who) (by rw [ht]; rfl) (by rw [ht]; rfl)
        intro hlt
        omega
    split_ifs with hlt
    · have hleft := hleft hlt
      refine hinv.move rfl ?_ ?_ ?_ ?_ ?_ ?_ ?_ ?_ <;> simp [ht, goto] <;> omega
    · refine hinv.move rfl ?_ ?_ ?_ ?_ ?_ ?_ ?_ ?_ <;> simp [ht, goto] <;> omega
  | call op =>
    simp only [ht] at hs
    obtain rfl := some.inj hs
    have hcard := card_exec M op s.list
    rw [resized_eq] at hcard
    cases op <;> refine hinv.move rfl ?_ ?_ ?_ ?_ ?_ ?_ ?_ ?_ <;> simp [ht, goto] at * <;> omega
  | report op r =>
    simp only [ht] at hs
    obtain rfl := some.inj hs
    have hlog := tally_update (fun l : List (Entry κ) => (l.length : ℤ)) s.log a.who (s.log a.who ++ [⟨op, r⟩])
    rw [List.length_append, List.length_singleton] at hlog
    cases op <;> refine hinv.move rfl ?_ ?_ ?_ ?_ ?_ ?_ ?_ ?_ <;> simp [ht, goto] <;> omega
  | resize op r =>
    simp only [ht] at hs
    have hle := uncounted_le_adding (.resize op r)
    have hsize := resized_eq s.size op r
    cases k <;> obtain rfl := some.inj hs <;>
      refine hinv.move rfl ?_ ?_ ?_ ?_ ?_ ?_ ?_ ?_ <;> simp [ht, goto, hsize] at * <;> omega
  | release =>
    simp only [ht] at hs
    obtain rfl := some.inj hs
    have hlock : k = .thread → s.lock.toNat = 1 := by
      intro hk
      have hin := le_tally (f := s.pc) inside_nonneg a.who
      have halone := hinv.alone hk
      have hone := s.lock.toNat_le
      rw [ht, show (Pc.release : Pc κ).inside = 1 from rfl] at hin
      omega
    refine hinv.move rfl ?_ ?_ ?_ ?_ ?_ ?_ (fun hk => by simp [ht, hlock hk]) ?_ <;> simp [ht, goto] <;> omega
  | done =>
    simp only [ht] at hs
    cases hs

end

/-! ## The initial list -/

def Filled (cfg : Config κ) (M : SetList κ L) (x : ℤ × L) : Prop :=
  ((M.keys x.2).card : ℤ) = x.1 ∧ x.1 ≤ max 0 cfg.initialSize

omit [Fintype τ] in
lemma Filled.step {x : ℤ × L} (h : Filled cfg M x) (randKey : ℕ) : Filled cfg M
    (fillStep cfg M x randKey) := by
  unfold fillStep
  split_ifs with hlt
  · have hcard := card_exec M (.add (cfg.toKey ((randKey : ℤ).tmod cfg.initRange + cfg.leftBound))) x.2
    obtain ⟨hx, hle⟩ := h
    dsimp only
    unfold Filled
    split_ifs with hadd
    · rw [hadd] at hcard
      simp only [resized] at hcard
      constructor <;> dsimp only <;> omega
    · rw [Bool.not_eq_true] at hadd
      rw [hadd] at hcard
      simp only [resized] at hcard
      exact ⟨hcard.trans hx, hle⟩
  · exact h

lemma filled (cfg : Config κ) (M : SetList κ L) (rands : List ℕ) : Filled cfg M
    (fill cfg M rands) := by
  have hempty : Filled cfg M (0, M.empty) := ⟨by simp [M.keys_empty], le_max_left _ _⟩
  exact List.foldlRecOn rands (fillStep cfg M) hempty fun x hx r _ => hx.step r

lemma init_inv (hmax : 0 < cfg.maxSize) (htotal : 0 < cfg.totalOps)
    (hinit : cfg.initialSize ≤ cfg.maxSize)
    (rands : List ℕ) : Inv k cfg M (init cfg M rands : State κ L τ) := by
  obtain ⟨hcard, hle⟩ := filled cfg M rands
  have hzero (w : Pc κ → ℤ) (hw : w .test = 0) : tally w (init cfg M rands : State κ L τ).pc = 0 :=
    tally_zero w (fun _ => rfl) hw
  refine ⟨?_, ?_, nofun, ?_, ?_, fun _ => hzero _ rfl, nofun⟩
  · rw [hzero _ rfl, add_zero]
    exact tally_zero (x := []) _ (fun _ => rfl) rfl
  · rw [hzero _ rfl]
    exact htotal.le
  · rw [hzero _ rfl, add_zero]
    exact hcard
  · rw [hzero _ rfl, add_zero]
    exact hle.trans (max_le hmax.le hinit)

/-! ## Any run -/

variable [DecidableEq τ]

end SmcPim.Counters
