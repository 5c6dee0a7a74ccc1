import SmcPim.PimList.Operations

/-! # Commands to the kernel -/

namespace SmcPim.PimList

open Layout SetOp

variable {L : Layout} {m m' : Memory} {live free : List Nat} {k fuel : Nat} {op : SetOp Nat}

/-! ## One command -/

def operate (L : Layout) (m : Memory) (fuel : Nat) : SetOp Nat → Except Stop (Memory × Nat)
  | .add k => L.listAdd m fuel k
  | .remove k => L.listRemove m fuel k
  | .contains k => do
    let r ← L.listContains m fuel k
    .ok (m, r)

def written (L : Layout) (m : Memory) (op : SetOp Nat) : Memory :=
  L.writeSreg (L.writeSreg m 0 (code op)) 1 op.key

lemma lt_word (L : Layout) {n : Nat} (hn : n < 4) : n < 2 ^ L.arch.bits := by
  cases L.arch <;> simp only [Arch.bits] <;> omega

lemma readSreg_written (hk : op.key < 2 ^ L.arch.bits) :
    L.readSreg (written L m op) 0 = code op ∧ L.readSreg (written L m op) 1 = op.key := by
  have hcode : code op < 4 := by cases op <;> simp [code]
  unfold written
  rw [readSreg_writeSreg, readSreg_writeSreg, readSreg_writeSreg, if_neg (by decide), if_pos rfl,
    if_pos rfl, Arch.ulong_of_lt (lt_word L hcode), Arch.ulong_of_lt hk]
  exact ⟨rfl, rfl⟩

lemma same_written : Heap.Same L m (written L m op) :=
  (Heap.same_writeSreg (by decide)).trans (Heap.same_writeSreg (by decide))

lemma perform_eq (hk : op.key < 2 ^ L.arch.bits) :
    L.perform m fuel op = (operate L (written L m op) fuel op >>= fun r =>
      .ok (L.writeSreg r.1 2 r.2, L.readSreg (L.writeSreg r.1 2 r.2) 2)) := by
  obtain ⟨h0, h1⟩ := readSreg_written (m := m) hk
  unfold perform command executeKernel
  rw [show L.writeSreg (L.writeSreg m 0 (code op)) 1 op.key = written L m op from rfl, h0, h1]
  cases op with
  | add k | remove k | contains k => simp only [code, operate, SetOp.key, bind_assoc, ok_bind]

section
variable (h : Heap L m live free) (hk : op.key < uint32Max)
  (hzero : op = .contains 0 → 0 ∈ keys L m live) (hfuel : L.numMemBlocks + 1 < fuel)
include h hk hzero hfuel

lemma Heap.operate : ∃ m' live' free',
      operate L m fuel op = .ok (m', (op.answerIn L.numMemBlocks (keys L m live)).toNat) ∧
      Heap L m' live' free' ∧ keys L m' live' = op.afterIn L.numMemBlocks (keys L m live) ∧
      (op.answerIn L.numMemBlocks (keys L m live) = false → m' = m) := by
  have hcard := h.card_keys
  have hlen := h.length_eq
  cases op with
  | add k =>
    change k < uint32Max at hk
    dsimp only [PimList.operate, answerIn, afterIn]
    obtain ⟨hin, heq⟩ | ⟨hnot, rfl, heq⟩ | ⟨hnot, f, fs, m', live', rfl, heq, hheap, hkeys⟩ :=
      h.listAdd hk (show live.length < fuel by omega)
    · refine ⟨m, live, free, by simp [heq, hin], h, ?_, fun _ => rfl⟩
      simp [Finset.insert_eq_of_mem hin]
    · have hfull : ¬ (keys L m live).card < L.numMemBlocks := by
        rw [List.length_nil] at hlen
        omega
      exact ⟨m, live, [], by simp [heq, hfull], h, by rw [if_neg hfull], fun _ => rfl⟩
    · have hroom : (keys L m live).card < L.numMemBlocks := by
        rw [List.length_cons] at hlen
        omega
      exact ⟨m', live', fs, by simp [heq, hroom, hnot], hheap, by rw [if_pos hroom, hkeys],
        by simp [hroom, hnot]⟩
  | remove k =>
    change k < uint32Max at hk
    dsimp only [PimList.operate, answerIn, afterIn]
    obtain ⟨hnot, heq⟩ | ⟨hin, c, m', live', heq, hheap, hkeys⟩ :=
      h.listRemove hk (show live.length < fuel by omega)
    · exact ⟨m, live, free, by simp [heq, hnot], h, (Finset.erase_eq_of_notMem hnot).symm,
        fun _ => rfl⟩
    · exact ⟨m', live', c :: free, by simp [heq, hin], hheap, hkeys, by simp [hin]⟩
  | contains k =>
    change k < uint32Max at hk
    have hiff : k = 0 ∨ k ∈ keys L m live ↔ k ∈ keys L m live := by
      constructor
      · rintro (rfl | hin)
        · exact hzero rfl
        · exact hin
      · exact Or.inr
    refine ⟨m, live, free, ?_, h, rfl, fun _ => rfl⟩
    dsimp only [PimList.operate, answerIn]
    rw [h.listContains hk (by omega), ok_bind]
    simp only [hiff]
    split <;> simp [*]

lemma Heap.perform : ∃ m' live' free',
      L.perform m fuel op = .ok (m', (op.answerIn L.numMemBlocks (keys L m live)).toNat) ∧
      Heap L m' live' free' ∧ keys L m' live' = op.afterIn L.numMemBlocks (keys L m live) ∧
      (op.answerIn L.numMemBlocks (keys L m live) = false → Heap.Same L m m') := by
  have hsame : Heap.Same L m (written L m op) := same_written
  have hkeys := h.keys_congr hsame
  obtain ⟨m', live', free', heq, hheap, hafter, hno⟩ :=
    (h.congr hsame).operate hk (by rw [hkeys]; exact hzero) hfuel
  rw [hkeys] at heq hafter hno
  have hans : Heap.Same L m'
      (L.writeSreg m' 2 (op.answerIn L.numMemBlocks (keys L m live)).toNat) :=
    Heap.same_writeSreg (by decide)
  refine ⟨_, live', free', ?_, hheap.congr hans, (hheap.keys_congr hans).trans hafter, ?_⟩
  · rw [perform_eq (Nat.lt_trans hk (uint32Max_lt L)), heq, ok_bind, readSreg_writeSreg, if_pos rfl,
      Arch.ulong_of_lt (lt_word L (Nat.lt_of_le_of_lt (Bool.toNat_le _) (by decide)))]
  · intro hfalse
    rw [hno hfalse] at hans ⊢
    exact hsame.trans hans

end

/-! ## Sequences of commands -/

lemma start_eq (L : Layout) (m : Memory) (fuel : Nat) :
    L.start m fuel = .ok (L.listInit (L.writeSreg m 0 0)) := by
  have hzero : L.readSreg (L.writeSreg m 0 0) 0 = 0 := by
    rw [readSreg_writeSreg, if_pos rfl]
    rfl
  unfold start executeKernel
  simp only [hzero]

lemma start_heap (L : Layout) (m : Memory) (fuel : Nat) :
    ∃ m₀, L.start m fuel = .ok m₀ ∧ Heap L m₀ [] L.blocks.reverse ∧ keys L m₀ [] = ∅ :=
  ⟨_, start_eq L m fuel, Heap.listInit, rfl⟩

lemma Heap.performAll (ops : List (SetOp Nat)) (h : Heap L m live free)
    (hops : ∀ op ∈ ops, 0 < op.key ∧ op.key < uint32Max) (hfuel : L.numMemBlocks + 1 < fuel) :
    ∃ m' live' free', L.performAll fuel m ops =
        .ok (m', (answersIn L.numMemBlocks (keys L m live) ops).map Bool.toNat) ∧
      Heap L m' live' free' ∧
      keys L m' live' = finalIn L.numMemBlocks (keys L m live) ops := by
  induction ops generalizing m live free with
  | nil => exact ⟨m, live, free, rfl, h, rfl⟩
  | cons op ops ih =>
    rw [List.forall_mem_cons] at hops
    obtain ⟨⟨hpos, hlt⟩, hops⟩ := hops
    have hzero : op = .contains 0 → 0 ∈ keys L m live := by
      rintro rfl
      exact absurd hpos (Nat.lt_irrefl 0)
    obtain ⟨m1, live1, free1, heq, h₁, hkeys, -⟩ := h.perform hlt hzero hfuel
    obtain ⟨m2, live2, free2, heq2, h2, hfinal⟩ := ih h₁ hops
    refine ⟨m2, live2, free2, ?_, h2, by rw [hfinal, hkeys]; rfl⟩
    unfold Layout.performAll
    rw [heq, ok_bind]
    dsimp only
    rw [heq2, ok_bind, hkeys]
    rfl

lemma finalIn_between {S : Finset Nat} (cap : Nat) (ops : List (SetOp Nat))
    (hops : ∀ op ∈ ops, 0 < op.key) (hS : ∀ k ∈ S, 0 < k) : ∀ k ∈ finalIn cap S ops, 0 < k := by
  induction ops generalizing S with
  | nil => exact hS
  | cons op ops ih =>
    rw [List.forall_mem_cons] at hops
    apply ih hops.2
    intro k hk
    rcases mem_of_mem_afterIn hk with rfl | hk
    · exact hops.1
    · exact hS k hk

/-- The answers are those of a set that holds as many keys as there are blocks. -/
theorem kernel_is_bounded_set (L : Layout) (m : Memory) (fuel : Nat)
    (hfuel : L.numMemBlocks + 1 < fuel) (ops : List (SetOp Nat))
    (hops : ∀ op ∈ ops, 0 < op.key ∧ op.key < uint32Max) :
    ∃ m₀ m' live free, L.start m fuel = .ok m₀ ∧
      L.performAll fuel m₀ ops =
        .ok (m', (SetOp.answersIn L.numMemBlocks ∅ ops).map Bool.toNat) ∧
      Chain (L.next m') L.head (L.head :: live) L.tail ∧
      Ascending (L.key m') (L.head :: live ++ [L.tail]) ∧
      Chain (L.key m') (L.readSreg m' 3) free 0 ∧
      live.Disjoint free ∧ (∀ x, x ∈ live ∨ x ∈ free ↔ x ∈ L.blocks) ∧
      live.length + free.length = L.numMemBlocks ∧
      (live.map (L.key m')).toFinset = SetOp.finalIn L.numMemBlocks ∅ ops ∧
      (free ≠ [] ↔ (SetOp.finalIn L.numMemBlocks ∅ ops).card < L.numMemBlocks) ∧
      ∀ k, 0 < k → k < uint32Max →
        SetOp.answerIn L.numMemBlocks (SetOp.finalIn L.numMemBlocks ∅ ops) (.add k) = false →
        ∃ m'', L.perform m' fuel (.add k) = .ok (m'', 0) ∧ Heap.Same L m' m'' := by
  obtain ⟨m₀, hstart, h₀, hempty⟩ := start_heap L m fuel
  obtain ⟨m', live, free, hrun, h, hkeys⟩ := h₀.performAll ops hops hfuel
  rw [hempty] at hrun hkeys
  obtain ⟨-, -, hdisj⟩ := List.nodup_append.mp h.nodup
  refine ⟨m₀, m', live, free, hstart, hrun, h.list, ?_, h.freeList, ?_, ?_, h.length_eq, hkeys, ?_,
    ?_⟩
  · have hpos := finalIn_between L.numMemBlocks ops (fun op hop => (hops op hop).1)
      (S := ∅) (by simp)
    rw [← hkeys] at hpos
    have hlive : ∀ x ∈ live, 0 < L.key m' x := fun x hx =>
      hpos _ (Heap.mem_keys.mpr (List.mem_map_of_mem hx))
    refine List.pairwise_append.mpr ⟨List.pairwise_cons.mpr ⟨?_, h.sorted⟩, by simp, ?_⟩
    · intro x hx
      rw [h.headKey]
      exact hlive x hx
    · intro x hx y hy
      rw [List.mem_singleton.mp hy, h.tailKey]
      rcases List.mem_cons.mp hx with rfl | hx
      · rw [h.headKey]
        decide
      · exact h.below x hx
  · exact fun x hx hx' => hdisj x hx x hx' rfl
  · intro x
    rw [← h.blocks.mem_iff, List.mem_append]
  · have hlen := h.length_eq
    rw [← hkeys, h.card_keys, ← List.length_pos_iff]
    omega
  · intro k hpos hk hfalse
    have hzero : SetOp.add k = .contains 0 → 0 ∈ keys L m' live := by simp
    obtain ⟨m'', -, -, heq, -, -, hsame⟩ := h.perform (show (SetOp.add k).key < uint32Max from hk)
      hzero hfuel
    rw [hkeys, hfalse] at heq
    rw [hkeys] at hsame
    exact ⟨m'', heq, hsame hfalse⟩

def twoBlocks : Layout where
  arch := .arm
  vreg := 0x1000
  vregSize := 16
  sreg := 0x2000
  vreg_pos := by decide
  sreg_pos := by decide
  vreg_end := by decide
  sreg_end := by decide
  apart := .inl (by decide)

theorem kernel_is_bounded_set_two :
    ∃ m₀ m', twoBlocks.start (fun _ => 7) 4 = .ok m₀ ∧
      twoBlocks.performAll 4 m₀ [.add 5, .add 3, .add 9, .contains 3, .remove 5, .add 9] =
        .ok (m', [1, 1, 0, 1, 1, 1]) := by
  obtain ⟨m₀, m', -, -, hstart, hrun, -⟩ := kernel_is_bounded_set twoBlocks (fun _ => 7) 4
    (by decide) [.add 5, .add 3, .add 9, .contains 3, .remove 5, .add 9] (by decide)
  exact ⟨m₀, m', hstart, hrun⟩

end SmcPim.PimList
