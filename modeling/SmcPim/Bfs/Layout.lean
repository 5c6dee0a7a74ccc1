import SmcPim.Bfs.Best

/-! # The queue and the buffers in the scratchpad -/

namespace SmcPim.Bfs

variable {a : Arch} {g : Graph a} {seen : Set (Fin g.nodes)} {t t' : Search (Fin g.nodes)}

def maxOutdegree : ℕ := 50

def vreg (a : Arch) : Region → ℕ → ℕ
  | .queue, i => i
  | .first, c => 2 * maxXferSize / a.bytes + c
  | .second, c => 3 * maxXferSize / a.bytes + c

def slots (a : Arch) : ℕ := 2 * maxXferSize / a.bytes

lemma apart_vreg (a : Arch) : Apart (vreg a) (slots a) (maxXferSize / a.bytes) := by
  have hslots : slots a = 2 * (maxXferSize / a.bytes) ∧
      3 * maxXferSize / a.bytes = 3 * (maxXferSize / a.bytes) := by
    cases a <;> decide
  intro r i r' i' hi hi' heq
  unfold slots at hi hi' hslots
  cases r <;> cases r' <;> simp only [InUse, vreg, hslots.1, hslots.2] at hi hi' heq
  case queue.queue => exact ⟨rfl, heq⟩
  case first.first => exact ⟨rfl, by omega⟩
  case second.second => exact ⟨rfl, by omega⟩
  all_goals omega

lemma slot_le_iff (a : Arch) (i : ℕ) : (i + 1) * a.bytes ≤ 2 * maxXferSize ↔ i < slots a := by
  cases a
  · change (i + 1) * 4 ≤ 1024 ↔ i < 256
    omega
  · change (i + 1) * 8 ≤ 1024 ↔ i < 128
    omega

lemma count_le_iff (a : Arch) (n : ℕ) : n * a.bytes ≤ 2 * maxXferSize ↔ n ≤ slots a := by
  cases a
  · change n * 4 ≤ 1024 ↔ n ≤ 256
    omega
  · change n * 8 ≤ 1024 ↔ n ≤ 128
    omega

def visitedIn (g : Graph a) (seen : Set (Fin g.nodes)) (k : ℕ) : Set (Fin g.nodes) :=
  {v | ∃ h : k < g.nodes, Search.Reach g.successors (visitedAfter g seen k) ⟨k, h⟩ v}

variable {k : ℕ} {maxIterations : BitVec 32}

lemma ncard_visitedIn (hk : k < g.nodes)
    (hmem : ∀ v, v ∈ t.pushed ↔ Search.Reach g.successors (visitedAfter g seen k) ⟨k, hk⟩ v)
    (hnodup : t.pushed.Nodup) : (visitedIn g seen k).ncard = t.pushed.length := by
  have heq : visitedIn g seen k = t.pushed.toFinset := by
    ext v
    simp [visitedIn, hmem v, hk]
  rw [heq, Set.ncard_coe_finset, List.toFinset_card_of_nodup hnodup]

lemma iterations_outcome {Q B : ℕ} {place : Region → ℕ → ℕ} {s : Best g.nodes ℕ}
    (hapart : Apart place Q B) (hsmall : Small g B) (hpos : 0 < Q) (hQ : Q ≤ 2 ^ 32)
    (h : Idle place Q s t) (hseen : ∀ v, t.dist v ≠ none ↔ v ∈ seen) (hk : k ≤ g.nodes) :
    (∃ s' t', iterations (bestIteration g place) k s = some s' ∧ Idle place Q s' t' ∧
      (∀ v, t'.dist v ≠ none ↔ v ∈ visitedAfter g seen k) ∧ ∀ x < k, (visitedIn g seen x).ncard ≤ Q) ∨
    ((∃ x < k, Q < (visitedIn g seen x).ncard) ∧
      ∀ s', iterations (bestIteration g place) k s = some s' → Overflow Q s'.toState) := by
  induction k with
  | zero => exact .inl ⟨s, t, rfl, h, hseen, fun x hx => by omega⟩
  | succ k ih =>
    have hlt : k < g.nodes := by omega
    rcases ih (by omega) with ⟨s1, t1, hs1, hidle, hseen1, hfits⟩ | ⟨⟨x, hx, hlong⟩, hover⟩
    · obtain ⟨t', ht', hinv, hmem⟩ := searchFrom_spec hseen1 ⟨k, hlt⟩
      have hcard := ncard_visitedIn hlt hmem hinv.nodup
      unfold iterations
      rw [hs1, Option.bind_some, dif_pos hlt]
      rcases hidle.bestIteration hapart hsmall hpos hQ ht' with ⟨s', hs', hidle'⟩ | ⟨hlong, hover⟩
      · refine .inl ⟨s', t', hs', hidle', fun v => ?_, fun x hx => ?_⟩
        · rw [hinv.visited v, hmem v, mem_visitedAfter_succ hlt]
        · by_cases hxk : x < k
          · exact hfits x hxk
          · obtain rfl : x = k := by omega
            rw [hcard]
            exact hidle'.sim.short
      · exact .inr ⟨⟨k, by omega, by rwa [hcard]⟩, hover⟩
    · refine .inr ⟨⟨x, by omega, hlong⟩, fun s' hs' => ?_⟩
      obtain ⟨s1, hs1, hs'⟩ := Option.bind_eq_some_iff.mp hs'
      rw [dif_pos hlt] at hs'
      exact (hover s1 hs1).bestIteration hs'

/-! ## Safety -/

/-- The kernel returns, and the queue and what was fetched stay in their parts of the registers. -/
def LayoutSafe (g : Graph a) (maxIterations : BitVec 32) (distance : Fin g.nodes → ℕ)
    (mem : ℕ → Option (Fin g.nodes)) : Prop :=
  ∃ s, kernelBest g (vreg a) maxIterations distance mem = some s ∧
    (∀ p ∈ s.pushes, (p.slot + 1) * a.bytes ≤ 2 * maxXferSize) ∧ ∀ n ∈ s.fetched, n ≤ maxXferSize

/-- No iteration visits more nodes than there are slots. -/
def QueueFits (g : Graph a) (maxIterations : BitVec 32) (distance : Fin g.nodes → ℕ) : Prop :=
  ∀ x < maxIterations.toNat,
    (visitedIn g (visitedBefore g distance) x).ncard * a.bytes ≤ 2 * maxXferSize

lemma small_of_maxOutdegree (hdeg : ∀ v, g.outDegree v < maxOutdegree) :
    Small g (maxXferSize / a.bytes) := by
  have hbuffer : maxOutdegree ≤ maxXferSize / a.bytes := by
    cases a <;> decide
  refine ⟨fun v => (hdeg v).le.trans hbuffer, fun v => (hdeg v).trans (by decide)⟩

section
variable (hdeg : ∀ v, g.outDegree v < maxOutdegree) (hm : maxIterations.toNat ≤ g.nodes) (distance : Fin g.nodes → ℕ)
include hdeg hm distance

lemma kernelBest_outcome (mem : ℕ → Option (Fin g.nodes)) :
    (QueueFits g maxIterations distance ∧ ∃ s t,
      kernelBest g (vreg a) maxIterations distance mem = some s ∧ Idle (vreg a) (slots a) s t) ∨
    (¬ QueueFits g maxIterations distance ∧
      ∀ s, kernelBest g (vreg a) maxIterations distance mem = some s → Overflow (slots a) s.toState) := by
  have hslots : 0 < slots a ∧ slots a ≤ 2 ^ 32 := by
    cases a <;> decide
  unfold QueueFits
  simp only [count_le_iff]
  rcases iterations_outcome (apart_vreg a) (small_of_maxOutdegree hdeg) hslots.1 hslots.2
    (Idle.start distance mem) (fun v => initial_dist distance) hm with
    ⟨s, t, hs, hidle, -, hfits⟩ | ⟨⟨x, hx, hlong⟩, hover⟩
  · exact .inl ⟨hfits, s, t, hs, hidle⟩
  · exact .inr ⟨fun hfits => absurd (hfits x hx) (not_le.mpr hlong), hover⟩

lemma asserted_of_queueFits (mem : ℕ → Option (Fin g.nodes))
    (hfits : QueueFits g maxIterations distance) :
    ∃ s, kernelBest g (vreg a) maxIterations distance mem = some s ∧ s.asserted = true := by
  rcases kernelBest_outcome hdeg hm distance mem with ⟨-, s, t, hs, hidle⟩ | ⟨hnot, -⟩
  · exact ⟨s, hs, hidle.ready.asserted (by cases a <;> decide)⟩
  · exact absurd hfits hnot

end

theorem layoutSafe_iff (g : Graph a) (hdeg : ∀ v, g.outDegree v < maxOutdegree)
    (maxIterations : BitVec 32) (hm : maxIterations.toNat ≤ g.nodes) (distance : Fin g.nodes → ℕ)
    (mem : ℕ → Option (Fin g.nodes)) :
    LayoutSafe g maxIterations distance mem ↔ QueueFits g maxIterations distance := by
  rcases kernelBest_outcome hdeg hm distance mem with ⟨hfits, s, t, hs, hidle⟩ | ⟨hnot, hover⟩
  · refine iff_of_true ⟨s, hs, fun p hp => ?_, fun n hn => ?_⟩ hfits
    · exact (slot_le_iff a p.slot).mpr (hidle.sim.pushes p hp).slot
    · obtain ⟨v, rfl⟩ := hidle.ready.fetched n hn
      have hbytes : maxOutdegree * a.bytes ≤ maxXferSize := by
        cases a <;> decide
      exact (Nat.mul_le_mul_right _ (hdeg v).le).trans hbytes
  · refine iff_of_false ?_ hnot
    rintro ⟨s, hs, hpushes, -⟩
    obtain ⟨p, hp, hslot⟩ := hover s hs
    have := (slot_le_iff a p.slot).mp (hpushes p hp)
    omega

theorem layoutSafe_iff_twoNodes : (2 : BitVec 32).toNat ≤ twoNodes.nodes ∧
    (LayoutSafe twoNodes 2 (resetGraphStats twoNodes) (fun _ => none) ↔
      QueueFits twoNodes 2 (resetGraphStats twoNodes)) :=
  ⟨by decide, layoutSafe_iff twoNodes (by decide) 2 (by decide) _ _⟩

def longWay : Graph .arm64 where
  nodes := 129
  successors := fun v => if h : v.val + 1 < 129 then [⟨v.val + 1, h⟩] else []
  nodes_lt := by decide
  degree_lt := by decide

theorem queue_runs_into_buffer :
    (∀ v, longWay.outDegree v < maxOutdegree) ∧
    ∃ s, kernelBest longWay (vreg .arm64) 1 (resetGraphStats longWay) (fun _ => none) = some s ∧
      s.asserted = true ∧ ¬ ∀ p ∈ s.pushes, (p.slot + 1) * Arch.bytes .arm64 ≤ 2 * maxXferSize := by
  have hrun : ((kernelBest longWay (vreg .arm64) 1 (resetGraphStats longWay) fun _ => none).map fun s =>
      (s.asserted, decide (∀ p ∈ s.pushes, (p.slot + 1) * Arch.bytes .arm64 ≤ 2 * maxXferSize))) =
      some (true, false) := by
    decide +kernel
  obtain ⟨s, hs, heq⟩ := Option.map_eq_some_iff.mp hrun
  obtain ⟨hasserted, hpushes⟩ := Prod.mk.inj heq
  exact ⟨by decide +kernel, s, hs, hasserted, of_decide_eq_false hpushes⟩

end SmcPim.Bfs
