import SmcPim.Topology.Streams

/-! # The parameters that are safe -/

namespace SmcPim.Topology

open Stops Nat

variable {p : Params} {c r size : ℕ}

def leaves (k r : ℕ) : ℕ := r - r / k

/-- The parameters with which all streams give a well-formed graph. -/
def Params.Safe (p : Params) : Prop :=
  if p.numComponents = 1 then p.nodes = 1 ∨ p.maxComponentOutdegree < p.nodes
  else if p.numComponents = 2 then p.nodes = 2 ∨ 2 ≤ p.nodes ∧ p.maxComponentOutdegree = 1
  else if p.numComponents < 6 then p.nodes = 1 ∨ p.maxComponentOutdegree = 1
  else p.maxComponentOutdegree = 1 ∧
    p.numComponents / 3 ≤ (leaves (p.numComponents / 3))^[p.numComponents - 2] p.nodes

lemma allowed_draw (hc : c ≠ p.numComponents - 1) (hone : 1 ≤ size) (hle : size ≤ r / p.divisor) :
    Allowed p c r size := by
  rw [Allowed, if_neg hc]
  exact ⟨hone, hle⟩

lemma remains_zero (h : Remains p 0 r) : r = p.nodes := by
  cases h
  rfl

lemma Remains.le (h : Remains p c r) : r ≤ p.nodes := by
  induction h with
  | start => exact le_rfl
  | stay _ _ => exact zero_le _
  | take _ _ _ _ ih => exact (sub_le _ _).trans ih

/-! ## The largest components -/

lemma leaves_mono (k : ℕ) : Monotone (leaves k) := by
  intro r r' h
  obtain ⟨d, rfl⟩ := Nat.exists_eq_add_of_le h
  unfold leaves
  rcases Nat.eq_zero_or_pos k with rfl | hk
  · simp
  · have hdiv : (r + d) / k ≤ r / k + d := by
      rw [← add_mul_div_right _ _ hk]
      exact Nat.div_le_div_right (Nat.add_le_add_left (Nat.le_mul_of_pos_right _ hk) _)
    have := Nat.div_le_self r k
    omega

lemma iterate_leaves_anti (k r : ℕ) : Antitone fun n => (leaves k)^[n] r := by
  refine antitone_nat_of_succ_le fun n => ?_
  rw [Function.iterate_succ_apply']
  exact sub_le _ _

lemma iterate_leaves_add (k r n : ℕ) (hk : 0 < k) (h : k ≤ (leaves k)^[n] r) :
    (leaves k)^[n] r + n ≤ r := by
  induction n with
  | zero => exact le_rfl
  | succ n ih =>
    have hle := h.trans (iterate_leaves_anti k r (le_succ n))
    have hsum := ih hle
    have hone : 1 ≤ (leaves k)^[n] r / k := (one_le_div_iff hk).mpr hle
    have hself := Nat.div_le_self ((leaves k)^[n] r) k
    rw [Function.iterate_succ_apply', leaves]
    omega

lemma Remains.iterate_le (h : Remains p c r) (hc : c ≤ p.numComponents - 1) :
    (leaves p.divisor)^[c] p.nodes ≤ r := by
  induction h with
  | start => exact le_rfl
  | stay _ ih =>
    have hzero := leaves_mono p.divisor (ih (by omega))
    rw [Function.iterate_succ_apply']
    exact hzero.trans (sub_le _ _)
  | @take c r size _ _ _ hsize ih =>
    rw [Allowed, if_neg (by omega)] at hsize
    rw [Function.iterate_succ_apply']
    calc leaves p.divisor ((leaves p.divisor)^[c] p.nodes)
        ≤ leaves p.divisor r := leaves_mono p.divisor (ih (by omega))
      _ ≤ r - size := Nat.sub_le_sub_left hsize.2 r

lemma AllSafe.remains_iterate (hsafe : AllSafe p) (hk : 2 ≤ p.divisor)
    (hc : c ≤ p.numComponents - 1) :
    Remains p c ((leaves p.divisor)^[c] p.nodes) ∧ 0 < (leaves p.divisor)^[c] p.nodes := by
  induction c with
  | zero => exact ⟨.start, p.nodes_pos⟩
  | succ c ih =>
    obtain ⟨hremains, hpos⟩ := ih (by omega)
    have hdiv := (hsafe c _ hremains (by omega) hpos.ne').1 (by omega)
    have hlt := div_lt_self hpos hk
    rw [Function.iterate_succ_apply']
    refine ⟨hremains.take (by omega) hpos.ne' (allowed_draw (by omega) (pos_of_ne_zero hdiv) le_rfl), ?_⟩
    unfold leaves at hlt ⊢
    omega

/-! ## The two directions -/

lemma AllSafe.one (hsafe : AllSafe p) (hlast : 0 ≠ p.numComponents - 1)
    (htwo : 2 ≤ p.nodes / p.divisor) : p.maxComponentOutdegree = 1 := by
  have hpos := p.outdegree_pos
  have := (hsafe 0 p.nodes .start p.components_pos p.nodes_pos.ne').2 2 (allowed_draw hlast one_le_two htwo)
  omega

lemma AllSafe.safe (hsafe : AllSafe p) : p.Safe := by
  have hN := p.nodes_pos
  have hC := p.components_pos
  unfold Params.Safe
  split_ifs with h1 h2 h6
  · have hlast : Allowed p 0 p.nodes p.nodes := by rw [Allowed, if_pos (by omega)]
    exact (hsafe 0 p.nodes .start hC hN.ne').2 p.nodes hlast
  · have hdivisor : p.divisor = 2 := by rw [Params.divisor, if_neg (by omega), h2]
    have htwo := (hsafe 0 p.nodes .start hC hN.ne').1 (by omega)
    rw [hdivisor] at htwo
    by_cases hfour : 4 ≤ p.nodes
    · refine .inr ⟨by omega, hsafe.one (by omega) ?_⟩
      rw [hdivisor]
      omega
    · by_cases hthree : p.nodes = 3
      · -- one node in the first component, so that two are left for the last
        have hfirst : Allowed p 0 p.nodes 1 := allowed_draw (by omega) le_rfl (by rw [hdivisor]; omega)
        have hlast : Allowed p 1 2 2 := by rw [Allowed, if_pos (by omega)]
        have hremains : Remains p 1 2 := by
          have := Remains.start.take hC hN.ne' hfirst
          rwa [hthree] at this
        have hpos := p.outdegree_pos
        have := (hsafe 1 2 hremains (by omega) (by decide)).2 2 hlast
        omega
      · omega
  · have hdivisor : p.divisor = 1 := by
      rw [Params.divisor, if_pos (by omega)]
      omega
    by_cases hone : p.nodes = 1
    · exact .inl hone
    · refine .inr (hsafe.one (by omega) ?_)
      rw [hdivisor]
      omega
  · have hdivisor : p.divisor = p.numComponents / 3 := by rw [Params.divisor, if_pos (by omega)]
    have hk : 2 ≤ p.divisor := by omega
    obtain ⟨hremains, hpos⟩ := hsafe.remains_iterate (c := p.numComponents - 2) hk (by omega)
    have hdiv := (hsafe _ _ hremains (by omega) hpos.ne').1 (by omega)
    have hle : p.divisor ≤ (leaves p.divisor)^[p.numComponents - 2] p.nodes := by
      by_contra hlt
      exact hdiv (div_eq_of_lt (by omega))
    have hsum := iterate_leaves_add p.divisor p.nodes _ (by omega) hle
    rw [← hdivisor]
    refine ⟨hsafe.one (by omega) ?_, hle⟩
    rw [le_div_iff_mul_le (by omega)]
    omega

lemma Params.Safe.allSafe (h : p.Safe) : AllSafe p := by
  intro c r hremains hc hr
  have hN := p.nodes_pos
  have hle := hremains.le
  have hdegree : p.maxComponentOutdegree = 1 → ∀ size, Allowed p c r size → size = 1 ∨ p.maxComponentOutdegree < size := by
    intro hone size hsize
    have := hsize.bounds hr
    omega
  unfold Params.Safe at h
  split_ifs at h with h1 h2 h6
  · obtain rfl : c = 0 := by omega
    obtain rfl := remains_zero hremains
    refine ⟨fun hlast => absurd (by omega) hlast, fun size hsize => ?_⟩
    rw [Allowed, if_pos (by omega)] at hsize
    omega
  · have hdivisor : p.divisor = 2 := by rw [Params.divisor, if_neg (by omega), h2]
    refine ⟨fun hlast => ?_, ?_⟩
    · obtain rfl : c = 0 := by omega
      obtain rfl := remains_zero hremains
      rw [hdivisor]
      omega
    · rcases h with htwo | ⟨-, hone⟩
      · -- both components have one node
        intro size hsize
        rcases Nat.eq_zero_or_pos c with rfl | hpos
        · obtain rfl := remains_zero hremains
          rw [Allowed, if_neg (by omega), hdivisor, htwo] at hsize
          omega
        · obtain rfl : c = 1 := by omega
          cases hremains with
          | stay _ => exact absurd rfl hr
          | take hstart _ hne hfirst =>
            have := hfirst.bounds hne
            obtain rfl := remains_zero hstart
            have := hsize.bounds hr
            omega
      · exact hdegree hone
  · have hdivisor : p.divisor = 1 := by
      rw [Params.divisor, if_pos (by omega)]
      omega
    refine ⟨fun _ => by rw [hdivisor]; omega, ?_⟩
    rcases h with hone | hone
    · intro size hsize
      have := hsize.bounds hr
      omega
    · exact hdegree hone
  · have hdivisor : p.divisor = p.numComponents / 3 := by rw [Params.divisor, if_pos (by omega)]
    refine ⟨fun hlast => ?_, hdegree h.1⟩
    have hmany : p.divisor ≤ r := by
      calc p.divisor ≤ (leaves p.divisor)^[p.numComponents - 2] p.nodes := by
            rw [hdivisor]
            exact h.2
        _ ≤ (leaves p.divisor)^[c] p.nodes := iterate_leaves_anti _ _ (by omega)
        _ ≤ r := hremains.iterate_le (by omega)
    have hpos : 1 ≤ r / p.divisor := (one_le_div_iff (by omega)).mpr hmany
    omega

/-- All streams give a well-formed graph exactly with safe parameters. -/
theorem createTopology_wellFormed_iff (p : Params) :
    ((∀ rand, ∃ s, createTopology p rand = .ok s ∧ WellFormed p s) ↔ p.Safe) ∧
      (¬p.Safe → ∃ rand : ℕ → ℕ, (∀ i, rand i ≤ p.nodes) ∧ ¬∃ s, createTopology p rand = .ok s ∧ WellFormed p s) := by
  have hbad : ¬p.Safe → ∃ rand : ℕ → ℕ, (∀ i, rand i ≤ p.nodes) ∧ Fails p rand := by
    intro hsafe
    by_contra hnone
    push Not at hnone
    exact hsafe (allSafe_of_streams hnone).safe
  refine ⟨⟨fun h => ?_, fun hsafe rand => ends_false_iff.mp (createTopology_ends hsafe.allSafe rand)⟩, hbad⟩
  by_contra hsafe
  obtain ⟨rand, -, hfails⟩ := hbad hsafe
  exact hfails (h rand)

/-- The macro draws 0 and then too many successors; and a division by zero. -/
theorem createTopology_goes_wrong :
    let p : Params := ⟨2, 4, 5, by decide, by decide, by decide⟩
    let q : Params := ⟨1, 6, 5, by decide, by decide, by decide⟩
    (∃ s, createTopology p (fun i => [1, 0, 2].getD i 0) = .ok s ∧ s.components = [⟨0, 2⟩] ∧
      s.nodes[0]? = some ⟨0, 2, [1, 1]⟩ ∧ ¬WellFormed p s) ∧
    ∃ s, createTopology q (fun _ => 0) = .error (.divisionByZero, s) := by
  refine ⟨⟨_, rfl, by decide, by decide, fun hwell => ?_⟩, _, rfl⟩
  obtain ⟨node, hnode, hsound⟩ := hwell.sound ⟨0, 2⟩ (by decide) 0 (by decide)
  have hat := hnode.symm.trans (show _ = some (⟨0, 2, [1, 1]⟩ : Node) by decide)
  rw [Option.some.inj hat] at hsound
  exact absurd hsound.nodup (by decide)

/-- The parameters in `params.h` are not safe. -/
example : ¬(⟨1000, 4, 5, by decide, by decide, by decide⟩ : Params).Safe := by
  unfold Params.Safe
  decide

end SmcPim.Topology
