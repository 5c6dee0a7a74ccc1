import SmcPim.Topology.Components

/-! # Streams for every choice -/

namespace SmcPim.Topology

open Stops Draws Nat List
open Host (Stop)

variable {p : Params} {rand : ℕ → ℕ} {s t : Build} {c r size : ℕ}

/-! ## What a turn reads -/

lemma createNode_reads (k : Component) (degree i : ℕ) :
    Reads Build.drawn fun rand => createNode rand k degree i := by
  constructor
  · intro rand s
    obtain ⟨n, d, heq, hd, -⟩ := drawDegree_spec rand degree k.size s
    unfold createNode
    rw [heq]
    exact hd.le.trans (le_succ d)
  · intro rand rand' s hsame
    have hdegree : drawDegree rand' degree k.size s = drawDegree rand degree k.size s ∧
        rand' (drawDegree rand degree k.size s).2.drawn = rand (drawDegree rand degree k.size s).2.drawn := by
      obtain ⟨n, d, heq, hd, -⟩ := drawDegree_spec rand degree k.size s
      unfold createNode at hsame
      rw [heq] at hsame ⊢
      dsimp only at hsame
      refine ⟨?_, hsame d (lt_succ_self d)⟩
      rw [← heq]
      unfold drawDegree at heq ⊢
      rw [hsame s.drawn (by omega)]
      split at heq
      · rename_i hless
        obtain ⟨-, heq⟩ := Prod.ext_iff.mp heq
        have hdrawn := congrArg Build.drawn heq
        dsimp only at hdrawn
        rw [hsame (s.drawn + 1) (by omega)]
      · rename_i hless
        rw [if_neg hless, if_neg hless]
    obtain ⟨hsize, hnext⟩ := hdegree
    unfold createNode
    simp only [hsize, hnext]

lemma fillComponent_reads (size : ℕ) : Reads Build.drawn fun rand => fillComponent p rand size := by
  constructor
  · intro rand s
    exact (Reads.loop (fun i => createNode_reads ⟨s.start, size⟩ (componentDegree p size) i) size).le rand s
  · intro rand rand' s hsame
    have heq := (Reads.loop (fun i => createNode_reads ⟨s.start, size⟩ (componentDegree p size) i) size).congr rand rand' s hsame
    unfold fillComponent
    dsimp only at heq ⊢
    rw [heq]

lemma componentSize_reads {u : ℕ × Build} (h : componentSize p rand c s = .ok u) :
    s.drawn ≤ u.2.drawn ∧ ∀ rand', (∀ i < u.2.drawn, rand' i = rand i) → componentSize p rand' c s = .ok u := by
  by_cases hlast : c = p.numComponents - 1
  · rw [componentSize_last hlast] at h
    cases h
    exact ⟨le_rfl, fun rand' _ => componentSize_last hlast⟩
  · rw [componentSize_draw hlast] at h
    split at h
    · cases h
    · rename_i hzero
      cases h
      refine ⟨le_succ _, fun rand' hsame => ?_⟩
      rw [componentSize_draw hlast, if_neg hzero, hsame s.drawn (lt_succ_self _)]

lemma createComponent_reads (c : ℕ) : ReadsE Build.drawn fun rand => createComponent p rand c := by
  have hcases : ∀ {rand s t}, createComponent p rand c s = .ok t → s.remaining = 0 ∧ t = s ∨
      s.remaining ≠ 0 ∧ ∃ u, componentSize p rand c s = .ok u ∧ fillComponent p rand u.1 u.2 = t := by
    intro rand s t h
    unfold createComponent at h
    split at h
    · rename_i hr
      cases h
      exact .inl ⟨hr, rfl⟩
    · rename_i hr
      obtain ⟨u, hu, h⟩ := bind_eq_ok.mp h
      cases h
      exact .inr ⟨hr, u, hu, rfl⟩
  constructor
  · intro rand s t h
    rcases hcases h with ⟨-, rfl⟩ | ⟨-, u, hu, rfl⟩
    · exact le_rfl
    · exact (componentSize_reads hu).1.trans ((fillComponent_reads u.1).le rand u.2)
  · intro rand s t h rand' hsame
    rcases hcases h with ⟨hr, rfl⟩ | ⟨hr, u, hu, rfl⟩
    · exact if_pos hr
    · have hle := (fillComponent_reads (p := p) u.1).le rand u.2
      have hsize := (componentSize_reads hu).2 rand' fun i hi => hsame i (hi.trans_le hle)
      have hfill := (fillComponent_reads (p := p) u.1).congr rand rand' u.2 hsame
      unfold createComponent
      rw [if_neg hr, hsize, ok_bind, ← hfill]

/-! ## Streams to every choice -/

def Reached (p : Params) (c r : ℕ) : Prop :=
  ∃ s, Placed p s ∧ s.remaining = r ∧ ∀ v : ℕ → ℕ, (∀ j, v j ≤ p.nodes) →
    ∃ rand, (∀ i, rand i ≤ p.nodes) ∧ loopE (createComponent p rand) c (init p) = .ok s ∧ ∀ j, rand (s.drawn + j) = v j

lemma reached_of_run (hrand : ∀ i, rand i ≤ p.nodes)
    (hrun : loopE (createComponent p rand) c (init p) = .ok s)
    (hplaced : Placed p s) : Reached p c s.remaining := by
  refine ⟨s, hplaced, rfl, fun v hv => ⟨redraw rand s.drawn v, redraw_le hrand hv, ?_, redraw_after rand v s.drawn⟩⟩
  exact (ReadsE.loopE createComponent_reads c).congr hrun _ fun i hi => redraw_before hi

lemma Reached.choose (h : Reached p c r) (hr : r ≠ 0) (hsize : Allowed p c r size) {w : ℕ → ℕ}
    (hw : ∀ j, w j ≤ p.nodes) : ∃ rand s, (∀ i, rand i ≤ p.nodes) ∧ Placed p s ∧ s.remaining = r ∧
      loopE (createComponent p rand) (c + 1) (init p) = .ok (fillComponent p rand size s) ∧
      ∀ j, rand (s.drawn + j) = w j := by
  obtain ⟨s, hplaced, rfl, hany⟩ := h
  have hle := (hsize.bounds hr).2
  have htotal := hplaced.total
  obtain ⟨rand, hrand, hrun, hdraws⟩ := hany (redraw (fun _ => size - 1) (sizeDraws p c) w)
    (redraw_le (fun _ => by omega) hw)
  have hdrawn : componentSize p rand c s = .ok (size, { s with drawn := s.drawn + sizeDraws p c }) :=
    componentSize_allowed hsize fun i hi => (hdraws i).trans (redraw_before hi)
  refine ⟨rand, { s with drawn := s.drawn + sizeDraws p c }, hrand,
    { hplaced with }, rfl, ?_, fun j => ?_⟩
  · rw [loopE_succ, hrun, ok_bind, createComponent, if_neg hr, hdrawn, ok_bind]
  · rw [add_assoc, hdraws, redraw_after]

lemma Remains.reached (h : Remains p c r) : Reached p c r := by
  induction h with
  | start =>
    have hrun : loopE (createComponent p fun _ => 0) 0 (init p) = .ok (init p) := rfl
    exact reached_of_run (fun _ => zero_le _) hrun (placed_init p)
  | @stay c _ ih =>
    obtain ⟨s, hplaced, hr, hany⟩ := ih
    obtain ⟨rand, hrand, hrun, -⟩ := hany (fun _ => 0) fun _ => zero_le _
    have hnext : loopE (createComponent p rand) (c + 1) (init p) = .ok s := by
      rw [loopE_succ, hrun, ok_bind, createComponent, if_pos hr]
    exact hr ▸ reached_of_run hrand hnext hplaced
  | take _ _ hr hsize ih =>
    obtain ⟨rand, s, hrand, hplaced, rfl, hrun, -⟩ := ih.choose hr hsize (w := fun _ => 0) fun _ => zero_le _
    obtain ⟨hone, hle⟩ := hsize.bounds hr
    obtain ⟨hfill, hremaining⟩ := hplaced.fill rand hone hle
    exact hremaining ▸ reached_of_run hrand hrun hfill

/-! ## What goes wrong -/

def Fails (p : Params) (rand : ℕ → ℕ) : Prop := ¬∃ s, createTopology p rand = .ok s ∧ WellFormed p s

lemma Reached.fails_division (h : Reached p c r) (hc : c < p.numComponents) (hr : r ≠ 0)
    (hlast : c ≠ p.numComponents - 1)
    (hzero : r / p.divisor = 0) : ∃ rand, (∀ i, rand i ≤ p.nodes) ∧ Fails p rand := by
  obtain ⟨s, -, rfl, hany⟩ := h
  obtain ⟨rand, hrand, hrun, -⟩ := hany (fun _ => 0) fun _ => zero_le _
  refine ⟨rand, hrand, ?_⟩
  rintro ⟨t, ht, -⟩
  have herror : loopE (createComponent p rand) (c + 1) (init p) =
      .error (.divisionByZero, { s with drawn := s.drawn + 1 }) := by
    rw [loopE_succ, hrun, ok_bind, createComponent, if_neg hr, componentSize_draw hlast, if_pos hzero]
    rfl
  rw [createTopology, loopE_error herror hc] at ht
  cases ht

lemma createComponent_grows (rand : ℕ → ℕ) (c : ℕ) (s : Build) : Ends (fun _ => True)
    (fun t => s.nodes <+: t.nodes ∧ s.components <+: t.components) (createComponent p rand c s) := by
  unfold createComponent
  split
  · exact ⟨prefix_rfl, prefix_rfl⟩
  · by_cases hdiv : c ≠ p.numComponents - 1 → s.remaining / p.divisor ≠ 0
    · obtain ⟨size, hsize, -⟩ := componentSize_ends rand hdiv
      obtain ⟨l, d, heq, -⟩ := fillComponent_spec (p := p) rand size { s with drawn := s.drawn + sizeDraws p c }
      rw [hsize, ok_bind]
      simp only [heq]
      exact ⟨prefix_append _ _, prefix_append _ _⟩
    · push Not at hdiv
      rw [componentSize_draw hdiv.1, if_pos hdiv.2]
      trivial

lemma createNode_full {k : Component} (hsize : 2 ≤ k.size) (hfirst : rand s.drawn = 0)
    (hsecond : rand (s.drawn + 1) = k.size) :
    ∃ node, (createNode rand k k.size 0 s).nodes = s.nodes ++ [node] ∧ node.successors.length = k.size := by
  have hdegree : drawDegree rand k.size k.size s = (k.size, { s with drawn := s.drawn + 2 }) := by
    unfold drawDegree
    rw [hfirst, hsecond, zero_mod, if_pos (by omega), mod_eq_of_lt (lt_succ_self _)]
  unfold createNode
  rw [hdegree]
  refine ⟨_, rfl, ?_⟩
  dsimp only
  rw [addSuccessor_length, length_nil, zero_add]

lemma fillComponent_full (hsize : 2 ≤ size) (hle : size ≤ p.maxComponentOutdegree)
    (hfirst : rand s.drawn = 0) (hsecond : rand (s.drawn + 1) = size) :
    ∃ node l, (fillComponent p rand size s).nodes = s.nodes ++ node :: l ∧ node.successors.length = size := by
  let k : Component := ⟨s.start, size⟩
  -- before the first node nothing has changed, and after it the node stays where it is
  let I : ℕ → Build → Prop := fun i t =>
    i = 0 ∧ t = s ∨ ∃ node l, t.nodes = s.nodes ++ node :: l ∧ node.successors.length = size
  have hstep : ∀ i t, i < size → I i t → I (i + 1) (createNode rand k size i t) := by
    rintro i t hi (⟨rfl, rfl⟩ | ⟨node, l, hnodes, hlen⟩)
    · obtain ⟨node, hnodes, hlen⟩ := createNode_full (k := k) hsize hfirst hsecond
      exact .inr ⟨node, [], hnodes, hlen⟩
    · obtain ⟨node', d, heq, -⟩ := createNode_spec (k := k) rand size hi t
      refine .inr ⟨node, l ++ [node'], ?_, hlen⟩
      rw [heq]
      simp [hnodes]
  have hfull : I size (loop (createNode rand k size) size s) := loop_inv I (.inl ⟨rfl, rfl⟩) hstep
  obtain ⟨hzero, -⟩ | hfull := hfull
  · omega
  · have hdegree : componentDegree p size = size := if_neg (by omega)
    unfold fillComponent
    rw [hdegree]
    exact hfull

lemma Reached.fails_degree (h : Reached p c r) (hc : c < p.numComponents) (hr : r ≠ 0)
    (hallowed : Allowed p c r size)
    (hsize : 2 ≤ size) (hle : size ≤ p.maxComponentOutdegree) : ∃ rand, (∀ i, rand i ≤ p.nodes) ∧ Fails p rand := by
  have hbound : size ≤ p.nodes := by
    obtain ⟨s, hplaced, rfl, -⟩ := h
    have := hplaced.total
    have := (hallowed.bounds hr).2
    omega
  have hdraws : ∀ j, (if j = 1 then size else 0) ≤ p.nodes := by
    intro j
    split
    · exact hbound
    · exact zero_le _
  obtain ⟨rand, s, hrand, hplaced, rfl, hrun, hdrawn⟩ := h.choose hr hallowed hdraws
  refine ⟨rand, hrand, ?_⟩
  rintro ⟨t, ht, hwell⟩
  obtain ⟨node, l, hnodes, hlen⟩ := fillComponent_full hsize hle (hdrawn 0) (hdrawn 1)
  have hgrows := loopE_from (E := fun _ => True)
    (fun u => (fillComponent p rand size s).nodes <+: u.nodes ∧ (fillComponent p rand size s).components <+: u.components)
    hrun ⟨prefix_rfl, prefix_rfl⟩ (fun k u hu => (createComponent_grows rand k u).imp (fun _ _ => trivial)
      fun v hv => ⟨hu.1.trans hv.1, hu.2.trans hv.2⟩) hc
  rw [createTopology] at ht
  rw [ht] at hgrows
  obtain ⟨hgrown, hcomponents⟩ := hgrows
  have hmem : (⟨s.start, size⟩ : Component) ∈ t.components := by
    obtain ⟨l', d, heq, -⟩ := fillComponent_spec (p := p) rand size s
    rw [heq] at hcomponents
    exact hcomponents.subset (by simp)
  have hfirst : s.start ∈ range' s.start size := mem_range'_1.mpr ⟨le_rfl, by omega⟩
  obtain ⟨node', hnode', hsound⟩ := hwell.sound _ hmem s.start hfirst
  have hat : t.nodes[s.start]? = some node := by
    rw [hnodes] at hgrown
    obtain ⟨rest, hrest⟩ := hgrown
    rw [← hrest, ← hplaced.nodes]
    simp
  obtain rfl : node' = node := Option.some.inj (hnode'.symm.trans hat)
  have hlt := length_lt_of_others hfirst hsound.nodup hsound.inside
  dsimp only at hlt
  omega

lemma allSafe_of_streams (h : ∀ rand : ℕ → ℕ, (∀ i, rand i ≤ p.nodes) → ¬Fails p rand) :
    AllSafe p := by
  intro c r hremains hc hr
  constructor
  · intro hlast hzero
    obtain ⟨rand, hrand, hfails⟩ := hremains.reached.fails_division hc hr hlast hzero
    exact h rand hrand hfails
  · intro size hallowed
    by_contra hroomy
    have hone := (hallowed.bounds hr).1
    obtain ⟨rand, hrand, hfails⟩ := hremains.reached.fails_degree hc hr hallowed (by omega) (by omega)
    exact h rand hrand hfails

end SmcPim.Topology
