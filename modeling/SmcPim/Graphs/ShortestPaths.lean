import SmcPim.Graphs.BellmanFord
import SmcPim.Lib.Paths

/-! # Bellman-Ford finds the shortest paths -/

namespace SmcPim.Graphs.BellmanFord

open Engine Paths

def edge (p : Params) (nodes : ℤ → Node) (u v w : ℕ) : Prop :=
  u < p.nodes ∧ ∃ c < (nodes u).outDegree, (nodes u).successors c = v ∧ (nodes u).weights c = w

def Closed (p : Params) (nodes : ℤ → Node) : Prop :=
  ∀ r < p.nodes, ∀ c < (nodes r).outDegree, (nodes r).successors c < p.nodes

/-- A path with one more edge has a length that a `ulong_t` can hold. -/
def NoWrap (p : Params) (nodes : ℤ → Node) : Prop :=
  ∀ l u L v w, Path (edge p nodes) 0 l u L → edge p nodes u v w → L + w < 2 ^ p.arch.bits

def dist (p : Params) (nodes : ℤ → Node) (v : ℕ) : ℕ := if v < p.nodes then (nodes v).distance else nc p.arch

variable {p : Params} {nodes₀ ns : ℤ → Node} {u v w r c k : ℕ}

lemma dist_of_lt (hv : v < p.nodes) : dist p ns v = (ns v).distance := if_pos hv

lemma edge_congr (h : Kept Node.toEdges nodes₀ ns) : edge p ns = edge p nodes₀ := by
  funext u v w
  unfold edge
  rw [h u]

lemma Closed.congr (h : Closed p nodes₀) (hns : Kept Node.toEdges nodes₀ ns) : Closed p ns := by
  intro r hr c hc
  rw [hns r] at hc ⊢
  exact h r hr c hc

lemma dist_setDistance (hv : v < p.nodes) (d : ℕ) :
    dist p (setDistance v d ns) = Function.update (dist p ns) v d := by
  funext x
  by_cases hx : x = v
  · rw [hx, dist_of_lt hv, setDistance_distance, if_pos rfl, Function.update_self]
  · have hne : (x : ℤ) ≠ v := by exact_mod_cast hx
    rw [Function.update_of_ne hx, dist, dist, setDistance_distance, if_neg hne]

lemma dist_relaxEdge (hnowrap : NoWrap p ns) (hclosed : Closed p ns)
    (hsound : Sound (edge p ns) 0 (nc p.arch) (dist p ns)) (hr : r < p.nodes) (hc : c < (ns r).outDegree) :
    dist p (relaxEdge p r c ns) =
      relax (nc p.arch) r ((ns r).successors c) ((ns r).weights c) (dist p ns) := by
  have hsucc := hclosed r hr c hc
  by_cases hreached : (ns r).distance = nc p.arch
  · have hno : relaxes p r c ns = false := by rw [relaxes, bne_eq_false_iff_eq.mpr hreached, Bool.false_and]
    have hsame : relaxEdge p r c ns = ns := by simp [relaxEdge, hno]
    rw [hsame, relax, if_neg fun h => h.1 ((dist_of_lt hr).trans hreached)]
  · obtain ⟨l, hpath⟩ := hsound.exists_path ((dist_of_lt hr).trans_ne hreached)
    have hlt := hnowrap l r _ _ _ hpath ⟨hr, c, hc, rfl, rfl⟩
    rw [dist_of_lt hr] at hlt
    have hbne : ((ns r).distance != nc p.arch) = true := bne_iff_ne.mpr hreached
    unfold relaxEdge relaxes assign relax
    rw [hbne, Bool.true_and, Arch.ulong_of_lt hlt, dist_of_lt hr, dist_of_lt hsucc]
    simp only [decide_eq_true_eq, ne_eq, hreached, not_false_eq_true, true_and]
    split
    · exact dist_setDistance hsucc _
    · rfl

/-! ## One pass -/

def edgesBefore (p : Params) (nodes : ℤ → Node) (r c u v w : ℕ) : Prop :=
  u < p.nodes ∧ ∃ j < (nodes u).outDegree, (u < r ∨ u = r ∧ j < c) ∧ (nodes u).successors j = v ∧ (nodes u).weights j = w

structure During (p : Params) (nodes₀ : ℤ → Node) (r c : ℕ) : Prop where
  sound : Sound (edge p nodes₀) 0 (nc p.arch) (dist p (soFar p nodes₀ r c))
  pass : Pass (edgesBefore p nodes₀ r c) (nc p.arch) (dist p nodes₀) (dist p (soFar p nodes₀ r c))

lemma During.edge (h : During p nodes₀ r c) (hnowrap : NoWrap p nodes₀) (hclosed : Closed p nodes₀)
    (htop : ∀ v, dist p nodes₀ v ≤ nc p.arch) (hr : r < p.nodes) (hc : c < (nodes₀ r).outDegree) :
    During p nodes₀ r (c + 1) := by
  have hkept : Kept Node.toEdges nodes₀ (soFar p nodes₀ r c) := soFar_toEdges r c
  have hedges : BellmanFord.edge p (soFar p nodes₀ r c) = BellmanFord.edge p nodes₀ := edge_congr hkept
  have hrelax : dist p (soFar p nodes₀ r (c + 1)) =
      relax (nc p.arch) r ((nodes₀ r).successors c) ((nodes₀ r).weights c) (dist p (soFar p nodes₀ r c)) := by
    have hnode := hkept r
    have hsound := h.sound
    rw [← hedges] at hsound
    unfold NoWrap at hnowrap
    rw [← hedges] at hnowrap
    rw [soFar_succ, dist_relaxEdge hnowrap (hclosed.congr hkept) hsound hr (by rwa [hnode]), hnode]
  refine ⟨?_, ?_⟩
  · rw [hrelax]
    exact h.sound.relax ⟨hr, c, hc, rfl, rfl⟩
  · rw [hrelax]
    refine h.pass.relax htop fun a b x hdone => ?_
    obtain ⟨ha, j, hj, hbefore, hsucc, hweight⟩ := hdone
    rcases hbefore with hlt | ⟨rfl, hlt⟩
    · exact .inl ⟨ha, j, hj, .inl hlt, hsucc, hweight⟩
    · rcases Nat.lt_succ_iff_lt_or_eq.mp hlt with hlt | rfl
      · exact .inl ⟨ha, j, hj, .inr ⟨rfl, hlt⟩, hsucc, hweight⟩
      · exact .inr ⟨rfl, hsucc.symm, hweight.symm⟩

lemma During.next (h : During p nodes₀ r (nodes₀ r).outDegree) : During p nodes₀ (r + 1) 0 := by
  have hsoFar : soFar p nodes₀ (r + 1) 0 = soFar p nodes₀ r (nodes₀ r).outDegree := soFar_next r
  refine ⟨hsoFar ▸ h.sound, hsoFar ▸ ⟨h.pass.le, fun a b x hdone => h.pass.relaxed a b x ?_⟩⟩
  obtain ⟨ha, j, hj, hbefore, hrest⟩ := hdone
  rcases hbefore with hlt | ⟨-, hlt⟩
  · rcases Nat.lt_succ_iff_lt_or_eq.mp hlt with hlt | rfl
    · exact ⟨ha, j, hj, .inl hlt, hrest⟩
    · exact ⟨ha, j, hj, .inr ⟨rfl, hj⟩, hrest⟩
  · omega

lemma pass_spec (hnowrap : NoWrap p nodes₀) (hclosed : Closed p nodes₀)
    (hsound : Sound (edge p nodes₀) 0 (nc p.arch) (dist p nodes₀)) :
    Sound (edge p nodes₀) 0 (nc p.arch) (dist p (runGolden p nodes₀).1) ∧
      Pass (edge p nodes₀) (nc p.arch) (dist p nodes₀) (dist p (runGolden p nodes₀).1) := by
  have hduring (r : ℕ) (hr : r ≤ p.nodes) : During p nodes₀ r 0 := by
    induction r with
    | zero =>
      refine ⟨hsound, .start fun u v w hdone => ?_⟩
      obtain ⟨-, j, -, hbefore, -⟩ := hdone
      omega
    | succ r ih =>
      have hedges (c : ℕ) (hc : c ≤ (nodes₀ r).outDegree) : During p nodes₀ r c := by
        induction c with
        | zero => exact ih (by omega)
        | succ c ihc => exact (ihc (by omega)).edge hnowrap hclosed hsound.le_top hr hc
      exact (hedges _ le_rfl).next
  obtain ⟨hsound', hpass⟩ := hduring p.nodes le_rfl
  rw [runGolden_eq]
  refine ⟨hsound', hpass.le, fun u v w hedge => hpass.relaxed u v w ?_⟩
  obtain ⟨hu, c, hc, hrest⟩ := hedge
  exact ⟨hu, c, hc, .inl hu, hrest⟩

/-! ## All passes -/

lemma runGolden_kept (p : Params) (ns : ℤ → Node) : Kept Node.toEdges ns (runGolden p ns).1 := by
  rw [runGolden_eq]
  exact soFar_toEdges p.nodes 0

def passes (pass : (ℤ → Node) → (ℤ → Node) × ℕ) (p : Params) (k : ℕ) (nodes : ℤ → Node) : ℤ → Node :=
  (fun ns => (pass ns).1)^[k] (resetGraphStats p nodes)

lemma passes_default (p : Params) (k : ℕ) (nodes : ℤ → Node) :
    passes (kernelDefault p) p k nodes = passes (runGolden p) p k nodes := by
  have hpass : (fun ns => (kernelDefault p ns).1) = fun ns => (runGolden p ns).1 := by
    funext ns
    rw [kernelDefault_eq, runGolden_eq]
  rw [passes, passes, hpass]

lemma resetLoop_distance (n : ℕ) (ns : ℤ → Node) (d : ℕ) (i : ℤ) :
    (loop (fun i => setDistance (i + 1) d) n ns i).distance = if 0 < i ∧ i ≤ n then d else (ns i).distance := by
  induction n with
  | zero =>
    rw [loop_zero, if_neg]
    omega
  | succ n ih =>
    rw [loop_succ, setDistance_distance, ih]
    split_ifs <;> first | rfl | omega

lemma dist_reset (hnodes : 0 < p.nodes) (v : ℕ) :
    dist p (resetGraphStats p ns) v = if v = 0 then 0 else nc p.arch := by
  unfold dist resetGraphStats
  rw [setDistance_distance, resetLoop_distance]
  split_ifs <;> first | rfl | omega

structure After (p : Params) (nodes₀ : ℤ → Node) (k : ℕ) (ns : ℤ → Node) : Prop where
  kept : Kept Node.toEdges nodes₀ ns
  sound : Sound (edge p nodes₀) 0 (nc p.arch) (dist p ns)
  near : Near (edge p nodes₀) 0 k (dist p ns)

lemma after_reset (hnodes : 0 < p.nodes) (nodes₀ : ℤ → Node) : After p nodes₀ 0
    (resetGraphStats p nodes₀) where
  kept := resetGraphStats_toEdges nodes₀
  sound := sound_start (by rw [dist_reset hnodes, if_pos rfl]) fun v hv => by rw [dist_reset hnodes, if_neg hv]
  near := near_start (by rw [dist_reset hnodes, if_pos rfl])

lemma After.pass (h : After p nodes₀ k ns) (hnowrap : NoWrap p nodes₀) (hclosed : Closed p nodes₀) :
    After p nodes₀ (k + 1) (runGolden p ns).1 := by
  have hedges : edge p ns = edge p nodes₀ := edge_congr h.kept
  have hsound := h.sound
  rw [← hedges] at hsound
  unfold NoWrap at hnowrap
  rw [← hedges] at hnowrap
  obtain ⟨hsound', hpass⟩ := pass_spec hnowrap (hclosed.congr h.kept) hsound
  rw [hedges] at hsound' hpass
  exact ⟨fun i => (runGolden_kept p ns i).trans (h.kept i), hsound', h.near.pass h.sound.le_top hpass⟩

lemma after_passes (hnodes : 0 < p.nodes) (hnowrap : NoWrap p nodes₀) (hclosed : Closed p nodes₀)
    (k : ℕ) : After p nodes₀ k (passes (runGolden p) p k nodes₀) := by
  induction k with
  | zero => exact after_reset hnodes nodes₀
  | succ k ih =>
    unfold passes at ih ⊢
    rw [Function.iterate_succ_apply']
    exact ih.pass hnowrap hclosed

lemma path_le_nc (hnowrap : NoWrap p nodes₀) (l : List ℕ) (v L : ℕ)
    (h : Path (edge p nodes₀) 0 l v L) : L ≤ nc p.arch := by
  obtain ⟨hwalk, hnodup⟩ := h
  cases hwalk with
  | nil => exact Nat.zero_le _
  | step hwalk hedge =>
    have hlt := hnowrap _ _ _ _ _ ⟨hwalk, (List.nodup_cons.mp hnodup).2⟩ hedge
    exact Nat.le_sub_one_of_lt hlt

/-- After `k` passes the distances are at most those of `k` edges; after `NODES - 1`, the shortest.
-/
theorem passes_shortest (p : Params) (nodes : ℤ → Node) (hclosed : Closed p nodes)
    (hnowrap : NoWrap p nodes) (k : ℕ) :
    passes (kernelDefault p) p k nodes = passes (runGolden p) p k nodes ∧
    ∀ v < p.nodes, ∀ d, d = (passes (runGolden p) p k nodes v).distance →
      (d = nc p.arch ∨ ∃ l, Walk (edge p nodes) 0 l v d) ∧
      (∀ L, IsShortest (edge p nodes) 0 v L → L ≤ d) ∧
      (∀ l L, Walk (edge p nodes) 0 l v L → l.length ≤ k → d ≤ L) ∧
      (p.nodes - 1 ≤ k → (∀ L, IsShortest (edge p nodes) 0 v L → d = L) ∧
        ((∀ l L, ¬Walk (edge p nodes) 0 l v L) → d = nc p.arch)) := by
  refine ⟨passes_default p k nodes, fun v hv d hd => ?_⟩
  have hafter := after_passes (by omega) hnowrap hclosed k
  rw [← dist_of_lt hv] at hd
  have hreached : d = nc p.arch ∨ ∃ l, Walk (edge p nodes) 0 l v d := by
    by_cases hnc : d = nc p.arch
    · exact .inl hnc
    · obtain ⟨l, hpath⟩ := hafter.sound.exists_path (v := v) (by rwa [← hd])
      exact .inr ⟨l, hd ▸ hpath.walk⟩
  have hge (L : ℕ) (hL : IsShortest (edge p nodes) 0 v L) : L ≤ d :=
    hd ▸ hafter.sound.shortest_le (path_le_nc hnowrap) hL
  refine ⟨hreached, hge, fun l L hwalk hlength => hd ▸ hafter.near l v L hwalk hlength, fun hk => ⟨fun L hL => ?_, ?_⟩⟩
  · refine le_antisymm ?_ (hge L hL)
    rw [hd]
    refine hafter.near.dist_le_shortest (V := Finset.range p.nodes) (Finset.mem_range.mpr (by omega)) ?_ ?_ hL
    · rintro a b x ⟨ha, c, hc, rfl, -⟩
      exact Finset.mem_range.mpr (hclosed a ha c hc)
    · rw [Finset.card_range]
      omega
  · intro hnone
    exact hreached.resolve_right fun ⟨l, hwalk⟩ => hnone l d hwalk

theorem passes_shortest_edge :
    let p : Params := ⟨.arm, 2, 2⟩
    let nodes : ℤ → Node := fun i => ⟨⟨fun _ => 5, i.toNat, if i = 0 then 1 else 0, fun _ => 1⟩, 7⟩
    (passes (runGolden p) p 1 nodes 1).distance = 5 ∧ ∀ L, IsShortest (edge p nodes) 0 1 L → L = 5 := by
  intro p nodes
  have hfrom {u v w : ℕ} (h : edge p nodes u v w) : u = 0 ∧ v = 1 ∧ w = 5 := by
    obtain ⟨hu, c, hc, rfl, rfl⟩ := h
    have hu : u < 2 := hu
    interval_cases u
    · exact ⟨rfl, rfl, rfl⟩
    · exact absurd hc (Nat.not_lt_zero c)
  have hclosed : Closed p nodes := fun r hr c hc => Nat.one_lt_two
  have hnowrap : NoWrap p nodes := by
    intro l u L v w hpath hedge
    obtain ⟨rfl, rfl, rfl⟩ := hfrom hedge
    cases hpath.walk with
    | nil => decide
    | step _ hlast => exact absurd (hfrom hlast).2.1 (by decide)
  have hdistance : (passes (runGolden p) p 1 nodes 1).distance = 5 := by decide +kernel
  refine ⟨hdistance, fun L hL => ?_⟩
  have hlast := ((passes_shortest p nodes hclosed hnowrap 1).2 1 Nat.one_lt_two _ rfl).2.2.2 le_rfl
  exact (hlast.1 L hL).symm.trans hdistance

end SmcPim.Graphs.BellmanFord
