import SmcPim.Sgraph.Model

/-! # The successors of a node -/

namespace SmcPim.Sgraph

open Stops List Nat Ends

/-- Every node has a list of other nodes, without repetition. -/
structure WellFormed (p : Params) (nodes : List Node) : Prop where
  length : nodes.length = p.nodes
  others : ∀ i n, nodes[i]? = some n → ∀ x ∈ n.succs, x < p.nodes ∧ x ≠ i
  distinct : ∀ n ∈ nodes, n.succs.Nodup ∧ n.succs.length = n.outDegree

variable {p : Params} {rand : ℕ → ℕ} {s : Build} {fuel i n succ : ℕ}

/-! ## What a node does to the state -/

def Build.Drew (s t : Build) : Prop := ∃ d, t = { s with drawn := d }

lemma Build.Drew.refl (s : Build) : s.Drew s := ⟨s.drawn, rfl⟩

lemma Build.Drew.trans {t u : Build} (h : s.Drew t) (h' : t.Drew u) : s.Drew u := by
  obtain ⟨d, rfl⟩ := h
  obtain ⟨e, rfl⟩ := h'
  exact ⟨e, rfl⟩

lemma randMod_drew :
    Ends (fun e => s.Drew e.2) (fun x => s.Drew x.2 ∧ n ≠ 0 ∧ x.1 = rand s.drawn % n) (s.randMod rand n) := by
  unfold Build.randMod
  simp only
  split
  · exact ⟨_, rfl⟩
  · rename_i hn
    exact ⟨⟨_, rfl⟩, hn, rfl⟩

lemma avoid_drew (fuel : ℕ) (x : ℕ × Build) :
    Ends (fun e => x.2.Drew e.2) (fun y => x.2.Drew y.2) (avoid p rand i fuel x) := by
  induction fuel generalizing x with
  | zero => exact .refl _
  | succ fuel ih =>
    obtain ⟨succ, s⟩ := x
    unfold avoid
    split
    · refine bind randMod_drew ?_
      rintro ⟨d, t⟩ ⟨hdrew, -⟩
      exact (ih _).imp (fun _ h => hdrew.trans h) (fun _ h => hdrew.trans h)
    · exact .refl _

lemma addSuccessors_drew (p : Params) (rand : ℕ → ℕ) (fuel i n succ : ℕ) (s : Build) :
    Ends (fun e => s.Drew e.2) (fun y : ℕ × List ℕ × Build => s.Drew y.2.2 ∧ y.2.1.length = n)
      (loopE (addSuccessor p rand fuel i) n (succ, [], s)) := by
  refine loopE_ends (fun k (y : ℕ × List ℕ × Build) => s.Drew y.2.2 ∧ y.2.1.length = k) ⟨.refl s, rfl⟩ ?_
  rintro k ⟨succ, succs, t⟩ - ⟨hdrew, hlen⟩
  refine bind (P := fun y => s.Drew y.2) ?_ ?_
  · exact (avoid_drew fuel (succ, t)).imp (fun _ h => hdrew.trans h) (fun _ h => hdrew.trans h)
  · rintro ⟨next, u⟩ hu
    exact ⟨hu, by simpa using hlen⟩

lemma drawDegree_drew :
    Ends (fun e => s.Drew e.2)
      (fun x => s.Drew x.2 ∧ x.1 ≤ p.maxOutdegree - 1 ∧
        x.1 = if i % p.kernel.step = 0 then rand s.drawn % p.maxOutdegree else 0) (drawDegree p rand i s) := by
  unfold drawDegree
  split
  · refine randMod_drew.imp (fun _ h => h) ?_
    rintro ⟨d, t⟩ ⟨hdrew, hne, rfl⟩
    exact ⟨hdrew, le_sub_one_of_lt (mod_lt _ (pos_of_ne_zero hne)), rfl⟩
  · exact ⟨.refl s, zero_le _, rfl⟩

lemma drawTeenager_drew (p : Params) (rand : ℕ → ℕ) (s : Build) : s.Drew
    (drawTeenager p rand s).2 := by
  unfold drawTeenager
  split
  · exact ⟨_, rfl⟩
  · exact .refl s

lemma allocateSuccessors_drew {t : Build} (h : s.Drew t) :
    (allocateSuccessors p n t).1 = (allocateSuccessors p n s).1 ∧
      (allocateSuccessors p n s).2.Drew (allocateSuccessors p n t).2 := by
  obtain ⟨d, rfl⟩ := h
  unfold allocateSuccessors
  split
  · exact ⟨rfl, d, rfl⟩
  · exact ⟨rfl, d, rfl⟩

lemma allocateSuccessors_nodes : (allocateSuccessors p n s).2.nodes = s.nodes := by
  unfold allocateSuccessors
  split
  · rfl
  · rfl

def Added (p : Params) (i n : ℕ) (s t : Build) : Prop :=
  ∃ d succs teenager,
    t = { (allocateSuccessors p n s).2 with
          drawn := d
          nodes := s.nodes ++ [⟨i, n, (allocateSuccessors p n s).1, succs, teenager, 0, []⟩] } ∧
      succs.length = n

lemma createNode_spec (p : Params) (rand : ℕ → ℕ) (fuel i : ℕ) (s : Build) :
    Ends (fun e => ∃ n ≤ p.maxOutdegree - 1, (allocateSuccessors p n s).2.Drew e.2)
      (fun t => ∃ n ≤ p.maxOutdegree - 1,
        (n = if i % p.kernel.step = 0 then rand s.drawn % p.maxOutdegree else 0) ∧ Added p i n s t)
      (createNode p rand fuel i s) := by
  refine bind (drawDegree_drew.imp (fun e h => ⟨0, zero_le _, h⟩) fun _ h => h) ?_
  rintro ⟨n, t⟩ ⟨hdrew, hle, hn⟩
  obtain ⟨hptr, halloc⟩ := allocateSuccessors_drew (p := p) (n := n) hdrew
  simp only at hptr halloc hle hn ⊢
  refine bind (randMod_drew.imp (fun e h => ⟨n, hle, halloc.trans h⟩) fun _ h => halloc.trans h.1) ?_
  rintro ⟨succ, u⟩ hu
  refine bind ((addSuccessors_drew p rand fuel i n succ u).imp (fun e h => ⟨n, hle, hu.trans h⟩) fun _ h => h.imp_left hu.trans) ?_
  rintro ⟨last, succs, v⟩ ⟨hv, hlen⟩
  obtain ⟨d, hw⟩ := hv.trans (drawTeenager_drew p rand v)
  refine ⟨n, hle, hn, d, succs, (drawTeenager p rand v).1, ?_, hlen⟩
  simp only at hw ⊢
  rw [hw, hptr]
  simp only [allocateSuccessors_nodes]

/-! ## Another node -/

lemma avoid_spec (h500 : 500 ≤ p.nodes) (hi : i < p.nodes) (hsucc : succ < p.nodes) :
    Ends (fun _ => False) (fun y => y.1 < p.nodes ∧ y.1 ≠ i) (avoid p rand i (fuel + 2) (succ, s)) := by
  have hdiv : p.nodes / 500 ≠ 0 := by omega
  rw [avoid]
  split
  · rename_i heq
    subst heq
    rw [Build.randMod, if_neg hdiv, ok_bind]
    have hlt := mod_lt (rand s.drawn) (pos_of_ne_zero hdiv)
    have hle : p.nodes / 500 < p.nodes := div_lt_self (by omega) (by decide)
    set d := rand s.drawn % (p.nodes / 500)
    have hmoved : (if succ + (d + 1) ≥ p.nodes then succ + (d + 1) - p.nodes else succ + (d + 1)) < p.nodes ∧
        (if succ + (d + 1) ≥ p.nodes then succ + (d + 1) - p.nodes else succ + (d + 1)) ≠ succ := by
      split
      · omega
      · omega
    simp only
    rw [avoid, if_neg hmoved.2]
    exact hmoved
  · rename_i hne
    exact ⟨hsucc, hne⟩

lemma addSuccessors_spec (hn : n ≤ 1) (h500 : n = 1 → 500 ≤ p.nodes) (hi : i < p.nodes)
    (hsucc : succ < p.nodes) :
    Ends (fun _ => False) (fun y : ℕ × List ℕ × Build => (∀ x ∈ y.2.1, x < p.nodes ∧ x ≠ i) ∧ y.2.1.Nodup)
      (loopE (addSuccessor p rand (fuel + 2) i) n (succ, [], s)) := by
  rcases le_one_iff_eq_zero_or_eq_one.mp hn with rfl | rfl
  · exact ⟨by simp, nodup_nil⟩
  · rw [loopE_succ, loopE_zero, ok_bind]
    refine bind (avoid_spec (h500 rfl) hi hsucc) ?_
    rintro ⟨x, t⟩ hx
    exact ⟨by simpa using hx, by simp⟩

/-- Out-degrees of 0, and of 1 where another node can be found. -/
def Params.Sparse (p : Params) : Prop := p.maxOutdegree = 1 ∨ (p.maxOutdegree = 2 ∧ 500 ≤ p.nodes)

lemma createNode_wellFormed (hsparse : p.Sparse) (hi : i < p.nodes) :
    Ends (fun _ => False)
      (fun t => ∃ node, t.nodes = s.nodes ++ [node] ∧ (∀ x ∈ node.succs, x < p.nodes ∧ x ≠ i) ∧ node.succs.Nodup ∧
        node.succs.length = node.outDegree)
      (createNode p rand (fuel + 2) i s) := by
  have hpos : p.maxOutdegree ≠ 0 := by
    rcases hsparse with h | h
    · omega
    · omega
  refine bind (P := fun x => x.1 ≤ p.maxOutdegree - 1 ∧ x.2.nodes = s.nodes) ?_ ?_
  · unfold drawDegree
    split
    · rw [Build.randMod, if_neg hpos]
      exact ⟨le_sub_one_of_lt (mod_lt _ (pos_of_ne_zero hpos)), rfl⟩
    · exact ⟨zero_le _, rfl⟩
  rintro ⟨n, t⟩ ⟨hn, ht⟩
  simp only at hn ht ⊢
  have hnodes : (allocateSuccessors p n t).2.nodes = s.nodes := allocateSuccessors_nodes.trans ht
  have hdegree : n ≤ 1 ∧ (n = 1 → 500 ≤ p.nodes) := by
    rcases hsparse with h | h
    · omega
    · omega
  rw [Build.randMod, if_neg (by omega), ok_bind]
  have hsucc := mod_lt (rand (allocateSuccessors p n t).2.drawn) (by omega : 0 < p.nodes)
  have hdrew := addSuccessors_drew p rand (fuel + 2) i n (rand (allocateSuccessors p n t).2.drawn % p.nodes)
    { (allocateSuccessors p n t).2 with drawn := (allocateSuccessors p n t).2.drawn + 1 }
  refine bind (((addSuccessors_spec hdegree.1 hdegree.2 hi hsucc).and hdrew).imp (fun _ h => h.1) fun _ h => h) ?_
  rintro ⟨last, succs, v⟩ ⟨⟨hothers, hnodup⟩, hv, hlen⟩
  obtain ⟨d, hw⟩ := hv.trans (drawTeenager_drew p rand v)
  refine ⟨⟨i, n, (allocateSuccessors p n t).1, succs, (drawTeenager p rand v).1, 0, []⟩, ?_, hothers, hnodup, hlen⟩
  simp only at hw ⊢
  rw [hw, hnodes]

lemma start_nodes : (start p).nodes = [] := by
  unfold start
  simp only
  split
  · rfl
  · rfl

lemma createNodes_wellFormed (hsparse : p.Sparse) (rand : ℕ → ℕ) (fuel : ℕ) :
    Ends (fun _ => False) (fun t => WellFormed p t.nodes) (createNodes p rand (fuel + 2)) := by
  let I (k : ℕ) (s : Build) : Prop :=
    s.nodes.length = k ∧ (∀ i n, s.nodes[i]? = some n → ∀ x ∈ n.succs, x < p.nodes ∧ x ≠ i) ∧
      ∀ n ∈ s.nodes, n.succs.Nodup ∧ n.succs.length = n.outDegree
  refine (loopE_ends I ?_ ?_).imp (fun _ h => h) fun t ⟨hlen, hothers, hdistinct⟩ => ⟨hlen, hothers, hdistinct⟩
  · simp [I, start_nodes]
  · rintro k s hk ⟨hlen, hothers, hdistinct⟩
    refine (createNode_wellFormed hsparse hk).imp (fun _ h => h) ?_
    rintro t ⟨node, hnodes, hnode, hnodup, hdegree⟩
    refine ⟨by simp [hnodes, hlen], ?_, ?_⟩
    · intro i n hi
      rw [hnodes] at hi
      rcases lt_or_ge i s.nodes.length with hlt | hge
      · rw [List.getElem?_append_left hlt] at hi
        exact hothers i n hi
      · rw [getElem?_append_right hge, getElem?_singleton] at hi
        split at hi
        · obtain rfl : i = k := by omega
          obtain rfl := Option.some.inj hi
          exact hnode
        · cases hi
    · intro n hn
      rw [hnodes, mem_append, mem_singleton] at hn
      rcases hn with hn | rfl
      · exact hdistinct n hn
      · exact ⟨hnodup, hdegree⟩

/-! ## Weights -/

def Node.edges (n : Node) : ℕ × ℕ × ℕ × List ℕ × Bool := (n.ID, n.outDegree, n.successors, n.succs, n.teenager)

lemma createWeights_edges (p : Params) (rand : ℕ → ℕ) (k : ℕ) (s : Build) :
    (createWeights p rand k s).nodes.map Node.edges = s.nodes.map Node.edges := by
  unfold createWeights
  split
  · rfl
  · rename_i node hnode
    split
    · rfl
    · exact Lists.map_set_of_eq hnode rfl

lemma weights_edges (p : Params) (rand : ℕ → ℕ) (n : ℕ) (s : Build) :
    (loop (createWeights p rand) n s).nodes.map Node.edges = s.nodes.map Node.edges :=
  loop_keeps (fun t => t.nodes.map Node.edges) (createWeights_edges p rand) n s

lemma WellFormed.of_edges {ms ns : List Node} (h : WellFormed p ms)
    (heq : ns.map Node.edges = ms.map Node.edges) : WellFormed p ns := by
  have hlen : ns.length = ms.length := by simpa using congrArg List.length heq
  have hget : ∀ (i : ℕ) (n : Node), ns[i]? = some n →
      ∃ m : Node, ms[i]? = some m ∧ m.succs = n.succs ∧ m.outDegree = n.outDegree := by
    intro i n hn
    have hi := congrArg (·[i]?) heq
    simp only [getElem?_map, hn, Option.map_some] at hi
    obtain ⟨m, hm, hedges⟩ := Option.map_eq_some_iff.mp hi.symm
    simp only [Node.edges, Prod.mk.injEq] at hedges
    exact ⟨m, hm, hedges.2.2.2.1, hedges.2.1⟩
  refine ⟨hlen.trans h.length, ?_, ?_⟩
  · intro i n hn
    obtain ⟨m, hm, hsuccs, -⟩ := hget i n hn
    exact hsuccs ▸ h.others i m hm
  · intro n hn
    obtain ⟨i, hi⟩ := mem_iff_getElem?.mp hn
    obtain ⟨m, hm, hsuccs, hdegree⟩ := hget i n hi
    have hm := h.distinct m (mem_of_getElem? hm)
    rwa [hsuccs, hdegree] at hm

lemma createGraph_wellFormed (hsparse : p.Sparse) (rand : ℕ → ℕ) (fuel : ℕ) :
    ∃ s, createGraph p rand (fuel + 2) = .ok s ∧ WellFormed p s.nodes := by
  refine ends_false_iff.mp (bind (createNodes_wellFormed hsparse rand fuel) ?_)
  intro t ht
  split
  · exact ht.of_edges (weights_edges p rand _ _)
  · exact ht

/-! ## Streams that spoil the graph -/

def firstNode (degree node : ℕ) : ℕ → ℕ
  | 0 => degree
  | 1 => node
  | _ => 0

lemma start_drawn : (start p).drawn = 0 := by
  unfold start
  simp only
  split
  · rfl
  · rfl

lemma drawDegree_start (hmax : 0 < p.maxOutdegree) :
    drawDegree p rand 0 (start p) = .ok (rand 0 % p.maxOutdegree, { start p with drawn := 1 }) := by
  unfold drawDegree Build.randMod
  rw [if_pos (zero_mod _), if_neg hmax.ne', start_drawn]

lemma allocateSuccessors_drawn : (allocateSuccessors p n s).2.drawn = s.drawn := by
  unfold allocateSuccessors
  split
  · rfl
  · rfl

lemma addSuccessors_same (hne : succ ≠ i) :
    loopE (addSuccessor p rand (fuel + 1) i) n (succ, [], s) = .ok (succ, replicate n succ, s) := by
  induction n with
  | zero => rfl
  | succ n ih =>
    rw [loopE_succ, ih, ok_bind]
    unfold addSuccessor
    rw [avoid, if_neg hne, ok_bind]
    simp only [replicate_succ']

def firstDrawn (p : Params) (n : ℕ) : Build := { (allocateSuccessors p n { start p with drawn := 1 }).2 with drawn := 2 }

lemma createNode_start (hmax : 0 < p.maxOutdegree) (hnodes : 0 < p.nodes)
    (hn : rand 0 % p.maxOutdegree = n)
    (hsucc : rand 1 % p.nodes = succ) :
    createNode p rand fuel 0 (start p) = (do
      let (_, succs, s) ← loopE (addSuccessor p rand fuel 0) n (succ, [], firstDrawn p n)
      let (teenager, s) := drawTeenager p rand s
      let successors := (allocateSuccessors p n { start p with drawn := 1 }).1
      .ok { s with
            nodes := s.nodes ++ [{ ID := 0, outDegree := n, successors, succs, teenager, weights := 0, weightList := [] }] }) := by
  unfold createNode
  rw [drawDegree_start hmax, ok_bind, hn]
  simp only
  rw [Build.randMod, if_neg hnodes.ne', ok_bind, allocateSuccessors_drawn, hsucc]
  rfl

lemma createNode_repeats (fuel : ℕ) (hmax : 2 < p.maxOutdegree) (hnodes : 1 < p.nodes) :
    Ends (fun _ => True) (fun t => ∃ node, t.nodes = [node] ∧ node.succs = [1, 1])
      (createNode p (firstNode 2 1) (fuel + 1) 0 (start p)) := by
  have hdegree : firstNode 2 1 0 % p.maxOutdegree = 2 := mod_eq_of_lt hmax
  have hsucc : firstNode 2 1 1 % p.nodes = 1 := mod_eq_of_lt hnodes
  rw [createNode_start (by omega) (by omega) hdegree hsucc, addSuccessors_same one_ne_zero, ok_bind]
  obtain ⟨d, hd⟩ := drawTeenager_drew p (firstNode 2 1) (firstDrawn p 2)
  have hnil : (drawTeenager p (firstNode 2 1) (firstDrawn p 2)).2.nodes = [] := by
    rw [hd]
    exact allocateSuccessors_nodes.trans start_nodes
  exact ⟨_, congrArg (· ++ [_]) hnil, rfl⟩

lemma createNode_divides (fuel : ℕ) (hmax : p.maxOutdegree = 2) (hnodes : 0 < p.nodes)
    (hfew : p.nodes < 500) :
    ∃ s, createNode p (firstNode 1 0) (fuel + 1) 0 (start p) = .error (.divisionByZero, s) := by
  have hdiv : p.nodes / 500 = 0 := div_eq_of_lt hfew
  have hdegree : firstNode 1 0 0 % p.maxOutdegree = 1 := by rw [hmax, firstNode]
  have hsucc : firstNode 1 0 1 % p.nodes = 0 := zero_mod _
  rw [createNode_start (by omega) hnodes hdegree hsucc, loopE_succ, loopE_zero, ok_bind]
  unfold addSuccessor
  rw [avoid, if_pos rfl, Build.randMod, if_pos hdiv]
  exact ⟨_, rfl⟩

lemma createNodes_head (P : Node → Prop) (hnodes : 0 < p.nodes)
    (hfirst : Ends (fun _ => True) (fun t => ∃ node, t.nodes = [node] ∧ P node) (createNode p rand fuel 0 (start p))) :
    Ends (fun _ => True) (fun u => ∃ node, u.nodes[0]? = some node ∧ P node) (createNodes p rand fuel) := by
  let I (k : ℕ) (s : Build) : Prop := if k = 0 then s = start p else ∃ node, s.nodes[0]? = some node ∧ P node
  have hI : Ends (fun _ => True) (I p.nodes) (createNodes p rand fuel) := by
    refine loopE_ends I rfl ?_
    intro k s _ hs
    rcases Nat.eq_zero_or_pos k with rfl | hk
    · obtain rfl : s = start p := hs
      refine hfirst.imp (fun _ h => h) ?_
      rintro t ⟨node, hnode, hP⟩
      exact ⟨node, by rw [hnode]; rfl, hP⟩
    · obtain ⟨node, hs, hP⟩ : ∃ node, s.nodes[0]? = some node ∧ P node := by simpa [I, hk.ne'] using hs
      refine (createNode_spec p rand fuel k s).imp (fun _ _ => trivial) ?_
      rintro u ⟨n, -, -, d, succs, teenager, rfl, -⟩
      obtain ⟨hlt, -⟩ := List.getElem?_eq_some_iff.mp hs
      refine ⟨node, ?_, hP⟩
      rw [List.getElem?_append_left hlt]
      exact hs
  refine hI.imp (fun _ h => h) fun u hu => ?_
  simpa [I, hnodes.ne'] using hu

lemma createGraph_head (P : ℕ × ℕ × ℕ × List ℕ × Bool → Prop) (hnodes : 0 < p.nodes)
    (hfirst : Ends (fun _ => True) (fun t => ∃ node, t.nodes = [node] ∧ P node.edges)
      (createNode p rand fuel 0 (start p))) :
    Ends (fun _ => True) (fun u => ∃ node, u.nodes[0]? = some node ∧ P node.edges) (createGraph p rand fuel) := by
  refine bind (createNodes_head (fun n => P n.edges) hnodes hfirst) ?_
  rintro v ⟨node, hv, hP⟩
  split
  · have hedges := congrArg (·[0]?) (weights_edges p rand p.nodes v)
    simp only [getElem?_map, hv, Option.map_some] at hedges
    obtain ⟨node', hnode', hsame⟩ := Option.map_eq_some_iff.mp hedges
    exact ⟨node', hnode', hsame ▸ hP⟩
  · exact ⟨node, hv, hP⟩

/-- Well formed for every random stream exactly if no node can have two successors or lack a
neighbour. -/
theorem createGraph_wellFormed_iff (p : Params) (hmax : 1 ≤ p.maxOutdegree)
    (hlt : p.maxOutdegree < p.nodes)
    (fuel : ℕ) :
    (∀ rand : ℕ → ℕ, ∃ s, createGraph p rand (fuel + 2) = .ok s ∧ WellFormed p s.nodes) ↔
      p.maxOutdegree = 1 ∨ (p.maxOutdegree = 2 ∧ 500 ≤ p.nodes) := by
  refine ⟨fun h => ?_, fun hsparse rand => createGraph_wellFormed hsparse rand fuel⟩
  by_contra hbad
  rw [not_or, not_and_or] at hbad
  rcases Nat.lt_or_ge 2 p.maxOutdegree with hmany | hfew
  · have hhead := createGraph_head (fun e => e.2.2.2.1 = [1, 1]) (by omega)
      (createNode_repeats (fuel + 1) hmany (by omega))
    obtain ⟨s, hgraph, hwf⟩ := h (firstNode 2 1)
    rw [hgraph] at hhead
    obtain ⟨node, hnode, hsuccs⟩ := hhead
    have hnodup := (hwf.distinct node (List.mem_of_getElem? hnode)).1
    rw [show node.succs = [1, 1] from hsuccs] at hnodup
    exact absurd hnodup (by decide)
  · obtain ⟨t, hstop⟩ := createNode_divides (fuel + 1) (show p.maxOutdegree = 2 by omega) (by omega) (by omega)
    obtain ⟨s, hgraph, -⟩ := h (firstNode 1 0)
    have hone : loopE (createNode p (firstNode 1 0) (fuel + 2)) 1 (start p) = .error (.divisionByZero, t) := by
      rw [loopE_succ, loopE_zero, ok_bind]
      exact hstop
    unfold createGraph createNodes at hgraph
    rw [loopE_error hone (by omega)] at hgraph
    cases hgraph

theorem createGraph_wellFormed_iff_five_hundred :
    let p : Params :=
      { host := .arm, kernel := .pageRank, nodes := 500, maxOutdegree := 2, maxWeight := 1, queueSize := 0,
        weight_pos := by decide, queue_le := by decide }
    (∀ rand : ℕ → ℕ, ∃ s, createGraph p rand 2 = .ok s ∧ WellFormed p s.nodes) ↔
      p.maxOutdegree = 1 ∨ (p.maxOutdegree = 2 ∧ 500 ≤ p.nodes) := by
  intro p
  exact createGraph_wellFormed_iff p (by decide) (by decide) 0

def fourNodes : Params :=
  { host := .arm, kernel := .pageRank, nodes := 4, maxOutdegree := 3, maxWeight := 1, queueSize := 0,
    weight_pos := by decide, queue_le := by decide }

/-- Node 0 gets the out-degree 2 and the node 1 is drawn for it. -/
theorem createGraph_repeats_successor :
    (createGraph fourNodes (firstNode 2 1) 2).toOption.map (fun s => s.nodes.map (·.succs)) = some [[1, 1], [], [], []] ∧
      ¬∃ s, createGraph fourNodes (firstNode 2 1) 2 = .ok s ∧ WellFormed fourNodes s.nodes := by
  have hsuccs : (createGraph fourNodes (firstNode 2 1) 2).toOption.map (fun s => s.nodes.map (·.succs)) =
      some [[1, 1], [], [], []] := by decide
  refine ⟨hsuccs, ?_⟩
  rintro ⟨s, hgraph, hwf⟩
  rw [hgraph] at hsuccs
  have hmem : [1, 1] ∈ s.nodes.map (·.succs) := by
    rw [show s.nodes.map (·.succs) = _ from Option.some.inj hsuccs]
    exact List.mem_cons_self
  obtain ⟨node, hnode, heq⟩ := List.mem_map.mp hmem
  exact absurd (heq ▸ (hwf.distinct node hnode).1) (by decide)

end SmcPim.Sgraph
