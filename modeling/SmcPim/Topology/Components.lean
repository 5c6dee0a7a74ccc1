import SmcPim.Lib.Draws
import SmcPim.Topology.Walk

/-! # Components of every size -/

namespace SmcPim.Topology

open Stops Draws List Nat
open Host (Stop)

variable {p : Params} {rand : ℕ → ℕ} {s t : Build} {c r size : ℕ}

def Params.divisor (p : Params) : ℕ := if p.numComponents ≥ 3 then p.numComponents / 3 else p.numComponents

/-- The sizes that component `c` can have when `r` nodes remain. -/
def Allowed (p : Params) (c r size : ℕ) : Prop :=
  if c = p.numComponents - 1 then size = r else 1 ≤ size ∧ size ≤ r / p.divisor

inductive Remains (p : Params) : ℕ → ℕ → Prop
  | start : Remains p 0 p.nodes
  | stay {c : ℕ} : Remains p c 0 → Remains p (c + 1) 0
  | take {c r size : ℕ} : Remains p c r → c < p.numComponents → r ≠ 0 → Allowed p c r size → Remains p (c + 1) (r - size)

/-- No division by zero, and no node can be asked for more successors than there are. -/
def AllSafe (p : Params) : Prop :=
  ∀ c r, Remains p c r → c < p.numComponents → r ≠ 0 →
    (c ≠ p.numComponents - 1 → r / p.divisor ≠ 0) ∧ ∀ size, Allowed p c r size → size = 1 ∨ p.maxComponentOutdegree < size

lemma Allowed.bounds (h : Allowed p c r size) (hr : r ≠ 0) : 1 ≤ size ∧ size ≤ r := by
  unfold Allowed at h
  split at h
  · omega
  · exact ⟨h.1, h.2.trans (div_le_self _ _)⟩

lemma remains_end (h : Remains p p.numComponents r) : r = 0 := by
  have hpos := p.components_pos
  generalize hn : p.numComponents = n at h
  cases h with
  | start => omega
  | stay h => rfl
  | take h hlt hr hallowed =>
    rw [Allowed, if_pos (by omega)] at hallowed
    omega

/-! ## The size of a component -/

def sizeDraws (p : Params) (c : ℕ) : ℕ := if c = p.numComponents - 1 then 0 else 1

lemma randMod_bind (d : ℕ) : (do
    let (r, s) ← s.randMod rand d
    (.ok (r + 1, s) : Except (Stop × Build) (ℕ × Build))) =
      if d = 0 then .error (.divisionByZero, { s with drawn := s.drawn + 1 })
      else .ok (rand s.drawn % d + 1, { s with drawn := s.drawn + 1 }) := by
  unfold Build.randMod
  by_cases hd : d = 0
  · simp only [if_pos hd]
    rfl
  · simp only [if_neg hd]
    rfl

lemma componentSize_draw (hlast : c ≠ p.numComponents - 1) : componentSize p rand c s =
    if s.remaining / p.divisor = 0 then .error (.divisionByZero, { s with drawn := s.drawn + 1 })
    else .ok (rand s.drawn % (s.remaining / p.divisor) + 1, { s with drawn := s.drawn + 1 }) := by
  unfold componentSize Params.divisor
  rw [if_neg hlast]
  by_cases hthree : p.numComponents ≥ 3
  · rw [if_pos hthree, if_pos hthree, randMod_bind]
  · rw [if_neg hthree, if_neg hthree, randMod_bind]

lemma componentSize_last (hlast : c = p.numComponents - 1) : componentSize p rand c s = .ok
    (s.remaining, s) :=
  if_pos hlast

lemma componentSize_ends (rand : ℕ → ℕ)
    (hdiv : c ≠ p.numComponents - 1 → s.remaining / p.divisor ≠ 0) :
    ∃ size, componentSize p rand c s = .ok (size, { s with drawn := s.drawn + sizeDraws p c }) ∧
      Allowed p c s.remaining size := by
  unfold sizeDraws Allowed
  by_cases hlast : c = p.numComponents - 1
  · simp only [if_pos hlast]
    exact ⟨_, componentSize_last hlast, rfl⟩
  · have hzero := hdiv hlast
    simp only [if_neg hlast]
    refine ⟨_, (componentSize_draw hlast).trans (if_neg hzero), succ_pos _, ?_⟩
    exact mod_lt _ (pos_of_ne_zero hzero)

lemma componentSize_allowed (hsize : Allowed p c s.remaining size)
    (hrand : ∀ i < sizeDraws p c, rand (s.drawn + i) = size - 1) :
    componentSize p rand c s = .ok (size, { s with drawn := s.drawn + sizeDraws p c }) := by
  unfold sizeDraws at hrand ⊢
  unfold Allowed at hsize
  by_cases hlast : c = p.numComponents - 1
  · rw [if_pos hlast] at hsize
    simp only [if_pos hlast, hsize]
    exact componentSize_last hlast
  · rw [if_neg hlast] at hsize hrand
    have hdraw : rand s.drawn = size - 1 := hrand 0 one_pos
    have hmod : (size - 1) % (s.remaining / p.divisor) = size - 1 := mod_eq_of_lt (by omega)
    simp only [if_neg hlast]
    rw [componentSize_draw hlast, if_neg (by omega), hdraw, hmod, Nat.sub_add_cancel hsize.1]

/-! ## The nodes of a component -/

/-- No node is asked for more successors than its component has other nodes. -/
def Roomy (degree size : ℕ) : Prop := size = 1 ∨ degree < size

lemma componentDegree_roomy (h : size = 1 ∨ p.maxComponentOutdegree < size) : Roomy
    (componentDegree p size) size := by
  unfold Roomy componentDegree
  split <;> omega

section
variable {k : Component} {degree i : ℕ}

lemma drawDegree_spec (rand : ℕ → ℕ) (degree size : ℕ) (s : Build) :
    ∃ n d, drawDegree rand degree size s = (n, { s with drawn := d }) ∧
    s.drawn < d ∧ (Roomy degree size → n ≤ size - 1) := by
  unfold drawDegree Roomy
  split
  · rename_i hless
    have hmod : rand (s.drawn + 1) % (degree + 1) < degree + 1 := mod_lt _ (succ_pos _)
    exact ⟨_, _, rfl, by omega, by omega⟩
  · exact ⟨_, _, rfl, by omega, fun _ => le_rfl⟩

lemma createNode_spec (rand : ℕ → ℕ) (degree : ℕ) (hi : i < k.size) (s : Build) : ∃ node d,
    createNode rand k degree i s = { s with drawn := d, nodes := s.nodes ++ [node] } ∧ s.drawn ≤ d ∧
      (Roomy degree k.size → node.Sound k (k.start + i)) := by
  obtain ⟨n, d, heq, hd, hn⟩ := drawDegree_spec rand degree k.size s
  unfold createNode
  rw [heq]
  refine ⟨_, _, rfl, hd.le.trans (le_succ d), fun hroomy => ?_⟩
  have hmem : k.start + i ∈ range' k.start k.size := mem_range'_1.mpr (by omega)
  have hsucc : k.start + rand d % k.size ∈ range' k.start k.size := by
    have := mod_lt (rand d) (by omega : k.size > 0)
    exact mem_range'_1.mpr (by omega)
  obtain ⟨hnodup, hinside⟩ := walk_spec hmem hsucc (hn hroomy)
  exact ⟨rfl, by rw [addSuccessor_length]; simp, hnodup, hinside⟩

structure Filled (k : Component) (degree : ℕ) (s : Build) (i : ℕ) (t : Build) : Prop where
  nodes : ∃ l d, t = { s with drawn := d, nodes := s.nodes ++ l } ∧ l.length = i ∧
    ∀ j < i, ∃ node, l[j]? = some node ∧ (Roomy degree k.size → node.Sound k (k.start + j))

lemma createNodes_filled (rand : ℕ → ℕ) (k : Component) (degree : ℕ) (s : Build) :
    Filled k degree s k.size (loop (createNode rand k degree) k.size s) := by
  refine loop_inv (Filled k degree s) ⟨[], s.drawn, by simp, rfl, by simp⟩ ?_
  rintro i t hi ⟨l, d, rfl, hlen, hsound⟩
  obtain ⟨node, d', heq, -, hnode⟩ := createNode_spec rand degree hi
    { s with drawn := d, nodes := s.nodes ++ l }
  refine ⟨l ++ [node], d', ?_, by simp [hlen], fun j hj => ?_⟩
  · rw [heq, append_assoc]
  · rcases Nat.lt_succ_iff_lt_or_eq.mp hj with hlt | rfl
    · obtain ⟨m, hm, hs⟩ := hsound j hlt
      exact ⟨m, by rw [List.getElem?_append_left (hlen.symm ▸ hlt), hm], hs⟩
    · refine ⟨node, ?_, hnode⟩
      rw [← hlen, getElem?_append_right le_rfl, Nat.sub_self, getElem?_cons_zero]

end

/-! ## Every stream -/

structure Placed (p : Params) (s : Build) : Prop where
  total : s.start + s.remaining = p.nodes
  nodes : s.nodes.length = s.start
  nonempty : ∀ k ∈ s.components, 0 < k.size
  tiles : s.components.flatMap (fun k => List.range' k.start k.size) = List.range s.start

def AllSound (s : Build) : Prop :=
  ∀ k ∈ s.components, ∀ n ∈ List.range' k.start k.size, ∃ node, s.nodes[n]? = some node ∧ node.Sound k n

lemma placed_init (p : Params) : Placed p (init p) := ⟨zero_add _, rfl, by simp [init], rfl⟩

lemma Placed.wellFormed (h : Placed p s) (hsound : AllSound s) (hr : s.remaining = 0) :
    WellFormed p s := by
  have hstart : s.start = p.nodes := by
    have := h.total
    omega
  exact ⟨h.nonempty, hstart ▸ h.tiles, hstart ▸ h.nodes, hsound⟩

lemma fillComponent_spec (rand : ℕ → ℕ) (size : ℕ) (s : Build) : ∃ l d, fillComponent p rand size s =
    { drawn := d, start := s.start + size, remaining := s.remaining - size, nodes := s.nodes ++ l,
      components := s.components ++ [⟨s.start, size⟩] } ∧ l.length = size ∧
    ∀ j < size, ∃ node, l[j]? = some node ∧
      (Roomy (componentDegree p size) size → node.Sound ⟨s.start, size⟩ (s.start + j)) := by
  obtain ⟨l, d, heq, hlen, hsound⟩ := createNodes_filled rand ⟨s.start, size⟩ (componentDegree p size) s
  refine ⟨l, d, ?_, hlen, hsound⟩
  unfold fillComponent
  dsimp only at heq ⊢
  rw [heq]

lemma Placed.fill (h : Placed p s) (rand : ℕ → ℕ) (hone : 1 ≤ size) (hle : size ≤ s.remaining) :
    Placed p (fillComponent p rand size s) ∧ (fillComponent p rand size s).remaining = s.remaining - size := by
  obtain ⟨l, d, heq, hlen, -⟩ := fillComponent_spec (p := p) rand size s
  have htotal := h.total
  rw [heq]
  refine ⟨⟨by dsimp only; omega, ?_, ?_, ?_⟩, rfl⟩
  · simp [h.nodes, hlen]
  · intro k hk
    rcases mem_append.mp hk with hk | hk
    · exact h.nonempty k hk
    · rw [List.mem_singleton.mp hk]
      exact hone
  · simp only [flatMap_append, h.tiles, flatMap_cons, flatMap_nil, append_nil]
    rw [range_eq_range', range_eq_range', ← range'_append_1, zero_add]

lemma Placed.fill_sound (h : Placed p s) (hsound : AllSound s) (rand : ℕ → ℕ)
    (hroomy : size = 1 ∨ p.maxComponentOutdegree < size) : AllSound (fillComponent p rand size s) := by
  obtain ⟨l, d, heq, hlen, hnew⟩ := fillComponent_spec (p := p) rand size s
  rw [heq]
  intro k hk n hn
  rcases mem_append.mp hk with hk | hk
  · obtain ⟨node, hnode, hs⟩ := hsound k hk n hn
    exact ⟨node, List.getElem?_append_left (List.getElem?_eq_some_iff.mp hnode).1 ▸ hnode, hs⟩
  · obtain rfl := List.mem_singleton.mp hk
    rw [List.mem_range'_1] at hn
    dsimp only at hn
    obtain ⟨j, rfl⟩ := Nat.exists_eq_add_of_le hn.1
    obtain ⟨node, hnode, hs⟩ := hnew j (by omega)
    refine ⟨node, ?_, hs (componentDegree_roomy hroomy)⟩
    dsimp only
    rw [getElem?_append_right (by rw [h.nodes]; omega), h.nodes, Nat.add_sub_cancel_left, hnode]

lemma createTopology_ends (hsafe : AllSafe p) (rand : ℕ → ℕ) :
    Ends (fun _ => False) (WellFormed p) (createTopology p rand) := by
  have hloop : Ends (fun _ => False) (fun s => Remains p p.numComponents s.remaining ∧ Placed p s ∧ AllSound s)
      (createTopology p rand) := by
    refine loopE_ends (fun c s => Remains p c s.remaining ∧ Placed p s ∧ AllSound s)
      ⟨.start, placed_init p, by simp [AllSound, init]⟩ ?_
    rintro c s hc ⟨hremains, hplaced, hsound⟩
    unfold createComponent
    by_cases hr : s.remaining = 0
    · rw [if_pos hr]
      rw [hr] at hremains
      exact ⟨hr ▸ hremains.stay, hplaced, hsound⟩
    · obtain ⟨hdiv, hroomy⟩ := hsafe c s.remaining hremains hc hr
      obtain ⟨size, heq, hallowed⟩ := componentSize_ends rand hdiv
      obtain ⟨hone, hle⟩ := hallowed.bounds hr
      have hdrawn : Placed p { s with drawn := s.drawn + sizeDraws p c } :=
        { hplaced with }
      obtain ⟨hfill, hremaining⟩ := hdrawn.fill rand hone hle
      rw [if_neg hr, heq, ok_bind]
      refine ⟨?_, hfill, hdrawn.fill_sound hsound rand (hroomy size hallowed)⟩
      rw [hremaining]
      exact hremains.take hc hr hallowed
  exact hloop.imp (fun _ h => h) fun s h => h.2.1.wellFormed h.2.2 (remains_end h.1)

end SmcPim.Topology
