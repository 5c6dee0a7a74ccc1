import SmcPim.Graphs.BellmanFord

/-! # The Bellman-Ford kernels against `run_golden` -/

namespace SmcPim.Graphs.BellmanFord

open Engine Nat

variable {p : Params} {nodes₀ ns : ℤ → Node} {I : ℕ → ℕ → (ℤ → Node) × Acc → Prop}
  {edge : Node → (ℕ → ℕ) → (ℤ → Node) × Acc → (ℤ → Node) × Acc} {ends : ℕ → List ℕ} {w : World Node Acc}
  {curr : ℕ → ℕ} {store : ℕ → ℕ → Except Fault ℕ}

/-! ## What every edge keeps -/

structure EdgesKeep (edge : Node → (ℕ → ℕ) → (ℤ → Node) × Acc → (ℤ → Node) × Acc) (nodes₀ : ℤ → Node) (n : ℕ)
    (I : ℕ → ℕ → (ℤ → Node) × Acc → Prop) : Prop where
  kept : ∀ r c x, I r c x → Kept Node.toEdges nodes₀ x.1
  edge : ∀ r < n, ∀ c x u words, I r c x → u.toEdges = (nodes₀ r).toEdges → words 0 = (nodes₀ r).successors c →
    words 1 = (nodes₀ r).weights c → I r (c + 1) (edge u words x)
  next : ∀ r x, I r (nodes₀ r).outDegree x → I (r + 1) 0 x

lemma EdgesKeep.atomicmin (h : EdgesKeep (relaxCopy p id (imin p)) nodes₀ p.nodes I) :
    (atomicmin p).Keeps nodes₀ p.nodes I where
  kept := h.kept
  edge r hr c x u words hx _ _ hu hwords := h.edge r hr c x u words hx hu (hwords 0 two_pos) (hwords 1 one_lt_two)
  next r _ x _ hx := h.next r x hx
  skip _ _ _ hwanted _ := absurd hwanted Bool.true_eq_false_eq_False

lemma outDegree_eq_zero {t : Edges} (h : (t.outDegree != 0) = false) : t.outDegree = 0 :=
  not_not.mp (bne_iff_ne.not.mp (Bool.eq_false_iff.mp h))

variable {r n : ℕ} {x : (ℤ → Node) × Acc} {atomics : Bool} {s : Scheme.Walk Node Acc}

lemma EdgesKeep.skip (h : EdgesKeep edge nodes₀ p.nodes I)
    (hwanted : ((nodes₀ r).outDegree != 0) = false) (hx : I r 0 x) : I (r + 1) 0 x := by
  refine h.next r x ?_
  rwa [outDegree_eq_zero hwanted]

lemma EdgesKeep.simpledma (h : EdgesKeep (relaxCopy p id (imin p)) nodes₀ p.nodes I) :
    (simpledma p).Keeps nodes₀ p.nodes I where
  kept := h.kept
  edge r hr c x u words hx _ := h.atomicmin.edge r hr c x u words hx rfl
  next r _ x _ hx := h.next r x hx
  skip _ _ _ hwanted hx := h.skip hwanted hx

lemma EdgesKeep.best
    (h : EdgesKeep (relaxCopy p (· % 2 ^ 32) (if atomics then imin p else plainMin)) nodes₀ p.nodes I) :
    (best p atomics).Keeps nodes₀ p.nodes I where
  kept := h.kept
  edge r hr c x u words hx _ _ hu hwords := h.edge r hr c x u words hx hu (hwords 0 two_pos) (hwords 1 one_lt_two)
  next r _ x _ hx := h.next r x hx
  skip _ _ _ hwanted hx := h.skip hwanted hx

lemma simpledma_sound (hcount : 0 < p.nodesCount) : (simpledma p).Sound :=
  ⟨hcount, by simp [simpledma, atomicmin], by simp [simpledma, atomicmin]⟩

def Fits (p : Params) (nodes : ℤ → Node) : Prop := ∀ r < p.nodes, (nodes r).outDegree * p.arch.bytes ≤ maxXferSize

lemma Fits.counts (h : Fits p nodes₀) (atomics : Bool) : (best p atomics).Counts nodes₀ p.nodes := by
  refine ⟨fun r hr => ?_, fun k hk => ?_⟩
  · have hle : (nodes₀ r).outDegree ≤ maxXferSize := (Nat.le_mul_of_pos_right _ p.arch.bytes_pos).trans (h r hr)
    exact hle.trans_lt (by decide)
  · have hbits : 2 ^ 31 ≤ 2 ^ p.arch.bits := by cases p.arch <;> decide
    have hcounter : (best p atomics).counter k = p.arch.ulong (if k < 2 ^ 31 then k else 2 ^ 64 - 2 ^ 32 + k) := rfl
    rw [hcounter, if_pos hk, Arch.ulong_of_lt (hk.trans_le hbits)]

section
variable (hI : EdgesKeep (relaxCopy p id (imin p)) w.nodes p.nodes I) (hcount : 0 < p.nodesCount)
  (h : I 0 0 (w.nodes, ⟨0, none, []⟩))
include hI hcount h

lemma atomicmin_ends : Scheme.Ends (I p.nodes 0) (runAtomicmin p ends w) :=
  Scheme.direct_ends hI.atomicmin hcount (.boot h)

lemma simpledma_ends : Scheme.Ends (I p.nodes 0) (runSimpledma p ends w) :=
  Scheme.fetched_ends hI.simpledma (simpledma_sound hcount) (fun _ => outDegree_eq_zero) (.boot h)

end

lemma best_ends
    (hI : EdgesKeep (relaxCopy p (· % 2 ^ 32) (if atomics then imin p else plainMin)) w.nodes p.nodes I)
    (hcount : 0 < p.nodesCount) (hfits : Fits p w.nodes) (h : I 0 0 (w.nodes, ⟨0, none, []⟩)) :
    Scheme.Ends (I p.nodes 0) (runBest p ends w atomics) := by
  have hsound : (best p atomics).Sound := ⟨hcount, (simpledma_sound hcount).nodup, (simpledma_sound hcount).res0⟩
  exact Scheme.ahead_ends hI.best hsound (hfits.counts atomics) (.boot h)

/-! ## One edge -/

section
variable {u : Node} {words : ℕ → ℕ} {x : (ℤ → Node) × Acc} {d : ℕ} {e : Fault}

lemma relaxCopy_ok (hfault : x.2.fault = none)
    (hstore : store (p.arch.ulong (curr u.distance + words 1)) (x.1 (words 0)).distance = .ok d) :
    relaxCopy p curr store u words x =
      (setDistance (words 0) d x.1, ⟨p.arch.ulong (x.2.checksum + words 1), none,
        x.2.used ++ [(u.distance, (x.1 u.id).distance)]⟩) := by
  unfold relaxCopy
  rw [hfault]
  dsimp only
  rw [hstore]

lemma relaxCopy_error (hfault : x.2.fault = none)
    (hstore : store (p.arch.ulong (curr u.distance + words 1)) (x.1 (words 0)).distance = .error e) :
    relaxCopy p curr store u words x =
      (x.1, ⟨x.2.checksum, some e, x.2.used ++ [(u.distance, (x.1 u.id).distance)]⟩) := by
  unfold relaxCopy
  rw [hfault]
  dsimp only
  rw [hstore]

lemma relaxCopy_stopped (hfault : x.2.fault = some e) : relaxCopy p curr store u words x = x := by
  unfold relaxCopy
  rw [hfault]

lemma relaxCopy_kept (h : Kept Node.toEdges nodes₀ x.1) :
    Kept Node.toEdges nodes₀ (relaxCopy p curr store u words x).1 := by
  intro i
  unfold relaxCopy
  split
  · exact h i
  · dsimp only
    split
    · exact (setDistance_toEdges ..).trans (h i)
    · exact h i

end

lemma imin_arm (harm : p.arch = .arm) (operand m : ℕ) :
    imin p operand m = .ok (if operand % 2 ^ 32 < m then operand % 2 ^ 32 else m) := by
  have hbytes : p.arch.bytes = 4 := by rw [harm]; rfl
  rw [imin, if_pos hbytes]

lemma imin_arm64 (harm : p.arch ≠ .arm) (operand m : ℕ) :
    imin p operand m = .error (.panic "not implemented yet!") := by
  have hbytes : p.arch.bytes ≠ 4 := by
    cases h : p.arch with
    | arm => exact absurd h harm
    | arm64 => decide
  rw [imin, if_neg hbytes]

/-! ## The checksum -/

structure Sums (p : Params) (nodes₀ : ℤ → Node) (r c : ℕ) (x : (ℤ → Node) × Acc) : Prop where
  kept : Kept Node.toEdges nodes₀ x.1
  fault : x.2.fault = none
  checksum : x.2.checksum = p.arch.ulong (total nodes₀ (fun r => (nodes₀ r).weights) r c)

lemma sums_keep (hstore : ∀ o m, ∃ d, store o m = .ok d) :
    EdgesKeep (relaxCopy p curr store) nodes₀ p.nodes (Sums p nodes₀) where
  kept _ _ _ hx := hx.kept
  edge r _ c x u words hx _ _ hweight := by
    obtain ⟨d, hd⟩ := hstore (p.arch.ulong (curr u.distance + words 1)) (x.1 (words 0)).distance
    rw [relaxCopy_ok hx.fault hd]
    exact ⟨fun i => (setDistance_toEdges ..).trans (hx.kept i), rfl, by rw [hx.checksum, hweight, total_succ, Arch.ulong_add_left]⟩
  next r x hx := ⟨hx.kept, hx.fault, hx.checksum.trans (by rw [total_next])⟩

lemma sums_start (p : Params) (nodes₀ : ℤ → Node) : Sums p nodes₀ 0 0 (nodes₀, ⟨0, none, []⟩) :=
  ⟨fun _ => rfl, rfl, (zero_mod _).symm⟩

lemma Sums.result (h : Sums p nodes₀ p.nodes 0 s.machine.world.data) :
    (result s).map Prod.snd = .ok (runGolden p nodes₀).2 := by
  have hfault : s.machine.world.acc.fault = none := h.fault
  have hchecksum : s.machine.world.acc.checksum = _ := h.checksum
  rw [BellmanFord.result, hfault, runGolden_eq]
  exact congrArg Except.ok hchecksum

structure Stops (nodes₀ : ℤ → Node) (r c : ℕ) (x : (ℤ → Node) × Acc) : Prop where
  kept : Kept Node.toEdges nodes₀ x.1
  fault : x.2.fault = none ↔ total nodes₀ (fun _ _ => 1) r c = 0
  checksum : x.2.checksum = 0

lemma stops_keep (hstore : ∀ o m, ∃ e, store o m = .error e) (n : ℕ) :
    EdgesKeep (relaxCopy p curr store) nodes₀ n (Stops nodes₀) where
  kept _ _ _ hx := hx.kept
  edge r _ c x u words hx _ _ _ := by
    have hsome {e : Fault} : (some e = none) ↔ total nodes₀ (fun _ _ => 1) r (c + 1) = 0 := by
      rw [total_succ]
      exact iff_of_false (by simp) (by omega)
    cases hfault : x.2.fault with
    | some e =>
      rw [relaxCopy_stopped hfault]
      exact ⟨hx.kept, by rw [hfault]; exact hsome, hx.checksum⟩
    | none =>
      obtain ⟨e, he⟩ := hstore (p.arch.ulong (curr u.distance + words 1)) (x.1 (words 0)).distance
      rw [relaxCopy_error hfault he]
      exact ⟨hx.kept, hsome, hx.checksum⟩
  next r x hx := ⟨hx.kept, by rw [hx.fault, total_next], hx.checksum⟩

lemma total_eq_zero_iff {f : ℕ → ℕ → ℕ} :
    total nodes₀ f n 0 = 0 ↔ ∀ r < n, ∀ c < (nodes₀ r).outDegree, f r c = 0 := by
  simp [total, Finset.sum_eq_zero_iff]

lemma stops_start (nodes₀ : ℤ → Node) : Stops nodes₀ 0 0 (nodes₀, ⟨0, none, []⟩) :=
  ⟨fun _ => rfl, iff_of_true rfl rfl, rfl⟩

lemma Stops.none_iff (h : Stops nodes₀ n 0 x) :
    x.2.fault = none ↔ ∀ r < n, (nodes₀ r).outDegree = 0 := by
  refine h.fault.trans (total_eq_zero_iff.trans (forall₂_congr fun r _ => ?_))
  exact ⟨fun hc => by_contra fun hne => one_ne_zero (hc 0 (pos_of_ne_zero hne)), fun hzero c hc => by omega⟩

lemma plainMin_ok (o m : ℕ) : ∃ d, plainMin o m = .ok d := ⟨_, rfl⟩

/-- The copy is not old, its node was reached, and the atomic minimum is implemented. -/
structure Current (p : Params) (atomics : Bool) (e : ℕ × ℕ) : Prop where
  copy : e.1 = e.2
  reached : e.2 ≠ nc p.arch
  narrow : e.2 < 2 ^ 32
  arm : atomics = true → p.arch = .arm

def AllCurrent (p : Params) (atomics : Bool) (s : Scheme.Walk Node Acc) : Prop :=
  ∀ e ∈ s.machine.world.acc.used, Current p atomics e

lemma relaxEdge_of_reached (c : ℕ) (h : (ns r).distance ≠ nc p.arch) :
    relaxEdge p r c ns = setDistance ((ns r).successors c)
      (if p.arch.ulong ((ns r).distance + (ns r).weights c) < (ns ((ns r).successors c)).distance then
        p.arch.ulong ((ns r).distance + (ns r).weights c) else (ns ((ns r).successors c)).distance) ns := by
  have hbne : ((ns r).distance != nc p.arch) = true := bne_iff_ne.mpr h
  rw [relaxEdge, relaxes, hbne, Bool.true_and]
  simp only [decide_eq_true_eq]
  split
  · rfl
  · exact (Function.update_eq_self _ ns).symm

structure Follows (p : Params) (atomics : Bool) (nodes₀ : ℤ → Node) (r c : ℕ) (x : (ℤ → Node) × Acc) : Prop where
  kept : Kept Node.toEdges nodes₀ x.1
  golden : (∀ e ∈ x.2.used, Current p atomics e) → x.2.fault = none ∧ x.1 = soFar p nodes₀ r c

lemma relaxCopy_used {u : Node} {words : ℕ → ℕ} (hfault : x.2.fault = none) :
    (relaxCopy p curr store u words x).2.used = x.2.used ++ [(u.distance, (x.1 u.id).distance)] := by
  unfold relaxCopy
  rw [hfault]
  dsimp only
  split <;> rfl

lemma follows_keep (hid : ∀ r < p.nodes, (nodes₀ r).id = r)
    (hstore : ∀ e, Current p atomics e → curr e.2 = e.2 ∧
      ∀ o < 2 ^ p.arch.bits, ∀ m, store o m = .ok (if o < m then o else m)) :
    EdgesKeep (relaxCopy p curr store) nodes₀ p.nodes (Follows p atomics nodes₀) where
  kept _ _ _ hx := hx.kept
  edge r hr c x u words hx hu hsucc hweight := by
    refine ⟨relaxCopy_kept hx.kept, fun hall => ?_⟩
    cases hfault : x.2.fault with
    | some e =>
      rw [relaxCopy_stopped hfault] at hall
      exact absurd (hfault.symm.trans (hx.golden hall).1) (by simp)
    | none =>
      rw [relaxCopy_used hfault] at hall
      have hgolden := (hx.golden fun e he => hall e (List.mem_append_left _ he)).2
      have hcurrent := hall _ (List.mem_append_right _ (List.mem_singleton.mpr rfl))
      obtain ⟨hcurr, hmin⟩ := hstore _ hcurrent
      have hnode : u.id = r := (congrArg Edges.id hu).trans (hid r hr)
      have hcopy : u.distance = (x.1 u.id).distance := hcurrent.copy
      rw [relaxCopy_ok hfault (hmin _ (p.arch.ulong_lt _) _)]
      refine ⟨rfl, ?_⟩
      have hreached : (x.1 r).distance ≠ nc p.arch := hnode ▸ hcurrent.reached
      rw [soFar_succ, ← hgolden, relaxEdge_of_reached c hreached]
      have hword : (x.1 r).successors c = words 0 := by rw [hsucc, hx.kept r]
      have hadded : (x.1 r).weights c = words 1 := by rw [hweight, hx.kept r]
      have hsum : curr u.distance = (x.1 r).distance := by rw [hcopy, hcurr, hnode]
      rw [hword, hadded, hsum]
  next r x hx := ⟨hx.kept, fun hall => by rw [soFar_next]; exact hx.golden hall⟩

lemma follows_start (p : Params) (atomics : Bool) (nodes₀ : ℤ → Node) :
    Follows p atomics nodes₀ 0 0 (nodes₀, ⟨0, none, []⟩) := ⟨fun _ => rfl, fun _ => ⟨rfl, rfl⟩⟩

lemma Follows.result (h : Follows p atomics nodes₀ p.nodes 0 s.machine.world.data)
    (hall : AllCurrent p atomics s) : (result s).map Prod.fst = .ok (runGolden p nodes₀).1 := by
  obtain ⟨hfault, hnodes⟩ := h.golden hall
  have hfault' : s.machine.world.acc.fault = none := hfault
  rw [BellmanFord.result, hfault', runGolden_eq]
  exact congrArg Except.ok hnodes

lemma imin_of_arm (harm : p.arch = .arm) {o : ℕ} (ho : o < 2 ^ p.arch.bits) (m : ℕ) :
    imin p o m = .ok (if o < m then o else m) := by
  have hword : o < 2 ^ 32 := by rwa [harm] at ho
  rw [imin_arm harm, mod_eq_of_lt hword]

/-- If every edge is relaxed from a current copy, the kernels leave the distances of `run_golden`.
-/
theorem kernels_follow_golden (p : Params) (hcount : 1 ≤ p.nodesCount) (ends : ℕ → List ℕ)
    (w : World Node Acc)
    (hid : ∀ r < p.nodes, (w.nodes r).id = r) (hfits : Fits p w.nodes) :
    (AllCurrent p true (runAtomicmin p ends w) →
      (result (runAtomicmin p ends w)).map Prod.fst = .ok (runGolden p w.nodes).1) ∧
    (AllCurrent p true (runSimpledma p ends w) →
      (result (runSimpledma p ends w)).map Prod.fst = .ok (runGolden p w.nodes).1) ∧
    ∀ atomics, AllCurrent p atomics (runBest p ends w atomics) →
      (result (runBest p ends w atomics)).map Prod.fst = .ok (runGolden p w.nodes).1 := by
  have hatomic : EdgesKeep (relaxCopy p id (imin p)) w.nodes p.nodes (Follows p true w.nodes) :=
    follows_keep hid fun e he => ⟨rfl, fun o ho m => imin_of_arm (he.arm rfl) ho m⟩
  refine ⟨fun hall => ?_, fun hall => ?_, fun atomics hall => ?_⟩
  · exact (atomicmin_ends hatomic hcount (follows_start p true w.nodes)).data.result hall
  · exact (simpledma_ends hatomic hcount (follows_start p true w.nodes)).data.result hall
  · refine (best_ends (follows_keep hid fun e he => ?_) hcount hfits (follows_start p atomics w.nodes)).data.result hall
    refine ⟨Nat.mod_eq_of_lt he.narrow, fun o ho m => ?_⟩
    cases atomics with
    | false => rfl
    | true => exact imin_of_arm (he.arm rfl) ho m

theorem kernels_follow_golden_four :
    let p : Params := ⟨.arm, 4, 1⟩
    let nodes : ℤ → Node := fun i => ⟨⟨fun _ => 5, i.toNat, if i = 0 ∨ i = 2 then 1 else 0, fun _ => if i = 0 then 2 else 3⟩, 7⟩
    let w : World Node Acc := ⟨resetGraphStats p nodes, ⟨0, none, []⟩, fun _ _ => nodes 1, fun _ _ => 0⟩
    (result (runAtomicmin p (fun _ => []) w)).map Prod.fst = .ok (runGolden p w.nodes).1 ∧
      (result (runSimpledma p (fun _ => []) w)).map Prod.fst = .ok (runGolden p w.nodes).1 ∧
      (result (runBest p (fun _ => []) w true)).map Prod.fst = .ok (runGolden p w.nodes).1 ∧
      (result (runBest p (fun _ => []) w false)).map Prod.fst = .ok (runGolden p w.nodes).1 := by
  intro p nodes w
  have hid : ∀ r < p.nodes, (w.nodes r).id = r := by
    intro r hr
    interval_cases r <;> decide
  have hfits : Fits p w.nodes := by
    intro r hr
    interval_cases r <;> decide
  have hcurrent (s : Scheme.Walk Node Acc) (hs : s.machine.world.acc.used = [(0, 0), (5, 5)]) (atomics : Bool) :
      AllCurrent p atomics s := by
    intro e he
    rw [hs] at he
    rcases List.mem_pair.mp he with rfl | rfl
    · exact ⟨rfl, by decide, by decide, fun _ => rfl⟩
    · exact ⟨rfl, by decide, by decide, fun _ => rfl⟩
  obtain ⟨hatomicmin, hsimpledma, hbest⟩ := kernels_follow_golden p (by decide) (fun _ => []) w hid hfits
  refine ⟨hatomicmin (hcurrent _ ?_ _), hsimpledma (hcurrent _ ?_ _), hbest true (hcurrent _ ?_ _),
    hbest false (hcurrent _ ?_ _)⟩
  all_goals decide +kernel

/-- The copy says that its node was not reached, so that one more than `NC` is taken for a
distance. -/
theorem kernels_relax_unreached :
    let p : Params := ⟨.arm, 3, 3⟩
    let nodes : ℤ → Node := fun i => ⟨⟨fun _ => 1, i.toNat, if i < 2 then 1 else 0, fun _ => i.toNat + 1⟩, 7⟩
    let w : World Node Acc := ⟨resetGraphStats p nodes, ⟨0, none, []⟩, fun _ _ => nodes 2, fun _ _ => 0⟩
    let third (x : Except Fault ((ℤ → Node) × ℕ)) := x.map fun x => (x.1 2).distance
    ((runGolden p w.nodes).1 2).distance = 2 ∧
      third (result (runAtomicmin p (fun _ => []) w)) = .ok 0 ∧
      third (result (runSimpledma p (fun _ => []) w)) = .ok 0 ∧
      third (result (runBest p (fun _ => []) w true)) = .ok 0 ∧
      third (result (runBest p (fun _ => []) w false)) = .ok 0 := by
  decide +kernel

end SmcPim.Graphs.BellmanFord
