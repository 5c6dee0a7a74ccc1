import SmcPim.Bfs.Model

/-! # `kernel_default` is a search with a queue -/

namespace SmcPim.Bfs

open List Function Option Nat Search List

variable {a : Arch} {g : Graph a} {κ : Type} {queue : ℕ → κ} {Q : ℕ}
  {seen : Set (Fin g.nodes)} {x v w : Fin g.nodes} {c : State g.nodes κ} {t : Search (Fin g.nodes)}
  {d : ℕ}

/-! ## The state of a kernel as the state of a search -/

structure Push.Free (n Q : ℕ) (p : Push) : Prop where
  slot : p.slot < Q
  room : p.elements < n
  free : ∀ i < p.elements, (p.tail + i) % n ≠ p.slot

structure Sim (g : Graph a) (queue : ℕ → κ) (Q : ℕ) (c : State g.nodes κ) (t : Search (Fin g.nodes)) :
    Prop where
  distance : ∀ v, c.distance v = (t.dist v).getD (nc a)
  proper : ∀ v d, t.dist v = some d → d ≠ nc a
  head : c.head = t.pushed.length % g.nodes
  tail : c.tail = t.popped % g.nodes
  elements : c.elements = t.pushed.length - t.popped
  mem : ∀ i v, t.pushed[i]? = some v → c.mem (queue i) = some v
  total : c.totalDistance = a.ulong (t.assigned.map Prod.snd).sum
  assigned : c.assigned = t.assigned
  pushes : ∀ p ∈ c.pushes, p.Free g.nodes Q
  short : t.pushed.length ≤ Q

def Distinct (queue : ℕ → κ) (Q : ℕ) : Prop := ∀ i < Q, ∀ j < Q, queue i = queue j → i = j

variable {k i : ℕ} {t' : Search (Fin g.nodes)}

lemma succ_mod {n : ℕ} (hk : k < n) : (if n ≤ k % n + 1 then 0 else k % n + 1) = (k + 1) % n := by
  rw [mod_eq_of_lt hk]
  split
  · rw [show k + 1 = n by omega, mod_self]
  · exact (mod_eq_of_lt (by omega)).symm

lemma nodup_length_le {l : List (Fin g.nodes)} (h : l.Nodup) : l.length ≤ g.nodes := by
  have := h.length_le_card
  rwa [Fintype.card_fin] at this

section
variable (h : Sim g queue Q c t)
include h

lemma Sim.unvisited : c.distance v = nc a ↔ t.dist v = none := by
  rw [h.distance v]
  rcases hd : t.dist v with _ | d
  · simp
  · simpa using h.proper v d hd

lemma Sim.empty (hinv : Search.Inv g.successors seen x t) :
    c.elements = 0 ↔ t.popped = t.pushed.length := by
  have := hinv.popped
  rw [h.elements]
  omega

lemma Sim.top (hinv : Search.Inv g.successors seen x t)
    (hv : t.pushed[t.popped]? = some v) : queueTop g queue c = some v := by
  have hlt := (List.getElem?_eq_some_iff.mp hv).1
  have hle := nodup_length_le hinv.nodup
  unfold queueTop
  rw [h.tail, mod_eq_of_lt (by omega)]
  exact h.mem t.popped v hv

lemma Sim.pop (hlt : t.popped < t.pushed.length) (hle : t.pushed.length ≤ g.nodes) :
    Sim g queue Q (queuePop g c) { t with popped := t.popped + 1 } where
  distance := h.distance
  proper := h.proper
  head := h.head
  tail := by
    dsimp only [queuePop]
    rw [h.tail]
    exact succ_mod (by omega)
  elements := by
    dsimp only [queuePop]
    rw [h.elements]
    omega
  mem := h.mem
  total := h.total
  assigned := h.assigned
  pushes := h.pushes
  short := h.short

lemma Sim.free (hpop : t.popped ≤ t.pushed.length) (hlt : t.pushed.length < g.nodes)
    (hQ : t.pushed.length < Q) : Push.Free g.nodes Q ⟨c.head, c.tail, c.elements⟩ where
  slot := by
    rw [h.head, mod_eq_of_lt hlt]
    exact hQ
  room := by
    dsimp only
    rw [h.elements]
    omega
  free := by
    intro i hi
    dsimp only at hi ⊢
    rw [h.elements] at hi
    rw [h.head, h.tail, mod_eq_of_lt hlt, mod_eq_of_lt (show t.popped < g.nodes by omega),
      mod_eq_of_lt (by omega)]
    omega

end

variable [DecidableEq κ]

lemma Sim.visit (h : Sim g queue Q c t) (hdist : Distinct queue Q)
    (hinv : Search.Inv g.successors seen x t) (hinv' : Search.Inv g.successors seen x (look d t w))
    (hnew : t.dist w = none → t.pushed.length < Q ∧ d + 1 < nc a) {e : ℕ}
    (he : t.dist w = none → e = d + 1) : Sim g queue Q (visit g queue e c w) (look d t w) := by
  unfold Bfs.visit
  by_cases hw : t.dist w = none
  · obtain ⟨hQ, hnc⟩ := hnew hw
    have hlen : t.pushed.length < g.nodes := by
      have hle := nodup_length_le hinv'.nodup
      rw [look, if_pos hw, length_append, length_singleton] at hle
      omega
    have hfree := h.free hinv.popped hlen hQ
    rw [if_pos (h.unvisited.mpr hw), he hw]
    unfold look
    rw [if_pos hw]
    refine ⟨?_, ?_, ?_, h.tail, ?_, ?_, ?_, ?_, ?_, ?_⟩
    · intro v
      by_cases hv : v = w
      · subst hv
        simp [queuePush]
      · simp [queuePush, hv, h.distance v]
    · intro v d' hd'
      by_cases hv : v = w
      · subst hv
        simp only [update_self, some.injEq] at hd'
        omega
      · exact h.proper v d' ((update_of_ne hv ..).symm.trans hd')
    · dsimp only [queuePush]
      rw [h.head, succ_mod hlen, length_append, length_singleton]
    · dsimp only [queuePush]
      have := hinv.popped
      rw [h.elements, length_append, length_singleton]
      omega
    · intro i v hv
      dsimp only [queuePush]
      rw [h.head, mod_eq_of_lt hlen]
      by_cases hi : i = t.pushed.length
      · subst hi
        rw [getElem?_append_right (le_refl _), Nat.sub_self] at hv
        rw [update_self]
        exact hv
      · have hilt : i < t.pushed.length := by
          have := (List.getElem?_eq_some_iff.mp hv).1
          rw [List.length_append, List.length_singleton] at this
          omega
        rw [getElem?_append_left hilt] at hv
        rw [update_of_ne fun heq => hi (hdist i (by omega) _ hQ heq)]
        exact h.mem i v hv
    · dsimp only [queuePush]
      rw [h.total, Arch.ulong_add_left, map_append, sum_append_nat]
      simp
    · dsimp only [queuePush]
      rw [h.assigned]
    · intro p hp
      rcases mem_append.mp hp with hp | hp
      · exact h.pushes p hp
      · rw [mem_singleton.mp hp]
        exact hfree
    · rw [length_append, length_singleton]
      omega
  · rw [if_neg (fun hc => hw (h.unvisited.mp hc))]
    unfold look
    rw [if_neg hw]
    exact h

lemma lt_nc (hinv : Search.Inv g.successors seen x t)
    (hinv' : Search.Inv g.successors seen x (look d t w)) (hv : t.pushed[i]? = some v)
    (hd : t.dist v = some d) (hw : t.dist w = none) :
    d + 1 ≤ t.pushed.length ∧ t.pushed.length < g.nodes ∧ d + 1 < nc a := by
  have hle := nodup_length_le hinv'.nodup
  rw [look, if_pos hw, List.length_append, List.length_singleton] at hle
  obtain ⟨d', hd', hdist⟩ := hinv.index i v hv
  have hi := (List.getElem?_eq_some_iff.mp hv).1
  have hlt := g.nodes_lt
  rw [hd, some.injEq] at hdist
  unfold nc
  omega

section
variable (h : Sim g queue g.nodes c t) (hdist : Distinct queue g.nodes) (hinv : Search.Inv g.successors seen x t)
include h hdist hinv

lemma Sim.expand (hv : t.pushed[i]? = some v) (hd : t.dist v = some d) :
    Sim g queue g.nodes (expand g queue v c) (scan d (g.successors v) t) := by
  unfold Bfs.expand scan
  suffices hall : ∀ ws ⊆ g.successors v, ∀ (c : State g.nodes κ) t, Sim g queue g.nodes c t →
      Search.Inv g.successors seen x t → t.pushed[i]? = some v → t.dist v = some d →
      Sim g queue g.nodes
        (ws.foldl (fun s w => Bfs.visit g queue (a.ulong (s.distance v + 1)) s w) c)
        (ws.foldl (look d) t) from hall _ (List.Subset.refl _) c t h hinv hv hd
  intro ws
  induction ws with
  | nil =>
    intro _ c t h _ _ _
    exact h
  | cons w ws ih =>
    intro hws c t h hinv hv hd
    rw [cons_subset] at hws
    have hinv' := hinv.look hv hd hws.1
    have hgrows := look_grows d t w
    have hsim : Sim g queue g.nodes (Bfs.visit g queue (a.ulong (c.distance v + 1)) c w)
        (look d t w) := by
      refine h.visit hdist hinv hinv' (fun hw => ?_) fun hw => ?_
      · have := lt_nc hinv hinv' hv hd hw
        exact this.2
      · have hlt := (lt_nc hinv hinv' hv hd hw).2.2
        unfold nc at hlt
        rw [h.distance v, hd, getD_some, Arch.ulong_of_lt (by omega)]
    exact ih hws.2 _ _ hsim hinv' (hgrows.getElem? hv) (hgrows.dist v d hd)

lemma Sim.bfs {fuel : ℕ} (hrun : run g.successors fuel t = some t') :
    ∃ c', bfs g queue fuel c = some c' ∧ Sim g queue g.nodes c' t' := by
  induction fuel generalizing c t with
  | zero => exact absurd hrun (by simp [run])
  | succ fuel ih =>
    unfold run at hrun
    unfold Bfs.bfs
    rcases hnext : next g.successors t with _ | t1
    · rw [hnext] at hrun
      obtain rfl := some.inj hrun
      have hend := (next_eq_none hinv.popped).mp hnext
      exact ⟨c, if_pos ((h.empty hinv).mpr hend), h⟩
    · rw [hnext] at hrun
      have hinv1 := hinv.next hnext
      obtain ⟨v, hv, rfl⟩ := next_eq_some.mp hnext
      obtain ⟨hpop, d, hd⟩ := hinv.pop hv
      have hlt := (List.getElem?_eq_some_iff.mp hv).1
      have hsim := (h.pop hlt (nodup_length_le hinv.nodup)).expand hdist hpop hv hd
      rw [hd, getD_some] at hrun hinv1
      obtain ⟨c', hc', h'⟩ := ih hsim hinv1 hrun
      refine ⟨c', ?_, h'⟩
      rw [if_neg fun h0 => by rw [h.empty hinv] at h0; omega, h.top hinv hv]
      exact hc'

end

/-! ## Iterations -/

lemma Sim.begin (h : Sim g queue Q c t) (hQ : 0 < Q) :
    Sim g queue Q (begin g queue x c) (start x t) := by
  have hn : 0 < g.nodes := Fin.pos x
  refine ⟨?_, ?_, ?_, ?_, ?_, ?_, h.total, h.assigned, ?_, ?_⟩
  · intro v
    by_cases hv : v = x
    · subst hv
      simp [Bfs.begin, queuePush, queueInit, start]
    · simp [Bfs.begin, queuePush, queueInit, start, hv, h.distance v]
  · intro v d hd
    by_cases hv : v = x
    · subst hv
      have hnc : 0 < nc a := by
        unfold nc
        cases a <;> decide
      simp only [start, update_self, some.injEq] at hd
      omega
    · exact h.proper v d ((update_of_ne hv ..).symm.trans hd)
  · dsimp only [Bfs.begin, queuePush, queueInit, start]
    rw [length_singleton]
    have := succ_mod hn
    rwa [zero_mod] at this
  · simp [Bfs.begin, queuePush, queueInit, start]
  · simp [Bfs.begin, queuePush, queueInit, start]
  · intro i v hv
    obtain ⟨hi, rfl⟩ := List.getElem?_eq_some_iff.mp hv
    simp only [start, List.length_singleton, lt_one_iff] at hi
    subst hi
    simp [Bfs.begin, queuePush, queueInit, start]
  · intro p hp
    rcases mem_append.mp hp with hp | hp
    · exact h.pushes p hp
    · rw [mem_singleton.mp hp]
      exact ⟨hQ, hn, fun i hi => by simp [queueInit] at hi⟩
  · exact hQ

def initial (g : Graph a) (distance : Fin g.nodes → ℕ) : Search (Fin g.nodes) :=
  ⟨fun v => if distance v = nc a then none else some (distance v), [], 0, []⟩

def visitedBefore (g : Graph a) (distance : Fin g.nodes → ℕ) : Set (Fin g.nodes) :=
  {v | distance v ≠ nc a}

omit [DecidableEq κ] in
lemma Sim.load (distance : Fin g.nodes → ℕ) (mem : κ → Option (Fin g.nodes)) :
    Sim g queue Q (load distance mem) (initial g distance) := by
  refine ⟨?_, ?_, rfl, rfl, rfl, ?_, ?_, rfl, ?_, zero_le _⟩
  · intro v
    dsimp only [Bfs.load, initial]
    split
    · assumption
    · rfl
  · intro v d hd
    dsimp only [initial] at hd
    split at hd
    · simp at hd
    · exact some.inj hd ▸ by assumption
  · intro i v hv
    simp [initial] at hv
  · simp [Bfs.load, initial, Arch.ulong]
  · intro p hp
    simp [Bfs.load] at hp

lemma initial_dist (distance : Fin g.nodes → ℕ) :
    (initial g distance).dist v ≠ none ↔ v ∈ visitedBefore g distance := by
  simp [initial, visitedBefore]

def visitedAfter (g : Graph a) (seen : Set (Fin g.nodes)) : ℕ → Set (Fin g.nodes)
  | 0 => seen
  | k + 1 => visitedAfter g seen k ∪
      {v | ∃ h : k < g.nodes, Search.Reach g.successors (visitedAfter g seen k) ⟨k, h⟩ v}

omit [DecidableEq κ] in
lemma mem_visitedAfter_succ (hk : k < g.nodes) : v ∈ visitedAfter g seen (k + 1) ↔
    v ∈ visitedAfter g seen k ∨ Search.Reach g.successors (visitedAfter g seen k) ⟨k, hk⟩ v := by
  rw [visitedAfter, Set.mem_union, Set.mem_ofPred_eq, exists_prop_of_true hk]

def searchFrom (g : Graph a) (x : Fin g.nodes) (t : Search (Fin g.nodes)) : Option (Search (Fin g.nodes)) :=
  Search.run g.successors (g.nodes + 1) (Search.start x t)

section
omit [DecidableEq κ]

lemma searchFrom_spec (hseen : ∀ v, t.dist v ≠ none ↔ v ∈ seen) (x : Fin g.nodes) :
    ∃ t', searchFrom g x t = some t' ∧ Search.Inv g.successors seen x t' ∧
      ∀ v, v ∈ t'.pushed ↔ Search.Reach g.successors seen x v :=
  run_reach g.successors x hseen (by rw [Fintype.card_fin]; omega)

lemma iterations_search (hseen : ∀ v, t.dist v ≠ none ↔ v ∈ seen) {k : ℕ} (hk : k ≤ g.nodes) :
    ∃ t', iterations (searchFrom g) k t = some t' ∧
      ∀ v, t'.dist v ≠ none ↔ v ∈ visitedAfter g seen k := by
  induction k with
  | zero => exact ⟨t, rfl, hseen⟩
  | succ k ih =>
    obtain ⟨t1, ht1, hseen1⟩ := ih (by omega)
    obtain ⟨t', ht', hinv, hreach⟩ := searchFrom_spec hseen1 ⟨k, by omega⟩
    refine ⟨t', ?_, fun v => ?_⟩
    · unfold iterations
      rw [ht1, bind_some, dif_pos (by omega), ht']
    · rw [hinv.visited v, hreach v, mem_visitedAfter_succ (by omega)]

lemma iterations_sim {S T : Type} {n : ℕ} {body : Fin n → S → Option S} {body' : Fin n → T → Option T}
    (R : S → T → Prop)
    (hbody : ∀ x s t t', R s t → body' x t = some t' → ∃ s', body x s = some s' ∧ R s' t')
    {s : S} {t t' : T} (h : R s t) {k : ℕ} (hk : iterations body' k t = some t') :
    ∃ s', iterations body k s = some s' ∧ R s' t' := by
  induction k generalizing t' with
  | zero =>
    obtain rfl := some.inj hk
    exact ⟨s, rfl, h⟩
  | succ k ih =>
    obtain ⟨t1, ht1, hk⟩ := bind_eq_some_iff.mp hk
    obtain ⟨s1, hs1, h1⟩ := ih ht1
    unfold iterations
    rw [hs1, bind_some]
    split at hk
    · rename_i hlt
      rw [dif_pos hlt]
      exact hbody _ s1 t1 t' h1 hk
    · simp at hk

end

lemma Sim.iteration (h : Sim g queue g.nodes c t)
    (hdist : Distinct queue g.nodes) (hs : searchFrom g x t = some t') :
    ∃ c', iteration g queue x c = some c' ∧ Sim g queue g.nodes c' t' :=
  (h.begin (Fin.pos x)).bfs hdist (.start {v | t.dist v ≠ none} fun _ => Iff.rfl) hs

lemma Sim.iterations (h : Sim g queue g.nodes c t)
    (hdist : Distinct queue g.nodes) (hs : iterations (searchFrom g) k t = some t') :
    ∃ c', iterations (Bfs.iteration g queue) k c = some c' ∧ Sim g queue g.nodes c' t' := by
  refine iterations_sim (Sim g queue g.nodes) ?_ h hs
  intro x c t t' h hs
  exact h.iteration hdist hs

/-! ## Reachable nodes -/

section
omit [DecidableEq κ]

lemma seen_or_reach_tail (hclosed : ∀ v ∈ seen, v ≠ x → ∀ w ∈ g.successors v, w ∈ seen)
    (hv : v ∈ seen ∨ Search.Reach g.successors seen x v) (hw : w ∈ g.successors v) :
    w ∈ seen ∨ Search.Reach g.successors seen x w := by
  by_cases hseen : w ∈ seen
  · exact .inl hseen
  · right
    rcases hv with hv | hv
    · by_cases hx : v = x
      · subst hx
        exact Relation.ReflTransGen.single ⟨hw, hseen⟩
      · exact absurd (hclosed v hv hx w hw) hseen
    · exact hv.tail ⟨hw, hseen⟩

lemma seen_or_reach (hclosed : ∀ v ∈ seen, v ≠ x → ∀ w ∈ g.successors v, w ∈ seen)
    (h : Relation.ReflTransGen (fun v w => w ∈ g.successors v) x v) :
    v ∈ seen ∨ Search.Reach g.successors seen x v := by
  induction h with
  | refl => exact .inr .refl
  | tail _ hw ih => exact seen_or_reach_tail hclosed ih hw

lemma visitedAfter_closed {k : ℕ} (hk : k < g.nodes)
    (hclosed : ∀ v ∈ visitedAfter g seen k, v ≠ ⟨k, hk⟩ → ∀ w ∈ g.successors v, w ∈ visitedAfter g seen k)
    (hv : v ∈ visitedAfter g seen (k + 1)) (hw : w ∈ g.successors v) :
    w ∈ visitedAfter g seen (k + 1) := by
  rw [mem_visitedAfter_succ hk] at hv ⊢
  exact seen_or_reach_tail hclosed hv hw

lemma visitedAfter_zero (hn : 0 < g.nodes) (k : ℕ) (hk : k < g.nodes) :
    (∀ v ∈ visitedAfter g {⟨0, hn⟩} (k + 1), ∀ w ∈ g.successors v,
      w ∈ visitedAfter g {⟨0, hn⟩} (k + 1)) ∧
    ∀ v, v ∈ visitedAfter g {⟨0, hn⟩} (k + 1) ↔ ∃ u : Fin g.nodes, u.val ≤ k ∧
      Relation.ReflTransGen (fun v w => w ∈ g.successors v) u v := by
  -- Before the iteration the visited nodes are closed up to the start of the iteration itself.
  have hstep : ∀ k (hk : k < g.nodes),
      (∀ v ∈ visitedAfter g {⟨0, hn⟩} k, v ≠ ⟨k, hk⟩ → ∀ w ∈ g.successors v,
        w ∈ visitedAfter g {⟨0, hn⟩} k) →
      (∀ v, (v ∈ visitedAfter g {⟨0, hn⟩} k → ∃ u : Fin g.nodes, u.val ≤ k ∧
        Relation.ReflTransGen (fun v w => w ∈ g.successors v) u v) ∧
        ∀ u : Fin g.nodes, u.val < k → Relation.ReflTransGen (fun v w => w ∈ g.successors v) u v →
          v ∈ visitedAfter g {⟨0, hn⟩} k) →
      ∀ v, v ∈ visitedAfter g {⟨0, hn⟩} (k + 1) ↔ ∃ u : Fin g.nodes, u.val ≤ k ∧
        Relation.ReflTransGen (fun v w => w ∈ g.successors v) u v := by
    intro k hk hclosed hbefore v
    rw [mem_visitedAfter_succ hk]
    constructor
    · rintro (hv | hv)
      · exact (hbefore v).1 hv
      · exact ⟨⟨k, hk⟩, le_refl k, Relation.ReflTransGen.mono (fun _ _ h => h.1) _ _ hv⟩
    · rintro ⟨u, hu, hreach⟩
      by_cases huk : u.val < k
      · exact .inl ((hbefore v).2 u huk hreach)
      · obtain rfl : u = ⟨k, hk⟩ := Fin.ext (by dsimp only; omega)
        exact seen_or_reach hclosed hreach
  induction k with
  | zero =>
    have hclosed : ∀ v ∈ visitedAfter g {⟨0, hn⟩} 0, v ≠ ⟨0, hk⟩ → ∀ w ∈ g.successors v,
        w ∈ visitedAfter g {⟨0, hn⟩} 0 := fun v hv hne => absurd hv hne
    refine ⟨fun v hv w hw => visitedAfter_closed hk hclosed hv hw, hstep 0 hk hclosed fun v => ⟨?_, ?_⟩⟩
    · intro hv
      obtain rfl : v = ⟨0, hn⟩ := hv
      exact ⟨_, le_refl 0, .refl⟩
    · intro u hu
      omega
  | succ k ih =>
    obtain ⟨hclosed, hmem⟩ := ih (by omega)
    refine ⟨fun v hv w hw => visitedAfter_closed hk (fun v hv _ => hclosed v hv) hv hw,
      hstep (k + 1) hk (fun v hv _ => hclosed v hv) fun v => ⟨?_, ?_⟩⟩
    · intro hv
      obtain ⟨u, hu, hreach⟩ := (hmem v).mp hv
      exact ⟨u, by omega, hreach⟩
    · intro u hu hreach
      exact (hmem v).mpr ⟨u, by omega, hreach⟩

end

lemma visitedBefore_reset (hn : 0 < g.nodes) : visitedBefore g (resetGraphStats g) = {⟨0, hn⟩} := by
  have hnc : nc a ≠ 0 := by
    unfold nc
    cases a <;> decide
  ext v
  unfold visitedBefore resetGraphStats
  rw [Set.mem_ofPred_eq, Set.mem_singleton_iff, Fin.ext_iff]
  split
  · simp_all [eq_comm]
  · simp_all

/-! ## Distances, and the queue -/

lemma distinct_id (n : ℕ) : Distinct (id : ℕ → ℕ) n := fun _ _ _ _ h => h

theorem kernelDefault_finds_distances (g : Graph a) (mem : ℕ → Option (Fin g.nodes))
    (maxIterations : BitVec 32) (hm : 0 < maxIterations.toNat) (hle : maxIterations.toNat ≤ g.nodes) :
    (∃ s, kernelDefault g id maxIterations (resetGraphStats g) mem = some s ∧
      s.totalDistance = a.ulong (s.assigned.map Prod.snd).sum) ∧
    ∀ x < maxIterations.toNat, ∃ s,
      iterations (iteration g id) (x + 1) (load (resetGraphStats g) mem) = some s ∧
      (∀ v, s.distance v ≠ nc a ↔ ∃ u : Fin g.nodes, u.val ≤ x ∧
        Relation.ReflTransGen (fun v w => w ∈ g.successors v) u v) ∧
      (x = 0 → ∀ v,
        (∀ d, Search.IsDist g.successors ⟨0, hm.trans_le hle⟩ v d → s.distance v = d) ∧
        ((∀ d, ¬ Search.Walk g.successors ⟨0, hm.trans_le hle⟩ d v) → s.distance v = nc a)) ∧
      ∀ p ∈ s.pushes, p.Free g.nodes g.nodes := by
  have hn : 0 < g.nodes := hm.trans_le hle
  have hload : Sim g (id : ℕ → ℕ) g.nodes (load (resetGraphStats g) mem)
      (initial g (resetGraphStats g)) := .load _ mem
  have hseen : ∀ v, (initial g (resetGraphStats g)).dist v ≠ none ↔ v ∈ ({⟨0, hn⟩} : Set _) := by
    intro v
    rw [initial_dist, visitedBefore_reset hn]
  constructor
  · obtain ⟨t, ht, -⟩ := iterations_search hseen hle
    obtain ⟨s, hs, hsim⟩ := hload.iterations (distinct_id _) ht
    exact ⟨s, hs, by rw [hsim.total, hsim.assigned]⟩
  · intro x hx
    obtain ⟨t, ht, hvisited⟩ := iterations_search hseen (show x + 1 ≤ g.nodes by omega)
    obtain ⟨s, hs, hsim⟩ := hload.iterations (distinct_id _) ht
    have hmem := (visitedAfter_zero hn x (by omega)).2
    have hreach : ∀ v, s.distance v ≠ nc a ↔ ∃ u : Fin g.nodes, u.val ≤ x ∧
        Relation.ReflTransGen (fun v w => w ∈ g.successors v) u v := by
      intro v
      rw [Ne, hsim.unvisited, ← hmem v, ← hvisited v]
    refine ⟨s, hs, hreach, ?_, hsim.pushes⟩
    rintro rfl v
    constructor
    · intro d hd
      have hrun : searchFrom g ⟨0, hn⟩ (initial g (resetGraphStats g)) = some t := by
        simpa [iterations, hn] using ht
      have hdist := (Search.run_dist (fun v hv => (hseen v).mp hv) hrun
        (by rw [Fintype.card_fin]; omega)).mpr hd
      rw [hsim.distance v, hdist, Option.getD_some]
    · intro hnone
      by_contra hne
      obtain ⟨u, hu, hpath⟩ := (hreach v).mp hne
      obtain rfl : u = ⟨0, hn⟩ := Fin.ext (by dsimp only; omega)
      obtain ⟨d, hd⟩ := (Search.walk_iff_reach g.successors).mpr hpath
      exact hnone d hd

def twoNodes : Graph .arm where
  nodes := 2
  successors := fun v => [v + 1]
  nodes_lt := by decide
  degree_lt := by decide

theorem kernelDefault_finds_distances_twoNodes :
    0 < (1 : BitVec 32).toNat ∧ ∃ s, kernelDefault twoNodes id 1 (resetGraphStats twoNodes)
      (fun _ => none) = some s ∧ s.totalDistance = Arch.ulong .arm (s.assigned.map Prod.snd).sum :=
  ⟨by decide, (kernelDefault_finds_distances twoNodes (fun _ => none) 1 (by decide) (by decide)).1⟩

end SmcPim.Bfs
