import SmcPim.Bfs.Default

/-! # `kernel_best` is the same search -/

namespace SmcPim.Bfs

open List Function Option Nat Search

variable {a : Arch} {g : Graph a} {κ : Type} {place : Region → ℕ → κ} {queue : ℕ → κ} {Q B : ℕ}
  {seen : Set (Fin g.nodes)} {x v w : Fin g.nodes} {c : State g.nodes κ} {s s' : Best g.nodes κ}
  {t t' : Search (Fin g.nodes)} {d : ℕ}

/-! ## The memory -/

def InUse (Q B : ℕ) : Region → ℕ → Prop
  | .queue, i => i < Q
  | _, i => i < B

def Apart (place : Region → ℕ → κ) (Q B : ℕ) : Prop :=
  ∀ r i r' i', InUse Q B r i → InUse Q B r' i' → place r i = place r' i' → r = r' ∧ i = i'

lemma Apart.slots (h : Apart place Q B) : Distinct (place .queue) Q :=
  fun i hi j hj heq => (h .queue i .queue j hi hj heq).2

variable {r : Region} {n i k f : ℕ}

lemma inUse_buffer (hr : r ≠ .queue) (hi : i < B) : InUse Q B r i := by
  cases r with
  | queue => exact absurd rfl hr
  | first | second => exact hi

lemma Apart.buffer (h : Apart place Q B) (hr : r ≠ .queue) : Distinct (place r) B :=
  fun i hi j hj heq => (h r i r j (inUse_buffer hr hi) (inUse_buffer hr hj) heq).2

lemma Apart.queue_ne (h : Apart place Q B) (hr : r ≠ .queue) {c : ℕ} (hi : i < Q)
    (hc : c < B) : place .queue i ≠ place r c :=
  fun heq => hr (h .queue i r c hi (inUse_buffer hr hc) heq).1.symm

variable [DecidableEq κ]

lemma store_of_ne {α : Type} {buffer : ℕ → κ} {ws : List α} {k : κ} (c : ℕ) (mem : κ → Option α)
    (hk : ∀ j < ws.length, buffer (c + j) ≠ k) : store buffer c ws mem k = mem k := by
  induction ws generalizing c mem with
  | nil => rfl
  | cons w ws ih =>
    unfold store
    have hrest : ∀ j < ws.length, buffer (c + 1 + j) ≠ k := by
      intro j hj
      rw [add_assoc, add_comm 1 j]
      exact hk (j + 1) (by simpa using hj)
    have hfirst : k ≠ buffer c := (hk 0 (by simp)).symm
    rw [ih (c + 1) _ hrest, update_of_ne hfirst]

lemma store_getElem? {α : Type} {buffer : ℕ → κ} {ws : List α} (hbuffer : Distinct buffer B) (c : ℕ)
    (mem : κ → Option α) (hB : c + ws.length ≤ B) {j : ℕ} {w : α} (hw : ws[j]? = some w) :
    store buffer c ws mem (buffer (c + j)) = some w := by
  induction ws generalizing c mem j with
  | nil => simp at hw
  | cons u ws ih =>
    rw [length_cons] at hB
    unfold store
    cases j with
    | zero =>
      rw [getElem?_cons_zero] at hw
      rw [store_of_ne, add_zero, update_self, hw]
      intro j hj heq
      have := hbuffer _ (by omega) _ (by omega) heq
      omega
    | succ j =>
      rw [add_comm j 1, ← add_assoc]
      exact ih (c + 1) _ (by omega) hw

/-! ## Pushes behind the slots -/

def Overflow (Q : ℕ) (s : State g.nodes κ) : Prop := ∃ p ∈ s.pushes, Q ≤ p.slot

lemma Overflow.visit (h : Overflow Q c) (e : ℕ) : Overflow Q (visit g queue e c w) := by
  obtain ⟨p, hp, hslot⟩ := h
  unfold Bfs.visit
  split
  · exact ⟨p, mem_append_left _ hp, hslot⟩
  · exact ⟨p, hp, hslot⟩

lemma Overflow.drain {m : ℕ} (h : Overflow Q s.toState) (hs : drain g place m i s = some s') :
    Overflow Q s'.toState := by
  induction m generalizing i s with
  | zero =>
    obtain rfl := some.inj hs
    exact h
  | succ m ih =>
    obtain ⟨w, -, hs⟩ := bind_eq_some_iff.mp hs
    exact ih (h.visit _) hs

lemma swap_pushes (v : Option (Fin g.nodes)) (s : Best g.nodes κ) :
    (swap g place v s).pushes = s.pushes := by
  unfold swap
  split
  · rfl
  · split <;> rfl

omit [DecidableEq κ] in
lemma request_toState (v : Fin g.nodes) (s : Best g.nodes κ) :
    (request g v s).toState = s.toState := by
  unfold request
  split <;> rfl

lemma Overflow.myLabel {v : Option (Fin g.nodes)} (h : Overflow Q s.toState)
    (hs : myLabel g place v s = some s') : Overflow Q s'.toState := by
  unfold Bfs.myLabel at hs
  split at hs
  · obtain ⟨s1, hs1, rfl⟩ := map_eq_some_iff.mp hs
    have hover := h.drain hs1
    unfold Overflow at hover ⊢
    rw [swap_pushes]
    exact hover
  · obtain rfl := some.inj hs
    unfold Overflow
    rw [swap_pushes]
    exact h

lemma Overflow.pingPong {fuel : ℕ} (h : Overflow Q s.toState)
    (hs : pingPong g place fuel s = some s') : Overflow Q s'.toState := by
  induction fuel generalizing s with
  | zero => simp [Bfs.pingPong] at hs
  | succ fuel ih =>
    unfold Bfs.pingPong at hs
    split at hs
    · obtain ⟨v, -, hs⟩ := bind_eq_some_iff.mp hs
      obtain ⟨s1, hs1, hs⟩ := bind_eq_some_iff.mp hs
      refine ih (Overflow.myLabel ?_ hs1) hs
      rw [request_toState]
      exact h
    · split at hs
      · obtain ⟨s1, hs1, hs⟩ := bind_eq_some_iff.mp hs
        exact ih (h.myLabel hs1) hs
      · obtain rfl := some.inj hs
        exact h

lemma Overflow.bestIteration (h : Overflow Q s.toState) (hs : bestIteration g place x s = some s') :
    Overflow Q s'.toState := by
  obtain ⟨p, hp, hslot⟩ := h
  refine Overflow.pingPong ?_ hs
  exact ⟨p, mem_append_left _ hp, hslot⟩

lemma Sim.visit_or (h : Sim g queue Q c t) (hdist : Distinct queue Q)
    (hinv : Search.Inv g.successors seen x t) (hinv' : Search.Inv g.successors seen x (look d t w))
    (hnew : t.dist w = none → d + 1 < nc a) {e : ℕ}
    (he : t.dist w = none → t.pushed.length < Q → e = d + 1) :
    (Sim g queue Q (Bfs.visit g queue e c w) (look d t w) ∧
      ∀ k, (∀ i < Q, queue i ≠ k) → (Bfs.visit g queue e c w).mem k = c.mem k) ∨
    (Overflow Q (Bfs.visit g queue e c w) ∧ Q < (look d t w).pushed.length) := by
  by_cases hw : t.dist w = none
  · have hlen : t.pushed.length < g.nodes := by
      have hle := nodup_length_le hinv'.nodup
      rw [look, if_pos hw, length_append, length_singleton] at hle
      omega
    have hhead : c.head = t.pushed.length := by
      rw [h.head, mod_eq_of_lt hlen]
    by_cases hQ : t.pushed.length < Q
    · left
      refine ⟨h.visit hdist hinv hinv' (fun hw => ⟨hQ, hnew hw⟩) fun hw => he hw hQ, fun k hk => ?_⟩
      unfold Bfs.visit
      rw [if_pos (h.unvisited.mpr hw)]
      refine update_of_ne ?_ ..
      dsimp only
      rw [hhead]
      exact (hk _ hQ).symm
    · right
      constructor
      · unfold Bfs.visit
        rw [if_pos (h.unvisited.mpr hw)]
        refine ⟨_, mem_append_right _ (mem_singleton_self _), ?_⟩
        dsimp only
        omega
      · rw [look, if_pos hw, length_append, length_singleton]
        omega
  · left
    refine ⟨h.visit hdist hinv hinv' (absurd · hw) (absurd · hw), fun k hk => ?_⟩
    unfold Bfs.visit
    rw [if_neg fun hc => hw (h.unvisited.mp hc)]

def Outcome (Q : ℕ) (r : Option (Best g.nodes κ)) (P : Best g.nodes κ → Prop)
    (t : Search (Fin g.nodes)) : Prop :=
  (∃ s, r = some s ∧ P s) ∨ (Q < t.pushed.length ∧ ∀ s, r = some s → Overflow Q s.toState)

lemma Sim.drain {m : ℕ} {ws : List (Fin g.nodes)} (hapart : Apart place Q B) (hQ : Q ≤ 2 ^ 32)
    (h : Sim g (place .queue) Q s.toState t) (hinv : Search.Inv g.successors seen x t)
    (hv : t.pushed[i]? = some v) (hd : t.dist v = some d) (hsub : ws ⊆ g.successors v)
    (hping : s.succPing ≠ .queue) (hcurr : s.currDistance = d) (hB : m + ws.length ≤ B)
    (hws : ∀ j w, ws[j]? = some w → s.mem (place s.succPing (m + j)) = some w) :
    Outcome Q (drain g place ws.length m s)
      (fun s' => ∃ c, s' = { s with toState := c } ∧ Sim g (place .queue) Q c (scan d ws t))
      (scan d ws t) := by
  induction ws generalizing m s t with
  | nil => exact .inl ⟨s, rfl, s.toState, rfl, h⟩
  | cons w ws ih =>
    rw [cons_subset] at hsub
    rw [length_cons] at hB
    have hinv' := hinv.look hv hd hsub.1
    have hgrows := look_grows d t w
    have hread : s.mem (place s.succPing m) = some w := hws 0 w rfl
    have hlt := fun hw => lt_nc hinv hinv' hv hd hw
    have hscan : scan d (w :: ws) t = scan d ws (look d t w) := rfl
    rw [hscan, length_cons]
    unfold Bfs.drain
    rw [hread, bind_some]
    have hvisit := h.visit_or (w := w) (e := a.ulong ((s.currDistance + 1) % 2 ^ 32)) hapart.slots hinv hinv'
      (fun hw => (hlt hw).2.2) fun hw hlen => ?_
    · rcases hvisit with ⟨hsim, hframe⟩ | ⟨hover, hlong⟩
      · refine ih hsim hinv' (hgrows.getElem? hv) (hgrows.dist v d hd) hsub.2 hping hcurr (by omega) ?_
        intro j u hu
        dsimp only
        rw [hframe _ fun k hk => hapart.queue_ne hping hk ?_]
        · rw [add_assoc, add_comm 1 j]
          exact hws (j + 1) u hu
        · have := (List.getElem?_eq_some_iff.mp hu).1
          omega
      · right
        have hlen := (scan_grows d ws (look d t w)).pushed.length_le
        exact ⟨by omega, fun s' hs' => Overflow.drain hover hs'⟩
    · have := hlt hw
      have hnc := this.2.2
      unfold nc at hnc
      rw [hcurr, mod_eq_of_lt (by omega), Arch.ulong_of_lt (by omega)]

/-! ## Rounds -/

structure Ready (Q : ℕ) (s : Best g.nodes κ) : Prop where
  succPing : s.succPing ≠ .queue
  succPong : s.succPong ≠ .queue
  asserted : Q < 2 * maxXferSize → s.asserted = true
  fetched : ∀ n ∈ s.fetched, ∃ v, n = g.outDegree v * a.bytes

structure Idle (place : Region → ℕ → κ) (Q : ℕ) (s : Best g.nodes κ) (t : Search (Fin g.nodes)) :
    Prop where
  ready : Ready Q s
  numPongs : s.numPongs = -1
  sim : Sim g (place .queue) Q s.toState t

structure Popped (place : Region → ℕ → κ) (Q : ℕ) (s : Best g.nodes κ) (t : Search (Fin g.nodes))
    (v : Fin g.nodes) : Prop where
  ready : Ready Q s
  next : t.pushed[t.popped]? = some v
  sim : Sim g (place .queue) Q s.toState { t with popped := t.popped + 1 }

structure Loaded (place : Region → ℕ → κ) (Q : ℕ) (s : Best g.nodes κ) (t : Search (Fin g.nodes))
    (v : Fin g.nodes) : Prop extends Popped place Q s t v where
  numPongs : s.numPongs = g.outDegree v
  currDistance : t.dist v = some s.currDistance
  waiting : ∀ j w, (g.successors v)[j]? = some w → s.mem (place s.succPing j) = some w

structure Small (g : Graph a) (B : ℕ) : Prop where
  buffer : ∀ v, g.outDegree v ≤ B
  int : ∀ v, g.outDegree v < 2 ^ 31

lemma toInt_of_lt (h : n < 2 ^ 31) : toInt n = n := by
  unfold toInt
  rw [Int.bmod_eq_of_le (by omega) (by omega)]

lemma Popped.swap (h : Popped place Q s t v) (hnone : s.numPongs = -1) (hapart : Apart place Q B)
    (hsmall : Small g B) (hQ : Q ≤ 2 ^ 32) (hinv : Search.Inv g.successors seen x t) :
    (Idle place Q (swap g place (some v) s) { t with popped := t.popped + 1 } ∧
      Search.next g.successors t = some { t with popped := t.popped + 1 }) ∨
    Loaded place Q (swap g place (some v) s) t v := by
  obtain ⟨d, hle, hd⟩ := hinv.index _ v h.next
  have hlt := (List.getElem?_eq_some_iff.mp h.next).1
  have hshort := h.sim.short
  dsimp only at hshort
  unfold Bfs.swap
  dsimp only
  by_cases hdeg : g.outDegree v ≠ 0
  · rw [if_pos hdeg]
    have hsim := h.sim
    have hdistance : s.distance v = d := by
      rw [hsim.distance v]
      dsimp only
      rw [hd, getD_some]
    have hmod : s.distance v % 2 ^ 32 = d := by
      rw [hdistance, mod_eq_of_lt (by omega)]
    have hint := toInt_of_lt (hsmall.int v)
    rw [hmod, hint]
    refine .inr ⟨⟨⟨h.ready.succPong, h.ready.succPing, h.ready.asserted, h.ready.fetched⟩, h.next, ?_⟩,
      rfl, hd, ?_⟩
    · refine { hsim with mem := ?_ }
      intro i u hu
      have hi := (List.getElem?_eq_some_iff.mp hu).1
      dsimp only at hi ⊢
      rw [store_of_ne, hsim.mem i u hu]
      intro j hj
      rw [zero_add]
      refine (hapart.queue_ne h.ready.succPong (by omega) ?_).symm
      have := hsmall.buffer v
      unfold Graph.outDegree at this
      omega
    · intro j w hw
      have hB := hsmall.buffer v
      have hget := store_getElem? (hapart.buffer h.ready.succPong) 0 s.mem
        (by rw [zero_add]; exact hB) hw
      rw [zero_add] at hget
      exact hget
  · rw [if_neg hdeg]
    left
    refine ⟨⟨h.ready, hnone, h.sim⟩, Search.next_eq_some.mpr ⟨v, h.next, ?_⟩⟩
    have hnil : g.successors v = [] := eq_nil_of_length_eq_zero (not_not.mp hdeg)
    rw [hnil]
    rfl

lemma scan_popped (d k : ℕ) (ws : List (Fin g.nodes)) (t : Search (Fin g.nodes)) :
    scan d ws { t with popped := k } = { scan d ws t with popped := k } := by
  unfold scan
  induction ws generalizing t with
  | nil => rfl
  | cons w ws ih =>
    have hlook : look d { t with popped := k } w = { look d t w with popped := k } := by
      unfold look
      split <;> rfl
    rw [foldl_cons, foldl_cons, hlook, ih]

lemma Search.Inv.popped_le (h : Search.Inv g.successors seen x t) (hk : k ≤ t.pushed.length) :
    Search.Inv g.successors seen x { t with popped := k } :=
  { h with popped := hk }

lemma myLabel_outcome {u : Fin g.nodes} {v : Option (Fin g.nodes)} (hapart : Apart place Q B)
    (hsmall : Small g B) (hQ : Q ≤ 2 ^ 32) (hready : Ready Q s) (hnum : s.numPongs = g.outDegree u)
    (hcurr : t.dist u = some s.currDistance)
    (hwait : ∀ j w, (g.successors u)[j]? = some w → s.mem (place s.succPing j) = some w)
    (hsim : Sim g (place .queue) Q s.toState { t with popped := k }) (hk : k ≤ t.pushed.length)
    (hinv : Search.Inv g.successors seen x t) (hu : t.pushed[t.popped]? = some u)
    (hnext : next g.successors t = some t') :
    Outcome Q (myLabel g place v s)
      (fun s' => ∃ s1, s' = swap g place v s1 ∧ s1.numPongs = -1 ∧ Ready Q s1 ∧
        Sim g (place .queue) Q s1.toState { t' with popped := k }) t' := by
  have hscan : { t' with popped := k } = scan s.currDistance (g.successors u)
      { t with popped := k } := by
    obtain ⟨u', hu', rfl⟩ := next_eq_some.mp hnext
    obtain rfl : u' = u := some.inj (hu'.symm.trans hu)
    rw [hcurr, getD_some]
    exact (scan_popped _ k _ { t with popped := t.popped + 1 }).symm
  have hdrain : Outcome Q (drain g place (g.successors u).length 0 s)
      (fun s' => ∃ c, s' = { s with toState := c } ∧
        Sim g (place .queue) Q c { t' with popped := k }) { t' with popped := k } := by
    rw [hscan]
    refine hsim.drain hapart hQ (Search.Inv.popped_le hinv hk) hu hcurr (List.Subset.refl _)
      hready.succPing rfl ?_ fun j w hw => ?_
    · rw [zero_add]
      exact hsmall.buffer u
    · rw [zero_add]
      exact hwait j w hw
  have hcount : (s.numPongs % (2 ^ a.bits : ℕ)).toNat = (g.successors u).length := by
    have := g.degree_lt u
    rw [hnum]
    unfold Graph.outDegree
    rw [← Int.natCast_emod, Int.toNat_natCast, mod_eq_of_lt this]
  unfold myLabel
  rw [if_pos (by rw [hnum]; omega), hcount]
  rcases hdrain with ⟨s', hs', c, rfl, hc⟩ | ⟨hlong, hover⟩
  · rw [hs']
    exact .inl ⟨_, rfl, _, rfl, rfl, { hready with }, hc⟩
  · refine .inr ⟨hlong, fun s' hs' => ?_⟩
    obtain ⟨s1, hs1, rfl⟩ := map_eq_some_iff.mp hs'
    have := hover s1 hs1
    unfold Overflow at this ⊢
    rw [swap_pushes]
    exact this

def popNode (g : Graph a) (v : Fin g.nodes) (s : Best g.nodes κ) : Best g.nodes κ :=
  request g v { s with
    toState := queuePop g s.toState
    asserted := s.asserted && decide (s.elements < 2 * maxXferSize) }

omit [DecidableEq κ] in
lemma popNode_eq (v : Fin g.nodes) (s : Best g.nodes κ) : ∃ asserted fetched, popNode g v s =
    { s with toState := queuePop g s.toState, asserted := asserted, fetched := fetched } := by
  unfold popNode request
  split
  · exact ⟨_, _, rfl⟩
  · exact ⟨_, _, rfl⟩

omit [DecidableEq κ] in
lemma Ready.popNode (h : Ready Q s) (hle : s.elements ≤ Q) (v : Fin g.nodes) :
    Ready Q (popNode g v s) := by
  have hasserted : Q < 2 * maxXferSize →
      (s.asserted && decide (s.elements < 2 * maxXferSize)) = true := by
    intro hQ
    rw [h.asserted hQ, Bool.true_and, decide_eq_true_eq]
    omega
  unfold Bfs.popNode request
  split
  · refine ⟨h.succPing, h.succPong, hasserted, fun n hn => ?_⟩
    rcases mem_append.mp hn with hn | hn
    · exact h.fetched n hn
    · exact ⟨v, mem_singleton.mp hn⟩
  · exact { h with asserted := hasserted }

lemma pingPong_pop (n : ℕ) (hne : s.elements ≠ 0)
    (htop : queueTop g (place .queue) s.toState = some v) :
    pingPong g place (n + 1) s =
      (myLabel g place (some v) (popNode g v s)).bind (pingPong g place n) := by
  rw [pingPong, if_pos hne]
  dsimp only
  rw [htop]
  rfl

lemma pingPong_end (n : ℕ) (hempty : s.elements = 0) (hnum : s.numPongs = -1) :
    pingPong g place (n + 1) s = some s := by
  rw [pingPong, if_neg (not_not.mpr hempty), if_neg (not_not.mpr hnum)]

def Ends (place : Region → ℕ → κ) (Q n : ℕ) (s : Best g.nodes κ) (t : Search (Fin g.nodes)) : Prop :=
  Outcome Q (pingPong g place n s) (fun s' => Idle place Q s' t) t

omit [DecidableEq κ] in
lemma Sim.popNode (h : Sim g (place .queue) Q s.toState { t with popped := k })
    (hready : Ready Q s) (hinv : Search.Inv g.successors seen x t) (hk : k ≤ t.pushed.length) :
    (s.elements = 0 ∧ k = t.pushed.length) ∨
    ∃ v, s.elements ≠ 0 ∧ t.pushed[k]? = some v ∧ queueTop g (place .queue) s.toState = some v ∧
      Ready Q (popNode g v s) ∧
      Sim g (place .queue) Q (popNode g v s).toState { t with popped := k + 1 } := by
  have hinvk := Search.Inv.popped_le hinv hk
  have hiff := h.empty hinvk
  dsimp only at hiff
  by_cases hempty : s.elements = 0
  · exact .inl ⟨hempty, hiff.mp hempty⟩
  · have hlt : k < t.pushed.length := lt_of_le_of_ne hk fun heq => hempty (hiff.mpr heq)
    have hv : t.pushed[k]? = some t.pushed[k] := getElem?_eq_getElem hlt
    have hle : s.elements ≤ Q := by
      have := h.elements
      have := h.short
      dsimp only at *
      omega
    obtain ⟨_, _, heq⟩ := popNode_eq t.pushed[k] s
    refine .inr ⟨t.pushed[k], hempty, hv, h.top hinvk hv, hready.popNode hle _, ?_⟩
    rw [heq]
    exact h.pop hlt (nodup_length_le hinv.nodup)

lemma Outcome.bind {r : Option (Best g.nodes κ)} {P : Best g.nodes κ → Prop}
    (h : Outcome Q r P t) (hP : ∀ s, P s → Ends place Q n s t') (hgrows : t.pushed <+: t'.pushed) :
    Outcome Q (r.bind (pingPong g place n)) (fun s' => Idle place Q s' t') t' := by
  rcases h with ⟨s, rfl, hs⟩ | ⟨hlong, hover⟩
  · exact hP s hs
  · refine .inr ⟨hlong.trans_le hgrows.length_le, fun s' hs' => ?_⟩
    obtain ⟨s, hs, hs'⟩ := bind_eq_some_iff.mp hs'
    exact (hover s hs).pingPong hs'

lemma run_next {t1 : Search (Fin g.nodes)} (h : run g.successors (f + 1) t = some t')
    (hnext : next g.successors t = some t1) : run g.successors f t1 = some t' := by
  unfold run at h
  rw [hnext] at h
  exact h

def SwapEnds (place : Region → ℕ → κ) (Q f : ℕ) (t t' : Search (Fin g.nodes)) : Prop :=
  ∀ s v, Popped place Q s t v → s.numPongs = -1 → ∀ n, 2 * f ≤ n + 1 →
    Ends place Q n (swap g place (some v) s) t'

lemma Idle.ends (h : Idle place Q s t) (hinv : Search.Inv g.successors seen x t)
    (hrun : run g.successors f t = some t') (hn : 2 * f ≤ n) (hf : 0 < f)
    (hswap : SwapEnds place Q f t t') : Ends place Q n s t' := by
  obtain ⟨n, rfl⟩ : ∃ m, n = m + 1 := ⟨n - 1, by omega⟩
  obtain ⟨f, rfl⟩ : ∃ m, f = m + 1 := ⟨f - 1, by omega⟩
  unfold Ends
  rcases Sim.popNode h.sim h.ready hinv hinv.popped with ⟨hempty, hend⟩ | ⟨v, hne, hv, htop, hready, hsim⟩
  · have hnone : next g.successors t = none := (next_eq_none hinv.popped).mpr hend
    unfold run at hrun
    rw [hnone] at hrun
    obtain rfl := some.inj hrun
    exact .inl ⟨s, pingPong_end n hempty h.numPongs, h⟩
  · obtain ⟨_, _, heq⟩ := popNode_eq v s
    have hnum : (popNode g v s).numPongs = -1 := by
      rw [heq]
      exact h.numPongs
    have hlabel : myLabel g place (some v) (popNode g v s) =
        some (swap g place (some v) (popNode g v s)) := by
      unfold myLabel
      rw [if_neg (not_not.mpr hnum)]
    rw [pingPong_pop n hne htop, hlabel, bind_some]
    exact hswap _ v ⟨hready, hv, hsim⟩ hnum n (by omega)

lemma Loaded.ends {t1 : Search (Fin g.nodes)} (h : Loaded place Q s t v)
    (hapart : Apart place Q B) (hsmall : Small g B) (hQ : Q ≤ 2 ^ 32)
    (hinv : Search.Inv g.successors seen x t) (hnext : next g.successors t = some t1)
    (hrun : run g.successors f t1 = some t') (hn : 2 * (f + 1) ≤ n + 1)
    (hidle : ∀ s, Idle place Q s t1 → ∀ n, 2 * f ≤ n → Ends place Q n s t')
    (hswap : SwapEnds place Q f t1 t') : Ends place Q n s t' := by
  have hf : 0 < f := by
    cases f with
    | zero => simp [run] at hrun
    | succ f => omega
  obtain ⟨n, rfl⟩ : ∃ m, n = m + 1 := ⟨n - 1, by omega⟩
  have hgrows := next_grows hnext
  have hpop : t1.popped = t.popped + 1 := hgrows.popped
  have hlt := (List.getElem?_eq_some_iff.mp h.next).1
  have hnum : s.numPongs ≠ -1 := by
    rw [h.numPongs]
    omega
  unfold Ends
  rcases Sim.popNode h.sim h.ready hinv hlt with ⟨hempty, -⟩ | ⟨u, hne, hu, htop, hready, hsim⟩
  · -- The queue is empty. Behind the loop the buffer is emptied, with `v` set to `NULL`.
    rw [pingPong, if_neg (not_not.mpr hempty), if_pos hnum]
    refine (myLabel_outcome hapart hsmall hQ h.ready h.numPongs h.currDistance h.waiting h.sim hlt hinv
      h.next hnext).bind ?_ (run_pushed hrun)
    rintro _ ⟨s1, hs1, hnum1, hready1, hsim1⟩
    rw [← hpop] at hsim1
    rw [hs1]
    exact hidle s1 ⟨hready1, hnum1, hsim1⟩ n (by omega)
  · rw [pingPong_pop n hne htop]
    obtain ⟨_, _, heq⟩ := popNode_eq u s
    have hle := (List.getElem?_eq_some_iff.mp hu).1
    have hlabel := myLabel_outcome (s := popNode g u s) (v := some u) hapart hsmall hQ hready
      (by rw [heq]; exact h.numPongs) (by rw [heq]; exact h.currDistance) (by rw [heq]; exact h.waiting)
      hsim hle hinv h.next hnext
    refine hlabel.bind ?_ (run_pushed hrun)
    rintro _ ⟨s1, rfl, hnum1, hready1, hsim1⟩
    rw [← hpop] at hsim1
    have hu1 : t1.pushed[t1.popped]? = some u := by
      rw [hpop]
      exact hgrows.getElem? hu
    exact hswap s1 u ⟨hready1, hu1, hsim1⟩ hnum1 n (by omega)

lemma ends_of_run (hapart : Apart place Q B) (hsmall : Small g B) (hQ : Q ≤ 2 ^ 32)
    (hinv : Search.Inv g.successors seen x t) (hrun : run g.successors f t = some t') :
    (∀ s, Idle place Q s t → ∀ n, 2 * f ≤ n → Ends place Q n s t') ∧ SwapEnds place Q f t t' := by
  induction f generalizing t with
  | zero => simp [run] at hrun
  | succ f ih =>
    have hswap : SwapEnds place Q (f + 1) t t' := by
      intro s v hpopped hnum n hn
      rcases hpopped.swap hnum hapart hsmall hQ hinv with ⟨hidle, hnext⟩ | hloaded
      · exact (ih (hinv.next hnext) (run_next hrun hnext)).1 _ hidle n (by omega)
      · obtain ⟨t1, hnext⟩ : ∃ t1, next g.successors t = some t1 :=
          ⟨_, next_eq_some.mpr ⟨v, hpopped.next, rfl⟩⟩
        have hrun' := run_next hrun hnext
        obtain ⟨hidle, hswap⟩ := ih (hinv.next hnext) hrun'
        exact hloaded.ends hapart hsmall hQ hinv hnext hrun' (by omega) hidle hswap
    exact ⟨fun s hidle n hn => hidle.ends hinv hrun hn (by omega) hswap, hswap⟩

lemma Idle.bestIteration (h : Idle place Q s t) (hapart : Apart place Q B) (hsmall : Small g B)
    (hpos : 0 < Q) (hQ : Q ≤ 2 ^ 32) (hs : searchFrom g x t = some t') :
    Outcome Q (bestIteration g place x s) (fun s' => Idle place Q s' t') t' := by
  have hinv : Search.Inv g.successors {v | t.dist v ≠ none} x (start x t) :=
    .start _ fun _ => Iff.rfl
  refine (ends_of_run hapart hsmall hQ hinv hs).1 _ ?_ _ (le_refl _)
  refine ⟨⟨h.ready.succPing, h.ready.succPong, h.ready.asserted, h.ready.fetched⟩, rfl, ?_⟩
  exact h.sim.begin hpos

omit [DecidableEq κ] in
lemma Idle.start (distance : Fin g.nodes → ℕ) (mem : κ → Option (Fin g.nodes)) :
    Idle place Q ⟨load distance mem, -1, 0, .first, .second, true, []⟩ (initial g distance) :=
  ⟨⟨Region.noConfusion, Region.noConfusion, fun _ => rfl, by simp⟩, rfl, .load distance mem⟩

/-! ## The three kernels -/

lemma Idle.iterations_separate {B : ℕ} {s : Best g.nodes (Region × ℕ)}
    (h : Idle Prod.mk g.nodes s t) (hsmall : Small g B) (hn : g.nodes ≤ 2 ^ 32)
    (hs : iterations (searchFrom g) k t = some t') :
    ∃ s', iterations (Bfs.bestIteration g Prod.mk) k s = some s' ∧ Idle Prod.mk g.nodes s' t' := by
  refine iterations_sim (Idle Prod.mk g.nodes) ?_ h hs
  intro x s t t' h hs
  rcases h.bestIteration (fun _ _ _ _ _ _ => Prod.mk.inj) hsmall (Fin.pos x) hn hs with hend | ⟨hlong, -⟩
  · exact hend
  · obtain ⟨t1, ht1, hinv, -⟩ := searchFrom_spec (t := t) (fun _ => Iff.rfl) x
    obtain rfl : t' = t1 := some.inj (hs.symm.trans ht1)
    exact absurd (nodup_length_le hinv.nodup) (by omega)

/-- The kernels visit the same nodes in the same order and leave the same distances and totals. -/
theorem kernels_agree (g : Graph a) (hn : g.nodes ≤ 2 ^ 32) (hdeg : ∀ v, g.outDegree v < 2 ^ 31)
    (maxIterations : BitVec 32) (hm : maxIterations.toNat ≤ g.nodes)
    (hint : maxIterations.toNat < 2 ^ 31) (distance : Fin g.nodes → ℕ)
    (spm : Region × ℕ → Option (Fin g.nodes)) (dram host : ℕ → Option (Fin g.nodes)) :
    ∃ best default golden,
      kernelBest g Prod.mk maxIterations distance spm = some best ∧
      kernelDefault g id maxIterations distance dram = some default ∧
      runGolden g id maxIterations distance host = some golden ∧
      (best.assigned = default.assigned ∧ best.distance = default.distance ∧
        best.totalDistance = default.totalDistance) ∧
      golden.assigned = default.assigned ∧ golden.distance = default.distance ∧
        golden.totalDistance = default.totalDistance := by
  have hsmall : Small g (2 ^ 31) := ⟨fun v => (hdeg v).le, hdeg⟩
  obtain ⟨t, ht, -⟩ := iterations_search (fun v => initial_dist distance) hm
  obtain ⟨best, hbest, hidle⟩ := (Idle.start distance spm).iterations_separate hsmall hn ht
  obtain ⟨s, hs, hsim⟩ := (Sim.load distance dram).iterations (distinct_id _) ht
  obtain ⟨r, hr, hsim'⟩ := (Sim.load distance host).iterations (distinct_id _) ht
  have hgolden : runGolden g id maxIterations distance host = some r := by
    unfold runGolden
    rw [if_pos hint]
    exact hr
  refine ⟨best, s, r, hbest, hs, hgolden, ⟨?_, ?_, ?_⟩, ?_, ?_, ?_⟩
  · rw [hidle.sim.assigned, hsim.assigned]
  · exact funext fun v => by rw [hidle.sim.distance v, hsim.distance v]
  · rw [hidle.sim.total, hsim.total]
  · rw [hsim'.assigned, hsim.assigned]
  · exact funext fun v => by rw [hsim'.distance v, hsim.distance v]
  · rw [hsim'.total, hsim.total]

theorem kernels_agree_twoNodes :
    twoNodes.nodes ≤ 2 ^ 32 ∧ ∃ best default golden,
      kernelBest twoNodes Prod.mk 2 (resetGraphStats twoNodes) (fun _ => none) = some best ∧
      kernelDefault twoNodes id 2 (resetGraphStats twoNodes) (fun _ => none) = some default ∧
      runGolden twoNodes id 2 (resetGraphStats twoNodes) (fun _ => none) = some golden ∧
      best.totalDistance = default.totalDistance := by
  obtain ⟨b, d, r, hb, hd, hr, h, -⟩ := kernels_agree twoNodes (by decide) (by decide) 2 (by decide)
    (by decide) (resetGraphStats twoNodes) (fun _ => none) (fun _ => none) (fun _ => none)
  exact ⟨by decide, b, d, r, hb, hd, hr, h.2.2⟩

lemma bestIteration_skips (place : Region → ℕ → κ) (s : Best g.nodes κ) (hdeg : g.outDegree x ≠ 0)
    (hint : toInt (g.outDegree x) = -1) :
    ∃ s', bestIteration g place x s = some s' ∧ s'.distance = update s.distance x 0 := by
  have hn : 0 < g.nodes := Fin.pos x
  unfold bestIteration
  rw [show 2 * (g.nodes + 1) = 2 * g.nodes + 1 + 1 by omega]
  generalize hs1 : ({ s with
    toState := begin g (place .queue) x s.toState
    currDistance := 0
    numPongs := -1 } : Best g.nodes κ) = s1
  have hnum : s1.numPongs = -1 := by rw [← hs1]
  have helements : s1.elements = 1 := by rw [← hs1]; rfl
  have htop : queueTop g (place .queue) s1.toState = some x := by
    rw [← hs1]
    exact update_self ..
  have hdistance : s1.distance = update s.distance x 0 := by rw [← hs1]; rfl
  obtain ⟨_, _, hpop⟩ := popNode_eq x s1
  rw [pingPong_pop _ (by omega) htop, hpop]
  unfold myLabel
  rw [if_neg (not_not.mpr hnum), bind_some]
  unfold swap
  dsimp only
  rw [if_pos hdeg, hint]
  refine ⟨_, pingPong_end _ ?_ rfl, hdistance⟩
  dsimp only [queuePop]
  omega

lemma two_lt_bits : 2 < 2 ^ Arch.bits .arm64 := by decide

lemma length_many_lt (v : Fin 2) :
    (replicate (if v.val = 0 then 2 ^ 32 - 1 else 0) (Fin.last 1)).length < 2 ^ Arch.bits .arm64 := by
  rw [length_replicate]
  split <;> decide

/-- The first node has so many successors that their number is -1 as an `int`. -/
def manySuccessors : Graph .arm64 where
  nodes := 2
  successors := fun v => List.replicate (if v.val = 0 then 2 ^ 32 - 1 else 0) (Fin.last 1)
  nodes_lt := two_lt_bits
  degree_lt := length_many_lt

lemma outDegree_manySuccessors :
    manySuccessors.outDegree (⟨0, by decide⟩ : Fin manySuccessors.nodes) = 2 ^ 32 - 1 := by
  unfold Graph.outDegree manySuccessors
  rw [length_replicate]
  exact if_pos rfl

lemma iterations_one {S : Type} (body : Fin n → S → Option S) (s : S) (hn : 0 < n) :
    iterations body 1 s = body ⟨0, hn⟩ s := by
  rw [iterations, iterations, bind_some, dif_pos hn]

lemma manySuccessors_best : ∃ best,
    kernelBest manySuccessors Prod.mk 1 (resetGraphStats manySuccessors) (fun _ => none) = some best ∧
      best.distance ⟨1, by decide⟩ = nc .arm64 := by
  unfold kernelBest
  rw [show (1 : BitVec 32).toNat = 1 from rfl, iterations_one _ _ (by decide)]
  obtain ⟨best, hbest, hdistance⟩ := bestIteration_skips Prod.mk
    ⟨load (resetGraphStats manySuccessors) fun _ => none, -1, 0, .first, .second, true, []⟩
    (by rw [outDegree_manySuccessors]; decide) (by rw [outDegree_manySuccessors]; decide)
  refine ⟨best, hbest, ?_⟩
  rw [hdistance]
  rfl

lemma manySuccessors_default : ∃ default,
    kernelDefault manySuccessors id 1 (resetGraphStats manySuccessors) (fun _ => none) = some default ∧
      default.distance ⟨1, by decide⟩ ≠ nc .arm64 := by
  obtain ⟨t, ht, hvisited⟩ := iterations_search (g := manySuccessors) (k := 1)
    (fun v => initial_dist (resetGraphStats manySuccessors)) (by decide)
  obtain ⟨s, hs, hsim⟩ := (Sim.load _ fun _ => none).iterations (distinct_id _) ht
  refine ⟨s, hs, ?_⟩
  rw [Ne, hsim.unvisited]
  refine (hvisited _).mpr ((mem_visitedAfter_succ (by decide)).mpr (.inr ?_))
  refine Relation.ReflTransGen.single ⟨?_, ?_⟩
  · exact mem_replicate.mpr ⟨by decide, rfl⟩
  · rw [visitedAfter, visitedBefore_reset (by decide)]
    decide

theorem many_successors_are_not_visited : ∃ best default,
    kernelBest manySuccessors Prod.mk 1 (resetGraphStats manySuccessors) (fun _ => none) = some best ∧
    kernelDefault manySuccessors id 1 (resetGraphStats manySuccessors) (fun _ => none) = some default ∧
    best.distance ≠ default.distance := by
  obtain ⟨best, hbest, hnc⟩ := manySuccessors_best
  obtain ⟨default, hdefault, hne⟩ := manySuccessors_default
  exact ⟨best, default, hbest, hdefault, fun heq => hne (heq ▸ hnc)⟩

end SmcPim.Bfs
