import SmcPim.SkipList.Requests
import SmcPim.FlatCombining.Passes

/-! # Combining passes on the skip list -/

namespace SmcPim.SkipList

open List Function Nodes

open FlatCombining (Malloc Slot Op intMin intMax)
open FlatCombining.MyFCLinkedList (mallocAbove)

variable {α τ : Type} [DecidableEq α] [DecidableEq τ] {M : Malloc α} {R rand : Random} {s s' : State α τ}
  {l : List α}

/-! ## Steps -/

def served (M : Malloc α) (R : Random) (s : State α τ) : Step τ → Option (SetOp ℤ × ℤ)
  | .round => s.currSlot.bind fun c =>
    if (s.slot c).isRequestValid then
      (round M R s).map fun s' => ((s.slot c).op.toSetOp (s.slot c).reqAns, (s'.slot c).reqAns)
    else none
  | _ => none

def SetStep (S : Finset ℤ) (e : SetOp ℤ × ℤ) (T : Finset ℤ) : Prop :=
  e.2 = (if e.1.answer S then 1 else 0) ∧ T = e.1.after S

structure Good (s : State α τ) (l : List α) : Prop where
  sorted : s.nodes.Sorted l
  levels : 2 ≤ s.nodes.maxLevel
  range : ∀ c, (s.slot c).isRequestValid = true → intMin < (s.slot c).reqAns ∧ (s.slot c).reqAns < intMax

variable {c : τ} {S : Finset ℤ} {size : ℤ} {fuel : ℕ}

lemma Good.serve (h : Good s l) (hc : s.currSlot = some c)
    (hvalid : (s.slot c).isRequestValid = true) :
    ∃ s' l', round M R s = some s' ∧ Good s' l' ∧
      SetStep (s.nodes.keys l) ((s.slot c).op.toSetOp (s.slot c).reqAns, (s'.slot c).reqAns)
        (s'.nodes.keys l') := by
  obtain ⟨n', l', hreq, hsorted, hkeys, hlevels⟩ :=
    h.sorted.request M R (s.slot c).op h.levels (h.range c hvalid)
  unfold round
  rw [hc, Option.bind_some, if_pos hvalid, hreq, Option.map_some]
  refine ⟨_, l', rfl, ⟨hsorted, hlevels ▸ h.levels, fun d hd => ?_⟩, ?_, hkeys⟩
  · by_cases hdc : d = c
    · subst hdc
      simp at hd
    · simp only [update_of_ne hdc] at hd ⊢
      exact h.range d hd
  · simp

lemma Good.round (h : Good s l) (hc : s.currSlot = some c) :
    ∃ s' l', round M R s = some s' ∧ Good s' l' ∧
      Runs.Steps SetStep (s.nodes.keys l) (served M R s .round).toList (s'.nodes.keys l') := by
  by_cases hvalid : (s.slot c).isRequestValid = true
  · obtain ⟨s', l', hround, hgood, hset⟩ := h.serve hc hvalid
    refine ⟨s', l', hround, hgood, ?_⟩
    simp only [served, hc, Option.bind_some, if_pos hvalid, hround, Option.map_some, Option.toList_some]
    exact .single hset
  · have hround : SkipList.round M R s = some { s with currSlot := (s.slot c).next } := by
      unfold SkipList.round
      rw [hc, Option.bind_some, if_neg hvalid]
    refine ⟨_, l, hround, { h with }, ?_⟩
    simp only [served, hc, Option.bind_some, if_neg hvalid, Option.toList_none]
    exact .nil _

def Holds (s : State α τ) (S : Finset ℤ) : Prop := ∃ l, Good s l ∧ S = s.nodes.keys l

lemma Holds.step {e : Step τ} (h : Holds s S) (hs : step M R s e = some s') :
    ∃ T, Runs.Steps SetStep S (served M R s e).toList T ∧ Holds s' T := by
  obtain ⟨l, hgood, rfl⟩ := h
  cases e with
  | post p =>
    obtain rfl := Option.some.inj hs
    exact ⟨_, .nil _, l, ⟨hgood.sorted, hgood.levels, p.range⟩, rfl⟩
  | start =>
    obtain rfl := Option.some.inj hs
    exact ⟨_, .nil _, l, { hgood with }, rfl⟩
  | round =>
    obtain ⟨c, hc, -⟩ := Option.bind_eq_some_iff.mp hs
    obtain ⟨s1, l', hround, hgood', hset⟩ := hgood.round hc
    obtain rfl : s1 = s' := Option.some.inj (hround.symm.trans hs)
    exact ⟨_, hset, l', hgood', rfl⟩

lemma Holds.run {ls : List (Step τ)} (h : Holds s S)
    (hrun : Runs.Steps (Runs.Next (SkipList.step M R)) s ls s') :
    ∃ T, Runs.Steps SetStep S (Runs.trace (SkipList.step M R) (served M R) s ls) T ∧ Holds s' T :=
  hrun.simulate (served M R) Holds (fun _ _ _ _ h hs => h.step hs) h

/-! ## The constructor -/

lemma two_le_maxLevelFor (h : 2 ≤ size) : 2 ≤ maxLevelFor size := by
  unfold maxLevelFor
  rcases hfind : (range' 1 (maxLevels - 1)).find? fun i => size < 2 ^ i with _ | i
  · decide
  · have hmem := mem_of_find?_eq_some hfind
    have hlt := find?_some hfind
    rw [mem_range'_1] at hmem
    rw [decide_eq_true_eq] at hlt
    by_contra hi
    obtain rfl : i = 1 := by simp at hi; omega
    omega

omit [DecidableEq τ] in
lemma holds_initial (hsize : 2 ≤ size) (m : Nodes α) (slot : τ → Slot τ Op ℤ) :
    Holds (initial M size m slot) ∅ := by
  have hne : M.new [] ≠ M.new [M.new []] := fun heq =>
    M.fresh [M.new []] (heq ▸ mem_singleton_self _)
  refine ⟨[], ⟨⟨?_, ?_, ?_, ?_, ?_, ?_, ?_, ?_⟩, two_le_maxLevelFor hsize, ?_⟩, rfl⟩
  · intro level hlevel
    have hlt : level < maxLevelFor size := hlevel
    simp [initial, sentinels, newNode, atLevel, hlt]
  · simp [initial, sentinels, newNode, Ascending, hne, intMin, intMax]
  · simp [initial, sentinels, newNode, hne]
  · simp [initial, sentinels, newNode]
  · simp [initial, sentinels, newNode, hne]
  · simp [initial, sentinels, newNode]
  · simp
  · simp [initial, sentinels, newNode]
  · simp [initial]

lemma rounds_steps (h : rounds M R fuel s = some s') :
    ∃ ls, Runs.Steps (Runs.Next (step M R)) s ls s' := by
  induction fuel generalizing s with
  | zero => simp [rounds] at h
  | succ fuel ih =>
    unfold rounds at h
    split at h
    · obtain rfl := Option.some.inj h
      exact ⟨[], .nil _⟩
    · obtain ⟨s1, hs1, h⟩ := Option.bind_eq_some_iff.mp h
      obtain ⟨ls, hls⟩ := ih h
      exact ⟨.round :: ls, .cons hs1 hls⟩

lemma fcAdd_steps {v : ℤ} (hgood : Good s l) (hv : intMin < v ∧ v < intMax)
    (h : fcAdd M R fuel c v s = some s') : ∃ ls, Runs.Steps (Runs.Next (step M R)) s ls s' := by
  -- Whatever else is written to the slot, it has the key `v`.
  have hpost : ∀ (slot : Slot τ Op ℤ) (tailSlot : Option τ), slot.reqAns = v →
      flatCombining M R fuel { s with slot := update s.slot c slot, tailSlot := tailSlot } =
        some s' → ∃ ls, Runs.Steps (Runs.Next (step M R)) s ls s' := by
    intro slot tailSlot hslot hrounds
    have hrange : ∀ d, (update s.slot c slot d).isRequestValid = true →
        intMin < (update s.slot c slot d).reqAns ∧
          (update s.slot c slot d).reqAns < intMax := by
      intro d hd
      by_cases hdc : d = c
      · subst hdc
        rw [update_self, hslot]
        exact hv
      · rw [update_of_ne hdc] at hd ⊢
        exact hgood.range d hd
    obtain ⟨ls, hls⟩ := rounds_steps hrounds
    exact ⟨.post ⟨_, tailSlot, hrange⟩ :: .start :: ls, .cons rfl (.cons rfl hls)⟩
  unfold fcAdd at h
  dsimp only at h
  split at h
  · exact hpost _ s.tailSlot rfl h
  · exact hpost _ (some c) rfl h

lemma prefill_steps {size : ℕ} {minVal : ℤ} {i nodeCount : ℕ}
    (hsize : 0 < size) (hmin : intMin < minVal) (hmax : minVal + size ≤ intMax) (h : Holds s S)
    (hs : prefill M R rand c size minVal fuel i nodeCount s = some s') :
    ∃ ls, Runs.Steps (Runs.Next (step M R)) s ls s' := by
  induction fuel generalizing i nodeCount s S with
  | zero => simp [prefill] at hs
  | succ fuel ih =>
    unfold prefill at hs
    split at hs
    · obtain ⟨s1, hs1, hs⟩ := Option.bind_eq_some_iff.mp hs
      have hlt := rand.lt i size hsize
      obtain ⟨l, hgood, -⟩ := h
      obtain ⟨ls, hls⟩ := fcAdd_steps hgood (by omega) hs1
      obtain ⟨T, -, hT⟩ := Holds.run ⟨l, hgood, rfl⟩ hls
      obtain ⟨ms, hms⟩ := ih hT hs
      exact ⟨ls ++ ms, hls.append hms⟩
    · obtain rfl := Option.some.inj hs
      exact ⟨[], .nil _⟩

/-! ## Whole runs -/

/-- The lists of nodes from head to tail. -/
structure IsSkipList (n : Nodes α) (level : ℕ → List α) : Prop where
  linked : ∀ i < n.maxLevel, ∃ mid, level i = n.head :: mid ++ [n.tail] ∧
    Chain (fun x => n.next x i) n.head (n.head :: mid) n.tail
  increasing : ∀ i < n.maxLevel, Ascending n.key (level i)
  above : ∀ i, i + 1 < n.maxLevel → ∀ x, x ∈ level (i + 1) ↔ x ∈ level i ∧ i + 1 < n.topLevel x

/-- `find` returns a node exactly if the key is at level 0, and then the node with the key. -/
def FindsAll (n : Nodes α) (level : ℕ → List α) : Prop :=
  ∀ k, intMin < k → k < intMax → ∃ n' found, Nodes.find k n = some (n', found) ∧
    (found.isSome ↔ k ∈ (level 0).map n.key) ∧ ∀ x, found = some x → x ∈ level 0 ∧ n.key x = k

section
variable {n : Nodes α}

omit [DecidableEq α]

lemma Nodes.Sorted.isSkipList (h : n.Sorted l) :
    IsSkipList n fun i => n.head :: n.atLevel i l ++ [n.tail] where
  linked := fun i hi => ⟨_, rfl, h.linked i hi⟩
  increasing := fun i _ =>
    h.ascending.sublist ((filter_sublist.cons_cons n.head).append_right _)
  above := by
    intro i hi x
    simp only [mem_append, mem_cons, mem_atLevel, not_mem_nil, or_false]
    constructor
    · rintro ((rfl | ⟨hx, htop⟩) | rfl)
      · exact ⟨.inl (.inl rfl), by rw [h.headTop]; exact hi⟩
      · exact ⟨.inl (.inr ⟨hx, by omega⟩), htop⟩
      · exact ⟨.inr rfl, by rw [h.tailTop]; exact hi⟩
    · rintro ⟨(rfl | ⟨hx, -⟩) | rfl, htop⟩
      · exact .inl (.inl rfl)
      · exact .inl (.inr ⟨hx, htop⟩)
      · exact .inr rfl

lemma Nodes.Sorted.level_zero (h : n.Sorted l) : n.atLevel 0 l = l :=
  atLevel_zero fun x hx => (h.heights x hx).1

lemma Nodes.Sorted.mem_keys_iff (h : n.Sorted l) (k : ℤ) :
    k ∈ n.keys l ↔ k ∈ (n.head :: n.atLevel 0 l ++ [n.tail]).map n.key ∧ intMin < k ∧ k < intMax := by
  rw [h.level_zero, mem_keys]
  simp only [cons_append, map_cons, map_append, map_nil, mem_cons, mem_append,
    mem_map, h.headKey, h.tailKey, not_mem_nil, or_false]
  constructor
  · rintro ⟨x, hx, rfl⟩
    exact ⟨.inr (.inl ⟨x, hx, rfl⟩), h.between hx⟩
  · rintro ⟨rfl | hx | rfl, hlt, hgt⟩
    · exact absurd hlt (lt_irrefl _)
    · exact hx
    · exact absurd hgt (lt_irrefl _)

end

lemma Nodes.Sorted.findsAll {n : Nodes α} (h : n.Sorted l) (hmax : 0 < n.maxLevel) :
    FindsAll n fun i => n.head :: n.atLevel i l ++ [n.tail] := by
  intro k hlt hgt
  have hkeys := h.mem_keys_iff k
  have hlevel := h.level_zero
  obtain ⟨xs, ys, rfl, hdiv⟩ := h.divided ⟨hlt, hgt⟩
  obtain ⟨P, S, hfind, -⟩ := hdiv.find_eq hmax
  refine ⟨_, _, hfind, ?_, fun x hx => ?_⟩
  · rw [hdiv.hit_isSome, hkeys]
    exact and_iff_left ⟨hlt, hgt⟩
  · obtain ⟨zs, rfl, hk⟩ := hit_eq_some.mp hx
    dsimp only
    rw [hlevel]
    exact ⟨by simp, hk⟩

/-- The levels are sorted, `find` is exact, and the answers were those of a set. -/
theorem skip_list_is_sorted_set (M : Malloc α) (R rand : Random) (m : Nodes α) (slot : τ → Slot τ Op ℤ)
    (minVal maxVal : ℤ) (hsize : 2 ≤ maxVal - minVal) (hmin : intMin < minVal) (hmax : maxVal ≤ intMax) :
    (∀ c fuel s, build M R rand m slot c fuel minVal maxVal = some s →
      ∃ ls, Runs.Steps (Runs.Next (step M R)) (initial M (maxVal - minVal) m slot) ls s) ∧
    ∀ ls s, Runs.Steps (Runs.Next (step M R)) (initial M (maxVal - minVal) m slot) ls s →
      ∃ level T, IsSkipList s.nodes level ∧ FindsAll s.nodes level ∧
        Runs.Steps SetStep ∅
          (Runs.trace (step M R) (served M R) (initial M (maxVal - minVal) m slot) ls) T ∧
        (∀ v, v ∈ T ↔ v ∈ (level 0).map s.nodes.key ∧ intMin < v ∧ v < intMax) ∧
        (s.currSlot ≠ none → ∃ s', round M R s = some s') := by
  have hinit : Holds (initial M (maxVal - minVal) m slot) ∅ := holds_initial hsize m slot
  constructor
  · intro c fuel s hs
    unfold build at hs
    split at hs
    · exact prefill_steps (by omega) hmin (by omega) hinit hs
    · simp at hs
  · intro ls s hrun
    obtain ⟨T, hlog, l, hgood, rfl⟩ := hinit.run hrun
    have hlevels := hgood.levels
    refine ⟨_, _, hgood.sorted.isSkipList, hgood.sorted.findsAll (by omega), hlog,
      hgood.sorted.mem_keys_iff, fun hne => ?_⟩
    obtain ⟨c, hc⟩ := Option.ne_none_iff_exists'.mp hne
    obtain ⟨s', -, hround, -⟩ := hgood.round hc
    exact ⟨s', hround⟩

def ascendingRandom : Random := ⟨fun i n => i % n, fun i _ => Nat.mod_lt i⟩

def emptyMemory : Nodes ℕ := ⟨0, 0, 0, 0, fun _ => 0, fun _ => 0, fun _ _ => 0, fun _ => 0, fun _ => 0, [], 0⟩

def emptySlot : Unit → Slot Unit Op ℤ := fun _ => ⟨0, 0, none, false, false, false, .contain⟩

theorem skip_list_is_sorted_set_eight :
    ∃ s level, build mallocAbove ascendingRandom ascendingRandom emptyMemory emptySlot () 9 1 9 =
        some s ∧ IsSkipList s.nodes level ∧ FindsAll s.nodes level := by
  obtain ⟨s, hs⟩ := Option.isSome_iff_exists.mp
    (show (build mallocAbove ascendingRandom ascendingRandom emptyMemory emptySlot () 9 1
      9).isSome = true by decide +kernel)
  have h := skip_list_is_sorted_set mallocAbove ascendingRandom ascendingRandom emptyMemory
    emptySlot 1 9 (by decide) (by decide) (by decide)
  obtain ⟨ls, hls⟩ := h.1 () 9 s hs
  obtain ⟨level, T, hlevel, hfind, -⟩ := h.2 ls s hls
  exact ⟨s, level, hs, hlevel, hfind⟩

end SmcPim.SkipList
