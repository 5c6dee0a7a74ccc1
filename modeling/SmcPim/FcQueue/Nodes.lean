import SmcPim.FcQueue.Invariant

/-! # The nodes of the queue -/

namespace SmcPim.FcQueue

open List Function Option

variable {τ α ρ : Type} {s s' : State τ α ρ} {nodes : List α} {log : Log ρ} {p p' : Pass τ α ρ}
  {n : Name τ}

namespace Log

lemma queued_nil (h : log.queued = []) : ¬ log.removed < log.appended.length := by
  unfold queued at h
  rw [drop_eq_nil_iff] at h
  omega

lemma removed_lt {r : ρ} {rs : List ρ} (h : log.queued = r :: rs) :
    log.removed < log.appended.length := by
  have hlen := congrArg List.length h
  simp only [queued, length_drop, length_cons] at hlen
  omega

lemma head_queued (log : Log ρ) : log.appended[log.removed]? = log.queued.head? :=
  head?_drop.symm

lemma queued_append (r : ρ) (h : log.removed ≤ log.appended.length) :
    (⟨log.appended ++ [r], log.removed⟩ : Log ρ).queued = log.queued ++ [r] :=
  drop_append_of_le_length h

lemma queued_tail (log : Log ρ) :
    (⟨log.appended, log.removed + 1⟩ : Log ρ).queued = log.queued.tail :=
  tail_drop.symm

end Log

namespace Queue

variable {pass : Option (Pass τ α ρ)}

section
variable (h : Queue s nodes log pass)
include h

lemma next_tail : s.next s.tail = nodes.head? := by
  have hpath := h.path
  rw [map_cons, Chain.cons_iff] at hpath
  cases nodes with
  | nil => exact Chain.nil_iff.mp hpath.2
  | cons y ys => exact (Chain.cons_iff.mp hpath.2).1

lemma nodup : (s.tail :: nodes).Nodup :=
  (h.path.nodup (by simp)).of_map _

lemma length_eq : nodes.length = log.queued.length := by
  simpa using congrArg List.length h.values

lemma head_mem : s.head ∈ s.tail :: nodes := by
  have hhead := h.head
  split at hhead
  · obtain ⟨xs, y, hxs⟩ := hhead
    simp [hxs]
  · obtain ⟨xs, hxs⟩ := hhead
    simp [hxs]

end

lemma count (h : Queue s nodes log (some p)) (d : ℤ)
    (hs : s'.tail = s.tail ∧ s'.head = s.head ∧ s'.next = s.next ∧ s'.rNode = s.rNode ∧ s'.used = s.used)
    (hlength : s'.length = s.length + BitVec.ofInt 32 d) (hlinking : p'.linking = p.linking)
    (hoffset : p'.offset = p.offset + d) : Queue s' nodes log (some p') := by
  obtain ⟨htail, hhead, hnext, hrNode, hused⟩ := hs
  constructor
  · rw [htail, hnext]
    exact h.path
  · rw [hrNode]
    exact h.values
  · rw [htail, hused]
    exact h.used
  · exact h.removed
  · rw [htail, hhead, elim_some, hlinking]
    exact h.head
  · rw [hlength, h.length, ← BitVec.ofInt_add, elim_some, elim_some, hoffset, add_assoc]

lemma keep (h : Queue s nodes log (some p))
    (hs : s'.tail = s.tail ∧ s'.head = s.head ∧ s'.next = s.next ∧ s'.rNode = s.rNode ∧ s'.used = s.used)
    (hlength : s'.length = s.length) (hlinking : p'.linking = p.linking) (hoffset : p'.offset = p.offset) :
    Queue s' nodes log (some p') :=
  h.count 0 hs (by rw [hlength]; exact (BitVec.add_zero _).symm) hlinking (by rw [hoffset, add_zero])

variable {x y : α} {ys : List α} {r : ρ}

lemma queued_cons (h : Queue s (y :: ys) log pass) : ∃ r rs, log.queued = r :: rs :=
  exists_cons_of_length_pos (by rw [← h.length_eq]; simp)

lemma first {rs : List ρ} (h : Queue s (y :: ys) log pass) (hrs : log.queued = r :: rs) :
    s.rNode y = some r := by
  have hvalues := h.values
  rw [hrs] at hvalues
  exact (cons.inj hvalues).1

lemma moveHead (h : Queue s nodes log (some (.enqHead n))) :
    ∃ y, s.next s.head = some y ∧ ∀ s' : State τ α ρ,
      s'.tail = s.tail ∧ s'.length = s.length ∧ s'.next = s.next ∧ s'.rNode = s.rNode ∧ s'.used = s.used →
      s'.head = y → Queue s' nodes log (some (.answer n)) := by
  obtain ⟨xs, y, hxs⟩ := h.head
  have hpath := h.path
  rw [hxs, map_append] at hpath
  refine ⟨y, hpath.next_eq, ?_⟩
  rintro s' ⟨htail, hlength, hnext, hrNode, hused⟩ hhead
  constructor
  · rw [htail, hnext]
    exact h.path
  · rw [hrNode]
    exact h.values
  · rw [htail, hused]
    exact h.used
  · exact h.removed
  · exact ⟨xs ++ [s.head], by rw [htail, hhead, hxs]; simp⟩
  · rw [hlength]
    exact h.length

lemma next (h : Queue s (y :: ys) log (some (.deqTail n)))
    (hs : s'.head = s.head ∧ s'.length = s.length ∧ s'.next = s.next ∧ s'.rNode = s.rNode ∧ s'.used = s.used)
    (htail : s'.tail = y) : Queue s' ys ⟨log.appended, log.removed + 1⟩ (some (.deqDelete n s.tail)) := by
  obtain ⟨hhead, hlength, hnext, hrNode, hused⟩ := hs
  have hqueued := h.values
  have hlength' := h.length
  obtain ⟨r, rs, hrs⟩ := h.queued_cons
  rw [hrs] at hqueued hlength'
  constructor
  · rw [htail, hnext]
    have hpath := (Chain.cons_iff.mp h.path).2
    rw [bind_some, h.next_tail] at hpath
    exact hpath
  · rw [Log.queued_tail, hrs, hrNode]
    exact (cons.inj hqueued).2
  · rw [htail, hused]
    exact fun z hz => h.used z (mem_cons_of_mem _ hz)
  · exact Log.removed_lt hrs
  · obtain ⟨xs, hxs⟩ := h.head
    cases xs with
    | nil => simp at hxs
    | cons x xs =>
      refine ⟨xs, ?_⟩
      rw [htail, hhead]
      exact (cons.inj hxs).2
  · rw [hlength, hlength', Log.queued_tail, hrs]
    simp [Pass.offset]

variable [DecidableEq α]

lemma append (h : Queue s nodes log (some (.enqLink n (some r)))) (hx : x ∉ s.used)
    (hs : s'.tail = s.tail ∧ s'.head = s.head ∧ s'.length = s.length) (hused : s'.used = x :: s.used)
    (hrNode : s'.rNode = update s.rNode x (some r))
    (hnext : s'.next = update (update s.next x none) s.head (some x)) :
    Queue s' (nodes ++ [x]) ⟨log.appended ++ [r], log.removed⟩ (some (.enqHead n)) := by
  obtain ⟨htail, hhead, hlength⟩ := hs
  obtain ⟨xs, hxs⟩ := h.head
  have hne : ∀ z ∈ s.tail :: nodes, z ≠ x := fun z hz hzx => hx (hzx ▸ h.used z hz)
  have hnodup := h.nodup
  have hpath := h.path
  rw [hxs] at hnodup hpath
  rw [map_append, map_singleton] at hpath
  constructor
  · rw [htail, hnext, ← cons_append, hxs, append_assoc, map_append]
    have hpaths := hnodup.map (some_injective _)
    rw [map_append, map_singleton] at hpaths
    refine hpath.insert hpaths (update_self ..) ?_ ?_
    · rw [hpath.next_eq]
      rw [bind_some, update_of_ne (hne _ h.head_mem).symm, update_self]
      rfl
    · intro o ho hne'
      rw [← map_singleton, ← map_append, ← hxs] at ho
      obtain ⟨z, hz, rfl⟩ := mem_map.mp ho
      have hzhead : z ≠ s.head := fun heq => hne' (congrArg some heq)
      have hzx : z ≠ x := hne z hz
      rw [bind_some, bind_some, update_of_ne hzhead, update_of_ne hzx]
  · rw [Log.queued_append r h.removed, map_append, map_append, hrNode, ← h.values]
    congr 1
    · refine map_congr_left fun z hz => ?_
      rw [update_of_ne (hne z (mem_cons_of_mem _ hz))]
    · simp
  · rw [htail, hused]
    intro z hz
    rw [← cons_append, mem_append, mem_singleton] at hz
    rcases hz with hz | rfl
    · exact mem_cons_of_mem _ (h.used z hz)
    · exact mem_cons_self
  · simpa using Nat.le_succ_of_le h.removed
  · refine ⟨xs, x, ?_⟩
    rw [htail, hhead, ← cons_append, hxs, append_assoc]
    rfl
  · rw [hlength, h.length, Log.queued_append r h.removed, length_append]
    simp [Pass.offset]

lemma delete (h : Queue s nodes log (some (.deqDelete n x))) (hx : x ∉ s.tail :: nodes)
    (hs : s'.tail = s.tail ∧ s'.head = s.head ∧ s'.length = s.length ∧ s'.next = s.next ∧ s'.rNode = s.rNode)
    (hused : s'.used = s.used.erase x) : Queue s' nodes log (some (.answer n)) := by
  obtain ⟨htail, hhead, hlength, hnext, hrNode⟩ := hs
  constructor
  · rw [htail, hnext]
    exact h.path
  · rw [hrNode]
    exact h.values
  · rw [htail, hused]
    intro z hz
    have hne : z ≠ x := by
      rintro rfl
      exact hx hz
    exact (mem_erase_of_ne hne).mpr (h.used z hz)
  · exact h.removed
  · rw [htail, hhead]
    exact h.head
  · rw [hlength]
    exact h.length

end Queue

end SmcPim.FcQueue
