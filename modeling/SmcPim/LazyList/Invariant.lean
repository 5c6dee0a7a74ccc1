import SmcPim.LazyList.Model

/-! # What each thread may rely on -/

namespace SmcPim.LazyList

open FlatCombining List

variable {α τ : Type} {s s' : State α τ} {l l' : List α} {t u : τ} {op : SetOp ℤ} {loc : Loc α}
  {p q prev curr : α}

/-! ## The nodes of a thread -/

def held : Loc α → List α
  | .find _ | .start | .walk _ _ | .lockPrev _ _ | .ret _ => []
  | .lockCurr prev _ | .unlockPrev prev _ => [prev]
  | .testPrev prev curr | .testCurr prev curr | .testNext prev curr | .getNewNode prev curr
  | .setNext prev curr _ | .link prev curr _ | .mark prev curr | .readNext prev curr
  | .unlink prev curr _ | .unlockCurr prev curr _ => [prev, curr]

def owned : Loc α → Option α
  | .setNext _ _ newNode | .link _ _ newNode => some newNode
  | _ => none

def Thread.held : Thread α → List α
  | .idle => []
  | .busy _ loc => LazyList.held loc

def Thread.owned : Thread α → Option α
  | .idle => none
  | .busy _ loc => LazyList.owned loc

def Inserted (s : State α τ) (p : α) : Prop :=
  p ∈ s.nodes.used ∧ ∀ t, (s.thread t).owned ≠ some p

def content (s : State α τ) (l : List α) : Finset ℤ := s.nodes.keys (l.filter fun p => !s.marked p)

/-! ## What a thread knows -/

structure Place (s : State α τ) (v : ℤ) (p c : α) : Prop where
  prev : Inserted s p
  curr : Inserted s c
  below : s.nodes.key p < v
  above : v ≤ s.nodes.key c

structure Neighbours (s : State α τ) (v : ℤ) (p c : α) : Prop extends Place s v p c where
  prevLive : s.marked p = false
  next : s.nodes.next p = c

def At (s : State α τ) (op : SetOp ℤ) : Loc α → Prop
  | .find curr => Inserted s curr ∧ op = .contains op.key
  | .start => True
  | .walk prev curr => Inserted s prev ∧ Inserted s curr ∧ s.nodes.key prev < op.key
  | .lockPrev prev curr | .lockCurr prev curr | .testPrev prev curr => Place s op.key prev curr
  | .testCurr prev curr => Place s op.key prev curr ∧ s.marked prev = false
  | .testNext prev curr =>
    Place s op.key prev curr ∧ s.marked prev = false ∧ s.marked curr = false
  | .getNewNode prev curr =>
    Neighbours s op.key prev curr ∧ op.key < s.nodes.key curr ∧ op = .add op.key
  | .setNext prev curr newNode =>
    Neighbours s op.key prev curr ∧ op.key < s.nodes.key curr ∧ op = .add op.key ∧
      newNode ∈ s.nodes.used ∧ s.nodes.key newNode = op.key ∧ s.marked newNode = false
  | .link prev curr newNode =>
    Neighbours s op.key prev curr ∧ op.key < s.nodes.key curr ∧ op = .add op.key ∧
      newNode ∈ s.nodes.used ∧ s.nodes.key newNode = op.key ∧ s.marked newNode = false ∧
      s.nodes.next newNode = curr
  | .mark prev curr =>
    Neighbours s op.key prev curr ∧ s.nodes.key curr = op.key ∧ op = .remove op.key ∧
      s.marked curr = false
  | .readNext prev curr =>
    Neighbours s op.key prev curr ∧ s.nodes.key curr = op.key ∧ op = .remove op.key ∧
      s.marked curr = true
  | .unlink prev curr next =>
    Neighbours s op.key prev curr ∧ s.nodes.key curr = op.key ∧ op = .remove op.key ∧
      s.marked curr = true ∧ s.nodes.next curr = next
  | .unlockCurr prev curr _ => Inserted s prev ∧ Inserted s curr ∧ prev ≠ curr
  | .unlockPrev prev _ => Inserted s prev
  | .ret _ => True

structure Inv (s : State α τ) (l : List α) : Prop where
  sorted : s.nodes.Sorted l
  inserted : ∀ p ∈ l, Inserted s p
  live : ∀ p, Inserted s p → s.marked p = false → p ∈ l
  next : ∀ p, Inserted s p → s.nodes.key p < intMax → Inserted s (s.nodes.next p)
  locks : ∀ t p, s.lock p = some t ↔ p ∈ (s.thread t).held
  range : ∀ t op loc, s.thread t = .busy op loc → intMin < op.key ∧ op.key < intMax
  knows : ∀ t op loc, s.thread t = .busy op loc → At s op loc
  apart : ∀ t u p, t ≠ u → (s.thread t).owned = some p → (s.thread u).owned ≠ some p

/-! ## Steps of other threads -/

structure Frame (s s' : State α τ) (loc : Loc α) : Prop where
  inserted : ∀ p, Inserted s p → Inserted s' p
  key : ∀ p ∈ s.nodes.used, s'.nodes.key p = s.nodes.key p
  used : ∀ p ∈ s.nodes.used, p ∈ s'.nodes.used
  own : ∀ p, p ∈ held loc ∨ owned loc = some p →
    s'.nodes.next p = s.nodes.next p ∧ s'.marked p = s.marked p

namespace Frame

variable {v : ℤ}

lemma place (hf : Frame s s' loc) (h : Place s v prev curr) : Place s' v prev curr where
  prev := hf.inserted prev h.prev
  curr := hf.inserted curr h.curr
  below := by
    rw [hf.key prev h.prev.1]
    exact h.below
  above := by
    rw [hf.key curr h.curr.1]
    exact h.above

lemma neighbours (hf : Frame s s' loc) (hprev : prev ∈ held loc) (h : Neighbours s v prev curr) :
    Neighbours s' v prev curr := by
  obtain ⟨hnext, hmark⟩ := hf.own prev (.inl hprev)
  exact ⟨hf.place h.toPlace, hmark.trans h.prevLive, hnext.trans h.next⟩

lemma at_ (hf : Frame s s' loc) (h : At s op loc) : At s' op loc := by
  cases loc with
  | find curr => exact ⟨hf.inserted curr h.1, h.2⟩
  | start => trivial
  | walk prev curr =>
    refine ⟨hf.inserted prev h.1, hf.inserted curr h.2.1, ?_⟩
    rw [hf.key prev h.1.1]
    exact h.2.2
  | lockPrev prev curr => exact hf.place h
  | lockCurr prev curr => exact hf.place h
  | testPrev prev curr => exact hf.place h
  | testCurr prev curr => exact ⟨hf.place h.1, (hf.own prev (by simp [held])).2.trans h.2⟩
  | testNext prev curr =>
    exact ⟨hf.place h.1, (hf.own prev (by simp [held])).2.trans h.2.1,
      (hf.own curr (by simp [held])).2.trans h.2.2⟩
  | getNewNode prev curr =>
    obtain ⟨hn, hlt, hop⟩ := h
    refine ⟨hf.neighbours (by simp [held]) hn, ?_, hop⟩
    rw [hf.key curr hn.curr.1]
    exact hlt
  | setNext prev curr newNode =>
    obtain ⟨hn, hlt, hop, hq, hkey, hmark⟩ := h
    have hown := hf.own newNode (.inr rfl)
    refine ⟨hf.neighbours (by simp [held]) hn, ?_, hop, hf.used _ hq, ?_, hown.2.trans hmark⟩
    · rw [hf.key curr hn.curr.1]
      exact hlt
    · rw [hf.key newNode hq]
      exact hkey
  | link prev curr newNode =>
    obtain ⟨hn, hlt, hop, hq, hkey, hmark, hnext⟩ := h
    have hown := hf.own newNode (.inr rfl)
    refine ⟨hf.neighbours (by simp [held]) hn, ?_, hop, hf.used _ hq, ?_, hown.2.trans hmark,
      hown.1.trans hnext⟩
    · rw [hf.key curr hn.curr.1]
      exact hlt
    · rw [hf.key newNode hq]
      exact hkey
  | mark prev curr =>
    obtain ⟨hn, hkey, hop, hmark⟩ := h
    refine ⟨hf.neighbours (by simp [held]) hn, ?_, hop, ?_⟩
    · rw [hf.key curr hn.curr.1]
      exact hkey
    · exact (hf.own curr (by simp [held])).2.trans hmark
  | readNext prev curr =>
    obtain ⟨hn, hkey, hop, hmark⟩ := h
    refine ⟨hf.neighbours (by simp [held]) hn, ?_, hop, ?_⟩
    · rw [hf.key curr hn.curr.1]
      exact hkey
    · exact (hf.own curr (by simp [held])).2.trans hmark
  | unlink prev curr next =>
    obtain ⟨hn, hkey, hop, hmark, hnext⟩ := h
    have hown := hf.own curr (by simp [held])
    refine ⟨hf.neighbours (by simp [held]) hn, ?_, hop, hown.2.trans hmark, hown.1.trans hnext⟩
    rw [hf.key curr hn.curr.1]
    exact hkey
  | unlockCurr prev curr r => exact ⟨hf.inserted prev h.1, hf.inserted curr h.2.1, h.2.2⟩
  | unlockPrev prev r => exact hf.inserted prev h
  | ret r => trivial

end Frame

lemma Place.ne {v : ℤ} (h : Place s v prev curr) : prev ≠ curr := by
  rintro rfl
  exact absurd (lt_of_lt_of_le h.below h.above) (lt_irrefl _)

lemma At.inserted_of_held (h : At s op loc) (hp : p ∈ held loc) : Inserted s p := by
  cases loc with
  | find curr => simp [held] at hp
  | start => simp [held] at hp
  | walk prev curr => simp [held] at hp
  | lockPrev prev curr => simp [held] at hp
  | ret r => simp [held] at hp
  | lockCurr prev curr => exact mem_singleton.mp hp ▸ h.prev
  | unlockPrev prev r => exact mem_singleton.mp hp ▸ h
  | unlockCurr prev curr r =>
    rcases mem_pair.mp hp with rfl | rfl
    · exact h.1
    · exact h.2.1
  | testPrev prev curr =>
    rcases mem_pair.mp hp with rfl | rfl
    · exact h.prev
    · exact h.curr
  | _ =>
    rcases mem_pair.mp hp with rfl | rfl
    · exact h.1.prev
    · exact h.1.curr

/-! ## Neighbours in the list -/

namespace Inv

variable {v : ℤ}

lemma head_mem (hinv : Inv s l) : s.nodes.head ∈ l := mem_of_mem_head? hinv.sorted.head_eq

lemma next_split (hinv : Inv s l) (hp : p ∈ l) (hmax : s.nodes.key p < intMax) :
    ∃ zs ws, l = zs ++ p :: s.nodes.next p :: ws :=
  hinv.sorted.next_split hp hmax

lemma split (hinv : Inv s l) (h : Neighbours s v prev curr) (hv : v < intMax) :
    ∃ zs ws, l = zs ++ prev :: curr :: ws := by
  have hsplit := hinv.next_split (hinv.live prev h.prev h.prevLive) (lt_trans h.below hv)
  rwa [h.next] at hsplit

end Inv

lemma mem_content {k : ℤ} : k ∈ content s l ↔
    (∃ p ∈ l, s.marked p = false ∧ s.nodes.key p = k) ∧ intMin < k ∧ k < intMax := by
  unfold content
  rw [Nodes.mem_keys, mem_map]
  simp only [mem_filter, Bool.not_eq_eq_eq_not, Bool.not_true, and_assoc]

lemma gap_notMem {k : ℤ} {zs ws : List α} (h : s.nodes.Sorted (zs ++ p :: q :: ws))
    (hp : s.nodes.key p < k) (hq : k < s.nodes.key q) : k ∉ content s (zs ++ p :: q :: ws) := by
  rw [mem_content]
  rintro ⟨⟨x, hx, -, rfl⟩, -⟩
  have hs := h.ascending
  unfold Ascending at hs
  rw [pairwise_append, pairwise_cons, pairwise_cons] at hs
  obtain ⟨-, ⟨-, hqw, -⟩, hall⟩ := hs
  simp only [mem_append, mem_cons] at hx
  rcases hx with hx | rfl | rfl | hx
  · exact absurd (hall x hx p mem_cons_self) (by omega)
  · omega
  · omega
  · exact absurd (hqw x hx) (by omega)

lemma marked_notMem (h : s.nodes.Sorted l) (hp : p ∈ l) (hmark : s.marked p = true) :
    s.nodes.key p ∉ content s l := by
  rw [mem_content]
  rintro ⟨⟨x, hx, hlive, hkey⟩, -⟩
  obtain rfl := inj_on_of_nodup_map h.ascending.nodup_keys hx hp hkey
  rw [hmark] at hlive
  cases hlive

end SmcPim.LazyList
