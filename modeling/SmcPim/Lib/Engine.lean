import Mathlib

/-!
# A processor with a DMA engine

Transfers end in any order and with any delay, those of one resource one after the other.
-/

namespace SmcPim

open List

/-! ## Counted loops -/

def loop {S : Type*} (body : ℕ → S → S) : ℕ → S → S
  | 0, s => s
  | n + 1, s => body n (loop body n s)

variable {S : Type*} {body : ℕ → S → S}

@[simp] lemma loop_zero (body : ℕ → S → S) (s : S) : loop body 0 s = s := rfl

lemma loop_succ (body : ℕ → S → S) (n : ℕ) (s : S) :
    loop body (n + 1) s = body n (loop body n s) := rfl

lemma loop_inv {n : ℕ} {s : S} (I : ℕ → S → Prop) (h0 : I 0 s)
    (hbody : ∀ k s, k < n → I k s → I (k + 1) (body k s)) : I n (loop body n s) := by
  induction n with
  | zero => exact h0
  | succ n ih =>
    rw [loop_succ]
    exact hbody n _ n.lt_succ_self (ih fun k s hk => hbody k s (hk.trans n.lt_succ_self))

lemma loop_keeps {T : Type*} (f : S → T) (hbody : ∀ k s, f (body k s) = f s) (n : ℕ)
    (s : S) : f (loop body n s) = f s :=
  loop_inv (fun _ t => f t = f s) rfl fun k t _ ht => (hbody k t).trans ht

/-! ## The engine -/

inductive Mishap
  /-- A request on a resource with an outstanding transfer. -/
  | busy
  | overlap
  | hazard
  deriving DecidableEq

structure Machine (σ ρ δ : Type*) where
  world : σ
  pending : List (ρ × δ)
  clock : ℕ
  mishaps : List Mishap

structure Engine (σ δ : Type*) where
  /-- What a transfer does when it ends. -/
  effect : δ → σ → σ
  meets : δ → δ → Bool
  /-- The transfers that end before a step of the processor, by their places. -/
  ends : ℕ → List ℕ

namespace Engine

variable {σ ρ δ : Type*} {m : Machine σ ρ δ} {r : ρ} {d : δ} {x : ρ × δ} {l : List (ρ × δ)}

def note (p : Bool) (x : Mishap) (m : Machine σ ρ δ) : Machine σ ρ δ :=
  if p then { m with mishaps := m.mishaps ++ [x] } else m

section
variable [DecidableEq ρ] (E : Engine σ δ)

/-- The transfer at a place ends, if no older one is outstanding on its resource. -/
def finish (m : Machine σ ρ δ) (i : ℕ) : Machine σ ρ δ :=
  match m.pending.drop i with
  | [] => m
  | x :: rest =>
    if x.1 ∈ (m.pending.take i).map Prod.fst then m
    else { m with world := E.effect x.2 m.world, pending := m.pending.take i ++ rest }

def tick (m : Machine σ ρ δ) : Machine σ ρ δ :=
  { (E.ends m.clock).foldl E.finish m with clock := m.clock + 1 }

def request (r : ρ) (d : δ) (m : Machine σ ρ δ) : Machine σ ρ δ :=
  let m := E.tick m
  let m := note (m.pending.any fun x => E.meets d x.2) .overlap (note (decide (r ∈ m.pending.map Prod.fst)) .busy m)
  { m with pending := m.pending ++ [(r, d)] }

/-- What is left on the resources `rs` ends, the oldest first. -/
def drain (rs : List ρ) : σ → List (ρ × δ) → σ × List (ρ × δ)
  | w, [] => (w, [])
  | w, x :: l =>
    if x.1 ∈ rs then drain rs (E.effect x.2 w) l
    else ((drain rs w l).1, x :: (drain rs w l).2)

def wait (rs : List ρ) (m : Machine σ ρ δ) : Machine σ ρ δ :=
  let m := E.tick m
  { m with world := (E.drain rs m.world m.pending).1, pending := (E.drain rs m.world m.pending).2 }

def act (uses : δ → Bool) (f : σ → σ) (m : Machine σ ρ δ) : Machine σ ρ δ :=
  let m := note ((E.tick m).pending.any fun x => uses x.2) .hazard (E.tick m)
  { m with world := f m.world }

end

/-! ## What happens to what -/

lemma note_world (p : Bool) (x : Mishap) : (note p x m).world = m.world := by
  unfold note
  split <;> rfl

lemma note_pending (p : Bool) (x : Mishap) : (note p x m).pending = m.pending := by
  unfold note
  split <;> rfl

section
variable [DecidableEq ρ] {E : Engine σ δ}

lemma finish_cases (m : Machine σ ρ δ) (i : ℕ) :
    E.finish m i = m ∨ ∃ l x l', m.pending = l ++ x :: l' ∧ x.1 ∉ l.map Prod.fst ∧
      E.finish m i = { m with world := E.effect x.2 m.world, pending := l ++ l' } := by
  unfold finish
  split
  · exact .inl rfl
  · rename_i x rest hdrop
    split
    · exact .inl rfl
    · rename_i hx
      refine .inr ⟨m.pending.take i, x, rest, ?_, hx, rfl⟩
      rw [← hdrop, take_append_drop]

lemma tick_inv (P : σ → List (ρ × δ) → Prop)
    (hP : ∀ w l x l', x.1 ∉ l.map Prod.fst → P w (l ++ x :: l') → P (E.effect x.2 w) (l ++ l'))
    (h : P m.world m.pending) :
    P (E.tick m).world (E.tick m).pending ∧ (E.tick m).mishaps = m.mishaps := by
  unfold tick
  dsimp only
  induction E.ends m.clock generalizing m with
  | nil => exact ⟨h, rfl⟩
  | cons i is ih =>
    rw [foldl_cons]
    rcases finish_cases (E := E) m i with hi | ⟨l, x, l', hl, hx, hi⟩
    · rw [hi]
      exact ih h
    · rw [hl] at h
      obtain ⟨hworld, hmishaps⟩ := ih (m := E.finish m i) (by rw [hi]; exact hP _ _ _ _ hx h)
      exact ⟨hworld, hmishaps.trans (by rw [hi])⟩

lemma tick_mishaps (m : Machine σ ρ δ) : (E.tick m).mishaps = m.mishaps :=
  (tick_inv (fun _ _ => True) (fun _ _ _ _ _ _ => trivial) trivial).2

lemma drain_inv (rs : List ρ) (l' : List (ρ × δ)) (P : σ → List (ρ × δ) → Prop)
    (hP : ∀ w l x l', x.1 ∉ l.map Prod.fst → P w (l ++ x :: l') → P (E.effect x.2 w) (l ++ l'))
    {w : σ} (hl' : ∀ x ∈ l', x.1 ∉ rs) (h : P w (l' ++ l)) :
    P (E.drain rs w l).1 (l' ++ (E.drain rs w l).2) := by
  induction l generalizing w l' with
  | nil => exact h
  | cons x l ih =>
    unfold drain
    split
    · rename_i hx
      refine ih l' hl' (hP _ _ _ _ (fun hmem => ?_) h)
      obtain ⟨y, hy, hyx⟩ := mem_map.mp hmem
      exact hl' y hy (hyx ▸ hx)
    · rename_i hx
      have hmem : ∀ y ∈ l' ++ [x], y.1 ∉ rs := by
        intro y hy
        rcases mem_append.mp hy with hy | hy
        · exact hl' y hy
        · rw [mem_singleton.mp hy]
          exact hx
      have h' := ih (l' ++ [x]) hmem (by simpa using h)
      simpa using h'

lemma drain_pending (rs : List ρ) (w : σ) (l : List (ρ × δ)) :
    (E.drain rs w l).2 = l.filter fun x => x.1 ∉ rs := by
  induction l generalizing w with
  | nil => rfl
  | cons x l ih =>
    unfold drain
    split
    · rename_i hx
      rw [ih, filter_cons_of_neg (by simpa using hx)]
    · rename_i hx
      rw [filter_cons_of_pos (by simpa using hx), ih]

lemma wait_inv (rs : List ρ) (P : σ → List (ρ × δ) → Prop)
    (hP : ∀ w l x l', x.1 ∉ l.map Prod.fst → P w (l ++ x :: l') → P (E.effect x.2 w) (l ++ l'))
    (h : P m.world m.pending) : P (E.wait rs m).world (E.wait rs m).pending := by
  have htick := (tick_inv (E := E) P hP h).1
  exact drain_inv rs [] P hP (by simp) htick

lemma wait_pending {rs : List ρ} (hx : x ∈ (E.wait rs m).pending) : x.1 ∉ rs := by
  unfold wait at hx
  dsimp only at hx
  rw [drain_pending, mem_filter, decide_eq_true_iff] at hx
  exact hx.2

lemma wait_mishaps (rs : List ρ) (m : Machine σ ρ δ) :
    (E.wait rs m).mishaps = m.mishaps := tick_mishaps m

lemma request_world (m : Machine σ ρ δ) : (E.request r d m).world = (E.tick m).world := by
  unfold request
  simp only [note_world]

lemma request_pending (m : Machine σ ρ δ) :
    (E.request r d m).pending = (E.tick m).pending ++ [(r, d)] := by
  unfold request
  simp only [note_pending]

lemma request_mishaps (hr : r ∉ (E.tick m).pending.map Prod.fst)
    (hd : ∀ x ∈ (E.tick m).pending, E.meets d x.2 = false) : (E.request r d m).mishaps = m.mishaps := by
  have hany : ((E.tick m).pending.any fun x => E.meets d x.2) = false := by simpa using hd
  unfold request note
  simp only [hr, hany, decide_false, if_false, Bool.false_eq_true]
  exact tick_mishaps m

lemma act_world (uses : δ → Bool) (f : σ → σ) (m : Machine σ ρ δ) :
    (E.act uses f m).world = f (E.tick m).world := by
  unfold act
  simp only [note_world]

lemma act_pending (uses : δ → Bool) (f : σ → σ) (m : Machine σ ρ δ) :
    (E.act uses f m).pending = (E.tick m).pending := by
  unfold act
  simp only [note_pending]

lemma act_mishaps {uses : δ → Bool} (f : σ → σ) (h : ∀ x ∈ (E.tick m).pending, uses x.2 = false) :
    (E.act uses f m).mishaps = m.mishaps := by
  have hany : ((E.tick m).pending.any fun x => uses x.2) = false := by simpa using h
  unfold act note
  simp only [hany, if_false, Bool.false_eq_true]
  exact tick_mishaps m

end

/-! ## What a program may rely on -/

/-- The transfers `l` may be outstanding; what an ended one is for holds. -/
structure Awaits (post : δ → σ → Prop) (I : σ → Prop) (l : List (ρ × δ)) (m : Machine σ ρ δ) : Prop where
  known : ∀ x ∈ m.pending, x ∈ l
  nodup : m.pending.Nodup
  inv : I m.world
  done : ∀ x ∈ l, x ∉ m.pending → post x.2 m.world

structure Stable (E : Engine σ δ) (post : δ → σ → Prop) (I : σ → Prop) (l : List (ρ × δ)) : Prop where
  inv : ∀ x ∈ l, ∀ w, I w → I (E.effect x.2 w)
  gives : ∀ x ∈ l, ∀ w, I w → post x.2 (E.effect x.2 w)
  keep : ∀ x ∈ l, ∀ y ∈ l, y ≠ x → ∀ w, I w → post x.2 w → post x.2 (E.effect y.2 w)

structure Apart (E : Engine σ δ) (l : List (ρ × δ)) : Prop where
  resources : ∀ x ∈ l, ∀ y ∈ l, x.1 = y.1 → x = y
  places : ∀ x ∈ l, ∀ y ∈ l, x ≠ y → E.meets x.2 y.2 = false

variable {E : Engine σ δ} {post : δ → σ → Prop} {I I' : σ → Prop}

lemma Stable.mono {l' : List (ρ × δ)} (hl : Stable E post I l) (hsub : l' ⊆ l) : Stable E post I l' :=
  ⟨fun x hx => hl.inv x (hsub hx), fun x hx => hl.gives x (hsub hx),
    fun x hx y hy => hl.keep x (hsub hx) y (hsub hy)⟩

lemma Apart.mono {l' : List (ρ × δ)} (hl : Apart E l) (hsub : l' ⊆ l) : Apart E l' :=
  ⟨fun x hx y hy => hl.resources x (hsub hx) y (hsub hy), fun x hx y hy => hl.places x (hsub hx) y (hsub hy)⟩

lemma Awaits.start (h : I m.world) (hm : m.pending = []) : Awaits post I [] m :=
  ⟨by simp [hm], by simp [hm], h, by simp⟩

lemma Awaits.mono (h : Awaits post I l m) (hI : ∀ w, I w → I' w) : Awaits post I' l m :=
  { h with inv := hI _ h.inv }

lemma Stable.step (hl : Stable E post I l) (w : σ) (l1 : List (ρ × δ)) (x : ρ × δ) (l2 : List (ρ × δ))
    (h : Awaits post I l ⟨w, l1 ++ x :: l2, 0, []⟩) :
    Awaits post I l ⟨E.effect x.2 w, l1 ++ l2, 0, []⟩ := by
  obtain ⟨hknown, hnodup, hinv, hdone⟩ := h
  have hx := hknown x (by simp)
  have hmem : ∀ y, y ∈ l1 ++ x :: l2 ↔ y = x ∨ y ∈ l1 ++ l2 := by
    intro y
    simp only [mem_append, mem_cons]
    tauto
  refine ⟨fun y hy => hknown y ((hmem y).mpr (.inr hy)), hnodup.sublist (by simp), hl.inv x hx w hinv, ?_⟩
  intro y hy hyp
  by_cases hyx : y = x
  · rw [hyx]
    exact hl.gives x hx w hinv
  · refine hl.keep y hy x hx (Ne.symm hyx) w hinv (hdone y hy fun hmem' => ?_)
    exact ((hmem y).mp hmem').elim hyx hyp

lemma Awaits.congr {m' : Machine σ ρ δ} (h : Awaits post I l m) (hworld : m'.world = m.world)
    (hpending : m'.pending = m.pending) : Awaits post I l m' := by
  refine ⟨?_, ?_, ?_, ?_⟩
  · rw [hpending]
    exact h.known
  · rw [hpending]
    exact h.nodup
  · rw [hworld]
    exact h.inv
  · rw [hworld, hpending]
    exact h.done

variable [DecidableEq ρ]

section
variable (h : Awaits post I l m) (hl : Stable E post I l)
include h hl

lemma Awaits.tick : Awaits post I l (E.tick m) := by
  have hm : Awaits post I l ⟨m.world, m.pending, 0, []⟩ := h.congr rfl rfl
  have htick := (tick_inv (E := E) (fun w p => Awaits post I l ⟨w, p, 0, []⟩)
    (fun w l1 x l2 _ => hl.step w l1 x l2) hm).1
  exact htick.congr rfl rfl

lemma Awaits.wait (rs : List ρ) :
    Awaits post (fun w => I w ∧ ∀ x ∈ l, x.1 ∈ rs → post x.2 w) (l.filter fun x => x.1 ∉ rs)
      (E.wait rs m) := by
  have hm : Awaits post I l ⟨m.world, m.pending, 0, []⟩ := h.congr rfl rfl
  have hwait := wait_inv (E := E) rs (fun w p => Awaits post I l ⟨w, p, 0, []⟩)
    (fun w l1 x l2 _ => hl.step w l1 x l2) hm
  refine ⟨?_, hwait.nodup, ⟨hwait.inv, ?_⟩, ?_⟩
  · intro x hx
    exact mem_filter.mpr ⟨hwait.known x hx, decide_eq_true (wait_pending hx)⟩
  · intro x hx hrs
    exact hwait.done x hx fun hmem => wait_pending hmem hrs
  · intro x hx hmem
    exact hwait.done x (mem_of_mem_filter hx) hmem

lemma Awaits.wait_keeps (rs : List ρ) : Awaits post I l (E.wait rs m) := by
  have hwait := h.wait hl rs
  refine ⟨fun x hx => mem_of_mem_filter (hwait.known x hx), hwait.nodup, hwait.inv.1, fun x hx hmem => ?_⟩
  by_cases hrs : x.1 ∈ rs
  · exact hwait.inv.2 x hx hrs
  · exact hwait.done x (mem_filter.mpr ⟨hx, decide_eq_true hrs⟩) hmem

end

lemma Stable.wait (hl : Stable E post I l) (rs : List ρ) :
    Stable E post (fun w => I w ∧ ∀ x ∈ l, x.1 ∈ rs → post x.2 w) (l.filter fun x => x.1 ∉ rs) := by
  have hleft : ∀ y ∈ l.filter (fun x => x.1 ∉ rs), y ∈ l ∧ y.1 ∉ rs := by
    intro y hy
    simpa using hy
  refine ⟨?_, fun y hy w hw => hl.gives y (hleft y hy).1 w hw.1, ?_⟩
  · intro y hy w hw
    refine ⟨hl.inv y (hleft y hy).1 w hw.1, fun x hx hrs => ?_⟩
    have hyx : y ≠ x := by
      rintro rfl
      exact (hleft y hy).2 hrs
    exact hl.keep x hx y (hleft y hy).1 hyx w hw.1 (hw.2 x hx hrs)
  · intro x hx y hy hyx w hw
    exact hl.keep x (hleft x hx).1 y (hleft y hy).1 hyx w hw.1

section
variable (h : Awaits post I l m) (hl : Stable E post I l)
include h hl

lemma Awaits.request (hx : (r, d) ∉ l) : Awaits post I (l ++ [(r, d)]) (E.request r d m) := by
  have htick := h.tick hl
  refine ⟨?_, ?_, ?_, ?_⟩
  · rw [request_pending]
    intro y hy
    rcases mem_append.mp hy with hy | hy
    · exact mem_append_left _ (htick.known y hy)
    · exact mem_append_right _ hy
  · rw [request_pending]
    refine nodup_append.mpr ⟨htick.nodup, by simp, ?_⟩
    rintro y hy z hz rfl
    rw [mem_singleton.mp hz] at hy
    exact hx (htick.known _ hy)
  · rw [request_world]
    exact htick.inv
  · rw [request_pending, request_world]
    intro y hy hmem
    rw [mem_append, not_or] at hmem
    exact htick.done y ((mem_append.mp hy).resolve_right hmem.2) hmem.1

lemma Awaits.request_calm (hx : (r, d) ∉ l)
    (ha : Apart E ((r, d) :: l)) : (E.request r d m).mishaps = m.mishaps := by
  have htick := h.tick hl
  have hne : ∀ x ∈ (E.tick m).pending, (r, d) ≠ x := by
    rintro x hx' rfl
    exact hx (htick.known _ hx')
  refine Engine.request_mishaps (fun hmem => ?_) fun x hx' => ?_
  · obtain ⟨x, hx', hxr⟩ := mem_map.mp hmem
    exact hne x hx' (ha.resources _ mem_cons_self x (mem_cons_of_mem _ (htick.known x hx')) hxr.symm)
  · exact ha.places _ mem_cons_self x (mem_cons_of_mem _ (htick.known x hx')) (hne x hx')

lemma Awaits.act {uses : δ → Bool} {f : σ → σ}
    (hf : ∀ w, I w → I' (f w)) (hpost : ∀ x ∈ l, ∀ w, I w → post x.2 w → post x.2 (f w)) :
    Awaits post I' l (E.act uses f m) := by
  have htick := h.tick hl
  refine ⟨?_, ?_, ?_, ?_⟩
  · rw [act_pending]
    exact htick.known
  · rw [act_pending]
    exact htick.nodup
  · rw [act_world]
    exact hf _ htick.inv
  · rw [act_pending, act_world]
    intro x hx hmem
    exact hpost x hx _ htick.inv (htick.done x hx hmem)

lemma Awaits.act_calm {uses : δ → Bool} (f : σ → σ)
    (huses : ∀ x ∈ l, uses x.2 = false) : (E.act uses f m).mishaps = m.mishaps :=
  Engine.act_mishaps f fun x hx => huses x ((h.tick hl).known x hx)

end

end Engine

end SmcPim
