import SmcPim.Lib.Stream

/-! # What lasts -/

namespace SmcPim.Engine

variable {σ ρ δ : Type*} [DecidableEq ρ] {E : Engine σ δ} {r : ρ} {d : δ} {m : Machine σ ρ δ} {x : Mishap}
  {P : Machine σ ρ δ → Prop}

/-- Kept by requests and steps, by waits on other resources than `r`, and by a wait on `r` with a
new request. -/
structure Lasting (E : Engine σ δ) (r : ρ) (P : Machine σ ρ δ → Prop) : Prop where
  request : ∀ r' d m, P m → P (E.request r' d m)
  act : ∀ uses f m, P m → P (E.act uses f m)
  wait : ∀ rs m, r ∉ rs → P m → P (E.wait rs m)
  renew : ∀ d m, P m → P (E.request r d (E.wait [r] m))

lemma Lasting.requests (h : Lasting E r P) (l : List (ρ × δ)) (hm : P m) :
    P (l.foldl (fun m x => E.request x.1 x.2 m) m) := by
  induction l generalizing m with
  | nil => exact hm
  | cons x l ih => exact ih (h.request x.1 x.2 m hm)

lemma Lasting.refill {S : Stream ρ δ} (h : Lasting E S.res P) (hfetch : ∀ i, S.fetch i = true)
    (i : ℕ) (c : Cursor) (hm : P m) : P (S.refill E i c m).2 := by
  unfold Stream.refill
  split
  · dsimp only
    rw [hfetch, if_pos rfl]
    exact h.renew _ m hm
  · exact hm

/-! ## Mishaps -/

omit [DecidableEq ρ] in
lemma mem_note (p : Bool) (y : Mishap) (h : x ∈ m.mishaps) : x ∈ (note p y m).mishaps := by
  unfold note
  split
  · exact List.mem_append_left _ h
  · exact h

lemma mem_request (r : ρ) (d : δ) (h : x ∈ m.mishaps) : x ∈ (E.request r d m).mishaps := by
  unfold request
  dsimp only
  refine mem_note _ _ (mem_note _ _ ?_)
  rwa [tick_mishaps]

lemma mem_wait (rs : List ρ) (h : x ∈ m.mishaps) : x ∈ (E.wait rs m).mishaps := by rwa [wait_mishaps]

lemma mem_act (uses : δ → Bool) (f : σ → σ) (h : x ∈ m.mishaps) : x ∈ (E.act uses f m).mishaps := by
  unfold act
  dsimp only
  refine mem_note _ _ ?_
  rwa [tick_mishaps]

lemma lasting_mishap (E : Engine σ δ) (r : ρ) (x : Mishap) : Lasting E r fun m => x ∈ m.mishaps where
  request r' d _ h := mem_request r' d h
  act uses f _ h := mem_act uses f h
  wait rs _ _ h := mem_wait rs h
  renew d _ h := mem_request r d (mem_wait [r] h)

/-! ## Transfers that end only at a wait -/

/-- No transfer ends by itself. -/
def Lazy (E : Engine σ δ) : Prop := ∀ t, E.ends t = []

section
variable (hE : Lazy E)
include hE

lemma Lazy.tick_pending : (E.tick m).pending = m.pending := by
  unfold tick
  rw [hE]
  rfl

lemma Lazy.mem_request (r' : ρ) (d : δ) : r ∈ (E.request r' d m).pending.map Prod.fst ↔
    r ∈ m.pending.map Prod.fst ∨ r = r' := by
  rw [request_pending, hE.tick_pending, List.map_append, List.mem_append]
  simp

lemma Lazy.mem_act (uses : δ → Bool) (f : σ → σ) :
    r ∈ (E.act uses f m).pending.map Prod.fst ↔ r ∈ m.pending.map Prod.fst := by
  rw [act_pending, hE.tick_pending]

lemma Lazy.mem_wait (rs : List ρ) :
    r ∈ (E.wait rs m).pending.map Prod.fst ↔ r ∈ m.pending.map Prod.fst ∧ r ∉ rs := by
  have hdrain : (E.wait rs m).pending = (E.drain rs (E.tick m).world (E.tick m).pending).2 := rfl
  rw [hdrain, drain_pending, hE.tick_pending]
  simp only [List.mem_map, List.mem_filter, decide_eq_true_iff]
  constructor
  · rintro ⟨x, ⟨hx, hrs⟩, rfl⟩
    exact ⟨⟨x, hx, rfl⟩, hrs⟩
  · rintro ⟨⟨x, hx, rfl⟩, hrs⟩
    exact ⟨x, ⟨hx, hrs⟩, rfl⟩

lemma lasting_pending (r : ρ) : Lasting E r fun m => r ∈ m.pending.map Prod.fst where
  request r' d _ h := (hE.mem_request r' d).mpr (.inl h)
  act uses f _ h := (hE.mem_act uses f).mpr h
  wait rs _ hr h := (hE.mem_wait rs).mpr ⟨h, hr⟩
  renew d _ _ := (hE.mem_request r d).mpr (.inr rfl)

lemma Lazy.busy (h : r ∈ m.pending.map Prod.fst) (d : δ) : Mishap.busy ∈
    (E.request r d m).mishaps := by
  have hbusy : decide (r ∈ (E.tick m).pending.map Prod.fst) = true := by
    rw [hE.tick_pending]
    exact decide_eq_true h
  unfold request
  dsimp only
  refine mem_note _ _ ?_
  rw [note, if_pos hbusy]
  exact List.mem_append_right _ (List.mem_singleton.mpr rfl)

end

end SmcPim.Engine
