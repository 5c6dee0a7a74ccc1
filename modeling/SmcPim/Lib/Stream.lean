import SmcPim.Lib.Engine

/-!
# Reading ahead

A stream is read chunk by chunk through two buffers: while the processor works on one chunk, the
next one may be on its way.
-/

namespace SmcPim

open List Prod

namespace Engine

variable {σ ρ δ κ : Type*} {E : Engine σ δ} {post : δ → σ → Prop} {place : δ → κ} {ok : δ → Prop}
  {J J' : σ → Prop} {known known' : List δ} {l : List (ρ × δ)} {m : Machine σ ρ δ}

/-! ## Buffers -/

lemma nodup_map_concat {α β : Type*} {f : α → β} {xs : List α} {x : α} (hxs : (xs.map f).Nodup)
    (hx : f x ∉ xs.map f) : ((xs ++ [x]).map f).Nodup := by
  rw [map_append, map_singleton]
  exact nodup_append.mpr ⟨hxs, nodup_singleton _, fun a ha b hb hab =>
    hx (mem_singleton.mp hb ▸ hab ▸ ha)⟩

/-- Good transfers keep `J`, do what they are for, and disturb nothing in another place. -/
structure Fills (E : Engine σ δ) (post : δ → σ → Prop) (place : δ → κ) (ok : δ → Prop) (J : σ → Prop) : Prop where
  inv : ∀ d, ok d → ∀ w, J w → J (E.effect d w)
  gives : ∀ d, ok d → ∀ w, J w → post d (E.effect d w)
  keep : ∀ d d', ok d → ok d' → place d ≠ place d' → ∀ w, J w → post d' w → post d' (E.effect d w)
  meets : ∀ d d', place d ≠ place d' → E.meets d d' = false

/-- The buffers of `known` are loaded, the transfers `l` may be outstanding, and nothing went wrong. -/
structure Runs (E : Engine σ δ) (post : δ → σ → Prop) (place : δ → κ) (ok : δ → Prop) (J : σ → Prop)
    (known : List δ) (l : List (ρ × δ)) (m : Machine σ ρ δ) : Prop where
  fills : Fills E post place ok J
  good : ∀ d ∈ known ++ l.map Prod.snd, ok d
  places : ((known ++ l.map Prod.snd).map place).Nodup
  resources : (l.map Prod.fst).Nodup
  awaits : Awaits post (fun w => J w ∧ ∀ d ∈ known, post d w) l m
  calm : m.mishaps = []

namespace Runs

section
variable (h : Runs E post place ok J known l m)
include h

lemma loaded : J m.world ∧ ∀ d ∈ known, post d m.world := h.awaits.inv

lemma place_ne {x y : ρ × δ} (hx : x ∈ l) (hy : y ∈ l) (hxy : x ≠ y) : place x.2 ≠ place y.2 := by
  have hplaces := h.places
  rw [map_append, nodup_append] at hplaces
  have hinj := inj_on_of_nodup_map (f := place ∘ snd) (by simpa using hplaces.2.1)
  exact fun heq => hxy (hinj hx hy heq)

lemma place_known_ne {x : ρ × δ} {d : δ} (hx : x ∈ l) (hd : d ∈ known) : place x.2 ≠ place d := by
  have hplaces := h.places
  rw [map_append, nodup_append] at hplaces
  exact fun heq => hplaces.2.2 _ (mem_map_of_mem hd) _
    (mem_map_of_mem (mem_map_of_mem hx)) heq.symm

lemma apart : Apart E l :=
  ⟨fun _ hx _ hy => inj_on_of_nodup_map h.resources hx hy,
    fun _ hx _ hy hxy => h.fills.meets _ _ (h.place_ne hx hy hxy)⟩

lemma stable : Stable E post (fun w => J w ∧ ∀ d ∈ known, post d w) l := by
  have hl : ∀ x ∈ l, ok x.2 := fun x hx => h.good _ (mem_append_right _ (mem_map_of_mem hx))
  have hknown : ∀ d ∈ known, ok d := fun d hd => h.good d (mem_append_left _ hd)
  refine ⟨?_, fun x hx w hw => h.fills.gives _ (hl x hx) w hw.1, ?_⟩
  · intro x hx w hw
    refine ⟨h.fills.inv _ (hl x hx) w hw.1, fun d hd => ?_⟩
    exact h.fills.keep _ _ (hl x hx) (hknown d hd) (h.place_known_ne hx hd) w hw.1 (hw.2 d hd)
  · intro x hx y hy hyx w hw
    exact h.fills.keep _ _ (hl y hy) (hl x hx) (h.place_ne hy hx hyx) w hw.1

end

lemma start (hfills : Fills E post place ok J) (hJ : J m.world) (hpending : m.pending = [])
    (hcalm : m.mishaps = []) : Runs E post place ok J [] ([] : List (ρ × δ)) m :=
  ⟨hfills, by simp, by simp, by simp, .start ⟨hJ, by simp⟩ hpending, hcalm⟩

lemma mono (h : Runs E post place ok J known l m) (hJ' : Fills E post place ok J')
    (hJ : ∀ w, J w → J' w) : Runs E post place ok J' known l m :=
  ⟨hJ', h.good, h.places, h.resources, h.awaits.mono fun w hw => ⟨hJ w hw.1, hw.2⟩, h.calm⟩

lemma forget (h : Runs E post place ok J known l m) (hsub : known'.Sublist known) :
    Runs E post place ok J known' l m := by
  have hmem : (known' ++ l.map snd).Sublist (known ++ l.map snd) := hsub.append_right _
  exact ⟨h.fills, fun d hd => h.good d (hmem.subset hd), h.places.sublist (hmem.map place), h.resources,
    h.awaits.mono fun w hw => ⟨hw.1, fun d hd => hw.2 d (hsub.subset hd)⟩, h.calm⟩

variable {l' : List (ρ × δ)} {r : ρ} {d : δ}

lemma perm (h : Runs E post place ok J known l m) (hknown : known'.Perm known)
    (hl : l'.Perm l) : Runs E post place ok J known' l' m := by
  have hall : (known' ++ l'.map snd).Perm (known ++ l.map snd) := hknown.append (hl.map _)
  refine ⟨h.fills, fun d hd => h.good d (hall.subset hd), (hall.map place).nodup_iff.mpr h.places,
    (hl.map _).nodup_iff.mpr h.resources, ?_, h.calm⟩
  refine ⟨fun x hx => hl.mem_iff.mpr (h.awaits.known x hx), h.awaits.nodup, ⟨h.loaded.1, fun d hd => ?_⟩,
    fun x hx => h.awaits.done x (hl.mem_iff.mp hx)⟩
  exact h.loaded.2 d (hknown.mem_iff.mp hd)

variable [DecidableEq ρ]

section
variable (h : Runs E post place ok J known l m)
include h

lemma request (hd : ok d) (hr : r ∉ l.map fst) (hplace : place d ∉ (known ++ l.map snd).map place) :
    Runs E post place ok J known (l ++ [(r, d)]) (E.request r d m) := by
  have hnew : (r, d) ∉ l := fun hmem => hr (mem_map_of_mem hmem)
  have hsnd : known ++ (l ++ [(r, d)]).map snd = known ++ l.map snd ++ [d] := by simp
  have hgood : ∀ d' ∈ known ++ (l ++ [(r, d)]).map snd, ok d' := by
    rw [hsnd]
    intro d' hd'
    rcases mem_append.mp hd' with hd' | hd'
    · exact h.good d' hd'
    · rw [mem_singleton.mp hd']
      exact hd
  have hplaces : ((known ++ (l ++ [(r, d)]).map snd).map place).Nodup := by
    rw [hsnd]
    exact nodup_map_concat h.places hplace
  have hresources : ((l ++ [(r, d)]).map fst).Nodup := nodup_map_concat h.resources hr
  have hawaits := h.awaits.request h.stable hnew
  refine ⟨h.fills, hgood, hplaces, hresources, hawaits, ?_⟩
  -- That the new transfer is apart from the others is what the new state says of its list.
  have hafter : Runs E post place ok J known (l ++ [(r, d)]) { E.request r d m with mishaps := [] } :=
    ⟨h.fills, hgood, hplaces, hresources, hawaits.congr rfl rfl, rfl⟩
  refine (h.awaits.request_calm h.stable hnew (hafter.apart.mono ?_)).trans h.calm
  intro x hx
  rcases mem_cons.mp hx with rfl | hx
  · simp
  · exact mem_append_left _ hx

lemma wait (rs : List ρ) :
    Runs E post place ok J (known ++ (l.filter fun x => x.1 ∈ rs).map snd) (l.filter fun x => x.1 ∉ rs)
      (E.wait rs m) := by
  have hperm : ((l.filter fun x => x.1 ∈ rs) ++ l.filter fun x => x.1 ∉ rs).Perm l := by
    simpa using filter_append_perm (fun x : ρ × δ => decide (x.1 ∈ rs)) l
  have hall : (known ++ (l.filter fun x => x.1 ∈ rs).map snd ++
      (l.filter fun x => x.1 ∉ rs).map snd).Perm (known ++ l.map snd) := by
    rw [append_assoc, ← map_append]
    exact (hperm.map snd).append_left known
  refine ⟨h.fills, fun d hd => h.good d (hall.subset hd), (hall.map place).nodup_iff.mpr h.places,
    h.resources.sublist (filter_sublist.map _), (h.awaits.wait h.stable rs).mono ?_,
    (wait_mishaps rs m).trans h.calm⟩
  rintro w ⟨⟨hJ, hknown⟩, hwaited⟩
  refine ⟨hJ, fun d hd => ?_⟩
  rcases mem_append.mp hd with hd | hd
  · exact hknown d hd
  · obtain ⟨x, hx, rfl⟩ := mem_map.mp hd
    have hx' := mem_filter.mp hx
    exact hwaited x hx'.1 (by simpa using hx'.2)

lemma requests {ts : List (ρ × δ)} (hok : ∀ x ∈ ts, ok x.2)
    (hresources : ((l ++ ts).map fst).Nodup) (hplaces : ((known ++ (l ++ ts).map snd).map place).Nodup) :
    Runs E post place ok J known (l ++ ts) (ts.foldl (fun m x => E.request x.1 x.2 m) m) := by
  induction ts generalizing l m with
  | nil => simpa using h
  | cons x ts ih =>
    have hlx : l ++ x :: ts = l ++ [x] ++ ts := by simp
    rw [hlx] at hresources hplaces ⊢
    have hx : Runs E post place ok J known (l ++ [x]) (E.request x.1 x.2 m) := by
      refine h.request (hok x mem_cons_self) ?_ ?_
      · rw [map_append, map_append, append_assoc, nodup_append] at hresources
        exact fun hmem => hresources.2.2 _ hmem _ mem_cons_self rfl
      · have hsplit : known ++ (l ++ [x] ++ ts).map snd = known ++ l.map snd ++ x.2 :: ts.map snd := by
          simp
        rw [hsplit, map_append, nodup_append] at hplaces
        exact fun hmem => hplaces.2.2 _ hmem _ mem_cons_self rfl
    exact ih hx (fun y hy => hok y (mem_cons_of_mem _ hy)) hresources hplaces

end

lemma wait_append {rs : List ρ} (h : Runs E post place ok J known (l ++ l') m)
    (hl : ∀ x ∈ l, x.1 ∉ rs) (hl' : ∀ x ∈ l', x.1 ∈ rs) :
    Runs E post place ok J (known ++ l'.map snd) l (E.wait rs m) := by
  have hin : (l ++ l').filter (fun x => x.1 ∈ rs) = l' := by
    rw [filter_append, filter_eq_nil_iff.mpr, filter_eq_self.mpr, nil_append]
    · simpa using hl'
    · simpa using hl
  have hout : (l ++ l').filter (fun x => x.1 ∉ rs) = l := by
    rw [filter_append, filter_eq_self.mpr, filter_eq_nil_iff.mpr, append_nil]
    · simpa using hl'
    · simpa using hl
  have hwait := h.wait rs
  rwa [hin, hout] at hwait

lemma wait_head (h : Runs E post place ok J known ((r, d) :: l) m) :
    Runs E post place ok J (d :: known) l (E.wait [r] m) := by
  have hr : ∀ x ∈ l, x.1 ∉ [r] := by
    intro x hx hxr
    exact (nodup_cons.mp h.resources).1 (mem_map.mpr ⟨x, hx, mem_singleton.mp hxr⟩)
  have hwait := (h.perm (List.Perm.refl known) (perm_append_singleton (r, d) l)).wait_append hr (by simp)
  exact hwait.perm (perm_append_singleton d known).symm (List.Perm.refl l)

lemma act (h : Runs E post place ok J known l m) (hJ' : Fills E post place ok J')
    {uses : δ → Bool} {f : σ → σ}
    (hf : ∀ w, J w → (∀ d ∈ known, post d w) → J' (f w)) (hpost : ∀ d w, ok d → post d w → post d (f w))
    (huses : ∀ x ∈ l, uses x.2 = false) : Runs E post place ok J' known l (E.act uses f m) := by
  refine ⟨hJ', h.good, h.places, h.resources, ?_, (h.awaits.act_calm h.stable f huses).trans h.calm⟩
  refine h.awaits.act h.stable (fun w hw => ⟨hf w hw.1 hw.2, fun d hd => ?_⟩) fun x hx w _ => ?_
  · exact hpost d w (h.good d (mem_append_left _ hd)) (hw.2 d hd)
  · exact hpost x.2 w (h.good _ (mem_append_right _ (mem_map_of_mem hx)))

end Runs

end Engine

/-! ## Streams -/

/-- The chunk from an index on goes into a buffer; `fetch` says where there is one to read ahead. -/
structure Stream (ρ δ : Type*) where
  res : ρ
  chunk : ℕ → ℕ → δ
  count : ℕ
  fetch : ℕ → Bool

structure Cursor where
  ping : ℕ
  pong : ℕ
  pos : ℕ

namespace Stream

variable {σ ρ δ : Type*} [DecidableEq ρ] (S : Stream ρ δ)

/-- At the end of a chunk the buffers change roles and the next chunk is requested. -/
def refill (E : Engine σ δ) (i : ℕ) (c : Cursor) (m : Machine σ ρ δ) : Cursor × Machine σ ρ δ :=
  if c.pos = S.count then
    let m := E.wait [S.res] m
    (⟨c.pong, c.ping, 0⟩,
      if S.fetch (i + S.count) then E.request S.res (S.chunk (i + S.count) c.ping) m else m)
  else (c, m)

def current (i : ℕ) (c : Cursor) : δ := S.chunk (i - c.pos) c.ping

def loaded (i : ℕ) (c : Cursor) : List δ := if c.pos < S.count then [S.current i c] else []

def ahead (i : ℕ) (c : Cursor) : List (ρ × δ) :=
  if S.fetch (i + S.count - c.pos) then [(S.res, S.chunk (i + S.count - c.pos) c.pong)] else []

end Stream

structure Cursor.Before (a b count i : ℕ) (c : Cursor) : Prop where
  bufs : (c.ping = a ∧ c.pong = b) ∨ (c.ping = b ∧ c.pong = a)
  le : c.pos ≤ count
  back : c.pos < count → c.pos ≤ i

structure Cursor.At (a b count i : ℕ) (c : Cursor) : Prop where
  bufs : (c.ping = a ∧ c.pong = b) ∨ (c.ping = b ∧ c.pong = a)
  lt : c.pos < count
  back : c.pos ≤ i

def Cursor.next (c : Cursor) : Cursor := { c with pos := c.pos + 1 }

lemma Cursor.At.next {a b count i : ℕ} {c : Cursor} (h : c.At a b count i) :
    c.next.Before a b count (i + 1) :=
  ⟨h.bufs, h.lt, fun _ => Nat.succ_le_succ h.back⟩

structure Stream.Free {ρ δ κ : Type*} (S : Stream ρ δ) (place : δ → κ) (ok : δ → Prop) (known : List δ)
    (l : List (ρ × δ)) (buf : ℕ) : Prop where
  good : ∀ i, ok (S.chunk i buf)
  place : ∀ i, place (S.chunk i buf) ∉ (known ++ l.map Prod.snd).map place
  resource : S.res ∉ l.map Prod.fst

section
variable {σ ρ δ κ : Type*} {E : Engine σ δ} {post : δ → σ → Prop} {place : δ → κ} {ok : δ → Prop}
  {J : σ → Prop} {known : List δ} {l : List (ρ × δ)} {m : Machine σ ρ δ} {S : Stream ρ δ} {i a b : ℕ} {c : Cursor}

open Engine

lemma Engine.Runs.advance (h : Runs E post place ok J (S.current i c :: known) (S.ahead i c ++ l) m) :
    Runs E post place ok J (S.loaded (i + 1) c.next ++ known) (S.ahead (i + 1) c.next ++ l) m := by
  have hcurrent : S.current (i + 1) c.next = S.current i c := by
    unfold Stream.current Cursor.next
    dsimp only
    rw [Nat.add_sub_add_right]
  have hahead : S.ahead (i + 1) c.next = S.ahead i c := by
    unfold Stream.ahead Cursor.next
    dsimp only
    rw [Nat.add_right_comm, Nat.add_sub_add_right]
  rw [hahead]
  unfold Stream.loaded
  split
  · rwa [hcurrent]
  · exact h.forget (sublist_cons_self ..)

variable [DecidableEq ρ]

lemma Stream.refill_at (hc : c.Before a b S.count i) (hcount : 0 < S.count) :
    (S.refill E i c m).1.At a b S.count i := by
  unfold Stream.refill
  split
  · exact ⟨Or.imp And.symm And.symm (Or.symm hc.bufs), hcount, Nat.zero_le i⟩
  · have hlt : c.pos < S.count := lt_of_le_of_ne hc.le ‹_›
    exact ⟨hc.bufs, hlt, hc.back hlt⟩

lemma Engine.Runs.refill (h : Runs E post place ok J (S.loaded i c ++ known) (S.ahead i c ++ l) m)
    (hc : c.Before a b S.count i) (hi : S.fetch i = true) (ha : S.Free place ok known l a)
    (hb : S.Free place ok known l b) (hab : ∀ i j, place (S.chunk i a) ≠ place (S.chunk j b)) :
    Runs E post place ok J (S.current i (S.refill E i c m).1 :: known) (S.ahead i (S.refill E i c m).1 ++ l)
      (S.refill E i c m).2 := by
  have hping : S.Free place ok known l c.ping := by
    rcases hc.bufs with ⟨hping, -⟩ | ⟨hping, -⟩
    · exact hping ▸ ha
    · exact hping ▸ hb
  have hbufs : ∀ i j, place (S.chunk i c.ping) ≠ place (S.chunk j c.pong) := by
    rcases hc.bufs with ⟨hping, hpong⟩ | ⟨hping, hpong⟩
    · rw [hping, hpong]
      exact hab
    · rw [hping, hpong]
      exact fun i j => (hab j i).symm
  unfold Stream.refill
  split
  · rename_i hend
    have hloaded : S.loaded i c = [] := if_neg (by omega)
    have hahead : S.ahead i c = [(S.res, S.chunk i c.pong)] := by
      unfold Stream.ahead
      rw [hend, Nat.add_sub_cancel, if_pos hi]
    rw [hloaded, hahead, nil_append, singleton_append] at h
    unfold Stream.ahead Stream.current
    dsimp only
    rw [Nat.sub_zero, Nat.sub_zero]
    split
    · refine (h.wait_head.request (hping.good _) hping.resource ?_).perm (List.Perm.refl _)
        (perm_append_singleton _ l).symm
      rw [cons_append, map_cons, mem_cons, not_or]
      exact ⟨hbufs _ _, hping.place _⟩
    · exact h.wait_head
  · have hlt : c.pos < S.count := lt_of_le_of_ne hc.le ‹_›
    rwa [Stream.loaded, if_pos hlt] at h

lemma Engine.Runs.start_stream (h : Runs E post place ok J known l m) (hfetch : S.fetch 0 = true)
    (hb : S.Free place ok known l b) :
    Runs E post place ok J (S.loaded 0 ⟨a, b, S.count⟩ ++ known) (S.ahead 0 ⟨a, b, S.count⟩ ++ l)
      (E.request S.res (S.chunk 0 b) m) := by
  have hloaded : S.loaded 0 ⟨a, b, S.count⟩ = [] := if_neg (lt_irrefl _)
  have hahead : S.ahead 0 ⟨a, b, S.count⟩ = [(S.res, S.chunk 0 b)] := by
    unfold Stream.ahead
    dsimp only
    rw [Nat.add_sub_cancel, if_pos hfetch]
  rw [hloaded, hahead]
  exact (h.request (hb.good 0) hb.resource (hb.place 0)).perm (List.Perm.refl _)
    (perm_append_singleton _ l).symm

end

end SmcPim
