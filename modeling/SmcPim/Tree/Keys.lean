import SmcPim.Tree.Rows

/-! # The keys of the tree -/

namespace SmcPim.TreeSearch

open Function

variable {p : Params} {mem mem' mem0 : ℕ → ℕ} {h k start fuel : ℕ}

/-- The words at `ptr` are the root of a tree with these addresses and keys. -/
def IsTree (p : Params) (mem : ℕ → ℕ) : ℕ → BinaryTree (ℕ × ℕ) → Prop
  | ptr, .nil => ptr = 0
  | ptr, .node (addr, key) left right =>
    ptr ≠ 0 ∧ ptr = addr ∧ mem addr = key ∧ IsTree p mem (mem (addr + p.word)) left ∧
      IsTree p mem (mem (addr + 2 * p.word)) right

def stored (p : Params) (h k start : ℕ) : BinaryTree (ℕ × ℕ) :=
  (perfect h k start).map fun x => (p.place x.1, x.2)

lemma stored_succ : stored p (h + 1) k start =
    .node (p.place k, start + (2 ^ h - 1)) (stored p h (2 * k + 1) start) (stored p h (2 * k + 2) (start + 2 ^ h)) :=
  rfl

def rootPtr (p : Params) (h k : ℕ) : ℕ := if h = 0 then 0 else p.place k

lemma place_pos (p : Params) (k : ℕ) : p.place k ≠ 0 := by
  have := base_pos p
  unfold Params.place
  omega

lemma field_zero (k : ℕ) : p.field k 0 = p.place k := by simp [Params.field]

lemma field_one (k : ℕ) : p.field k 1 = p.place k + p.word := by simp [Params.field]

lemma field_two (k : ℕ) : p.field k 2 = p.place k + 2 * p.word := rfl

lemma place_ne_field {f x : ℕ} (hf : f = 1 ∨ f = 2) : p.field k f ≠ p.place x := by
  rw [← field_zero, Ne, field_inj (by omega) (by decide)]
  omega

lemma IsTree.congr (hsame : ∀ x ∈ places h k, ∀ f < 3, mem' (p.field x f) = mem (p.field x f))
    {ptr : ℕ} (htree : IsTree p mem ptr (stored p h k start)) : IsTree p mem' ptr (stored p h k start) := by
  induction h generalizing k start ptr with
  | zero => exact htree
  | succ h ih =>
    rw [stored_succ] at htree ⊢
    obtain ⟨hne, hptr, hkey, hleft, hright⟩ := htree
    have hroot := hsame k (by simp [places])
    have hl : mem' (p.place k + p.word) = mem (p.place k + p.word) := field_one (p := p) k ▸ hroot 1 (by decide)
    have hr : mem' (p.place k + 2 * p.word) = mem (p.place k + 2 * p.word) := hroot 2 (by decide)
    refine ⟨hne, hptr, ?_, ?_, ?_⟩
    · exact (field_zero (p := p) k ▸ hroot 0 (by decide)).trans hkey
    · rw [hl]
      exact ih (fun x hx => hsame x (by simp [places, hx])) hleft
    · rw [hr]
      exact ih (fun x hx => hsame x (by simp [places, hx])) hright

def Wired (p : Params) (mem : ℕ → ℕ) : ℕ → ℕ → Prop
  | 0, _ => True
  | h + 1, k =>
    mem (p.field k 1) = rootPtr p h (2 * k + 1) ∧ mem (p.field k 2) = rootPtr p h (2 * k + 2) ∧
      Wired p mem h (2 * k + 1) ∧ Wired p mem h (2 * k + 2)

lemma Wired.congr (hsame : ∀ x f, f = 1 ∨ f = 2 → mem' (p.field x f) = mem (p.field x f))
    (hwired : Wired p mem h k) : Wired p mem' h k := by
  induction h generalizing k with
  | zero => trivial
  | succ h ih =>
    obtain ⟨hl, hr, hleft, hright⟩ := hwired
    exact ⟨(hsame k 1 (.inl rfl)).trans hl, (hsame k 2 (.inr rfl)).trans hr, ih hleft, ih hright⟩

lemma Linked.wired (hlinked : Linked p mem0 (2 ^ (p.height - 1) - 1) mem)
    (hzero : ∀ k < 2 ^ p.height - 1, ∀ f < 3, mem0 (p.field k f) = 0) {l : ℕ} (hl : l + h = p.height)
    (hlo : 2 ^ l - 1 ≤ k) (hhi : k < 2 ^ (l + 1) - 1) : Wired p mem h k := by
  induction h generalizing k l with
  | zero => trivial
  | succ h ih =>
    have hpos := Nat.two_pow_pos l
    have hdouble : 2 ^ (l + 1) = 2 * 2 ^ l := by rw [pow_succ]; ring
    have hquad : 2 ^ (l + 1 + 1) = 2 * 2 ^ (l + 1) := by rw [pow_succ]; ring
    have hchildren : Wired p mem h (2 * k + 1) ∧ Wired p mem h (2 * k + 2) :=
      ⟨ih (l := l + 1) (by omega) (by omega) (by omega), ih (l := l + 1) (by omega) (by omega) (by omega)⟩
    rcases Nat.eq_zero_or_pos h with rfl | hh
    · -- the last row
      have hlast : l = p.height - 1 := by omega
      have hout : ∀ f, f = 1 ∨ f = 2 → mem (p.field k f) = 0 := by
        intro f hf
        rw [hlinked.rest]
        · refine hzero k ?_ f (by omega)
          rw [← hl]
          exact hhi
        · intro x hx
          rw [← hlast] at hx
          rw [Ne, field_inj (by omega) (by decide), Ne, field_inj (by omega) (by decide)]
          omega
      exact ⟨hout 1 (.inl rfl), hout 2 (.inr rfl), hchildren⟩
    · have hmore : 2 ^ (l + 1) ≤ 2 ^ (p.height - 1) := Nat.pow_le_pow_right two_pos (by omega)
      have hptr : ∀ x, rootPtr p h x = p.place x := fun x => if_neg hh.ne'
      rw [Wired, hptr, hptr]
      exact ⟨hlinked.left k (by omega), hlinked.right k (by omega), hchildren⟩

/-! ## Keys -/

lemma halves {a : Arch} (hroom : start + 2 ^ (h + 1) ≤ 2 ^ a.bits) :
    a.sub (2 ^ (h + 1) - 1) 1 / 2 = 2 ^ h - 1 ∧ a.ulong (start + (2 ^ h - 1) + 1) = start + 2 ^ h ∧
      a.ulong (start + (2 ^ (h + 1) - 1) / 2) = start + (2 ^ h - 1) := by
  have hpos := Nat.two_pow_pos h
  rw [pow_succ] at hroom ⊢
  refine ⟨?_, ?_, ?_⟩
  · rw [Arch.sub_of_le (by omega) (by omega)]
    omega
  · rw [Arch.ulong_of_lt (by omega)]
    omega
  · rw [Arch.ulong_of_lt (by omega)]
    omega

structure Keyed (p : Params) (mem : ℕ → ℕ) (h k start : ℕ) (mem' : ℕ → ℕ) : Prop where
  rest : ∀ x, (∀ y ∈ places h k, x ≠ p.place y) → mem' x = mem x
  tree : IsTree p mem' (rootPtr p h k) (stored p h k start)

lemma Keyed.pointer (hkeyed : Keyed p mem h k start mem') (x f : ℕ) (hf : f = 1 ∨ f = 2) :
    mem' (p.field x f) = mem (p.field x f) :=
  hkeyed.rest _ fun _ _ => place_ne_field hf

lemma Keyed.other (hkeyed : Keyed p mem h k start mem') {x : ℕ} (hx : x ∉ places h k) :
    ∀ f < 3, mem' (p.field x f) = mem (p.field x f) := by
  intro f hf
  refine hkeyed.rest _ fun y hy heq => ?_
  rw [← field_zero, field_inj hf (by decide)] at heq
  exact hx (heq.1 ▸ hy)

lemma Keyed.node {mem1 mem2 : ℕ → ℕ} (hnodup : (places (h + 1) k).Nodup)
    (hwired : Wired p mem (h + 1) k)
    (hleft : Keyed p mem h (2 * k + 1) start mem1) (hright : Keyed p mem1 h (2 * k + 2) (start + 2 ^ h) mem2) :
    Keyed p mem (h + 1) k start (update mem2 (p.place k) (start + (2 ^ h - 1))) := by
  obtain ⟨hl, hr, -, -⟩ := hwired
  rw [places, List.nodup_middle, List.nodup_cons, List.mem_append, not_or, List.nodup_append] at hnodup
  obtain ⟨⟨hkl, hkr⟩, -, -, hapart⟩ := hnodup
  have hroot : ∀ x f, x ≠ k ∨ f = 1 ∨ f = 2 → f < 3 →
      update mem2 (p.place k) (start + (2 ^ h - 1)) (p.field x f) = mem2 (p.field x f) := by
    intro x f hne hf
    refine update_of_ne ?_ _ _
    rw [← field_zero, Ne, field_inj hf (by decide)]
    omega
  have hptr : ∀ f, f = 1 ∨ f = 2 →
      update mem2 (p.place k) (start + (2 ^ h - 1)) (p.field k f) = mem (p.field k f) := by
    intro f hf
    rw [hroot k f (.inr hf) (by omega), hright.pointer k f hf, hleft.pointer k f hf]
  constructor
  · intro x hx
    rw [update_of_ne (hx k (by simp [places])), hright.rest x fun y hy => hx y (by simp [places, hy])]
    exact hleft.rest x fun y hy => hx y (by simp [places, hy])
  · rw [stored_succ, rootPtr, if_neg (Nat.succ_ne_zero h)]
    refine ⟨place_pos p k, rfl, update_self _ _ _, ?_, ?_⟩
    · rw [← field_one, hptr 1 (.inl rfl), hl]
      refine IsTree.congr (fun x hx f hf => ?_) hleft.tree
      rw [hroot x f (.inl fun heq => hkl (heq ▸ hx)) hf]
      exact hright.other (fun hx' => hapart x hx x hx' rfl) f hf
    · rw [← field_two, hptr 2 (.inr rfl), hr]
      refine IsTree.congr (fun x hx f hf => ?_) hright.tree
      exact hroot x f (.inl fun heq => hkr (heq ▸ hx)) hf

lemma initTree_keyed (hnodup : (places h k).Nodup) (hwired : Wired p mem h k)
    (hroom : start + 2 ^ h ≤ 2 ^ p.host.arch.bits) (hfuel : h < fuel) :
    ∃ mem', initTree p fuel mem (rootPtr p h k) start (2 ^ h - 1) = .ok mem' ∧ Keyed p mem h k start mem' := by
  induction h generalizing k start mem fuel with
  | zero =>
    obtain ⟨fuel, rfl⟩ : ∃ f, fuel = f + 1 := ⟨fuel - 1, by omega⟩
    exact ⟨mem, rfl, fun _ _ => rfl, rfl⟩
  | succ h ih =>
    obtain ⟨fuel, rfl⟩ : ∃ f, fuel = f + 1 := ⟨fuel - 1, by omega⟩
    obtain ⟨hl, hr, hleft, hright⟩ := hwired
    have hroom' : start + 2 ^ h + 2 ^ h ≤ 2 ^ p.host.arch.bits := by
      rw [pow_succ] at hroom
      omega
    have hless : h < fuel := by omega
    have hnodup' := hnodup
    rw [places, List.nodup_middle, List.nodup_cons, List.nodup_append] at hnodup'
    obtain ⟨-, hnodupl, hnodupr, -⟩ := hnodup'
    obtain ⟨hhalf, hstart, hkey⟩ := halves hroom
    obtain ⟨mem1, heq1, hkeyed1⟩ := ih hnodupl hleft (Nat.le_of_add_right_le hroom') hless
    have hright1 := hright.congr hkeyed1.pointer
    obtain ⟨mem2, heq2, hkeyed2⟩ := ih hnodupr hright1 hroom' hless
    refine ⟨_, ?_, Keyed.node hnodup ⟨hl, hr, hleft, hright⟩ hkeyed1 hkeyed2⟩
    rw [rootPtr, if_neg (Nat.succ_ne_zero h), initTree, if_neg (place_pos p k)]
    simp only [hhalf, hstart, hkey]
    rw [← field_one, hl, heq1, ok_bind, ← field_two, hkeyed1.pointer k 2 (.inr rfl), hr, heq2, ok_bind]

end SmcPim.TreeSearch
