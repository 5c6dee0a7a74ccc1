import SmcPim.FlatCombining.Model
import SmcPim.Lib.Chain

/-!
# The nodes of the list

From `testProject/test/MyFCLinkedList.h`: the keys ascend from a node with `INT_MIN` to one with
`INT_MAX`.
-/

namespace SmcPim.FlatCombining

open List Function

def intMin : ℤ := -2147483648

def intMax : ℤ := 2147483647

structure Malloc (α : Type) where
  new : List α → α
  fresh : ∀ used, new used ∉ used

structure Nodes (α : Type) where
  null : α
  head : α
  key : α → ℤ
  next : α → α
  used : List α

namespace Nodes

variable {α : Type} [DecidableEq α] (M : Malloc α) (n : Nodes α)

def getNewNode (inKey : ℤ) : Nodes α × α :=
  let p := M.new n.used
  ({ n with
      key := Function.update n.key p inKey
      next := Function.update n.next p n.null
      used := p :: n.used }, p)

/-- The loop to the first key that is not below `inValue`, with at most `fuel` nodes to look at. -/
def search (inValue : ℤ) : Nat → α → α → Option (α × α)
  | 0, _, _ => none
  | fuel + 1, prev, curr =>
    if curr ∈ n.used then
      if n.key curr < inValue then search inValue fuel curr (n.next curr) else some (prev, curr)
    else none

/-- What is done at the end of the search: the nodes, `curr_node` and the answer. -/
def act (op : Op) (inValue : ℤ) (prev curr : α) : Option (Nodes α × α × Bool) :=
  match op with
  | .contain => some (n, curr, decide (n.key curr = inValue))
  | .add =>
    if n.key curr ≠ inValue then
      let (n, newNode) := n.getNewNode M inValue
      if prev ∈ n.used then
        let n := { n with next := Function.update n.next prev newNode }
        let n := { n with next := Function.update n.next newNode curr }
        some (n, newNode, true)
      else none
    else some (n, curr, false)
  | .del =>
    if n.key curr = inValue then
      if prev ∈ n.used then
        let n := { n with next := Function.update n.next prev (n.next curr) }
        let n := { n with used := n.used.erase curr }
        some (n, n.next prev, true)
      else none
    else some (n, curr, false)

/-! ## The list in the memory -/

structure Sorted (l : List α) : Prop where
  list : Chain n.next n.head l n.null
  ascending : Ascending n.key l
  first : (l.map n.key).head? = some intMin
  last : (l.map n.key).getLast? = some intMax
  used : ∀ x ∈ l, x ∈ n.used

def keys (l : List α) : Finset ℤ :=
  (l.map n.key).toFinset.filter fun k => intMin < k ∧ k < intMax

variable {M n} {n' : Nodes α} {q : α} {l xs ys zs ws : List α} {op : Op} {v k : ℤ} {prev curr p c : α} {fuel : Nat}

omit [DecidableEq α] in
lemma mem_keys : k ∈ n.keys l ↔ k ∈ l.map n.key ∧ intMin < k ∧ k < intMax := by
  unfold keys
  rw [Finset.mem_filter, mem_toFinset]

namespace Sorted

section
variable (h : n.Sorted l)
include h

section
omit [DecidableEq α]

lemma nodup : l.Nodup := h.ascending.nodup_keys.of_map

lemma congr (hnull : n'.null = n.null) (hhead : n'.head = n.head)
    (hkey : ∀ x ∈ l, n'.key x = n.key x) (hnext : ∀ x ∈ l, n'.next x = n.next x)
    (hused : ∀ x ∈ l, x ∈ n'.used) : n'.Sorted l where
  list := by
    rw [hnull, hhead]
    exact h.list.congr hnext
  ascending := h.ascending.congr hkey
  first := by
    rw [map_congr_left hkey]
    exact h.first
  last := by
    rw [map_congr_left hkey]
    exact h.last
  used := hused

lemma min_le (hk : k ∈ l.map n.key) : intMin ≤ k := by
  have hs := h.ascending
  have hf := h.first
  cases l with
  | nil => simp at hk
  | cons x l =>
    rw [map_cons, head?_cons, Option.some.injEq] at hf
    rcases mem_cons.mp hk with rfl | hk
    · exact hf.ge
    · obtain ⟨y, hy, rfl⟩ := mem_map.mp hk
      exact hf ▸ le_of_lt ((pairwise_cons.mp hs).1 y hy)

lemma le_max (hk : k ∈ l.map n.key) : k ≤ intMax := by
  have hs := h.ascending
  obtain ⟨ks, hks⟩ := getLast?_eq_some_iff.mp h.last
  obtain ⟨xs, ys, rfl, rfl, hys⟩ := map_eq_append_iff.mp hks
  obtain ⟨z, rfl, hz⟩ := map_eq_singleton_iff.mp hys
  rw [map_append, mem_append] at hk
  rcases hk with hk | hk
  · obtain ⟨y, hy, rfl⟩ := mem_map.mp hk
    exact hz ▸ le_of_lt ((pairwise_append.mp hs).2.2 y hy z (by simp))
  · rw [map_singleton, mem_singleton] at hk
    exact (hk.trans hz).le

lemma head_eq : l.head? = some n.head := by
  have hlist := h.list
  cases l with
  | nil => exact absurd h.first (by simp)
  | cons x l =>
    rw [(Chain.cons_iff.mp hlist).1]
    rfl

lemma head_key : n.key n.head = intMin := by
  have hhead := h.head_eq
  have hfirst := h.first
  rw [head?_map, hhead] at hfirst
  exact Option.some.inj hfirst

lemma next_split (hp : p ∈ l) (hmax : n.key p < intMax) :
    ∃ zs ws, l = zs ++ p :: n.next p :: ws := by
  obtain ⟨zs, ws, rfl⟩ := append_of_mem hp
  cases ws with
  | nil =>
    have hlast := h.last
    simp only [map_append, map_cons, map_nil, getLast?_append,
      getLast?_singleton, Option.some_or, Option.some.injEq] at hlast
    omega
  | cons w ws =>
    have hw : n.next p = w := h.list.next_eq
    exact ⟨zs, ws, by rw [hw]⟩

variable {l' : List α}

lemma eq_of_prefix (h' : n.Sorted l') (hpre : l <+: l') : l = l' := by
  obtain ⟨ys, rfl⟩ := hpre
  cases ys with
  | nil => exact (append_nil l).symm
  | cons y ys =>
    obtain ⟨ks, hks⟩ := getLast?_eq_some_iff.mp h.last
    have hmax : intMax ∈ l.map n.key := by
      rw [hks]
      simp
    obtain ⟨x, hx, hkey⟩ := mem_map.mp hmax
    have hlt := (pairwise_append.mp h'.ascending).2.2 x hx y mem_cons_self
    have hle := h'.le_max (k := n.key y) (mem_map_of_mem (by simp))
    omega

lemma unique (h' : n.Sorted l') : l = l' := by
  rcases h.list.prefix_or h'.list with hpre | hpre
  · exact h.eq_of_prefix h' hpre
  · exact (h'.eq_of_prefix h hpre).symm

lemma mem_map : k ∈ l.map n.key ↔ k = intMin ∨ k = intMax ∨ k ∈ n.keys l := by
  constructor
  · intro hk
    rcases (h.min_le hk).eq_or_lt with heq | hmin
    · exact .inl heq.symm
    · rcases (h.le_max hk).eq_or_lt with heq | hmax
      · exact .inr (.inl heq)
      · exact .inr (.inr (mem_keys.mpr ⟨hk, hmin, hmax⟩))
  · rintro (rfl | rfl | hk)
    · exact mem_of_mem_head? h.first
    · exact mem_of_getLast? h.last
    · exact (mem_keys.mp hk).1

lemma map_key_eq (h' : n'.Sorted l')
    (hkeys : n.keys l = n'.keys l') : l.map n.key = l'.map n'.key := by
  have hs : (l.map n.key).Pairwise (· < ·) := pairwise_map.mpr h.ascending
  have hs' : (l'.map n'.key).Pairwise (· < ·) := pairwise_map.mpr h'.ascending
  refine List.Perm.eq_of_pairwise (fun _ _ _ _ => by omega) hs hs' ?_
  rw [perm_ext_iff_of_nodup h.ascending.nodup_keys h'.ascending.nodup_keys]
  intro k
  rw [h.mem_map, h'.mem_map, hkeys]

end

end

lemma search_eq (h : n.Sorted (xs ++ ys)) (hcurr : ys.head? = some curr)
    (hprev : xs = [] ∨ xs.getLast? = some prev) (hbelow : ∀ x ∈ xs, n.key x < v)
    (hv : intMin < v ∧ v < intMax) (hfuel : ys.length ≤ fuel) :
    ∃ zs p c ws, xs ++ ys = zs ++ p :: c :: ws ∧ n.search v fuel prev curr = some (p, c) ∧
      Parted n.key v (zs ++ [p]) (c :: ws) := by
  induction ys generalizing xs prev curr fuel with
  | nil => simp at hcurr
  | cons y ys ih =>
    obtain rfl : y = curr := by simpa using hcurr
    obtain ⟨fuel, rfl⟩ : ∃ m, fuel = m + 1 := ⟨fuel - 1, by simp at hfuel; omega⟩
    have hused : y ∈ n.used := h.used y (by simp)
    have hasc := h.ascending.sublist (sublist_append_right xs (y :: ys))
    rw [search, if_pos hused]
    by_cases hlt : n.key y < v
    · rw [if_pos hlt]
      have hassoc : xs ++ y :: ys = xs ++ [y] ++ ys := by simp
      -- The last key is above `v`, so there is another node.
      have hne : ys ≠ [] := by
        rintro rfl
        have hlast := h.last
        simp only [map_append, map_cons, map_nil, getLast?_append, getLast?_singleton,
          Option.some_or, Option.some.injEq] at hlast
        omega
      obtain ⟨z, ys, rfl⟩ := exists_cons_of_ne_nil hne
      have hnext : n.next y = z := h.list.next_eq
      rw [hassoc] at h ⊢
      refine ih h (by rw [hnext]; rfl) (.inr (by simp)) ?_ (by simp at hfuel ⊢; omega)
      intro x hx
      rcases mem_append.mp hx with hx | hx
      · exact hbelow x hx
      · rw [mem_singleton.mp hx]
        exact hlt
    · rw [if_neg hlt]
      have hne : xs ≠ [] := by
        rintro rfl
        have hfirst := h.first
        simp only [nil_append, map_cons, head?_cons, Option.some.injEq] at hfirst
        omega
      obtain ⟨zs, rfl⟩ := getLast?_eq_some_iff.mp (hprev.resolve_left hne)
      refine ⟨zs, prev, y, ys, by simp, rfl, hbelow, ?_⟩
      intro z hz
      rcases mem_cons.mp hz with rfl | hz
      · exact not_lt.mp hlt
      · exact le_trans (not_lt.mp hlt) (le_of_lt ((pairwise_cons.mp hasc).1 z hz))

/-! ## What is done there -/

section
omit [DecidableEq α]

lemma mem_keys_iff (h : n.Sorted (zs ++ p :: c :: ws)) (hv : intMin < v ∧ v < intMax)
    (hpart : Parted n.key v (zs ++ [p]) (c :: ws)) :
    v ∈ n.keys (zs ++ p :: c :: ws) ↔ n.key c = v := by
  have hassoc : zs ++ p :: c :: ws = (zs ++ [p]) ++ c :: ws := by simp
  rw [mem_keys, hassoc, hpart.mem_iff (hassoc ▸ h.ascending)]
  simp [hv]

lemma link (n' : Nodes α) (h : n.Sorted (zs ++ p :: c :: ws)) (hv : n.key p < v ∧ v < n.key c)
    (hnull : n'.null = n.null) (hhead : n'.head = n.head)
    (hkey : ∀ x ∈ zs ++ p :: c :: ws, n'.key x = n.key x) (hq : n'.key q = v) (hp : n'.next p = q)
    (hc : n'.next q = c) (hnext : ∀ x ∈ zs ++ p :: c :: ws, x ≠ p → n'.next x = n.next x)
    (hused : ∀ x ∈ zs ++ p :: q :: c :: ws, x ∈ n'.used) :
    n'.Sorted (zs ++ p :: q :: c :: ws) ∧
      ∀ k, k ∈ (zs ++ p :: q :: c :: ws).map n'.key ↔ k = v ∨ k ∈ (zs ++ p :: c :: ws).map n.key := by
  have hmap : (zs ++ p :: q :: c :: ws).map n'.key =
      zs.map n.key ++ n.key p :: v :: (c :: ws).map n.key := by
    rw [map_append, map_cons, map_cons, hq, hkey p (by simp),
      map_congr_left fun x hx => hkey x (mem_append_left _ hx),
      map_congr_left fun x hx =>
        hkey x (mem_append_right _ (mem_cons_of_mem p hx))]
  refine ⟨⟨?_, ?_, ?_, ?_, hused⟩, ?_⟩
  · rw [hnull, hhead]
    exact h.list.insert h.nodup hp (hc.trans h.list.next_eq.symm) hnext
  · have hs := h.ascending
    unfold Ascending at hs ⊢
    rw [← pairwise_map] at hs ⊢
    rw [hmap]
    simp only [map_append, map_cons, pairwise_append, pairwise_cons,
      mem_cons] at hs ⊢
    obtain ⟨hzs, ⟨hpw, hcw, hws⟩, hall⟩ := hs
    refine ⟨hzs, ⟨?_, ?_, hcw, hws⟩, ?_⟩
    · rintro k (rfl | hk)
      · exact hv.1
      · exact hpw k hk
    · rintro k (rfl | hk)
      · exact hv.2
      · exact lt_trans hv.2 (hcw k hk)
    · intro k hk k' hk'
      rcases hk' with rfl | rfl | hk'
      · exact hall k hk _ (.inl rfl)
      · exact lt_trans (hall k hk _ (.inl rfl)) hv.1
      · exact hall k hk k' (.inr hk')
  · rw [hmap]
    have hfirst := h.first
    cases zs <;> simpa using hfirst
  · rw [hmap]
    have hlast := h.last
    simpa [getLast?_append, getLast?_cons] using hlast
  · intro k
    rw [hmap]
    simp only [map_append, map_cons, mem_append, mem_cons]
    tauto

lemma unlink (n' : Nodes α) (h : n.Sorted (zs ++ p :: c :: ws)) (hmax : n.key c < intMax)
    (hnull : n'.null = n.null) (hhead : n'.head = n.head) (hkey : n'.key = n.key)
    (hp : n'.next p = n.next c) (hnext : ∀ x ∈ zs ++ p :: c :: ws, x ≠ p → n'.next x = n.next x)
    (hused : ∀ x ∈ zs ++ p :: ws, x ∈ n'.used) :
    n'.Sorted (zs ++ p :: ws) ∧ ∃ ws', ws = n.next c :: ws' := by
  have hne : ws ≠ [] := by
    rintro rfl
    have hlast := h.last
    simp only [map_append, map_cons, map_nil, getLast?_append,
      getLast?_cons_cons, getLast?_singleton, Option.some_or, Option.some.injEq] at hlast
    omega
  obtain ⟨w, ws, rfl⟩ := exists_cons_of_ne_nil hne
  have hlist := h.list
  rw [append_cons] at hlist
  have hcw : n.next c = w := hlist.next_eq
  have hsub : (zs ++ p :: w :: ws).Sublist (zs ++ p :: c :: w :: ws) :=
    (List.Sublist.refl zs).append ((sublist_cons_self c _).cons_cons p)
  refine ⟨⟨?_, ?_, ?_, ?_, hused⟩, ws, by rw [hcw]⟩
  · rw [hnull, hhead]
    exact h.list.remove h.nodup hp hnext
  · rw [hkey]
    exact h.ascending.sublist hsub
  · rw [hkey]
    have hfirst := h.first
    cases zs <;> simpa using hfirst
  · rw [hkey]
    have hlast := h.last
    simpa [getLast?_append, getLast?_cons] using hlast

lemma key_notMem (h : n.Sorted (zs ++ p :: c :: ws)) : n.key c ∉ (zs ++ p :: ws).map n.key := by
  have hkeys := h.ascending.nodup_keys
  rw [map_append, map_cons, map_cons, nodup_append, nodup_cons,
    nodup_cons] at hkeys
  obtain ⟨-, ⟨hp, hc, -⟩, hd⟩ := hkeys
  rw [map_append, map_cons, mem_append, mem_cons]
  rintro (hmem | hmem | hmem)
  · exact hd _ hmem _ (by simp) rfl
  · exact hp (by simp [hmem])
  · exact hc hmem

end

section
variable (h : n.Sorted (zs ++ p :: c :: ws)) (hv : intMin < v ∧ v < intMax)
  (hpart : Parted n.key v (zs ++ [p]) (c :: ws))
include h hv hpart

lemma act_add (hc : n.key c ≠ v) :
    ∃ n' q, n.act M .add v p c = some (n', q, true) ∧ n'.Sorted (zs ++ p :: q :: c :: ws) ∧
      n'.keys (zs ++ p :: q :: c :: ws) = insert v (n.keys (zs ++ p :: c :: ws)) ∧
      ∀ x ∈ zs ++ [p], n'.key x < v := by
  have hq : M.new n.used ∉ zs ++ p :: c :: ws := fun hmem => M.fresh _ (h.used _ hmem)
  generalize hq' : M.new n.used = q at hq
  have hpused : p ∈ q :: n.used := mem_cons_of_mem _ (h.used p (by simp))
  have hne : ∀ x ∈ zs ++ p :: c :: ws, x ≠ q := by
    rintro x hx rfl
    exact hq hx
  have hkey : ∀ x ∈ zs ++ p :: c :: ws, update n.key q v x = n.key x :=
    fun x hx => update_of_ne (hne x hx) ..
  have hp : update (update (update n.next q n.null) p q) q c p = q :=
    (update_of_ne (hne p (by simp)) ..).trans (update_self ..)
  have hnext : ∀ x ∈ zs ++ p :: c :: ws, x ≠ p →
      update (update (update n.next q n.null) p q) q c x = n.next x := by
    intro x hx hxp
    have hxq := hne x hx
    rw [update_of_ne hxq, update_of_ne hxp, update_of_ne hxq]
  have hused : ∀ x ∈ zs ++ p :: q :: c :: ws, x ∈ q :: n.used := by
    intro x hx
    by_cases hxq : x = q
    · rw [hxq]
      exact mem_cons_self
    · refine mem_cons_of_mem _ (h.used x ?_)
      simpa [hxq] using hx
  obtain ⟨hsorted, hmem⟩ := h.link
    ⟨n.null, n.head, update n.key q v,
      update (update (update n.next q n.null) p q) q c, q :: n.used⟩
    ⟨hpart.below p (by simp), lt_of_le_of_ne (hpart.above c (by simp)) (Ne.symm hc)⟩ rfl rfl hkey
    (update_self ..) hp (update_self ..) hnext hused
  refine ⟨_, q, ?_, hsorted, ?_, ?_⟩
  · simp only [act, getNewNode, hq']
    rw [if_pos hc, if_pos hpused]
  · ext k
    rw [Finset.mem_insert, mem_keys, mem_keys, hmem]
    constructor
    · tauto
    · rintro (rfl | hk)
      · exact ⟨.inl rfl, hv⟩
      · exact ⟨.inr hk.1, hk.2⟩
  · intro x hx
    change update n.key q v x < v
    rw [hkey x (by rw [append_cons]; exact mem_append_left _ hx)]
    exact hpart.below x hx

lemma act_del (hc : n.key c = v) :
    ∃ n' w ws', ws = w :: ws' ∧ n.act M .del v p c = some (n', w, true) ∧
      n'.Sorted (zs ++ p :: ws) ∧
      n'.keys (zs ++ p :: ws) = (n.keys (zs ++ p :: c :: ws)).erase v ∧
      ∀ x ∈ zs ++ [p], n'.key x < v := by
  have hnot := hc ▸ h.key_notMem
  have hmap : ∀ k, k ∈ (zs ++ p :: c :: ws).map n.key ↔ k = v ∨ k ∈ (zs ++ p :: ws).map n.key := by
    intro k
    simp only [map_append, map_cons, mem_append, mem_cons, hc]
    tauto
  have hused : ∀ x ∈ zs ++ p :: ws, x ∈ n.used.erase c := by
    intro x hx
    have hxc : x ≠ c := by
      rintro rfl
      exact hnot (hc ▸ mem_map_of_mem hx)
    refine (mem_erase_of_ne hxc).mpr (h.used x ?_)
    simp only [mem_append, mem_cons] at hx ⊢
    tauto
  obtain ⟨hsorted, ws', hws⟩ := h.unlink
    ⟨n.null, n.head, n.key, update n.next p (n.next c), n.used.erase c⟩
    (hc.trans_lt hv.2) rfl rfl rfl (update_self ..)
    (fun x _ hx => update_of_ne hx ..) hused
  refine ⟨_, n.next c, ws', hws, ?_, hsorted, ?_, hpart.below⟩
  · simp only [act]
    rw [if_pos hc, if_pos (h.used p (by simp)), update_self]
  · ext k
    rw [Finset.mem_erase, mem_keys, mem_keys, hmap]
    constructor
    · rintro ⟨hk, hrange⟩
      refine ⟨?_, .inr hk, hrange⟩
      rintro rfl
      exact hnot hk
    · rintro ⟨hkv, hk, hrange⟩
      exact ⟨hk.resolve_left hkv, hrange⟩

end

lemma act_eq (M : Malloc α) (h : n.Sorted (zs ++ p :: c :: ws)) (hv : intMin < v ∧ v < intMax)
    (hpart : Parted n.key v (zs ++ [p]) (c :: ws)) (op : Op) :
    ∃ n' c' ws', n.act M op v p c =
        some (n', c', (op.toSetOp v).answer (n.keys (zs ++ p :: c :: ws))) ∧
      n'.Sorted (zs ++ p :: c' :: ws') ∧
      n'.keys (zs ++ p :: c' :: ws') = (op.toSetOp v).after (n.keys (zs ++ p :: c :: ws)) ∧
      (∀ x ∈ zs ++ [p], n'.key x < v) ∧ ws'.length ≤ ws.length + 1 := by
  have hmem := h.mem_keys_iff hv hpart
  cases op with
  | contain =>
    refine ⟨n, c, ws, ?_, h, rfl, hpart.below, Nat.le_succ _⟩
    simp only [act, Op.toSetOp, SetOp.answer, hmem]
  | add =>
    by_cases hc : n.key c = v
    · refine ⟨n, c, ws, ?_, h, ?_, hpart.below, Nat.le_succ _⟩
      · simp [act, Op.toSetOp, SetOp.answer, hmem, hc]
      · exact (Finset.insert_eq_of_mem (hmem.mpr hc)).symm
    · obtain ⟨n', q, hact, hsorted, hkeys, hbelow⟩ := h.act_add (M := M) hv hpart hc
      refine ⟨n', q, c :: ws, ?_, hsorted, hkeys, hbelow, Nat.le_refl _⟩
      rw [hact]
      simp [Op.toSetOp, SetOp.answer, hmem, hc]
  | del =>
    by_cases hc : n.key c = v
    · obtain ⟨n', w, ws', rfl, hact, hsorted, hkeys, hbelow⟩ := h.act_del (M := M) hv hpart hc
      refine ⟨n', w, ws', ?_, hsorted, hkeys, hbelow, ?_⟩
      · rw [hact]
        simp [Op.toSetOp, SetOp.answer, hmem, hc]
      · rw [length_cons]
        omega
    · refine ⟨n, c, ws, ?_, h, ?_, hpart.below, Nat.le_succ _⟩
      · simp [act, Op.toSetOp, SetOp.answer, hmem, hc]
      · exact (Finset.erase_eq_of_notMem (mt hmem.mp hc)).symm

end Sorted

end Nodes

end SmcPim.FlatCombining
