import SmcPim.SkipList.Levels

/-! # Requests on the skip list -/

namespace SmcPim.SkipList

open List Function Option

open FlatCombining (Malloc Slot Op intMin intMax)

/-! ## The level of a new node -/

lemma le_climb (fuel x level : ℕ) : level ≤ climb fuel x level := by
  induction fuel generalizing x level with
  | zero => exact le_refl level
  | succ fuel ih =>
    unfold climb
    split
    · exact (Nat.le_succ level).trans (ih (x / 2) (level + 1))
    · exact le_refl level

lemma randomLevel_range {maxLevel : ℕ} (h : 2 ≤ maxLevel) (x : ℕ) :
    0 < randomLevel maxLevel x ∧ randomLevel maxLevel x < maxLevel := by
  have := le_climb x x 2
  unfold randomLevel
  split
  · omega
  · split
    · omega
    · omega

namespace Nodes

variable {α : Type} [DecidableEq α] {n n' : Nodes α} {l xs ys zs : List α} {k : ℤ} {p x : α} {i top : ℕ}

def keys (n : Nodes α) (l : List α) : Finset ℤ := (l.map n.key).toFinset

omit [DecidableEq α] in
@[simp] lemma mem_keys {v : ℤ} : v ∈ n.keys l ↔ ∃ x ∈ l, n.key x = v := by
  simp [keys]

/-! ## The links that are written -/

def linked (n : Nodes α) (p : α) (top : ℕ) : α → ℕ → α := fun q i =>
  if i < top then if q = p then n.succs i else if q = n.preds i then p else n.next q i
  else n.next q i

lemma link_eq (h : ∀ i < top, n.preds i ∈ n.used ∧ n.preds i ≠ p) :
    link p top n = some { n with next := linked n p top } := by
  induction top with
  | zero =>
    unfold link linked
    simp
  | succ top ih =>
    obtain ⟨hused, hne⟩ := h top (by omega)
    unfold link
    rw [ih fun i hi => h i (by omega), bind_some, if_pos hused]
    refine congrArg some (congrArg (fun f => { n with next := f }) (funext fun q => funext fun i => ?_))
    dsimp only [setNext]
    by_cases hi : i = top
    · subst hi
      by_cases hq : q = n.preds i
      · subst hq
        simp [linked, hne]
      · by_cases hqp : q = p
        · subst hqp
          simp [linked, hq]
        · simp [linked, hq, hqp]
    · have hlt : i < top + 1 ↔ i < top := by omega
      by_cases hq : q = n.preds top
      · subst hq
        simp [linked, hne, hi, hlt]
      · by_cases hqp : q = p
        · subst hqp
          simp [linked, hq, hi, hlt]
        · simp [linked, hq, hqp, hlt]

def unlinked (n : Nodes α) (x : α) (top : ℕ) : α → ℕ → α := fun q i =>
  if i < top ∧ q = n.preds i then n.next x i else n.next q i

lemma unlink_eq (h : ∀ i < top, n.preds i ∈ n.used ∧ n.preds i ≠ x) :
    unlink x top n = some { n with next := unlinked n x top } := by
  induction top with
  | zero =>
    unfold unlink unlinked
    simp
  | succ top ih =>
    obtain ⟨hused, hne⟩ := h top (by omega)
    unfold unlink
    rw [ih fun i hi => h i (by omega), bind_some, if_pos hused]
    refine congrArg some (congrArg (fun f => { n with next := f }) (funext fun q => funext fun i => ?_))
    dsimp only [setNext]
    by_cases hi : i = top
    · subst hi
      by_cases hq : q = n.preds i
      · subst hq
        simp [unlinked]
      · simp [unlinked, hq]
    · have hlt : i < top + 1 ↔ i < top := by omega
      by_cases hq : q = n.preds top
      · subst hq
        simp [unlinked, hi, hlt]
      · simp [unlinked, hq, hlt]

/-! ## What `find` leaves -/

section
variable (h : n.Divided k xs ys)
include h

omit [DecidableEq α]

lemma Divided.nodup (i : ℕ) : (n.head :: n.atLevel i (xs ++ ys)).Nodup := by
  have hsub : (n.head :: n.atLevel i (xs ++ ys)).Sublist (n.head :: (xs ++ ys) ++ [n.tail]) :=
    (filter_sublist.cons_cons n.head).trans (sublist_append_left _ _)
  exact (h.sorted.ascending.sublist hsub).nodup_keys.of_map

lemma Divided.pred_mem (ha : n.Around xs ys i) : n.preds i ∈ n.used ∧ n.key (n.preds i) < k := by
  obtain ⟨us, hus⟩ := ha.pred
  have hmem : n.preds i ∈ n.head :: n.atLevel i xs := by
    rw [hus]
    simp
  rcases mem_cons.mp hmem with heq | hmem
  · rw [heq, h.sorted.headKey]
    exact ⟨h.sorted.used _ (by simp), h.range.1⟩
  · have hxs := (mem_atLevel.mp hmem).1
    exact ⟨h.sorted.used _ (by simp [hxs]), h.parted.below _ hxs⟩

lemma Divided.cut (hi : i < n.maxLevel) (ha : n.Around xs ys i) :
    ∃ us, n.head :: n.atLevel i xs = us ++ [n.preds i] ∧
      Chain (fun x => n.next x i) n.head (us ++ n.preds i :: n.atLevel i ys) n.tail ∧
      (us ++ n.preds i :: n.atLevel i ys).Nodup := by
  obtain ⟨us, hus⟩ := ha.pred
  have hlevel : n.head :: n.atLevel i (xs ++ ys) = us ++ n.preds i :: n.atLevel i ys := by
    rw [atLevel_append, ← cons_append, hus, append_assoc]
    rfl
  have hlinked := h.sorted.linked i hi
  have hnodup := h.nodup i
  rw [hlevel] at hlinked hnodup
  exact ⟨us, hus, hlinked, hnodup⟩

lemma Divided.wide : Parted n.key k (n.head :: xs) (ys ++ [n.tail]) ∧
    Ascending n.key ((n.head :: xs) ++ (ys ++ [n.tail])) := by
  constructor
  · refine ⟨fun x hx => ?_, fun y hy => ?_⟩
    · rcases mem_cons.mp hx with rfl | hx
      · rw [h.sorted.headKey]
        exact h.range.1
      · exact h.parted.below x hx
    · rcases mem_append.mp hy with hy | hy
      · exact h.parted.above y hy
      · rw [mem_singleton.mp hy, h.sorted.tailKey]
        exact h.range.2.le
  · have := h.sorted.ascending
    simpa using this

lemma Divided.hit_isSome : (n.hit k ys).isSome ↔ k ∈ n.keys (xs ++ ys) := by
  rw [mem_keys]
  constructor
  · intro hsome
    obtain ⟨y, hy⟩ := isSome_iff_exists.mp hsome
    obtain ⟨zs, rfl, hk⟩ := hit_eq_some.mp hy
    exact ⟨y, by simp, hk⟩
  · rintro ⟨y, hy, hk⟩
    rcases mem_append.mp hy with hy | hy
    · have := h.parted.below y hy
      omega
    · rw [h.hit_of_mem hy hk]
      rfl

end

lemma Divided.link (h : n.Divided k xs ys) (ha : ∀ i < n.maxLevel, n.Around xs ys i)
    (hnone : n.hit k ys = none) (htop : 0 < top) (hmax : top < n.maxLevel) (hp : p ∉ n.used)
    (hhead : n'.head = n.head) (htail : n'.tail = n.tail) (hlevels : n'.maxLevel = n.maxLevel)
    (hkey : ∀ x ∈ n.used, n'.key x = n.key x) (hpkey : n'.key p = k)
    (htops : ∀ x ∈ n.used, n'.topLevel x = n.topLevel x) (hptop : n'.topLevel p = top)
    (hpnext : ∀ i < top, n'.next p i = n.succs i) (hpred : ∀ i < top, n'.next (n.preds i) i = p)
    (hnext : ∀ x ∈ n.used, ∀ i, (i < top → x ≠ n.preds i) → n'.next x i = n.next x i)
    (hused : ∀ x ∈ p :: n.used, x ∈ n'.used) : n'.Sorted (xs ++ p :: ys) := by
  have hin : ∀ x ∈ n.head :: (xs ++ ys) ++ [n.tail], x ∈ n.used := h.sorted.used
  have hxs : ∀ x ∈ xs, x ∈ n.used := fun x hx => hin x (by simp [hx])
  have hys : ∀ x ∈ ys, x ∈ n.used := fun x hx => hin x (by simp [hx])
  refine ⟨?_, ?_, ?_, ?_, ?_, ?_, ?_, ?_⟩
  · intro i hi
    rw [hlevels] at hi
    obtain ⟨us, hus, hchain, hnodup⟩ := h.cut hi (ha i hi)
    have hsame : ∀ x ∈ us ++ n.preds i :: n.atLevel i ys, x ∈ n.used := by
      intro x hx
      have hx' : x ∈ n.head :: n.atLevel i xs ++ n.atLevel i ys := by
        rw [hus, append_assoc]
        exact hx
      refine hin x ?_
      simp only [mem_append, mem_cons, mem_atLevel] at hx' ⊢
      tauto
    have hlist : n'.head :: n'.atLevel i (xs ++ p :: ys) =
        us ++ n.preds i :: (if i < top then p :: n.atLevel i ys else n.atLevel i ys) := by
      rw [hhead, atLevel_append, atLevel_congr fun x hx => htops x (hxs x hx), ← cons_append, hus,
        append_assoc]
      congr 1
      unfold atLevel
      rw [filter_cons, hptop]
      simp only [decide_eq_true_eq]
      rw [filter_congr fun x hx => by rw [htops x (hys x hx)]]
      rfl
    rw [hlist, hhead, htail]
    by_cases hit : i < top
    · rw [if_pos hit]
      refine hchain.insert hnodup (hpred i hit) ?_ fun y hy hne => hnext y (hsame y hy) i fun _ => hne
      obtain ⟨vs, hvs⟩ := (ha i hi).succ
      have hsucc := hchain.next_eq
      simp only [hvs, head_cons] at hsucc
      rw [hpnext i hit]
      exact hsucc.symm
    · rw [if_neg hit]
      exact hchain.congr fun x hx => hnext x (hsame x hx) i fun h => absurd h hit
  · obtain ⟨hpart, hasc⟩ := h.wide
    have hmem : ∀ x ∈ (n.head :: xs) ++ (ys ++ [n.tail]), x ∈ n.used := fun x hx =>
      hin x (by simpa using hx)
    have hnot : k ∉ ((n.head :: xs) ++ (ys ++ [n.tail])).map n'.key := by
      rw [map_congr_left fun x hx => hkey x (hmem x hx), hpart.mem_iff hasc]
      rintro ⟨y, zs, hy, hyk⟩
      cases ys with
      | nil =>
        obtain rfl : n.tail = y := (cons.inj hy).1
        have := h.sorted.tailKey
        have := h.range.2
        omega
      | cons z zs' =>
        obtain rfl : z = y := (cons.inj hy).1
        rw [h.hit_of_mem mem_cons_self hyk] at hnone
        simp at hnone
    have := (hpart.congr fun x hx => hkey x (hmem x hx)).insert
      (hasc.congr fun x hx => hkey x (hmem x hx)) hpkey hnot
    rw [hhead, htail]
    simpa using this
  · rw [hhead, hkey _ (hin _ (by simp)), h.sorted.headKey]
  · rw [htail, hkey _ (hin _ (by simp)), h.sorted.tailKey]
  · rw [hhead, htops _ (hin _ (by simp)), h.sorted.headTop, hlevels]
  · rw [htail, htops _ (hin _ (by simp)), h.sorted.tailTop, hlevels]
  · intro x hx
    rw [hlevels]
    rcases mem_append.mp hx with hx | hx
    · rw [htops x (hxs x hx)]
      exact h.sorted.heights x (mem_append_left _ hx)
    · rcases mem_cons.mp hx with rfl | hx
      · rw [hptop]
        exact ⟨htop, hmax⟩
      · rw [htops x (hys x hx)]
        exact h.sorted.heights x (mem_append_right _ hx)
  · intro x hx
    rw [hhead, htail] at hx
    refine hused x ?_
    rw [mem_cons]
    by_cases hxp : x = p
    · exact .inl hxp
    · exact .inr (hin x (by simp only [mem_append, mem_cons] at hx ⊢; tauto))

lemma Divided.insert (M : Malloc α) (h : n.Divided k xs ys)
    (ha : ∀ i < n.maxLevel, n.Around xs ys i) (hnone : n.hit k ys = none) (htop : 0 < top)
    (hmax : top < n.maxLevel) :
    ∃ n' p, Nodes.link (newNode M k top n).2 top (newNode M k top n).1 = some n' ∧
      n'.Sorted (xs ++ p :: ys) ∧ n'.keys (xs ++ p :: ys) = insert k (n.keys (xs ++ ys)) ∧
      n'.maxLevel = n.maxLevel := by
  have hp : M.new n.used ∉ n.used := M.fresh n.used
  have hne : ∀ x ∈ n.used, x ≠ M.new n.used := fun x hx heq => hp (heq ▸ hx)
  have hpreds : ∀ i < top, n.preds i ∈ n.used := fun i hi => (h.pred_mem (ha i (by omega))).1
  refine ⟨_, M.new n.used, link_eq fun i hi => ⟨mem_cons_of_mem _ (hpreds i hi),
    hne _ (hpreds i hi)⟩, ?_, ?_, rfl⟩
  · refine h.link ha hnone htop hmax hp rfl rfl rfl ?_ ?_ ?_ ?_ ?_ ?_ ?_ fun x hx => hx
    · exact fun x hx => update_of_ne (hne x hx) ..
    · exact update_self ..
    · exact fun x hx => update_of_ne (hne x hx) ..
    · exact update_self ..
    · intro i hi
      simp [linked, hi, newNode]
    · intro i hi
      simp [linked, hi, newNode, hne _ (hpreds i hi)]
    · intro x hx i hi
      by_cases hit : i < top
      · simp [linked, newNode, hit, hne x hx, hi hit]
      · simp [linked, newNode, hit, hne x hx]
  · have hkey : ∀ x ∈ xs ++ ys, update n.key (M.new n.used) k x = n.key x := fun x hx =>
      update_of_ne (hne x (h.sorted.used x
        (mem_append_left _ (mem_cons_of_mem _ hx)))) ..
    have hset := keySet_insert (x := M.new n.used) hkey
    rw [update_self] at hset
    exact hset

lemma Divided.remove (h : n.Divided k xs (x :: zs)) (hk : n.key x = k)
    (ha : ∀ i < n.maxLevel, n.Around xs (x :: zs) i) :
    ∃ n', (unlink x (n.topLevel x) n).map (fun n => { n with used := n.used.erase x }) = some n' ∧
      n'.Sorted (xs ++ zs) ∧ n'.keys (xs ++ zs) = (n.keys (xs ++ x :: zs)).erase k ∧
      n'.maxLevel = n.maxLevel := by
  have hin := h.sorted.used
  have hheight := h.sorted.heights x (by simp)
  have hpreds : ∀ i < n.topLevel x, n.preds i ∈ n.used ∧ n.preds i ≠ x := by
    intro i hi
    obtain ⟨hmem, hlt⟩ := h.pred_mem (ha i (by omega))
    exact ⟨hmem, fun heq => by rw [heq] at hlt; omega⟩
  have hnodup : (xs ++ x :: zs).Nodup := h.sorted.inner.nodup_keys.of_map
  have hxs : ∀ y ∈ xs ++ zs, y ≠ x := by
    rw [nodup_append, nodup_cons] at hnodup
    intro y hy heq
    subst heq
    rcases mem_append.mp hy with hy | hy
    · exact hnodup.2.2 y hy y mem_cons_self rfl
    · exact hnodup.2.1.1 hy
  have hends : n.head ≠ x ∧ n.tail ≠ x := by
    have hbetween := h.sorted.between (show x ∈ xs ++ x :: zs by simp)
    constructor
    · rintro rfl
      have := h.sorted.headKey
      omega
    · rintro rfl
      have := h.sorted.tailKey
      omega
  rw [unlink_eq hpreds, map_some]
  refine ⟨_, rfl, ⟨?_, ?_, h.sorted.headKey, h.sorted.tailKey, h.sorted.headTop, h.sorted.tailTop, ?_, ?_⟩,
    ?_, rfl⟩
  · intro i hi
    obtain ⟨us, hus, hchain, hnodup⟩ := h.cut hi (ha i hi)
    have hlist : n.head :: n.atLevel i (xs ++ zs) = us ++ n.preds i :: n.atLevel i zs := by
      rw [atLevel_append, ← cons_append, hus, append_assoc]
      rfl
    change Chain (fun y => unlinked n x (n.topLevel x) y i) n.head (n.head :: n.atLevel i (xs ++ zs)) n.tail
    rw [hlist]
    by_cases hit : i < n.topLevel x
    · have hcons : n.atLevel i (x :: zs) = x :: n.atLevel i zs := filter_cons_of_pos (by simpa using hit)
      rw [hcons] at hchain hnodup
      refine hchain.remove hnodup ?_ fun y _ hne => ?_
      · simp [unlinked, hit]
      · simp [unlinked, hne]
    · have hcons : n.atLevel i (x :: zs) = n.atLevel i zs := filter_cons_of_neg (by simpa using hit)
      rw [hcons] at hchain
      exact hchain.congr fun y _ => by simp [unlinked, hit]
  · have hsub : (n.head :: (xs ++ zs) ++ [n.tail]).Sublist (n.head :: (xs ++ x :: zs) ++ [n.tail]) :=
      (((sublist_cons_self x zs).append_left xs).cons_cons n.head).append_right _
    exact h.sorted.ascending.sublist hsub
  · intro y hy
    refine h.sorted.heights y ?_
    simp only [mem_append, mem_cons] at hy ⊢
    tauto
  · intro y hy
    have hne : y ≠ x := by
      simp only [mem_append, mem_cons, not_mem_nil, or_false] at hy
      rcases hy with (rfl | hy) | rfl
      · exact hends.1
      · exact hxs y (mem_append.mpr hy)
      · exact hends.2
    refine (mem_erase_of_ne hne).mpr (hin y ?_)
    simp only [mem_append, mem_cons] at hy ⊢
    tauto
  · rw [← hk]
    exact keySet_erase h.sorted.inner.nodup_keys fun _ _ => rfl

lemma Sorted.request (M : Malloc α) (R : Random) (op : Op) (h : n.Sorted l) (hmax : 2 ≤ n.maxLevel)
    (hk : intMin < k ∧ k < intMax) :
    ∃ n' l', Nodes.request M R op k n =
        some (n', if (op.toSetOp k).answer (n.keys l) then 1 else 0) ∧
      n'.Sorted l' ∧ n'.keys l' = (op.toSetOp k).after (n.keys l) ∧ n'.maxLevel = n.maxLevel := by
  obtain ⟨xs, ys, rfl, hdiv⟩ := h.divided hk
  obtain ⟨P, S, hfind, ha⟩ := hdiv.find_eq (by omega)
  have hdiv' := hdiv.arrays P S n.draws
  have hmem := hdiv.hit_isSome
  unfold Nodes.request
  rw [hfind, bind_some]
  cases hhit : n.hit k ys with
  | none =>
    have hnot : k ∉ n.keys (xs ++ ys) := by
      rw [← hmem, hhit]
      simp
    cases op with
    | contain => exact ⟨_, xs ++ ys, by simp [act, SetOp.answer, Op.toSetOp, hnot], hdiv'.sorted, rfl, rfl⟩
    | add =>
      have hrange := randomLevel_range hmax (R.nextInt n.draws (2 ^ n.maxLevel))
      obtain ⟨n', p, hlink, hsorted, hkeys, hlevels⟩ := (hdiv.arrays P S (n.draws + 1)).insert M
        (fun i hi => ⟨(ha i hi).pred, (ha i hi).succ⟩) hhit hrange.1 hrange.2
      refine ⟨n', xs ++ p :: ys, ?_, hsorted, hkeys, hlevels⟩
      dsimp only [act]
      rw [hlink]
      simp [SetOp.answer, Op.toSetOp, hnot]
    | del =>
      refine ⟨_, xs ++ ys, by simp [act, SetOp.answer, Op.toSetOp, hnot], hdiv'.sorted, ?_, rfl⟩
      exact (Finset.erase_eq_of_notMem hnot).symm
  | some x =>
    have hin : k ∈ n.keys (xs ++ ys) := by
      rw [← hmem, hhit]
      rfl
    cases op with
    | contain => exact ⟨_, xs ++ ys, by simp [act, SetOp.answer, Op.toSetOp, hin], hdiv'.sorted, rfl, rfl⟩
    | add =>
      refine ⟨_, xs ++ ys, by simp [act, SetOp.answer, Op.toSetOp, hin], hdiv'.sorted, ?_, rfl⟩
      exact (Finset.insert_eq_of_mem hin).symm
    | del =>
      obtain ⟨zs, rfl, hxk⟩ := hit_eq_some.mp hhit
      obtain ⟨n', hunlink, hsorted, hkeys, hlevels⟩ := hdiv'.remove hxk ha
      refine ⟨n', xs ++ zs, ?_, hsorted, hkeys, hlevels⟩
      obtain ⟨n1, hn1, rfl⟩ := map_eq_some_iff.mp hunlink
      dsimp only [act]
      rw [hn1]
      simp [SetOp.answer, Op.toSetOp, hin]

end Nodes

end SmcPim.SkipList
