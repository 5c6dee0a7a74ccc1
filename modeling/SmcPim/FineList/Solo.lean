import SmcPim.FineList.Steps
import SmcPim.Lib.While

/-! # One thread alone -/

namespace SmcPim.FineList

open Function Finset SetOp

structure NewNode (α : Type) where
  new : Finset α → α
  fresh : ∀ live, new live ∉ live

def Loc.isBusy {α : Type} : Loc α → Bool
  | .ret _ => false
  | _ => true

section
variable {α κ τ : Type} [DecidableEq α] [LinearOrder κ] (E : Ends α) (t : τ) (A : NewNode α) (op : SetOp κ)

def soloStep (s : Heap α κ τ × Loc α) : Heap α κ τ × Loc α :=
  let n := A.new s.1.live
  match (instr E op s.2).bind (exec s.1 t n) with
  | none => s
  | some heap => (heap, goto E s.1 op n s.2)

def Comes : Heap α κ τ × Loc α → Heap α κ τ × Loc α → Prop := Leads (fun s => s.2.isBusy) (soloStep E t A op)

/-- The call, made on `h`, ends with the answer `r` and leaves `h'`. -/
def Returns (h h' : Heap α κ τ) (r : Bool) : Prop := Comes E t A op (h, .lockHead) (h', .ret r)

end

/-! ## The locks -/

section
variable {α κ τ : Type} [DecidableEq α] {t : τ} {S : Finset α} {p : α}

def locks (t : τ) (S : Finset α) (q : α) : Option τ := if q ∈ S then some t else none

def Heap.locked (h : Heap α κ τ) (t : τ) (S : Finset α) : Heap α κ τ := { h with lock := locks t S }

lemma locks_of_notMem (hp : p ∉ S) : locks t S p = none := if_neg hp

lemma update_locks_some : update (locks t S) p (some t) = locks t (insert p S) := by
  funext q
  by_cases hq : q = p <;> simp [locks, hq]

lemma update_locks_none : update (locks t S) p none = locks t (S.erase p) := by
  funext q
  by_cases hq : q = p <;> simp [locks, hq]

end

variable {α κ τ : Type} [DecidableEq α] [LinearOrder κ] {E : Ends α} {t : τ} {A : NewNode α} {op : SetOp κ}
  {h h' : Heap α κ τ} {nodes : List α} {S : Finset α} {loc : Loc α} {p c n : α} {x : κ} {r : Bool}
  {s u : Heap α κ τ × Loc α}

structure Quiet (E : Ends α) (h : Heap α κ τ) (nodes : List α) : Prop extends Linked E h nodes where
  free : ∀ p, h.lock p = none

lemma Quiet.locked_empty (hq : Quiet E h nodes) (t : τ) : h.locked t ∅ = h := by
  have hlock : locks t ∅ = h.lock := funext fun p => (hq.free p).symm
  rw [Heap.locked, hlock]

lemma Linked.quiet (hl : Linked E h nodes) (t : τ) : Quiet E
    (h.locked t ∅) nodes := ⟨hl.relock _, fun _ => rfl⟩

/-! ## The steps -/

lemma goto_locked : goto E (h.locked t S) op n loc = goto E h op n loc := by
  cases loc with
  | test => cases op <;> rfl
  | _ => rfl

namespace Comes

lemma step {i : Instr α κ} (hi : instr E op loc = some i)
    (hexec : exec (h.locked t S) t (A.new h.live) i = some h')
    (hu : Comes E t A op (h', goto E h op (A.new h.live) loc) u) : Comes E t A op (h.locked t S, loc) u := by
  refine Leads.turn ?_ ?_
  · cases loc <;> first | rfl | cases hi
  · have hstep : soloStep E t A op (h.locked t S, loc) = (h', goto E (h.locked t S) op (A.new h.live) loc) := by
      simp only [soloStep, hi, Option.bind_some]
      rw [show (h.locked t S).live = h.live from rfl, hexec]
    rw [hstep, goto_locked]
    exact hu

lemma lock (hi : instr E op loc = some (.lock p)) (hp : p ∉ S)
    (hu : Comes E t A op (h.locked t (insert p S), goto E h op (A.new h.live) loc) u) :
    Comes E t A op (h.locked t S, loc) u := by
  refine step hi ?_ hu
  simp only [exec, Heap.locked, locks_of_notMem hp, update_locks_some, if_true]

lemma unlock (hi : instr E op loc = some (.unlock p))
    (hu : Comes E t A op (h.locked t (S.erase p), goto E h op (A.new h.live) loc) u) :
    Comes E t A op (h.locked t S, loc) u := by
  refine step hi ?_ hu
  simp only [exec, Heap.locked, update_locks_none]

lemma create (hn : A.new h.live ∉ S)
    (hu : Comes E t A op (({ h with data := update h.data (A.new h.live) op.key
                                    live := insert (A.new h.live) h.live } : Heap α κ τ).locked t S,
      .setNext p c (A.new h.live)) u) :
    Comes E t A op (h.locked t S, .create p c) u := by
  refine step rfl ?_ hu
  simp only [exec, Heap.locked, A.fresh, update_locks_none, erase_eq_of_notMem hn, if_false]

lemma write {q : α} (hi : instr E op loc = some (.writeNext p q))
    (hu : Comes E t A op (({ h with next := update h.next p q } : Heap α κ τ).locked t S,
      goto E h op (A.new h.live) loc) u) :
    Comes E t A op (h.locked t S, loc) u :=
  step hi rfl hu

lemma delete
    (hu : Comes E t A op (({ h with live := h.live.erase c } : Heap α κ τ).locked t S, .unlockLast p true) u) :
    Comes E t A op (h.locked t S, .delete p c) u :=
  step rfl rfl hu

lemma unlockLast : Comes E t A op (h.locked t {c}, .unlockLast c r) (h.locked t ∅, .ret r) := by
  refine unlock rfl ?_
  rw [erase_singleton]
  exact Leads.stop rfl

lemma unlockBoth (hne : p ≠ c) :
    Comes E t A op (h.locked t {p, c}, .unlockBoth p c r) (h.locked t ∅, .ret r) := by
  refine unlock rfl ?_
  rw [erase_insert (by simpa using hne)]
  exact unlockLast

end Comes

/-! ## The searches -/

omit [DecidableEq α] in
lemma Linked.walk (hl : Linked E h nodes) (P : α → Prop)
    (hstep : ∀ p, Reached E h nodes x p →
      (h.next p ≠ E.tail → h.data (h.next p) < x → P (h.next p)) → P p) : P E.head := by
  have hall : ∀ ys xs p, E.head :: nodes = xs ++ p :: ys → p = E.head ∨ h.data p < x → P p := by
    intro ys
    induction ys with
    | nil =>
      intro xs p heq hp
      have hnext := (heq ▸ hl.list).next_eq
      exact hstep p ⟨by simp [heq], hp⟩ fun hne => absurd hnext hne
    | cons y ys ih =>
      intro xs p heq hp
      have hnext : h.next p = y := (heq ▸ hl.list).next_eq
      refine hstep p ⟨by simp [heq], hp⟩ fun _ hlt => ?_
      rw [hnext] at hlt ⊢
      exact ih (xs ++ [p]) y (by simp [heq]) (.inr hlt)
  exact hall nodes [] E.head rfl (.inl rfl)

/-- The call comes to its end, and has then done what it is to do to the set of the keys. -/
def Finishes (E : Ends α) (t : τ) (A : NewNode α) (op : SetOp κ) (h : Heap α κ τ) (nodes : List α)
    (s : Heap α κ τ × Loc α) : Prop :=
  ∃ h' nodes', Comes E t A op s (h', .ret (op.answer (keys h nodes))) ∧ Quiet E h' nodes' ∧
    keys h' nodes' = op.after (keys h nodes)

lemma Linked.finishes (hl : Linked E h nodes) (hafter : op.after (keys h nodes) = keys h nodes)
    (hu : Comes E t A op s (h.locked t ∅, .ret (op.answer (keys h nodes)))) : Finishes E t A op h nodes s :=
  ⟨h.locked t ∅, nodes, hu, hl.quiet t, hafter.symm⟩

lemma Linked.finishes_create (hl : Linked E h nodes) (hgap : Gap E h nodes x p c)
    (hnot : x ∉ keys h nodes) :
    Finishes E t A (.add x) h nodes (h.locked t {p, c}, .create p c) := by
  have hfresh := A.fresh h.live
  have hp : p ∈ h.live := hl.live p (List.mem_append_left _ hgap.1.1)
  have hc : c ∈ h.live := hl.mem_live (hgap.2.1 ▸ hl.next_mem hgap.1.1)
  have hne : p ≠ c := fun heq => hl.next_ne hgap.1.1 (hgap.2.1.trans heq.symm)
  have hn : A.new h.live ∉ ({p, c} : Finset α) := by
    rw [mem_insert, mem_singleton]
    rintro (heq | heq)
    · exact hfresh (heq ▸ hp)
    · exact hfresh (heq ▸ hc)
  obtain ⟨hl1, hkeys, hgap1, hpriv⟩ := hl.new hgap hfresh h.lock
  obtain ⟨hl2, hgap2⟩ := hl1.setNext hgap1 hpriv
  obtain ⟨us, ys, rfl, -, -, hl3⟩ :=
    hl2.link hgap2 hpriv (update_self ..) (update_self ..)
  refine ⟨_, _, ?_, hl3.quiet t, ?_⟩
  · rw [show (add x).answer (keys h (us ++ ys)) = true from decide_eq_true hnot]
    exact .create hn (.write rfl (.write rfl (.unlockBoth hne)))
  · refine (keys_insert (update_self ..)).trans ?_
    exact congrArg (insert x) hkeys

lemma Linked.finishes_readNext (hl : Linked E h nodes) (hf : Found E h nodes x p c) :
    Finishes E t A (.remove x) h nodes (h.locked t {p, c}, .readNext p c) := by
  have hne : p ≠ c := fun heq => hl.next_ne hf.1 (hf.2.1.trans heq.symm)
  have hin := mem_keys hf.2.2.1 hf.2.2.2
  obtain ⟨us, ys, rfl, hl1⟩ := hl.unlink hf
  obtain ⟨hkeys, hpriv⟩ := hl.taken hf.2.2.2
  have hl2 := hl1.delete hpriv
  refine ⟨_, _, ?_, hl2.quiet t, hkeys⟩
  rw [show (remove x).answer (keys h (us ++ c :: ys)) = true from decide_eq_true hin]
  refine .step rfl rfl (.write rfl (.unlock rfl ?_))
  rw [pair_comm, erase_insert (by simpa using hne.symm)]
  exact .delete .unlockLast

lemma Finishes.back {s' : Heap α κ τ × Loc α} (hf : Finishes E t A op h nodes s')
    (hback : ∀ u, Comes E t A op s' u → Comes E t A op s u) : Finishes E t A op h nodes s := by
  obtain ⟨h', nodes', hcomes, hrest⟩ := hf
  exact ⟨h', nodes', hback _ hcomes, hrest⟩

def grip (op : SetOp κ) (p c : α) : Finset α :=
  match op with
  | .contains _ => {c}
  | .add _ | .remove _ => {p, c}

lemma Linked.finishes_test (hl : Linked E h nodes) (hr : Reached E h nodes op.key p)
    (hnext : h.next p = c)
    (hon : c ≠ E.tail → h.data c < op.key → Finishes E t A op h nodes (h.locked t {c}, .advance c)) :
    Finishes E t A op h nodes (h.locked t (grip op p c), branch E h p c op) := by
  have hc : c ∈ nodes ++ [E.tail] := hnext ▸ hl.next_mem hr.1
  have hpc : p ≠ c := hnext ▸ (hl.next_ne hr.1).symm
  rcases compare_spec hc (hnext ▸ hl.past hr) with ⟨hend, hnot⟩ | ⟨⟨htail, hlt, hmem⟩, heq | ⟨hne, hr'⟩⟩
  · rw [branch_end hend]
    cases op with
    | contains x =>
      refine hl.finishes rfl ?_
      rw [show (contains x).answer (keys h nodes) = false from decide_eq_false hnot]
      exact .unlockLast
    | add x => exact hl.finishes_create ⟨hr, hnext, hend⟩ hnot
    | remove x =>
      refine hl.finishes (erase_eq_of_notMem hnot) ?_
      rw [show (remove x).answer (keys h nodes) = false from decide_eq_false hnot]
      exact .unlockBoth hpc
  · have hin := mem_keys hmem heq
    rw [branch_found htail heq]
    cases op with
    | contains x =>
      refine hl.finishes rfl ?_
      rw [show (contains x).answer (keys h nodes) = true from decide_eq_true hin]
      exact .unlockLast
    | add x =>
      refine hl.finishes (insert_eq_of_mem hin) ?_
      rw [show (add x).answer (keys h nodes) = false from decide_eq_false (not_not.mpr hin)]
      exact .unlockBoth hpc
    | remove x => exact hl.finishes_readNext ⟨hr.1, hnext, hmem, heq⟩
  · have hfin := hon htail (lt_of_le_of_ne (not_lt.mp hlt) hne)
    have hrelease : ({p, c} : Finset α).erase p = {c} := erase_insert (by simpa using hpc)
    rw [branch_past htail hlt hne]
    cases op with
    | contains x => exact hfin
    | add x | remove x =>
      refine hfin.back fun u hu => .unlock rfl ?_
      rw [grip, hrelease]
      exact hu

lemma Linked.finishes_advance (hl : Linked E h nodes) (hr : Reached E h nodes op.key p)
    (hon : h.next p ≠ E.tail → h.data (h.next p) < op.key →
      Finishes E t A op h nodes (h.locked t {h.next p}, .advance (h.next p))) :
    Finishes E t A op h nodes (h.locked t {p}, .advance p) := by
  have hpc : h.next p ∉ ({p} : Finset α) := by simpa using hl.next_ne hr.1
  refine (hl.finishes_test hr rfl hon).back fun u hu => ?_
  refine .step rfl rfl (.lock rfl hpc ?_)
  cases op with
  | contains x =>
    refine .unlock rfl (.step rfl rfl ?_)
    rw [pair_comm, erase_insert (by simpa using (hl.next_ne hr.1).symm)]
    exact hu
  | add x | remove x =>
    rw [pair_comm]
    exact .step rfl rfl hu

lemma Quiet.returns (hq : Quiet E h nodes) (t : τ) (A : NewNode α) (op : SetOp κ) :
    ∃ h' nodes', Returns E t A op h h' (op.answer (keys h nodes)) ∧ Quiet E h' nodes' ∧
      keys h' nodes' = op.after (keys h nodes) := by
  obtain ⟨h', nodes', hcomes, hquiet, hkeys⟩ : Finishes E t A op h nodes (h.locked t {E.head}, .advance E.head) :=
    hq.walk (x := op.key) (fun p => Finishes E t A op h nodes (h.locked t {p}, .advance p))
      fun p hr hon => hq.toLinked.finishes_advance hr hon
  refine ⟨h', nodes', ?_, hquiet, hkeys⟩
  rw [Returns, ← hq.locked_empty t]
  exact .lock rfl (notMem_empty _) hcomes

end SmcPim.FineList
