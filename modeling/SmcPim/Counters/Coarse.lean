import SmcPim.Counters.Model
import SmcPim.Generator.Solo

/-!
# The list of the first generator

`CoarseLinkedList.h`, whose operations are made one at a time.
-/

namespace SmcPim.Counters

open FineList (Ends Heap NewNode Linked Quiet)

variable {α τ : Type}

lemma nodes_unique {E : Ends α} {h : Heap α ℕ τ} {nodes nodes' : List α} (hl : Linked E h nodes)
    (hl' : Linked E h nodes') : nodes = nodes' := by
  have htail {ns : List α} (hl : Linked E h ns) : E.tail ∉ E.head :: ns := by
    rw [List.mem_cons, not_or]
    exact ⟨E.ne.symm, hl.tail⟩
  exact List.tail_eq_of_cons_eq (hl.list.unique hl'.list (htail hl) (htail hl'))

def CoarseList (τ : Type) (E : Ends α) : Type := { h : Heap α ℕ (Option τ) // ∃ nodes, Quiet E h nodes }

namespace CoarseList

variable {E : Ends α}

noncomputable def keys (h : CoarseList τ E) : Finset ℕ := FineList.keys h.1 h.2.choose

lemma keys_eq (h : CoarseList τ E) {nodes : List α} (hq : Quiet E h.1 nodes) :
    h.keys = FineList.keys h.1 nodes := by
  rw [keys, nodes_unique h.2.choose_spec.toLinked hq.toLinked]

variable [DecidableEq α] (who : Option τ) (A : NewNode α) (op : SetOp ℕ)

lemma returns (h : CoarseList τ E) :
    ∃ h' : CoarseList τ E, Generator.Returns E who A op h.1 h'.1 (op.answer h.keys) ∧ h'.keys = op.after h.keys := by
  obtain ⟨h', nodes', hret, hq, hkeys⟩ := Generator.returns h.2.choose_spec who A op
  exact ⟨⟨h', nodes', hq⟩, hret, (keys_eq _ hq).trans hkeys⟩

noncomputable def after (h : CoarseList τ E) : CoarseList τ E := (h.returns who A op).choose

lemma after_spec (h : CoarseList τ E) :
    Generator.Returns E who A op h.1 (h.after who A op).1 (op.answer h.keys) ∧
      (h.after who A op).keys = op.after h.keys :=
  (h.returns who A op).choose_spec

lemma init_quiet (E : Ends α) (data : α → ℕ) (next : α → α) :
    Quiet E (Generator.init E data next : Generator.State α τ).heap [] :=
  ⟨(FineList.init_inv E data next).linked, fun _ => rfl⟩

def empty (τ : Type) (E : Ends α) (data : α → ℕ) (next : α → α) : CoarseList τ E :=
  ⟨(Generator.init E data next).heap, [], init_quiet E data next⟩

noncomputable def setList (E : Ends α) (who : Option τ) (A : NewNode α) (data : α → ℕ) (next : α → α) :
    SetList ℕ (CoarseList τ E) where
  empty := empty τ E data next
  keys := keys
  exec op h := (op.answer h.keys, h.after who A op)
  keys_empty := keys_eq (empty τ E data next) (init_quiet E data next)
  answer _ _ := rfl
  after op h := (h.after_spec who A op).2

end CoarseList

end SmcPim.Counters
