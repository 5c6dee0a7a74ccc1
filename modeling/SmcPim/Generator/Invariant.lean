import SmcPim.FineList.Steps
import SmcPim.Generator.Model

/-! # The list under one lock -/

namespace SmcPim.Generator

open List Function FineList

open FineList (Ends Heap Linked Reached Gap Found Private)

variable {α τ : Type} {E : Ends α} {h : Heap α ℕ (Option τ)} {nodes : List α}

def Knows (E : Ends α) (h : Heap α ℕ (Option τ)) (nodes : List α) (op : SetOp ℕ) : Loc α → Prop
  | .lock | .first | .unlock _ => True
  | .test pred curr => Reached E h nodes op.key pred ∧ h.next pred = curr
  | .advance curr => Reached E h nodes op.key curr
  | .create pred curr => Gap E h nodes op.key pred curr ∧ op = .add op.key
  | .setNext pred curr node1 =>
    Gap E h nodes op.key pred curr ∧ op = .add op.key ∧ Private E h nodes node1 ∧ h.data node1 = op.key
  | .link pred curr node1 =>
    Gap E h nodes op.key pred curr ∧ op = .add op.key ∧ Private E h nodes node1 ∧ h.data node1 = op.key ∧
      h.next node1 = curr
  | .readNext pred curr => Found E h nodes op.key pred curr ∧ op = .remove op.key
  | .unlink pred curr succ => Found E h nodes op.key pred curr ∧ op = .remove op.key ∧ h.next curr = succ
  | .delete curr => Private E h nodes curr

def Pc.Inside : Pc α → Prop
  | .busy _ .lock => False
  | .busy _ _ => True
  | _ => False

def Pc.Knows (E : Ends α) (h : Heap α ℕ (Option τ)) (nodes : List α) : Pc α → Prop
  | .busy op loc => Generator.Knows E h nodes op loc
  | _ => True

def Pc.Keyed : Pc α → Prop
  | .room key => key ≠ 0
  | .busy op _ | .report op _ | .resize op _ => op.key ≠ 0
  | _ => True

/-- The operation that is done but not in the log. -/
def Pc.unlogged : Pc α → List (Entry ℕ)
  | .busy op (.unlock r) | .report op r => [⟨op, r⟩]
  | .busy op (.delete _) => [⟨op, true⟩]
  | _ => []

lemma Pc.inside_busy {op : SetOp ℕ} {loc : Loc α} (hloc : loc ≠ .lock) : (Pc.busy op loc).Inside := by
  cases loc <;> trivial

lemma Pc.knows_of_outside {p : Pc α} (hp : ¬p.Inside) : p.Knows E h nodes := by
  cases p with
  | busy op loc => cases loc <;> first | trivial | exact absurd trivial hp
  | _ => trivial

/-! ## The record -/

section
variable [DecidableEq τ]

structure Record (log : Option τ → List (Entry ℕ)) (mainDone : Bool) (S : Finset ℕ) (m : List (τ × Entry ℕ)) : Prop where
  keyed : ∀ who, ∀ e ∈ log who, e.op.key ≠ 0
  alone : mainDone = false → m = []
  merges : Merges (fun t => log (some t)) m
  answered : Answered ∅ (log none ++ m.map Prod.snd)
  final : SetOp.final ∅ ((log none ++ m.map Prod.snd).map Entry.op) = S

variable {log log' : Option τ → List (Entry ℕ)} {b : Bool} {S : Finset ℕ} {m : List (τ × Entry ℕ)} {who : Option τ}
  {e : Entry ℕ}

lemma Record.keyed_all (h : Record log b S m) : ∀ e ∈ log none ++ m.map Prod.snd, e.op.key ≠ 0 := by
  intro e he
  rcases mem_append.mp he with he | he
  · exact h.keyed none e he
  · obtain ⟨x, hx, rfl⟩ := mem_map.mp he
    exact h.keyed (some x.1) x.2 (h.merges.mem_log hx)

lemma Record.append (h : Record log b S m) (hwho : who.isSome = b) (hkey : e.op.key ≠ 0)
    (hres : e.op.answer S = e.res) :
    ∃ m', Record (update log who (log who ++ [e])) b (e.op.after S) m' := by
  have hkeyed : ∀ u, ∀ e' ∈ update log who (log who ++ [e]) u, e'.op.key ≠ 0 := by
    intro u e' he'
    by_cases hu : u = who
    · rw [hu, update_self, mem_append, mem_singleton] at he'
      rcases he' with he' | rfl
      · exact h.keyed who e' he'
      · exact hkey
    · rw [update_of_ne hu] at he'
      exact h.keyed u e' he'
  cases who with
  | none =>
    have hm := h.alone hwho.symm
    subst hm
    have hlog : update log none (log none ++ [e]) none ++ map Prod.snd ([] : List (τ × Entry ℕ)) =
        log none ++ [e] := by simp
    refine ⟨[], hkeyed, fun _ => rfl, fun t => ?_, ?_, ?_⟩
    · exact (h.merges t).trans (update_of_ne (by simp) ..).symm
    · rw [hlog, answered_concat]
      have hanswered := h.answered
      have hfinal := h.final
      rw [map_nil, append_nil] at hanswered hfinal
      exact ⟨hanswered, by rw [hfinal, hres]⟩
    · have hfinal := h.final
      rw [map_nil, append_nil] at hfinal
      rw [hlog, final_concat, hfinal]
  | some t =>
    have hmerges := h.merges.concat t e
    have hlog : update log (some t) (log (some t) ++ [e]) none ++ (m ++ [(t, e)]).map Prod.snd =
        log none ++ m.map Prod.snd ++ [e] := by
      rw [update_of_ne (by simp), map_append, append_assoc]
      rfl
    refine ⟨m ++ [(t, e)], hkeyed, fun hb => ?_, fun u => ?_, ?_, ?_⟩
    · rw [← hwho] at hb
      cases hb
    · refine (hmerges u).trans ?_
      dsimp only
      by_cases hu : u = t
      · rw [hu, update_self, update_self]
      · rw [update_of_ne hu, update_of_ne (by simpa using hu)]
    · rw [hlog, answered_concat, h.final]
      exact ⟨h.answered, hres⟩
    · rw [hlog, final_concat, h.final]

end

/-! ## The invariant -/

def State.logged (s : State α τ) (who : Option τ) : List (Entry ℕ) := s.log who ++ (s.pc who).unlogged

structure Inv [DecidableEq τ] (E : Ends α) (s : State α τ) (nodes : List α) : Prop where
  linked : Linked E s.heap nodes
  locked : ∀ who, (s.pc who).Inside → s.heap.lock E.head = some who
  knows : ∀ who, (s.pc who).Knows E s.heap nodes
  keyed : ∀ who, (s.pc who).Keyed
  record : ∃ m, Record s.logged (s.pc none).isDone (FineList.keys s.heap nodes) m

section
variable [DecidableEq τ] {s s' : State α τ} {nodes' : List α} {who : Option τ} {p : Pc α} {op : SetOp ℕ} {loc : Loc α}

lemma logged_eq (hpc : s'.pc = update s.pc who p) (hlog : s'.log = s.log) :
    s'.logged = update s.logged who (s.log who ++ p.unlogged) := by
  funext u
  unfold State.logged
  rw [hpc, hlog]
  by_cases hu : u = who
  · rw [hu, update_self, update_self]
  · rw [update_of_ne hu, update_of_ne hu]

lemma logged_same (hpc : s'.pc = update s.pc who p) (hlog : s'.log = s.log)
    (hp : p.unlogged = (s.pc who).unlogged) : s'.logged = s.logged := by
  rw [logged_eq hpc hlog, hp]
  exact update_eq_self who s.logged

namespace Inv

lemma outside (hinv : Inv E s nodes) (hwho : (s.pc who).Inside) {u : Option τ} (hu : u ≠ who) :
    ¬(s.pc u).Inside := by
  intro hu'
  exact hu (Option.some.inj ((hinv.locked u hu').symm.trans (hinv.locked who hwho)))

lemma key_ne (hinv : Inv E s nodes) (ht : s.pc who = .busy op loc) : op.key ≠ 0 := by
  have hkeyed := hinv.keyed who
  rwa [ht] at hkeyed

lemma record_same (hinv : Inv E s nodes) (hlogged : s'.logged = s.logged)
    (hkeys : keys s'.heap nodes = keys s.heap nodes) :
    ∃ m, Record s'.logged (s.pc none).isDone (keys s'.heap nodes) m := by
  rw [hlogged, hkeys]
  exact hinv.record

section
variable (hinv : Inv E s nodes) (hturn : who.isSome = (s.pc none).isDone)
  (hpc : s'.pc = Function.update s.pc who p)
include hinv hturn hpc

lemma move (hlinked : Linked E s'.heap nodes')
    (hothers : ∀ u, u ≠ who → (s.pc u).Inside → s'.heap = s.heap ∧ nodes' = nodes)
    (hlocked : p.Inside → s'.heap.lock E.head = some who) (hknows : p.Knows E s'.heap nodes') (hkeyed : p.Keyed)
    (hrecord : ∃ m, Record s'.logged (s.pc none).isDone (keys s'.heap nodes') m) : Inv E s' nodes' := by
  have hself : s'.pc who = p := by rw [hpc, update_self]
  have hother {u : Option τ} (hu : u ≠ who) : s'.pc u = s.pc u := by rw [hpc, update_of_ne hu]
  refine ⟨hlinked, fun u => ?_, fun u => ?_, fun u => ?_, ?_⟩
  · by_cases hu : u = who
    · rw [hu, hself]
      exact hlocked
    · rw [hother hu]
      intro hin
      rw [(hothers u hu hin).1]
      exact hinv.locked u hin
  · by_cases hu : u = who
    · rw [hu, hself]
      exact hknows
    · rw [hother hu]
      by_cases hin : (s.pc u).Inside
      · obtain ⟨hheap, rfl⟩ := hothers u hu hin
        rw [hheap]
        exact hinv.knows u
      · exact Pc.knows_of_outside hin
  · by_cases hu : u = who
    · rw [hu, hself]
      exact hkeyed
    · rw [hother hu]
      exact hinv.keyed u
  · obtain ⟨m, hm⟩ := hrecord
    refine ⟨m, { hm with alone := fun hdone => hm.alone ?_ }⟩
    cases who with
    | none => exact hturn.symm
    | some t => rwa [hother (by simp)] at hdone

lemma plain (hheap : s'.heap = s.heap) (hlogged : s'.logged = s.logged)
    (hp : ¬p.Inside) (hkeyed : p.Keyed) : Inv E s' nodes := by
  exact hinv.move hturn hpc (hheap ▸ hinv.linked) (fun _ _ _ => ⟨hheap, rfl⟩) (fun hin => absurd hin hp)
    (Pc.knows_of_outside hp) hkeyed (hinv.record_same hlogged (by rw [hheap]))

end

variable {h' : Heap α ℕ (Option τ)}

section
variable (hinv : Inv E s nodes) (hturn : who.isSome = (s.pc none).isDone)
  (ht : s.pc who = .busy op loc) (hloc : loc ≠ .lock)
include hinv hturn ht hloc

lemma stay (hlinked : Linked E h' nodes) (hlock : h'.lock = s.heap.lock)
    (hkeys : keys h' nodes = keys s.heap nodes) {loc' : Loc α} (hknows : Knows E h' nodes op loc')
    (hlogged : (Pc.busy op loc').unlogged = (Pc.busy op loc).unlogged) :
    Inv E { s.goto who (.busy op loc') with heap := h' } nodes := by
  have hin : (s.pc who).Inside := ht ▸ Pc.inside_busy hloc
  refine hinv.move hturn rfl hlinked (fun u hu hin' => absurd hin' (hinv.outside hin hu)) (fun _ => ?_) hknows
    (hinv.key_ne ht) (hinv.record_same (logged_same rfl rfl (by rw [ht, hlogged])) hkeys)
  exact (congrFun hlock E.head).trans (hinv.locked who hin)

lemma take (hpending : (Pc.busy op loc).unlogged = []) (hlinked : Linked E h' nodes')
    (hlock : h'.lock = s.heap.lock) (hkeys : keys h' nodes' = op.after (keys s.heap nodes))
    {loc' : Loc α} (hknows : Knows E h' nodes' op loc')
    (hlogged : (Pc.busy op loc').unlogged = [⟨op, op.answer (keys s.heap nodes)⟩]) :
    Inv E { s.goto who (.busy op loc') with heap := h' } nodes' := by
  have hin : (s.pc who).Inside := ht ▸ Pc.inside_busy hloc
  refine hinv.move hturn rfl hlinked (fun u hu hin' => absurd hin' (hinv.outside hin hu)) (fun _ => ?_) hknows
    (hinv.key_ne ht) ?_
  · exact (congrFun hlock E.head).trans (hinv.locked who hin)
  · have hbefore : s.logged who = s.log who := by
      unfold State.logged
      rw [ht, hpending, append_nil]
    have hafter : ({ s.goto who (.busy op loc') with heap := h' } : State α τ).logged =
        update s.logged who (s.logged who ++ [⟨op, op.answer (keys s.heap nodes)⟩]) := by
      rw [hbefore, ← hlogged]
      exact logged_eq rfl rfl
    obtain ⟨m, hm⟩ := hinv.record
    rw [hafter, hkeys]
    exact hm.append hturn (hinv.key_ne ht) rfl

end

end Inv

end

end SmcPim.Generator
