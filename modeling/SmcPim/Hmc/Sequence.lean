import SmcPim.Hmc.Commands

/-! # Sequences of HMC commands -/

namespace SmcPim.Hmc

open List Nat Tlb.Params

open Bytes (load store InWord)
open Tlb (Table Ok Front)

variable {p : Tlb.Params} {ranges : List AddrRange} {m m₀ : ℕ → UInt8}
  {T : Table p (words p m₀)} {c : Command} {rest : List Command} {o o₀ : ℕ} {s s' : System}

def Kept (T : Table p (words p m₀)) (m : ℕ → UInt8) : Prop :=
  ∀ b, T.ptr ≤ b ∧ b < T.ptr + T.pages * p.length → m b = m₀ b

lemma Kept.perform (h : Kept T m) (hword : Plain ranges T (c.word T)) (o : ℕ) :
    Kept T (c.perform T ⟨o, m⟩).mem := by
  intro b hb
  rw [perform_other fun hin => hword.table b hin hb]
  exact h b hb

lemma Kept.sameEntries (h : Kept T m) :
    Tlb.SameEntries p T.ptr T.pages (words p m₀) (words p m) := by
  intro k hk
  have hend : T.ptr + k * p.length + p.length ≤ T.ptr + T.pages * p.length := by
    rw [add_assoc, ← succ_mul]
    exact Nat.add_le_add_left (Nat.mul_le_mul_right _ hk) _
  rw [Table.length_eq] at hend
  have hword : ∀ i < 3, words p m (T.ptr + k * p.length + i * p.pimArch.bytes) =
      words p m₀ (T.ptr + k * p.length + i * p.pimArch.bytes) := by
    intro i hi
    have hi' : i * p.pimArch.bytes + p.pimArch.bytes ≤ 3 * p.pimArch.bytes := by
      rw [← succ_mul]
      exact Nat.mul_le_mul_right _ hi
    apply Bytes.load_congr
    intro b hb
    obtain ⟨hlo, hhi⟩ := hb
    apply h
    rw [Table.length_eq] at hlo hhi ⊢
    omega
  have h0 := hword 0 (by omega)
  have h1 := hword 1 (by omega)
  rw [zero_mul, add_zero] at h0
  rw [one_mul] at h1
  unfold readSlice
  rw [h0, h1, hword 2 (by omega)]

inductive Stage (T : Table p (words p m₀)) (o : ℕ) (s : System) : Prop
  | fresh (hop : s.tlb.hmcOperand = o) (htaken : s.taken = none)
      (hheld : s.held = none ∨ ∃ c rest, s.todo = c :: rest ∧ s.held = some (c.sent p o))
  | refused (c : Command) (rest : List Command) (htodo : s.todo = c :: rest)
      (hop : s.tlb.hmcOperand = c.next o) (htaken : s.taken = none)
      (hheld : s.held = some ((c.sent p o).remappedTo (c.word T)))
  | taken (c : Command) (rest : List Command) (states : List SenderState)
      (htodo : s.todo = c :: rest) (hop : s.tlb.hmcOperand = c.next o)
      (htaken : s.taken = some (c.offered T o states)) (hheld : s.held = none)

structure Inv (T : Table p (words p m₀)) (o₀ : ℕ) (done : List Command) (s : System) : Prop where
  front : Front.Inv T ⟨s.tlb, s.refills, []⟩
  mem : s.mem = (performAll T ⟨o₀, m₀⟩ done).mem
  kept : Kept T s.mem
  stage : Stage T (performAll T ⟨o₀, m₀⟩ done).operand s

variable {done : List Command}

variable {refills : List ℕ} {t' : Tlb} {now v paddr : ℕ} {accept : Bool}

lemma Inv.boot {t : Tlb} (h : Front.Inv T ⟨t, refills, []⟩)
    (cs : List Command) : Inv T t.hmcOperand [] (System.boot t refills m₀ cs) :=
  ⟨h, rfl, fun _ _ => rfl, .fresh rfl rfl (.inl rfl)⟩

/-! ## An attempt -/

lemma attempt_sent (htodo : s.todo = c :: rest) (htaken : s.taken = none)
    (heq : s.tlb.recvTimingReq p (words p s.mem) now
        (s.held.getD (c.packet p)) accept =
      .ok (t'.sendTimingReq ((c.sent p o).remappedTo (c.word T)) v accept)) :
    ∃ states, s.attempt p now accept = .ok (if accept then
      { s with tlb := t', held := none, taken := some (c.offered T o states) }
      else { s with tlb := t', held := some ((c.sent p o).remappedTo (c.word T)) }) := by
  obtain ⟨hresp, hinh⟩ : (c.sent p o).needsResponse = true ∧
      (c.sent p o).memInhibitAsserted = false := by
    rcases c with _ | _ | _ <;> exact ⟨rfl, rfl⟩
  refine ⟨.addrMapper v :: (c.sent p o).senderState, ?_⟩
  unfold System.attempt
  rw [htodo, htaken]
  dsimp only
  rw [heq, ok_bind]
  rcases accept with _ | _
  · have hresp' : ((c.sent p o).remappedTo (c.word T)).needsResponse = true := hresp
    rw [Tlb.sendTimingReq_refused hresp' hinh]
    simp [Tlb.sendTimingReq]
  · simp [Tlb.sendTimingReq, hresp, hinh, Command.offered, Packet.remappedTo]

lemma Inv.sent (h : Inv T o₀ done s) (htodo : s.todo = c :: rest) (htaken : s.taken = none)
    (hfront : Front.Inv T ⟨t', s.refills, []⟩)
    (hop : t'.hmcOperand = c.next (performAll T ⟨o₀, m₀⟩ done).operand)
    (heq : s.tlb.recvTimingReq p (words p s.mem) now (s.held.getD (c.packet p)) accept =
      .ok (t'.sendTimingReq ((c.sent p (performAll T ⟨o₀, m₀⟩ done).operand).remappedTo (c.word T))
        v accept)) :
    ∃ s', s.attempt p now accept = .ok s' ∧ Inv T o₀ done s' ∧ s'.todo = s.todo ∧
      (accept = true → s'.taken.isSome) := by
  obtain ⟨states, hs⟩ := attempt_sent htodo htaken heq
  refine ⟨_, hs, ?_⟩
  rcases accept with _ | _
  · exact ⟨⟨hfront, h.mem, h.kept, .refused c rest htodo hop htaken rfl⟩, rfl, by simp⟩
  · exact ⟨⟨hfront, h.mem, h.kept, .taken c rest states htodo hop rfl rfl⟩, rfl, fun _ => rfl⟩

/-- Each attempt sends the packet of the command, which is taken unless the port refuses it. -/
def Sends (T : Table p (words p m₀)) (o₀ : ℕ) (done : List Command) (s : System) : Prop :=
  ∀ now accept, ∃ s', s.attempt p now accept = .ok s' ∧ Inv T o₀ done s' ∧ s'.todo = s.todo ∧
    (accept = true → s'.taken.isSome)

/-- Each attempt fails, and the entry that is missing is asked for. -/
def Waits (T : Table p (words p m₀)) (o₀ : ℕ) (done : List Command) (c : Command) (s : System) : Prop :=
  ∀ now accept, ∃ s', s.attempt p now accept = .ok s' ∧ Inv T o₀ done s' ∧ s'.todo = s.todo ∧
    s'.taken = none ∧ (accept = true → T.ptr + T.page (c.asked p) * p.length ∈ s'.refills)

lemma Inv.attempt_again (h : Inv T o₀ done s) (htodo : s.todo = c :: rest)
    (hf : c.Fine ranges T) (htaken : s.taken = none)
    (hop : s.tlb.hmcOperand = c.next (performAll T ⟨o₀, m₀⟩ done).operand)
    (hheld : s.held =
      some ((c.sent p (performAll T ⟨o₀, m₀⟩ done).operand).remappedTo (c.word T))) :
    Sends T o₀ done s := by
  intro now accept
  set o := (performAll T ⟨o₀, m₀⟩ done).operand
  have hreg : ¬ Tlb.isRefillRegister p ((c.sent p o).remappedTo (c.word T)) := hf.word.register
  have heq : s.tlb.recvTimingReq p (words p s.mem) now (s.held.getD (c.packet p)) accept =
      .ok (s.tlb.sendTimingReq ((c.sent p o).remappedTo (c.word T)) (c.word T) accept) := by
    rw [hheld]
    exact Tlb.recvTimingReq_remapped rfl hreg accept
  exact h.sent htodo htaken h.front hop heq

section Fresh

variable (h : Inv T o₀ done s) (hw : Wired p) (htodo : s.todo = c :: rest) (hf : c.Fine ranges T)
  (htaken : s.taken = none) (hop : s.tlb.hmcOperand = (performAll T ⟨o₀, m₀⟩ done).operand)
  (hheld : s.held = none ∨ ∃ c rest, s.todo = c :: rest ∧
    s.held = some (c.sent p (performAll T ⟨o₀, m₀⟩ done).operand))

include htodo hheld

lemma held_fresh : s.held.getD (c.packet p) = c.packet p ∨
    s.held.getD (c.packet p) = c.sent p (performAll T ⟨o₀, m₀⟩ done).operand := by
  rcases hheld with hheld | ⟨c', rest', htodo', hheld⟩
  · exact .inl (by rw [hheld]; rfl)
  · rw [htodo, cons.injEq] at htodo'
    exact .inr (by rw [hheld, htodo'.1]; rfl)

include h hw hf htaken hop

lemma Inv.attempt_sends (hcase : c.Hits s.tlb ∨ p.idealRefill = true) : Sends T o₀ done s := by
  intro now accept
  obtain ⟨t', heq, hfront, hop'⟩ := recvTimingReq_sends hw h.front hf hop
    (held_fresh htodo hheld) h.kept.sameEntries hcase now accept
  exact h.sent htodo htaken hfront hop' heq

lemma Inv.attempt_waits (hmiss : ¬ c.Hits s.tlb) (hideal : p.idealRefill = false) :
    Waits T o₀ done c s := by
  intro now accept
  set o := (performAll T ⟨o₀, m₀⟩ done).operand
  obtain ⟨t', refill, heq, hfront, hop', hacc⟩ := recvTimingReq_waits hw h.front hf hop
    (held_fresh htodo hheld) (m := s.mem) hmiss hideal now accept
  have hstep : s.attempt p now accept = .ok { s with
      tlb := t', refills := s.refills ++ refill.toList, held := some (c.sent p o) } := by
    unfold System.attempt
    rw [htodo, htaken]
    dsimp only
    rw [heq, ok_bind]
    rfl
  exact ⟨_, hstep, ⟨hfront, h.mem, h.kept, .fresh hop' htaken (.inr ⟨c, rest, htodo, rfl⟩)⟩, rfl,
    htaken, hacc⟩

end Fresh

lemma Inv.untaken (h : Inv T o₀ done s) (hw : Wired p) (htodo : s.todo = c :: rest)
    (hf : c.Fine ranges T) (htaken : s.taken = none) :
    Sends T o₀ done s ∨ ¬ c.Hits s.tlb ∧ Waits T o₀ done c s := by
  rcases h.stage with ⟨hop, -, hheld⟩ | ⟨c', rest', htodo', hop, -, hheld⟩ |
    ⟨c', rest', states, -, -, hsome, -⟩
  · by_cases hcase : c.Hits s.tlb ∨ p.idealRefill = true
    · exact .inl (h.attempt_sends hw htodo hf htaken hop hheld hcase)
    · rw [not_or, Bool.not_eq_true] at hcase
      exact .inr ⟨hcase.1, h.attempt_waits hw htodo hf htaken hop hheld hcase.1 hcase.2⟩
  · rw [htodo, cons.injEq] at htodo'
    obtain ⟨rfl, rfl⟩ := htodo'
    exact .inl (h.attempt_again htodo hf htaken hop hheld)
  · rw [htaken] at hsome
    cases hsome

/-! ## The memory side -/

lemma Inv.serve (h : Inv T o₀ done s) (hfine : ∀ c ∈ s.todo, c.Fine ranges T)
    (htaken : s.taken.isSome) :
    ∃ c rest s', s.todo = c :: rest ∧ s.serve ranges = .ok s' ∧ Inv T o₀ (done ++ [c]) s' ∧
      s'.todo = rest := by
  set x := performAll T ⟨o₀, m₀⟩ done with hx
  rcases h.stage with ⟨-, hnone, -⟩ | ⟨-, -, -, -, hnone, -⟩ | ⟨c, rest, states, htodo, hop, hsome, hheld⟩
  · rw [hnone] at htaken
    cases htaken
  · rw [hnone] at htaken
    cases htaken
  have hword := (hfine c (by rw [htodo]; exact mem_cons_self)).word
  have hserve : s.serve ranges = .ok { s with
      mem := (c.perform T x).mem, taken := none, todo := rest } := by
    unfold System.serve
    rw [hsome, h.mem, htodo]
    dsimp only
    rw [← hx, deliver_offered hword, ok_bind]
    rfl
  have hmem : x = ⟨x.operand, s.mem⟩ := by rw [h.mem]
  refine ⟨c, rest, _, htodo, hserve, ⟨h.front, ?_, ?_, .fresh ?_ rfl (.inl hheld)⟩, rfl⟩
  · rw [performAll_snoc]
  · rw [hmem]
    exact h.kept.perform hword x.operand
  · rw [performAll_snoc, perform_operand]
    exact hop

lemma refillResp_operand {mem : Memory} {f f' : Front} {i : ℕ}
    (hs : f.step p mem (now, .refillResp i) = .ok f') : f'.tlb.hmcOperand = f.tlb.hmcOperand := by
  unfold Tlb.Front.step at hs
  dsimp only at hs
  split at hs
  · rw [← Except.ok.inj hs]
  · obtain ⟨t', ht, hs⟩ := bind_eq_ok.mp hs
    unfold Tlb.recvRefillResp at ht
    split at ht
    · rw [← Except.ok.inj hs, ← Except.ok.inj ht]
      unfold Tlb.updateTLB
      dsimp only
      split <;> rfl
    · cases ht

lemma Stage.withTlb (h : Stage T o s) (hop : t'.hmcOperand = s.tlb.hmcOperand) :
    Stage T o { s with tlb := t', refills := refills } := by
  rcases h with ⟨ho, htaken, hheld⟩ | ⟨c, rest, htodo, ho, htaken, hheld⟩ |
    ⟨c, rest, states, htodo, ho, htaken, hheld⟩
  · exact .fresh (hop.trans ho) htaken hheld
  · exact .refused c rest htodo (hop.trans ho) htaken hheld
  · exact .taken c rest states htodo (hop.trans ho) htaken hheld

section
variable (h : Inv T o₀ done s) (hw : Wired p)
include h hw

lemma Inv.refillResp (now i : ℕ) :
    ∃ s', s.refillResp p now i = .ok s' ∧ Inv T o₀ done s' ∧ s'.todo = s.todo ∧
      s'.taken = s.taken ∧
      ∀ v, T.region v → s.refills[i]? = some (T.ptr + T.page v * p.length) → s'.tlb.Resident v := by
  have hsame := h.front.step_same (n := now) h.kept.sameEntries
    (show Tlb.Access.InRegion T (.refillResp i) from trivial)
  obtain ⟨f, hstep, hinv, hres⟩ : ∃ f, Tlb.Front.step p (words p m₀) ⟨s.tlb, s.refills, []⟩
      (now, .refillResp i) = .ok f ∧ Front.Inv T ⟨f.tlb, f.refills, []⟩ ∧
      ∀ v, T.region v → s.refills[i]? = some (T.ptr + T.page v * p.length) → f.tlb.Resident v := by
    rcases hi : s.refills[i]? with _ | a
    · refine ⟨⟨s.tlb, s.refills, []⟩, by unfold Tlb.Front.step; simp only [hi], h.front, ?_⟩
      exact fun v _ hv => absurd hv (by simp)
    · obtain ⟨k, hk, rfl⟩ := h.front.entries a (mem_of_getElem? hi)
      obtain ⟨f, hstep, hinv, -, -, -, hres⟩ := h.front.refillResp (n := now) hw.size hk hi
      refine ⟨f, hstep, { hinv with forwarded := by simp }, ?_⟩
      intro v hv heq
      apply hres
      have hcov := Table.slice_covers hv
      unfold Table.slice Table.entry at hcov
      rwa [← Option.some.inj heq] at hcov
  have hop := refillResp_operand hstep
  refine ⟨{ s with tlb := f.tlb, refills := f.refills }, ?_,
    ⟨hinv, h.mem, h.kept, h.stage.withTlb hop⟩, rfl, rfl, hres⟩
  unfold System.refillResp
  rw [hsame, hstep, ok_bind]

/-! ## Runs -/

lemma Inv.attempt (hfine : ∀ c ∈ s.todo, c.Fine ranges T) (now : ℕ) (accept : Bool) :
    ∃ s', s.attempt p now accept = .ok s' ∧ Inv T o₀ done s' ∧ s'.todo = s.todo := by
  rcases htodo : s.todo with _ | ⟨c, rest⟩
  · refine ⟨s, ?_, h, htodo⟩
    unfold System.attempt
    rw [htodo]
  have hf := hfine c (by rw [htodo]; exact mem_cons_self)
  rcases htaken : s.taken with _ | pkt
  · rcases h.untaken hw htodo hf htaken with hs | ⟨-, hs⟩
    · obtain ⟨s', heq, hinv, htodo', -⟩ := hs now accept
      exact ⟨s', heq, hinv, htodo'.trans htodo⟩
    · obtain ⟨s', heq, hinv, htodo', -⟩ := hs now accept
      exact ⟨s', heq, hinv, htodo'.trans htodo⟩
  · refine ⟨s, ?_, h, htodo⟩
    unfold System.attempt
    rw [htodo, htaken]

lemma Inv.step (hfine : ∀ c ∈ s.todo, c.Fine ranges T) (e : Event) :
    ∃ s' done', s.step p ranges e = .ok s' ∧ Inv T o₀ done' s' ∧
      done ++ s.todo = done' ++ s'.todo := by
  rcases e with ⟨now, accept⟩ | _ | ⟨now, i⟩
  · obtain ⟨s', heq, hinv, htodo⟩ := h.attempt hw hfine now accept
    exact ⟨s', done, heq, hinv, by rw [htodo]⟩
  · by_cases htaken : s.taken.isSome
    · obtain ⟨c, rest, s', htodo, heq, hinv, hrest⟩ := h.serve hfine htaken
      exact ⟨s', done ++ [c], heq, hinv, by rw [htodo, hrest, append_assoc]; rfl⟩
    · refine ⟨s, done, ?_, h, rfl⟩
      rw [Bool.not_eq_true, Option.isSome_eq_false_iff, Option.isNone_iff_eq_none] at htaken
      unfold System.step System.serve
      rw [htaken]
  · obtain ⟨s', heq, hinv, htodo, -⟩ := h.refillResp hw now i
    exact ⟨s', done, heq, hinv, by rw [htodo]⟩

end

lemma run_cons {e : Event} (es : List Event) (h : s.step p ranges e = .ok s') :
    s.run p ranges (e :: es) = s'.run p ranges es := by
  unfold System.run
  rw [foldlM_cons, h, ok_bind]

section
variable (h : Inv T o₀ done s) (hw : Wired p)
include h hw

lemma Inv.run (hfine : ∀ c ∈ done ++ s.todo, c.Fine ranges T) (es : List Event) :
    ∃ s' done', s.run p ranges es = .ok s' ∧ Inv T o₀ done' s' ∧
      done ++ s.todo = done' ++ s'.todo := by
  induction es generalizing s done with
  | nil => exact ⟨s, done, rfl, h, rfl⟩
  | cons e es ih =>
    obtain ⟨s1, done1, hstep, h₁, htodo1⟩ :=
      h.step hw (fun c hc => hfine c (mem_append_right _ hc)) e
    rw [htodo1] at hfine ⊢
    rw [run_cons es hstep]
    exact ih h₁ hfine

lemma Inv.reaches (htodo : s.todo = c :: rest) (hf : c.Fine ranges T) :
    ∃ es s', s.run p ranges es = .ok s' ∧ Inv T o₀ done s' ∧ s'.todo = s.todo ∧
      s'.taken.isSome := by
  rcases htaken : s.taken with _ | pkt
  · rcases h.untaken hw htodo hf htaken with hs | ⟨hmiss, hs⟩
    · obtain ⟨s', heq, hinv, htodo', hsome⟩ := hs 0 true
      exact ⟨[.attempt 0 true], s', run_cons [] heq, hinv, htodo', hsome rfl⟩
    · obtain ⟨hv, -⟩ := hf.target.misses (o := o₀) hmiss
      obtain ⟨s1, heq1, h₁, htodo1, htaken1, hin⟩ := hs 0 true
      obtain ⟨i, hi⟩ := mem_iff_getElem?.mp (hin rfl)
      obtain ⟨s2, heq2, h₂, htodo2, htaken2, hres⟩ := h₁.refillResp hw 0 i
      have hsends := (h₂.untaken hw (htodo2.trans (htodo1.trans htodo)) hf
        (htaken2.trans htaken1)).resolve_right fun hmiss' => hmiss'.1 (hits_of_resident (hres _ hv hi))
      obtain ⟨s3, heq3, h3, htodo3, hsome⟩ := hsends 0 true
      have hrun3 : s2.run p ranges [.attempt 0 true] = .ok s3 := run_cons [] heq3
      have hrun2 := (run_cons (e := .refillResp 0 i) _ heq2).trans hrun3
      exact ⟨_, s3, (run_cons (e := .attempt 0 true) _ heq1).trans hrun2, h3,
        htodo3.trans (htodo2.trans htodo1), hsome rfl⟩
  · exact ⟨[], s, rfl, h, rfl, by rw [htaken]; rfl⟩

lemma Inv.finishes (hfine : ∀ c ∈ s.todo, c.Fine ranges T) :
    ∃ es s', s.run p ranges es = .ok s' ∧ Inv T o₀ (done ++ s.todo) s' ∧ s'.todo = [] := by
  induction htodo : s.todo generalizing s done with
  | nil => exact ⟨[], s, rfl, by rwa [append_nil], htodo⟩
  | cons c rest ih =>
    rw [htodo] at hfine
    obtain ⟨es, s1, hrun1, h₁, htodo1, hsome⟩ := h.reaches hw htodo (hfine c mem_cons_self)
    obtain ⟨c', rest', s2, htodo', heq2, h₂, hrest⟩ := h₁.serve (by rwa [htodo1, htodo]) hsome
    rw [htodo1, htodo, cons.injEq] at htodo'
    obtain ⟨rfl, rfl⟩ := htodo'
    obtain ⟨es', s', hrun', h', hend⟩ :=
      ih h₂ (fun c hc => hfine c (mem_cons_of_mem _ (hrest ▸ hc))) hrest
    refine ⟨es ++ .serve :: es', s', ?_, by rwa [append_assoc] at h', hend⟩
    have hserve : s1.run p ranges (.serve :: es') = .ok s' :=
      (run_cons (e := .serve) es' heq2).trans hrun'
    unfold System.run at hrun1 hserve ⊢
    rw [foldlM_append, hrun1, ok_bind, hserve]

end

/-! ## One page -/

def pageBytes (paddr : ℕ) : ℕ → UInt8 :=
  store 4 (store 4 (store 4 (fun _ => 0) 0x80001000 0x10000000) 0x80001004 paddr) 0x80001008 4096

def pageEntry (paddr k : ℕ) : Driver.Slice :=
  readSlice dtlb.pimArch (words .dtlb (pageBytes paddr)) (0x80001000 + k * dtlb.length)

lemma pageEntry_eq (h : paddr < 2 ^ 32) {k : ℕ} (hk : k < 1) :
    pageEntry paddr k = ⟨0x10000000, paddr, 4096⟩ := by
  obtain rfl : k = 0 := by omega
  have h0 : load 4 (pageBytes paddr) 0x80001000 = 0x10000000 := by
    unfold pageBytes
    rw [Bytes.load_store_apart (by unfold InWord; omega),
      Bytes.load_store_apart (by unfold InWord; omega), Bytes.load_store]
    exact mod_eq_of_lt (by norm_num)
  have h1 : load 4 (pageBytes paddr) 0x80001004 = paddr := by
    unfold pageBytes
    rw [Bytes.load_store_apart (by unfold InWord; omega), Bytes.load_store]
    exact mod_eq_of_lt h
  have h2 : load 4 (pageBytes paddr) 0x80001008 = 4096 := by
    unfold pageBytes
    rw [Bytes.load_store]
    exact mod_eq_of_lt (by norm_num)
  have hp : Arch.arm.ulong paddr = paddr := mod_eq_of_lt h
  change (⟨Arch.arm.ulong (load 4 (pageBytes paddr) 0x80001000),
    Arch.arm.ulong (load 4 (pageBytes paddr) 0x80001004),
    Arch.arm.ulong (load 4 (pageBytes paddr) 0x80001008)⟩ : Driver.Slice) = _
  rw [h0, h1, h2, hp]
  rfl

section OnePage

variable {paddr v : ℕ}

lemma page_static (hlo : 0x10000000 ≤ v) : dtlb.originalRange.contains v = false := by
  unfold AddrRange.contains
  exact decide_eq_false (by simp only [dtlb]; omega)

lemma page_registers (hlo : 0x10000000 ≤ v) : v ∉ dtlb.registers := by
  simp only [registers, dtlb, mem_cons, not_mem_nil, or_false]
  omega

lemma page_phys_lt (h : paddr < 2 ^ 32) (hhi : v < 0x10000000 + 1 * 2 ^ dtlb.osPageShift) :
    paddr + (v - 0x10000000) < noAddr := by
  simp only [dtlb, noAddr] at hhi ⊢
  omega

lemma page_index (hhi : v < 0x10000000 + 1 * 2 ^ dtlb.osPageShift) :
    (v - 0x10000000) / 2 ^ dtlb.osPageShift < 1 := by
  simp only [dtlb] at hhi ⊢
  omega

lemma page_covers (h : paddr < 2 ^ 32) (hlo : 0x10000000 ≤ v)
    (hhi : v < 0x10000000 + 1 * 2 ^ dtlb.osPageShift) :
    (pageEntry paddr ((v - 0x10000000) / 2 ^ dtlb.osPageShift)).covers v := by
  rw [pageEntry_eq h (page_index hhi)]
  simp only [dtlb] at hhi
  exact ⟨hlo, by simp only; omega⟩

lemma page_maps (h : paddr < 2 ^ 32) {k : ℕ} (hk : k < 1) (hv : (pageEntry paddr k).covers v) :
    0x10000000 ≤ v ∧ v < 0x10000000 + 1 * 2 ^ dtlb.osPageShift ∧
    (pageEntry paddr k).paddr + (v - (pageEntry paddr k).vaddr) = paddr + (v - 0x10000000) ∧
    pageEntry paddr ((v - 0x10000000) / 2 ^ dtlb.osPageShift) = pageEntry paddr k := by
  rw [pageEntry_eq h hk] at hv ⊢
  obtain ⟨hlo, hhi⟩ := hv
  simp only at hlo hhi
  have hlt : v < 0x10000000 + 1 * 2 ^ dtlb.osPageShift := by
    simp only [dtlb]
    omega
  exact ⟨hlo, hlt, rfl, pageEntry_eq h (page_index hlt)⟩

def onePage (paddr : ℕ) (h : paddr < 2 ^ 32) : Table .dtlb (words .dtlb (pageBytes paddr)) where
  ptr := 0x80001000
  vstart := 0x10000000
  pages := 1
  phys v := paddr + (v - 0x10000000)
  ptr_ne := by decide
  ptr_le := by decide
  vend_le := by decide
  static _ hlo _ := page_static hlo
  registers _ hlo _ := page_registers hlo
  phys_lt _ _ hhi := page_phys_lt h hhi
  covers _ hlo hhi := page_covers h hlo hhi
  maps _ hk _ hv := page_maps h hk hv

end OnePage

end SmcPim.Hmc
