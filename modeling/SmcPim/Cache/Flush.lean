import SmcPim.Cache.Model

/-! # What a flush leaves -/

namespace SmcPim.Cache

open List Nat Cache.Geometry Bool

variable {δ : Type} {g : Geometry} {tag i a start stop : ℕ} {secure : Bool} {ways : List (Blk δ)} {b : Blk δ}

/-! ## Addresses -/

namespace Geometry

lemma blkSize_pos : 0 < g.blkSize := Nat.two_pow_pos _

lemma numSets_pos : 0 < g.numSets := Nat.two_pow_pos _

lemma tagShift_eq : 2 ^ g.tagShift = g.numSets * g.blkSize := by
  rw [tagShift, setShift, pow_add, mul_comm]
  rfl

lemma extractTag_eq (addr : ℕ) : g.extractTag addr = addr / g.blkSize / g.numSets := by
  rw [extractTag, Nat.shiftRight_eq_div_pow, tagShift_eq, mul_comm, Nat.div_div_eq_div_mul]

lemma extractSet_eq (addr : ℕ) : g.extractSet addr = addr / g.blkSize % g.numSets := by
  rw [extractSet, setMask, numSets, and_two_pow_sub_one_eq_mod, Nat.shiftRight_eq_div_pow]
  rfl

lemma regenerateBlkAddr_eq (hi : i < g.numSets) :
    g.regenerateBlkAddr tag i = (tag * g.numSets + i) * g.blkSize := by
  have hlow : i <<< g.setShift < 2 ^ g.tagShift := by
    rw [shiftLeft_eq, tagShift_eq]
    exact mul_lt_mul_of_pos_right hi blkSize_pos
  rw [regenerateBlkAddr, ← shiftLeft_add_eq_or_of_lt hlow, shiftLeft_eq, shiftLeft_eq, tagShift_eq, add_mul,
    mul_assoc]
  rfl

lemma extractSet_lt (addr : ℕ) : g.extractSet addr < g.numSets := by
  rw [extractSet_eq]
  exact mod_lt _ numSets_pos

lemma regenerateBlkAddr_iff (hi : i < g.numSets) (ha : g.blkSize ∣ a) :
    g.regenerateBlkAddr tag i = a ↔ i = g.extractSet a ∧ tag = g.extractTag a := by
  obtain ⟨k, rfl⟩ := ha
  rw [regenerateBlkAddr_eq hi, extractSet_eq, extractTag_eq, Nat.mul_div_cancel_left k blkSize_pos, mul_comm g.blkSize]
  rw [Nat.mul_left_inj (blkSize_pos).ne']
  constructor
  · rintro rfl
    rw [mul_comm tag, mul_add_mod, mod_eq_of_lt hi, mul_add_div numSets_pos, div_eq_of_lt hi, add_zero]
    exact ⟨rfl, rfl⟩
  · rintro ⟨rfl, rfl⟩
    rw [mul_comm]
    exact div_add_mod k g.numSets

lemma dvd_regenerateBlkAddr (hi : i < g.numSets) : g.blkSize ∣ g.regenerateBlkAddr tag i := by
  rw [regenerateBlkAddr_eq hi]
  exact Dvd.intro_left _ rfl

end Geometry

def Overlaps (g : Geometry) (start stop a : ℕ) : Prop := ∃ x, a ≤ x ∧ x < a + g.blkSize ∧ start ≤ x ∧ x ≤ stop

lemma lt_align_add (start : ℕ) : start < align g start + g.blkSize := by
  have h := lt_mul_div_succ start (blkSize_pos (g := g))
  rw [mul_add, mul_one, mul_comm] at h
  exact h

lemma dvd_align (start : ℕ) : g.blkSize ∣ align g start := Dvd.intro_left _ rfl

lemma overlaps_iff (ha : g.blkSize ∣ a) :
    Overlaps g start stop a ↔ start ≤ stop ∧ align g start ≤ a ∧ a ≤ stop := by
  constructor
  · rintro ⟨x, hax, hxa, hstart, hstop⟩
    refine ⟨hstart.trans hstop, ?_, hax.trans hstop⟩
    obtain ⟨k, rfl⟩ := ha
    have hlt : start < g.blkSize * (k + 1) := by
      rw [mul_add, mul_one]
      exact lt_of_le_of_lt hstart hxa
    rw [align, mul_comm g.blkSize]
    exact Nat.mul_le_mul_right _ (Nat.lt_succ_iff.mp (Nat.div_lt_of_lt_mul hlt))
  · rintro ⟨hle, halign, hstop⟩
    have hlt := lt_align_add (g := g) start
    exact ⟨max a start, le_max_left _ _, max_lt (by have := blkSize_pos (g := g); omega) (by omega),
      le_max_right _ _, max_le hstop hle⟩

/-! ## One block -/

lemma findBlk_none (h : findBlk tag secure ways = none) :
    ∀ b ∈ ways, ¬(b.tag = tag ∧ b.isValid ∧ b.isSecure = secure) := by
  induction ways with
  | nil => simp
  | cons c ways ih =>
    rw [findBlk] at h
    split_ifs at h with hc
    rw [Option.map_eq_none_iff] at h
    rw [forall_mem_cons]
    exact ⟨hc, ih h⟩

lemma findBlk_some {others : List (Blk δ)} (h : findBlk tag secure ways = some (b, others)) :
    ∃ xs ys, ways = xs ++ b :: ys ∧ others = xs ++ ys ∧ b.tag = tag ∧ b.isValid := by
  induction ways generalizing others with
  | nil => simp [findBlk] at h
  | cons c ways ih =>
    rw [findBlk] at h
    split_ifs at h with hc
    · obtain ⟨rfl, rfl⟩ := Prod.mk.inj (Option.some.inj h)
      exact ⟨[], ways, rfl, rfl, hc.1, hc.2.1⟩
    · obtain ⟨⟨b', others'⟩, hfind, heq⟩ := Option.map_eq_some_iff.mp h
      obtain ⟨rfl, rfl⟩ := Prod.mk.inj heq
      obtain ⟨xs, ys, rfl, rfl, htag, hvalid⟩ := ih hfind
      exact ⟨c :: xs, ys, rfl, rfl, htag, hvalid⟩

lemma invalidate_not_valid (b : Blk δ) : b.invalidate.isValid = false := by simp
    [Blk.isValid, Blk.invalidate]

lemma accessBlock_cases (tag : ℕ) (ways : List (Blk δ)) :
    (∀ b ∈ ways, ¬(b.tag = tag ∧ b.isValid)) ∧ (accessBlock tag true ways <|> accessBlock tag false ways) = none ∨
      ∃ xs b ys, ways = xs ++ b :: ys ∧ b.tag = tag ∧ b.isValid ∧
        (accessBlock tag true ways <|> accessBlock tag false ways) =
          some ({ b with refCount := b.refCount + 1 }, xs ++ ys) := by
  unfold accessBlock
  cases htrue : findBlk tag true ways with
  | some x =>
    obtain ⟨b, others⟩ := x
    obtain ⟨xs, ys, heq, rfl, htag, hvalid⟩ := findBlk_some htrue
    exact .inr ⟨xs, b, ys, heq, htag, hvalid, rfl⟩
  | none =>
    cases hfalse : findBlk tag false ways with
    | some x =>
      obtain ⟨b, others⟩ := x
      obtain ⟨xs, ys, heq, rfl, htag, hvalid⟩ := findBlk_some hfalse
      exact .inr ⟨xs, b, ys, heq, htag, hvalid, rfl⟩
    | none =>
      refine .inl ⟨fun b hb hhit => ?_, rfl⟩
      cases hsecure : b.isSecure with
      | true => exact findBlk_none htrue b hb ⟨hhit.1, hhit.2, hsecure⟩
      | false => exact findBlk_none hfalse b hb ⟨hhit.1, hhit.2, hsecure⟩

inductive Turn (g : Geometry) (s s' : State δ) : Prop
  | miss (hnone : ∀ b ∈ s.sets (g.extractSet s.address), ¬(b.tag = g.extractTag s.address ∧ b.isValid))
      (hsets : s'.sets = s.sets) (hsent : s'.sent = s.sent)
  | hit (xs : List (Blk δ)) (b : Blk δ) (ys : List (Blk δ)) (c : Blk δ)
      (hset : s.sets (g.extractSet s.address) = xs ++ b :: ys) (htag : b.tag = g.extractTag s.address)
      (hvalid : b.isValid) (hc : c.isValid = false)
      (hsets : s'.sets = Function.update s.sets (g.extractSet s.address) (xs ++ ys ++ [c]))
      (hsent : s'.sent = s.sent ++ if b.isDirty then [⟨s.address, b.size, b.data⟩] else [])

lemma flushBlk_turn (s : State δ) : Turn g s (flushBlk g s) := by
  rcases accessBlock_cases (g.extractTag s.address) (s.sets (g.extractSet s.address)) with
    ⟨hnone, haccess⟩ | ⟨xs, b, ys, hset, htag, hvalid, haccess⟩
  · refine .miss hnone ?_ ?_ <;> simp only [flushBlk, haccess]
  · refine .hit xs b ys _ hset htag hvalid (invalidate_not_valid { b with refCount := b.refCount + 1 }) ?_ ?_
    · simp only [flushBlk, haccess]
    · simp only [flushBlk, haccess]
      rw [show ({ b with refCount := b.refCount + 1 } : Blk δ).isDirty = b.isDirty from rfl]
      split_ifs
      · rfl
      · rw [append_nil]

lemma flushBlk_address (s : State δ) : (flushBlk g s).address = (s.address + g.blkSize) % 2 ^ 64 := by
  unfold flushBlk
  dsimp only
  split <;> rfl

/-! ## The blocks at an address -/

def Blk.addr (g : Geometry) (i : ℕ) (b : Blk δ) : ℕ := g.regenerateBlkAddr b.tag i

def blksAt (g : Geometry) (sets : ℕ → List (Blk δ)) (i x : ℕ) : List (Blk δ) :=
  (sets i).filter fun b => b.isValid && decide (b.addr g i = x)

variable {s s' : State δ} {x : ℕ} {sets : ℕ → List (Blk δ)}

lemma blksAt_eq_nil : blksAt g sets i x = [] ↔ ∀ b ∈ sets i, b.isValid → b.addr g i ≠ x := by
  simp [blksAt, filter_eq_nil_iff]

lemma mem_blksAt : b ∈ blksAt g sets i x ↔ b ∈ sets i ∧ b.isValid ∧ b.addr g i = x := by
  simp [blksAt, mem_filter]

namespace Turn

lemma addr_eq (ha : g.blkSize ∣ s.address) (htag : b.tag = g.extractTag s.address) :
    b.addr g (g.extractSet s.address) = s.address :=
  (regenerateBlkAddr_iff (extractSet_lt _) ha).mpr ⟨rfl, htag⟩

lemma filter_eq (ht : Turn g s s') (ha : g.blkSize ∣ s.address) (P : Blk δ → Bool)
    (hP : ∀ b, P b → b.isValid ∧ b.addr g i ≠ s.address) : (s'.sets i).filter P = (s.sets i).filter P := by
  cases ht with
  | miss hnone hsets hsent => rw [hsets]
  | hit xs b ys c hset htag hvalid hc hsets hsent =>
    by_cases hi : i = g.extractSet s.address
    · subst hi
      have hb : P b = false := by
        rw [← not_eq_true]
        exact fun hPb => (hP b hPb).2 (addr_eq ha htag)
      have hcP : P c = false := by
        rw [← not_eq_true]
        exact fun hPc => false_ne_true (hc.symm.trans (hP c hPc).1)
      rw [hsets, Function.update_self, hset]
      simp [hb, hcP]
    · rw [hsets, Function.update_of_ne hi]

lemma blksAt_of_ne (ha : g.blkSize ∣ a) (hi : i < g.numSets) (hne : i ≠ g.extractSet a) :
    blksAt g sets i a = [] :=
  blksAt_eq_nil.mpr fun _ _ _ hb => hne ((regenerateBlkAddr_iff hi ha).mp hb).1

lemma length_blksAt (ht : Turn g s s') (ha : g.blkSize ∣ s.address) (hi : i < g.numSets) :
    (blksAt g s'.sets i s.address).length = (blksAt g s.sets i s.address).length - 1 := by
  by_cases hset : i = g.extractSet s.address
  · subst hset
    cases ht with
    | miss hnone hsets hsent =>
      have hnil : blksAt g s.sets (g.extractSet s.address) s.address = [] :=
        blksAt_eq_nil.mpr fun b hb hvalid hat =>
          hnone b hb ⟨((regenerateBlkAddr_iff hi ha).mp hat).2, hvalid⟩
      rw [hsets, hnil]
      rfl
    | hit xs b ys c hways htag hvalid hc hsets hsent =>
      have hb := addr_eq ha htag
      rw [blksAt, blksAt, hsets, Function.update_self, hways]
      simp [hvalid, hb, hc]
  · rw [blksAt_of_ne ha hi hset, blksAt_of_ne ha hi hset]
    rfl

lemma sent_eq (ht : Turn g s s') (ha : g.blkSize ∣ s.address) (hi : i < g.numSets)
    (hb : blksAt g s.sets i s.address = [b]) :
    s'.sent = s.sent ++ if b.isDirty then [⟨s.address, b.size, b.data⟩] else [] := by
  obtain ⟨hmem, hvalid, haddr⟩ := mem_blksAt.mp (hb ▸ mem_singleton_self b)
  obtain ⟨rfl, htag⟩ := (regenerateBlkAddr_iff hi ha).mp haddr
  cases ht with
  | miss hnone hsets hsent => exact absurd ⟨htag, hvalid⟩ (hnone b hmem)
  | hit xs b' ys c hways htag' hvalid' hc hsets hsent =>
    have hmem' : b' ∈ blksAt g s.sets (g.extractSet s.address) s.address :=
      mem_blksAt.mpr ⟨by simp [hways], hvalid', addr_eq ha htag'⟩
    rw [hb, mem_singleton] at hmem'
    rw [hsent, hmem']

lemma exists_sent (ht : Turn g s s') :
    ∃ ws, s'.sent = s.sent ++ ws ∧ ∀ w ∈ ws, w.address = s.address := by
  cases ht with
  | miss hnone hsets hsent => exact ⟨[], by rw [hsent, append_nil], by simp⟩
  | hit xs b ys c hset htag hvalid hc hsets hsent =>
    refine ⟨_, hsent, ?_⟩
    split_ifs <;> simp

end Turn

/-! ## The loop -/

structure Progress (g : Geometry) (start : ℕ) (sets : ℕ → List (Blk δ)) (s : State δ) : Prop where
  dvd : g.blkSize ∣ s.address
  start_le : align g start ≤ s.address
  others : ∀ i < g.numSets, ∀ P : Blk δ → Bool,
    (∀ b, P b → b.isValid ∧ ¬(align g start ≤ b.addr g i ∧ b.addr g i < s.address)) →
      (s.sets i).filter P = (sets i).filter P
  fewer : ∀ i < g.numSets, ∀ x, g.blkSize ∣ x → align g start ≤ x → x < s.address →
    (blksAt g s.sets i x).length = (blksAt g sets i x).length - 1
  sent : ∀ i < g.numSets, ∀ x, g.blkSize ∣ x → align g start ≤ x → x < s.address → ∀ b, blksAt g sets i x = [b] →
    s.sent.filter (·.address = x) = if b.isDirty then [⟨x, b.size, b.data⟩] else []
  before : ∀ w ∈ s.sent, w.address < s.address

lemma Progress.init (g : Geometry) (start : ℕ) (sets : ℕ → List (Blk δ)) :
    Progress g start sets ⟨align g start, sets, []⟩ where
  dvd := dvd_align start
  start_le := le_rfl
  others := fun _ _ _ _ => rfl
  fewer := fun _ _ _ _ hle hlt => absurd hlt (not_lt.mpr hle)
  sent := fun _ _ _ _ hle hlt => absurd hlt (not_lt.mpr hle)
  before := by simp

lemma lt_next (hx : g.blkSize ∣ x) (ha : g.blkSize ∣ a) : x < a + g.blkSize ↔ x < a ∨ x = a := by
  obtain ⟨k, rfl⟩ := hx
  obtain ⟨l, rfl⟩ := ha
  have hpos := blkSize_pos (g := g)
  rw [← mul_add_one, Nat.mul_lt_mul_left hpos, Nat.mul_lt_mul_left hpos, Nat.mul_right_inj hpos.ne']
  omega

lemma Progress.step (hp : Progress g start sets s) (hfit : s.address + g.blkSize < 2 ^ 64) :
    Progress g start sets (flushBlk g s) := by
  have ht := flushBlk_turn (g := g) s
  have haddr : (flushBlk g s).address = s.address + g.blkSize := by
    rw [flushBlk_address, mod_eq_of_lt hfit]
  obtain ⟨hdvd, hstart, hothers, hfewer, hsent, hbefore⟩ := hp
  have hother {i y : ℕ} (hy : y ≠ s.address) :
      blksAt g (flushBlk g s).sets i y = blksAt g s.sets i y := by
    refine ht.filter_eq hdvd _ fun b hb => ?_
    rw [and_eq_true, decide_eq_true_eq] at hb
    exact ⟨hb.1, hb.2 ▸ hy⟩
  have hhere {i : ℕ} (hi : i < g.numSets) : blksAt g s.sets i s.address = blksAt g sets i s.address := by
    refine hothers i hi _ fun b hb => ?_
    rw [and_eq_true, decide_eq_true_eq] at hb
    exact ⟨hb.1, fun hin => absurd hin.2 (by rw [hb.2]; exact lt_irrefl _)⟩
  refine ⟨?_, ?_, ?_, ?_, ?_, ?_⟩
  · rw [haddr]
    exact hdvd.add (dvd_refl _)
  · rw [haddr]
    exact hstart.trans (le_add_right _ _)
  · intro i hi P hP
    rw [haddr] at hP
    have hnext (b : Blk δ) : b.addr g i < s.address + g.blkSize ↔ b.addr g i < s.address ∨ b.addr g i = s.address :=
      lt_next (dvd_regenerateBlkAddr hi) hdvd
    rw [ht.filter_eq hdvd P, hothers i hi P]
    · intro b hb
      obtain ⟨hvalid, hnot⟩ := hP b hb
      exact ⟨hvalid, fun hin => hnot ⟨hin.1, (hnext b).mpr (.inl hin.2)⟩⟩
    · intro b hb
      obtain ⟨hvalid, hnot⟩ := hP b hb
      exact ⟨hvalid, fun heq => hnot ⟨heq ▸ hstart, (hnext b).mpr (.inr heq)⟩⟩
  · intro i hi x hx hle hlt
    rw [haddr, lt_next hx hdvd] at hlt
    rcases hlt with hlt | rfl
    · rw [hother hlt.ne]
      exact hfewer i hi x hx hle hlt
    · rw [ht.length_blksAt hdvd hi, hhere hi]
  · intro i hi x hx hle hlt b hb
    obtain ⟨ws, hws, hall⟩ := ht.exists_sent
    rw [haddr, lt_next hx hdvd] at hlt
    rcases hlt with hlt | rfl
    · have hnil : ws.filter (·.address = x) = [] := by
        simpa [filter_eq_nil_iff] using fun w hw => (hall w hw).trans_ne hlt.ne'
      rw [hws, filter_append, hnil, append_nil]
      exact hsent i hi x hx hle hlt b hb
    · have hnil : s.sent.filter (·.address = s.address) = [] := by
        simpa [filter_eq_nil_iff] using fun w hw => (hbefore w hw).ne
      rw [ht.sent_eq hdvd hi ((hhere hi).trans hb), filter_append, hnil, nil_append]
      split_ifs <;> simp
  · intro w hw
    obtain ⟨ws, hws, hall⟩ := ht.exists_sent
    have hpos := blkSize_pos (g := g)
    rw [hws, mem_append] at hw
    rw [haddr]
    rcases hw with hw | hw
    · exact (hbefore w hw).trans (Nat.lt_add_of_pos_right hpos)
    · rw [hall w hw]
      exact Nat.lt_add_of_pos_right hpos

structure Covers (g : Geometry) (start stop : ℕ) (s : State δ) : Prop where
  beyond : stop < s.address
  within : s.address = align g start ∨ s.address ≤ stop + g.blkSize

lemma Covers.lt_iff (hc : Covers g start stop s) (ha : g.blkSize ∣ s.address) (hx : g.blkSize ∣ x)
    (hle : align g start ≤ x) : x < s.address ↔ x ≤ stop := by
  constructor
  · intro hlt
    rcases hc.within with heq | hwithin
    · omega
    · by_contra hgt
      have hnext : ¬s.address < x + g.blkSize := by
        rw [lt_next ha hx]
        omega
      omega
  · exact fun h => lt_of_le_of_lt h hc.beyond

lemma flushRange_ends (start : ℕ) (hstop : stop + g.blkSize < 2 ^ 64) (sets : ℕ → List (Blk δ)) :
    ∃ fuel s, flushRange g start stop fuel sets = some s ∧ Progress g start sets s ∧ Covers g start stop s := by
  have hpos := blkSize_pos (g := g)
  have hbody (s : State δ)
      (hI : Progress g start sets s ∧ (s.address = align g start ∨ s.address ≤ stop + g.blkSize))
      (htest : decide (s.address ≤ stop) = true) :
      (Progress g start sets (flushBlk g s) ∧
        ((flushBlk g s).address = align g start ∨ (flushBlk g s).address ≤ stop + g.blkSize)) ∧
        stop + 1 - (flushBlk g s).address < stop + 1 - s.address := by
    have hle : s.address ≤ stop := of_decide_eq_true htest
    have haddr : (flushBlk g s).address = s.address + g.blkSize := by
      rw [flushBlk_address, mod_eq_of_lt (by omega)]
    exact ⟨⟨hI.1.step (by omega), .inr (by omega)⟩, by omega⟩
  obtain ⟨s, hs, ⟨hp, hwithin⟩, htest⟩ :=
    whileLoop_ends (stop + 1 - align g start)
      (fun s : State δ => Progress g start sets s ∧ (s.address = align g start ∨ s.address ≤ stop + g.blkSize))
      (fun s => stop + 1 - s.address) hbody ⟨Progress.init g start sets, .inl rfl⟩ le_rfl
  exact ⟨_, s, hs, hp, not_le.mp (of_decide_eq_false htest), hwithin⟩

/-! ## The flush -/

def Blk.outside (g : Geometry) (start stop i : ℕ) (b : Blk δ) : Bool :=
  b.isValid && !decide (align g start ≤ b.addr g i ∧ b.addr g i ≤ stop)

/-- No valid block of the range is left, each dirty one was sent once, and all blocks outside stay. -/
structure Flushed (g : Geometry) (start stop : ℕ) (sets : ℕ → List (Blk δ)) (s : State δ) : Prop where
  gone : ∀ i < g.numSets, ∀ b ∈ s.sets i, b.isValid → ¬Overlaps g start stop (b.addr g i)
  written : ∀ i < g.numSets, ∀ b ∈ sets i, b.isValid → b.isDirty → Overlaps g start stop (b.addr g i) →
    s.sent.filter (·.address = b.addr g i) = [⟨b.addr g i, b.size, b.data⟩]
  kept : ∀ i < g.numSets, (s.sets i).filter (Blk.outside g start stop i) = (sets i).filter (Blk.outside g start stop i)

/-- No two valid blocks of the range are at one address. -/
def Single (g : Geometry) (start stop : ℕ) (sets : ℕ → List (Blk δ)) : Prop :=
  ∀ i < g.numSets, ∀ x, Overlaps g start stop x → (blksAt g sets i x).length ≤ 1

section
variable (hp : Progress g start sets s) (hc : Covers g start stop s)
include hp hc

lemma Progress.length_blksAt (hi : i < g.numSets) (hx : g.blkSize ∣ x)
    (ho : Overlaps g start stop x) :
    (blksAt g s.sets i x).length = (blksAt g sets i x).length - 1 := by
  obtain ⟨-, hle, hstop⟩ := (overlaps_iff hx).mp ho
  exact hp.fewer i hi x hx hle ((hc.lt_iff hp.dvd hx hle).mpr hstop)

lemma Progress.single_of_gone
    (hgone : ∀ i < g.numSets, ∀ b ∈ s.sets i, b.isValid → ¬Overlaps g start stop (b.addr g i)) :
    Single g start stop sets := by
  intro i hi x ho
  by_contra hmany
  have hpos : 0 < (blksAt g sets i x).length := by omega
  have hx : g.blkSize ∣ x := (mem_blksAt.mp (getElem_mem hpos)).2.2 ▸ dvd_regenerateBlkAddr hi
  have hleft : 0 < (blksAt g s.sets i x).length := by
    rw [hp.length_blksAt hc hi hx ho]
    omega
  obtain ⟨b, hb⟩ := exists_mem_of_length_pos hleft
  obtain ⟨hmem, hvalid, rfl⟩ := mem_blksAt.mp hb
  exact hgone i hi b hmem hvalid ho

lemma Progress.flushed (hsingle : Single g start stop sets) : Flushed g start stop sets s := by
  refine ⟨fun i hi b hb hvalid ho => ?_, fun i hi b hb hvalid hdirty ho => ?_, fun i hi => ?_⟩
  · have hx : g.blkSize ∣ b.addr g i := dvd_regenerateBlkAddr hi
    have hmem : b ∈ blksAt g s.sets i (b.addr g i) := mem_blksAt.mpr ⟨hb, hvalid, rfl⟩
    have hlen := hp.length_blksAt hc hi hx ho
    have hone := hsingle i hi _ ho
    have hpos := length_pos_of_mem hmem
    omega
  · have hx : g.blkSize ∣ b.addr g i := dvd_regenerateBlkAddr hi
    obtain ⟨-, hle, hstop⟩ := (overlaps_iff hx).mp ho
    have hmem : b ∈ blksAt g sets i (b.addr g i) := mem_blksAt.mpr ⟨hb, hvalid, rfl⟩
    obtain ⟨c, hone⟩ := length_eq_one_iff.mp (le_antisymm (hsingle i hi _ ho) (length_pos_of_mem hmem))
    rw [hone, mem_singleton] at hmem
    rw [← hmem] at hone
    rw [hp.sent i hi _ hx hle ((hc.lt_iff hp.dvd hx hle).mpr hstop) b hone, if_pos hdirty]
  · refine hp.others i hi _ fun b hb => ?_
    rw [Blk.outside, and_eq_true, not_eq_true', decide_eq_false_iff_not] at hb
    refine ⟨hb.1, fun hin => hb.2 ⟨hin.1, ?_⟩⟩
    exact (hc.lt_iff hp.dvd (dvd_regenerateBlkAddr hi) hin.1).mp hin.2

end

/-- The flush ends, and has flushed the range exactly if no two valid blocks of it were at one
address. -/
theorem flushRange_flushed_iff (g : Geometry) (start stop : ℕ) (hstop : stop + g.blkSize ≤ 2 ^ 64 - 1)
    (sets : ℕ → List (Blk δ)) :
    ∃ fuel s, flushRange g start stop fuel sets = some s ∧
      (Flushed g start stop sets s ↔ Single g start stop sets) := by
  have hfit : stop + g.blkSize < 2 ^ 64 := by omega
  obtain ⟨fuel, s, hs, hp, hc⟩ := flushRange_ends start hfit sets
  exact ⟨fuel, s, hs, fun hf => hp.single_of_gone hc hf.gone, hp.flushed hc⟩

def twoSets : Geometry := ⟨6, 1⟩

def secureBlk : Blk ℕ := ⟨0, 7, 64, 0x49, true, 0, 0⟩

def plainBlk : Blk ℕ := ⟨0, 8, 64, 0x09, true, 0, 0⟩

def oneCopy : ℕ → List (Blk ℕ)
  | 0 => [secureBlk]
  | _ => []

def twoCopies : ℕ → List (Blk ℕ)
  | 0 => [secureBlk, plainBlk]
  | _ => []

theorem flushRange_flushed_iff_oneCopy :
    ∃ fuel s, flushRange twoSets 0 100 fuel oneCopy = some s ∧ Flushed twoSets 0 100 oneCopy s := by
  obtain ⟨fuel, s, hs, hiff⟩ := flushRange_flushed_iff twoSets 0 100 (by decide) oneCopy
  refine ⟨fuel, s, hs, hiff.mpr fun i _ x _ => (List.length_filter_le _ _).trans ?_⟩
  match i with
  | 0 => exact le_rfl
  | _ + 1 => exact Nat.zero_le 1

theorem twoCopies_not_flushed :
    ∃ s, flushRange twoSets 0 100 2 twoCopies = some s ∧ ¬Flushed twoSets 0 100 twoCopies s := by
  refine ⟨_, rfl, fun hf => ?_⟩
  refine hf.gone 0 (by decide) plainBlk (by decide) (by decide) ⟨0, by decide, by decide, by decide, by decide⟩

end SmcPim.Cache
