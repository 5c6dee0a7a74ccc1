import SmcPim.Lib.Cuts
import SmcPim.Tlb.Translate

/-! # A stretch of the region, cut along its slices -/

namespace SmcPim.Tlb

variable {p : Tlb.Params} {mem : Memory} {T : Table p mem} {v w last : Nat}

namespace Table

def sliceEnd (T : Table p mem) (v : Nat) : Nat := (T.slice v).vaddr + (T.slice v).size - 1

def pieces (T : Table p mem) (v last : Nat) : List (Nat × Nat) := Cuts.cuts T.sliceEnd v last

lemma le_sliceEnd (hv : T.region v) : v ≤ T.sliceEnd v := by
  have hcov := slice_covers hv
  have h1 := hcov.1
  have h2 := hcov.2
  unfold sliceEnd
  omega

section
variable (hv : T.region v) (hlo : v ≤ w) (hhi : w ≤ T.sliceEnd v)
include hv hlo hhi

lemma slice_covers_of_le : (T.slice v).covers w := by
  have hcov := slice_covers hv
  have h1 := hcov.1
  have h2 := hcov.2
  unfold sliceEnd at hhi
  exact ⟨by omega, by omega⟩

lemma slice_eq_of_le : T.slice w = T.slice v :=
  slice_of_covers (page_lt hv) (slice_covers_of_le hv hlo hhi)

lemma region_of_le : T.region w :=
  region_of_covers (page_lt hv) (slice_covers_of_le hv hlo hhi)

lemma phys_add : T.phys w = T.phys v + (w - v) := by
  have hk := page_lt hv
  have hv' := phys_of_covers hk (slice_covers hv)
  have hw' := phys_of_covers hk (slice_covers_of_le hv hlo hhi)
  have h1 := (slice_covers hv).1
  change (T.entry (T.page v)).vaddr ≤ v at h1
  omega

end

lemma slice_next (hv : T.region v) (hw : T.region w) (heq : w = T.sliceEnd v + 1) :
    (T.slice w).vaddr = w := by
  have hcov := slice_covers hw
  by_contra hne
  have h1 := hcov.1
  have h2 := hcov.2
  have hback : (T.slice w).covers (w - 1) := ⟨by omega, by omega⟩
  have hle := le_sliceEnd hv
  have hsame : T.slice (w - 1) = T.slice w := slice_of_covers (page_lt hw) hback
  rw [slice_eq_of_le hv (by omega) (by omega)] at hsame
  have hend : T.sliceEnd v = T.sliceEnd w := by
    unfold sliceEnd
    rw [hsame]
  have := le_sliceEnd hw
  omega

section
variable (hv : T.region v) (hl : T.region last)
include hv hl

lemma region_between {u : Nat} (hlo : v ≤ u) (hhi : u ≤ last) : T.region u :=
  ⟨Nat.le_trans hv.1 hlo, Nat.lt_of_le_of_lt hhi hl.2⟩

lemma forward : Cuts.Forward T.sliceEnd v last :=
  fun _ hlo hhi => le_sliceEnd (region_between hv hl hlo hhi)

lemma piece_spec {x : Nat × Nat} (hx : x ∈ T.pieces v last) :
    T.region x.1 ∧ v ≤ x.1 ∧ x.1 ≤ x.2 ∧ x.2 ≤ last ∧ x.2 ≤ T.sliceEnd x.1 := by
  obtain ⟨h1, h2, h3, h4⟩ := Cuts.mem_cuts (forward hv hl) hx
  exact ⟨region_between hv hl h1 (by omega), h1, h2, h3, by omega⟩

lemma pieces_inside_iff (hle : v ≤ last) :
    (∀ x ∈ T.pieces v last, x.1 < last) ↔ v < last ∧ (T.slice last).vaddr ≠ last := by
  have hf := forward hv hl
  constructor
  · intro hall
    obtain ⟨x, hx, hlo, hhi⟩ := Cuts.exists_cut hf hle (Nat.le_refl last)
    obtain ⟨hxr, hxv, -, -, hend⟩ := piece_spec hv hl hx
    have hlt := hall x hx
    refine ⟨by omega, ?_⟩
    intro heq
    rw [slice_eq_of_le hxr (Nat.le_of_lt hlt) (by omega)] at heq
    have := (slice_covers hxr).1
    omega
  · rintro ⟨hlt, hne⟩ x hx
    obtain ⟨hxr, hxv, hx12, hxl, -⟩ := piece_spec hv hl hx
    apply Nat.lt_of_le_of_ne (by omega)
    intro heq
    rcases Cuts.cut_start hf hx with hstart | ⟨u, hu, hux, hstart⟩
    · omega
    · apply hne
      rw [← heq]
      exact slice_next (region_between hv hl hu (by omega)) hxr hstart

end

end Table

variable {t : Tlb}

lemma Ok.resident_slice (h : Ok T t) (hv : T.region v) (hres : t.Resident v) (hlo : v ≤ w)
    (hhi : w ≤ T.sliceEnd v) : t.Resident w := by
  obtain ⟨r, hr, hc⟩ := hres
  have hrule := h.rule_eq hv hr hc
  refine ⟨r, hr, ?_⟩
  rw [hrule]
  exact (ruleOf_contains (Table.page_lt hv)).mpr (Table.slice_covers_of_le hv hlo hhi)

end SmcPim.Tlb
