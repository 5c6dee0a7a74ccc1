import Mathlib.Data.Nat.Basic
import Mathlib.Logic.Function.Basic
import Mathlib.Tactic

/-! # Little-endian words in a memory of bytes -/

namespace SmcPim.Bytes

def load : ℕ → (ℕ → UInt8) → ℕ → ℕ
  | 0, _, _ => 0
  | n + 1, m, a => (m a).toNat + 256 * load n m (a + 1)

def store : ℕ → (ℕ → UInt8) → ℕ → ℕ → ℕ → UInt8
  | 0, m, _, _ => m
  | n + 1, m, a, v => store n (Function.update m a (UInt8.ofNat v)) (a + 1) (v / 256)

variable {n k a b v : ℕ} {m m' : ℕ → UInt8}

def InWord (n a b : ℕ) : Prop := a ≤ b ∧ b < a + n

instance : Decidable (InWord n a b) := inferInstanceAs (Decidable (_ ∧ _))

lemma load_congr (h : ∀ b, InWord n a b → m' b = m b) : load n m' a = load n m a := by
  induction n generalizing a with
  | zero => rfl
  | succ n ih =>
    unfold load
    rw [h a ⟨le_refl a, by omega⟩, ih fun b hb => h b ⟨by have := hb.1; omega, by have := hb.2; omega⟩]

lemma store_other (h : ¬ InWord n a b) : store n m a v b = m b := by
  induction n generalizing m a v with
  | zero => rfl
  | succ n ih =>
    unfold InWord at h ih
    unfold store
    rw [ih (by omega), Function.update_of_ne (by omega)]

lemma load_store_apart (h : ∀ b, InWord n a b → ¬ InWord k v b) (w : ℕ) :
    load n (store k m v w) a = load n m a :=
  load_congr fun b hb => store_other (h b hb)

lemma load_store : load n (store n m a v) a = v % 256 ^ n := by
  induction n generalizing m a v with
  | zero => rw [pow_zero, Nat.mod_one]; rfl
  | succ n ih =>
    unfold load store
    rw [ih, store_other (by unfold InWord; omega), Function.update_self, UInt8.toNat_ofNat',
      pow_succ' 256, Nat.mod_mul]

lemma store_load : store n m a (load n m a) = m := by
  induction n generalizing a with
  | zero => rfl
  | succ n ih =>
    have hlt := (m a).toNat_lt
    have hbyte : UInt8.ofNat ((m a).toNat + 256 * load n m (a + 1)) = m a := by
      apply UInt8.toNat_inj.mp
      rw [UInt8.toNat_ofNat']
      omega
    have hrest : ((m a).toNat + 256 * load n m (a + 1)) / 256 = load n m (a + 1) := by omega
    unfold load store
    rw [hbyte, hrest, Function.update_eq_self, ih]

end SmcPim.Bytes
