import Mathlib

/-! # A cache that replaces the least recently used entry -/

namespace SmcPim.Lru

variable {α κ : Type*}

structure Entry (α : Type*) where
  value : α
  uses : List ℕ

def Entry.latest (e : Entry α) : ℕ := e.uses.foldr max 0

def Entry.use (now : ℕ) (e : Entry α) : Entry α := { e with uses := now :: e.uses }

structure Cache (α : Type*) where
  pinned : α
  entries : List (Entry α)

def Cache.values (c : Cache α) : List α := c.pinned :: c.entries.map (·.value)

inductive Request (κ α : Type*)
  | look (key : κ)
  | install (value : α)

/-- The requests of a cache of `size` values, each with its time. -/
inductive Step (size : ℕ) (covers : α → κ → Prop) : Cache α → ℕ × Request κ α → Cache α → Prop
  | pinned {c : Cache α} {now : ℕ} {key : κ} : covers c.pinned key → Step size covers c (now, .look key) c
  | hit {a : α} {pre post : List (Entry α)} {e : Entry α} {now : ℕ} {key : κ} :
      ¬covers a key → (∀ q ∈ pre, ¬covers q.value key) → covers e.value key →
      Step size covers ⟨a, pre ++ e :: post⟩ (now, .look key) ⟨a, pre ++ e.use now :: post⟩
  | miss {c : Cache α} {now : ℕ} {key : κ} : (∀ a ∈ c.values, ¬covers a key) → Step size covers c (now, .look key) c
  | install {c : Cache α} {now : ℕ} {a : α} :
      c.values.length < size → Step size covers c (now, .install a) ⟨c.pinned, c.entries ++ [⟨a, [now]⟩]⟩
  | replace {b : α} {pre post : List (Entry α)} {e : Entry α} {now : ℕ} {a : α} :
      size ≤ (Cache.values ⟨b, pre ++ e :: post⟩).length → (∀ q ∈ pre ++ post, e.latest ≤ q.latest) →
      Step size covers ⟨b, pre ++ e :: post⟩ (now, .install a) ⟨b, pre ++ post ++ [⟨a, [now]⟩]⟩

lemma Cache.values_length (c : Cache α) : c.values.length = c.entries.length + 1 := by
  simp [values]

end SmcPim.Lru
