import Mathlib.Data.Set.Insert
import Mathlib.Logic.Function.Basic

/-!
# Nodes at addresses

A trie in memory has a node for each of its paths, at an address of its own. `Placed paths live M`
says so of the map `M` from paths to addresses. A node that is linked below another one, or unlinked
from it, changes the map at one path (`Placed.insert`, `Placed.erase`), and then only the node above
has other children, and only for one letter (`children_update_parent`, `children_update_of_ne`). -/

namespace NodePlacement

variable {κ A : Type*} {M : List κ → Option A} {paths : Set (List κ)} {live : Set A} {p q : List κ}
  {a b : A} {c : κ} {o : Option A}

/-- Every path has an address, and different paths have different ones. -/
structure Placed (paths : Set (List κ)) (live : Set A) (M : List κ → Option A) : Prop where
  dom : ∀ p, (M p).isSome ↔ p ∈ paths
  inj : ∀ p q a, M p = some a → M q = some a → p = q
  live : ∀ p a, M p = some a → a ∈ live

theorem Placed.ne (h : Placed paths live M) (hp : M p = some a) (hq : M q = some b) (hpq : p ≠ q) :
    a ≠ b := by
  rintro rfl
  exact hpq (h.inj p q a hp hq)

variable [DecidableEq κ]

theorem update_eq_some (h : Function.update M q (some b) p = some a) :
    p = q ∧ a = b ∨ p ≠ q ∧ M p = some a := by
  by_cases hpq : p = q
  · subst hpq
    rw [Function.update_self, Option.some.injEq] at h
    exact Or.inl ⟨rfl, h.symm⟩
  · rw [Function.update_of_ne hpq] at h
    exact Or.inr ⟨hpq, h⟩

theorem update_none_eq_some (h : Function.update M q none p = some a) : p ≠ q ∧ M p = some a := by
  by_cases hpq : p = q
  · subst hpq
    simp at h
  · rw [Function.update_of_ne hpq] at h
    exact ⟨hpq, h⟩

namespace Placed

/-- A node at a fresh address. -/
theorem insert (h : Placed paths live M) (hb : b ∉ live) :
    Placed (insert q paths) (insert b live) (Function.update M q (some b)) where
  dom p := by
    by_cases hpq : p = q
    · simp [hpq]
    · simp [hpq, h.dom]
  inj p r a hp hr := by
    rcases update_eq_some hp with ⟨rfl, rfl⟩ | ⟨-, hp'⟩ <;> rcases update_eq_some
      hr with ⟨rfl, hab⟩ | ⟨-, hr'⟩
    · rfl
    · exact absurd (h.live r a hr') hb
    · exact absurd (hab ▸ h.live p a hp') hb
    · exact h.inj p r a hp' hr'
  live p a hp := by
    rcases update_eq_some hp with ⟨-, rfl⟩ | ⟨-, hp⟩
    · exact Set.mem_insert a live
    · exact Set.mem_insert_of_mem b (h.live p a hp)

/-- A node is gone, and with it its address. -/
theorem erase (h : Placed paths live M) (hq : M q = some b) :
    Placed (paths \ {q}) (live \ {b}) (Function.update M q none) where
  dom p := by
    by_cases hpq : p = q
    · simp [hpq]
    · simp [hpq, h.dom]
  inj p r a hp hr := h.inj p r a (update_none_eq_some hp).2 (update_none_eq_some hr).2
  live p a hp := by
    obtain ⟨hpq, hp⟩ := update_none_eq_some hp
    exact ⟨h.live p a hp, h.ne hp hq hpq⟩

end Placed

/-! ### Children -/

theorem children_update_parent :
    (fun d => Function.update M (p ++ [c]) o (p ++ [d])) = Function.update (fun d =>
      M (p ++ [d])) c o := by
  funext d
  by_cases hdc : d = c
  · simp [hdc]
  · have hpath : p ++ [d] ≠ p ++ [c] := by simpa using hdc
    rw [Function.update_of_ne hpath, Function.update_of_ne hdc]

theorem children_update_of_ne (h : q ≠ p) :
    (fun d => Function.update M (p ++ [c]) o (q ++ [d])) = fun d => M (q ++ [d]) := by
  funext d
  have hpath : q ++ [d] ≠ p ++ [c] := fun he => h (List.append_inj' he rfl).1
  rw [Function.update_of_ne hpath]

end NodePlacement
