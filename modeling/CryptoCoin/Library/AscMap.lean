import Mathlib.Data.List.Lookmap
import Mathlib.Order.Basic

/-!
# Finite maps as ascending association lists

The ordered map of a functional program, held as the list of its bindings in
strictly ascending key order. The order is a field, so no value has a repeated
key, the list is what an ascending traversal returns, and equal maps are equal
values.
-/

/-- A finite map given by its bindings in strictly ascending key order. -/
structure AscMap (κ ν : Type*) [LT κ] where
  toAscList : List (κ × ν)
  ascending : toAscList.Pairwise fun a b => a.1 < b.1

namespace AscMap

variable {κ ν : Type*} [LT κ]

def empty : AscMap κ ν := ⟨[], List.Pairwise.nil⟩

def singleton (k : κ) (x : ν) : AscMap κ ν := ⟨[(k, x)], List.pairwise_singleton _ _⟩

variable [DecidableEq κ]

def lookup (k : κ) (m : AscMap κ ν) : Option ν := m.toAscList.lookup k

@[simp] theorem lookup_singleton (k : κ) (x : ν) : lookup k (singleton k x) = some x := by
  simp [lookup, singleton]

/-- A binding of the traversal is found by `lookup`, whatever order the keys
have, as soon as no key lies below itself. -/
theorem lookup_eq_some_of_mem (hirr : ∀ k : κ, ¬ k < k) {m : AscMap κ ν} {k : κ} {x : ν}
    (h : (k, x) ∈ m.toAscList) : lookup k m = some x := by
  obtain ⟨l, hl⟩ := m
  change (k, x) ∈ l at h
  change l.lookup k = some x
  induction l with
  | nil => simp at h
  | cons b l ih =>
      obtain ⟨hb, hrest⟩ := List.pairwise_cons.mp hl
      rcases List.mem_cons.mp h with heq | hmem
      · subst heq
        simp
      · have hne : (k == b.1) = false := by
          rw [beq_eq_false_iff_ne]
          intro heq
          have hlt : b.1 < k := hb (k, x) hmem
          rw [heq] at hlt
          exact hirr _ hlt
        rw [List.lookup_cons, hne]
        exact ih hrest hmem

end AscMap
