import Mathlib.Data.List.Basic

/-!
# The last member with a property

A table to which entries are written one after the other holds for each key the entry
that was written last. `latest p l` is the last member of `l` with the property `p`, so
such a table is a function of the list of writes (`lookup_foldl`).
-/

namespace Latest

variable {α : Type*} {p : α → Prop} [DecidablePred p]

/-- The last member with the property. -/
def latest (p : α → Prop) [DecidablePred p] (l : List α) : Option α :=
  l.reverse.find? fun a => p a

theorem latest_append (l k : List α) : latest p (l ++ k) = (latest p k).or (latest p l) := by
  rw [latest, List.reverse_append, List.find?_append, latest, latest]

theorem latest_singleton (a : α) : latest p [a] = if p a then some a else none := by
  by_cases h : p a
  · rw [if_pos h]
    exact List.find?_cons_of_pos (decide_eq_true h)
  · rw [if_neg h]
    exact List.find?_cons_of_neg (by simpa using h)

theorem latest_cons (a : α) (l : List α) :
    latest p (a :: l) = (latest p l).or (if p a then some a else none) := by
  rw [← latest_singleton, ← latest_append, List.singleton_append]

/-- The rule of the last write: when a step writes the value of an input with the property
and else keeps what `lookup` finds, `lookup` finds the value of the last such input. The
step may do so only under an invariant. -/
theorem lookup_foldl {σ β : Type*} {step : σ → α → σ} {I : σ → Prop}
    (hkeep : ∀ s a, I s → I (step s a)) (lookup : σ → Option β) (value : α → β)
    (hwrite : ∀ s a, I s → lookup (step s a) = if p a then some (value a) else lookup s)
    (l : List α) {s : σ} (hs : I s) :
    lookup (l.foldl step s) = ((latest p l).map value).or (lookup s) := by
  induction l generalizing s with
  | nil => rfl
  | cons a l ih =>
      rw [List.foldl_cons, ih (hkeep s a hs), hwrite s a hs, latest_cons]
      cases latest p l with
      | some last => rfl
      | none =>
          split_ifs
          · rfl
          · rfl

theorem latest_of_forall {l : List α} (h : ∀ a ∈ l, p a) : latest p l = l.getLast? := by
  rw [latest, List.getLast?_eq_head?_reverse]
  cases hl : l.reverse with
  | nil => rfl
  | cons a rest =>
      have ha : a ∈ l := List.mem_reverse.mp (by rw [hl]; exact List.mem_cons_self)
      exact List.find?_cons_of_pos (decide_eq_true (h a ha))

theorem mem_of_latest {l : List α} {a : α} (h : latest p l = some a) : a ∈ l :=
  List.mem_reverse.mp (List.mem_of_find?_eq_some h)

theorem prop_of_latest {l : List α} {a : α} (h : latest p l = some a) : p a := by
  have hp := List.find?_some h
  exact of_decide_eq_true hp

theorem exists_latest {l : List α} {a : α} (ha : a ∈ l) (h : p a) : ∃ b, latest p l = some b :=
  Option.isSome_iff_exists.mp
    (List.find?_isSome.mpr ⟨a, List.mem_reverse.mpr ha, decide_eq_true h⟩)

end Latest
