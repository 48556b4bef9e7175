import Mathlib.Data.Set.Lattice
import Mathlib.Algebra.BigOperators.Group.List.Basic
import Mathlib.Algebra.GroupWithZero.Nat
import Mathlib.Algebra.Order.Group.Nat
import Mathlib.Algebra.Order.BigOperators.Group.List

/-!
# Quorum systems from voting power

A `QuorumSystem` says which sets of participants are quorums and which
participants may be faulty; any two quorums share a participant that is not.
`ofWeight` is the usual instance: members with a power each, quorums that hold
more than two thirds of the total and faulty members that hold less than one
third. A member may be listed several times and then has the sum of its powers.
-/

/-- Quorums that meet outside the faulty participants. -/
structure QuorumSystem (α : Type*) where
  IsQuorum : Set α → Prop
  faulty : Set α
  mono : ∀ {s t : Set α}, s ⊆ t → IsQuorum s → IsQuorum t
  exists_mem_inter : ∀ {s t : Set α}, IsQuorum s → IsQuorum t → ∃ a, a ∉ faulty ∧ a ∈ s ∧ a ∈ t

namespace QuorumSystem

variable {α : Type*}

theorem exists_mem (Q : QuorumSystem α) {s : Set α} (h : Q.IsQuorum s) :
    ∃ a, a ∉ Q.faulty ∧ a ∈ s := by
  obtain ⟨a, ha, hs, _⟩ := Q.exists_mem_inter h h
  exact ⟨a, ha, hs⟩

/-! ### Weights -/

def weight (members : List (α × ℕ)) (p : α → Prop) [DecidablePred p] : ℕ :=
  (members.map fun m => if p m.1 then m.2 else 0).sum

def total (members : List (α × ℕ)) : ℕ := (members.map Prod.snd).sum

section Weight

variable (members : List (α × ℕ)) {p q : α → Prop} [DecidablePred p] [DecidablePred q]

theorem weight_le_weight_of_mem (h : ∀ m ∈ members, p m.1 → q m.1) :
    weight members p ≤ weight members q := by
  apply List.sum_le_sum
  intro m hm
  by_cases hp : p m.1
  · rw [if_pos hp, if_pos (h m hm hp)]
  · rw [if_neg hp]
    exact Nat.zero_le _

theorem weight_mono (h : ∀ a, p a → q a) : weight members p ≤ weight members q :=
  weight_le_weight_of_mem members fun m _ => h m.1

theorem weight_le_total : weight members p ≤ total members := by
  apply List.sum_le_sum
  intro m _
  by_cases hp : p m.1
  · rw [if_pos hp]
  · rw [if_neg hp]
    exact Nat.zero_le _

theorem weight_and_add_weight_and_not :
    weight members (fun a => p a ∧ q a) + weight members (fun a => p a ∧ ¬ q a) =
      weight members p := by
  induction members with
  | nil => rfl
  | cons m members ih =>
      have hhead : (if p m.1 ∧ q m.1 then m.2 else 0) + (if p m.1 ∧ ¬ q m.1 then m.2 else 0) =
          if p m.1 then m.2 else 0 := by
        by_cases hp : p m.1 <;> by_cases hq : q m.1 <;> simp [hp, hq]
      simp only [weight, List.map_cons, List.sum_cons] at ih ⊢
      omega

theorem weight_add_weight_not :
    weight members p + weight members (fun a => ¬ p a) = total members := by
  have hall : weight members (fun _ => True) = total members := by
    rw [weight, total]
    simp
  have hsplit := weight_and_add_weight_and_not members (p := fun _ => True) (q := p)
  simp only [true_and] at hsplit
  rw [hsplit, hall]

theorem weight_eq_mul {power : ℕ} (h : ∀ m ∈ members, m.2 = power) :
    weight members p = (members.filter fun m => p m.1).length * power := by
  induction members with
  | nil => exact (Nat.zero_mul power).symm
  | cons m members ih =>
      have htail := ih fun m' hm' => h m' (List.mem_cons_of_mem m hm')
      rw [weight] at htail ⊢
      rw [List.map_cons, List.sum_cons, htail, h m List.mem_cons_self]
      by_cases hp : p m.1
      · rw [if_pos hp, List.filter_cons_of_pos (by simpa using hp), List.length_cons,
          Nat.succ_mul, Nat.add_comm]
      · rw [if_neg hp, List.filter_cons_of_neg (by simpa using hp), Nat.zero_add]

theorem weight_add_weight_le :
    weight members p + weight members q ≤
      total members + weight members fun a => p a ∧ q a := by
  induction members with
  | nil => simp [weight, total]
  | cons m members ih =>
      have hhead : (if p m.1 then m.2 else 0) + (if q m.1 then m.2 else 0) ≤
          m.2 + if p m.1 ∧ q m.1 then m.2 else 0 := by
        by_cases hp : p m.1 <;> by_cases hq : q m.1 <;> simp [hp, hq]
      simp only [weight, total, List.map_cons, List.sum_cons] at ih ⊢
      omega

theorem total_eq_mul {power : ℕ} (h : ∀ m ∈ members, m.2 = power) :
    total members = members.length * power := by
  have hpowers : members.map Prod.snd = List.replicate members.length power := by
    rw [List.eq_replicate_iff, List.length_map]
    refine ⟨rfl, ?_⟩
    intro b hb
    obtain ⟨m, hm, rfl⟩ := List.mem_map.mp hb
    exact h m hm
  rw [total, hpowers, List.sum_replicate_nat]

/-- Two predicates of more than two thirds share more than one third. -/
theorem total_lt_weight_inter (hp : 2 * total members < 3 * weight members p)
    (hq : 2 * total members < 3 * weight members q) :
    total members < 3 * weight members fun a => p a ∧ q a := by
  have hsum := weight_add_weight_le members (p := p) (q := q)
  omega

end Weight

section OfWeight

open Classical in
/-- The quorums of more than two thirds, with faulty members of less than one
third of the power. -/
noncomputable def ofWeight (members : List (α × ℕ)) (faulty : α → Prop) [DecidablePred faulty]
    (hfaulty : 3 * weight members faulty < total members) : QuorumSystem α where
  IsQuorum s := 2 * total members < 3 * weight members (· ∈ s)
  faulty := {a | faulty a}
  mono := by
    intro s t hst hs
    have hle := weight_mono members (p := (· ∈ s)) (q := (· ∈ t)) fun a ha => hst ha
    omega
  exists_mem_inter := by
    intro s t hs ht
    by_contra hnone
    -- otherwise the common members are faulty and too light
    have hinter : weight members (fun a => a ∈ s ∧ a ∈ t) ≤ weight members faulty := by
      apply weight_mono
      rintro a ⟨has, hat⟩
      by_contra hfault
      exact hnone ⟨a, hfault, has, hat⟩
    have hshared := total_lt_weight_inter members hs ht
    omega

variable {members : List (α × ℕ)} {faulty : α → Prop} [DecidablePred faulty]
  {hfaulty : 3 * weight members faulty < total members}

theorem isQuorum_ofWeight {p : α → Prop} [DecidablePred p] {s : Set α}
    (hp : 2 * total members < 3 * weight members p) (hsub : ∀ a, p a → a ∈ s) :
    (ofWeight members faulty hfaulty).IsQuorum s := by
  classical
  have hle := weight_mono members (p := p) (q := (· ∈ s)) hsub
  exact lt_of_lt_of_le hp (Nat.mul_le_mul_left 3 hle)

end OfWeight

end QuorumSystem
