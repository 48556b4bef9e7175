import CryptoCoin.Library.HashTree
import Mathlib.Algebra.Group.Nat.Defs
import Mathlib.Data.List.Basic

/-!
# Paths in hash trees

A path is an index, whose low bits say at which levels it is in the right half, and the
hashes of the siblings from the bottom up. `climb` combines a hash with the siblings of
a path; `descend` follows the bits of an index from the root down and collects the
siblings.

The two are inverse: what `descend` finds climbs to the root (`climb_of_descend`), and
what climbs to the root is what `descend` finds, unless two different pairs are
combined to the same hash on the way (`exists_descend_of_climb`).

A path may also come without an index and order each pair by its hashes (`ascend`). Then
a path as long as a perfect tree is deep starts at one of its leaves
(`Halves.mem_of_ascend`).
-/

namespace HashTree

variable {α : Type*} {combine : α → α → α}

/-! ### Left and right -/

/-- A pair in the order that the lowest bit of the index says: the first component is
the one on the path. -/
def joinAt {β : Type*} (idx : ℕ) (x y : β) : β × β := if idx % 2 = 0 then (x, y) else (y, x)

@[simp] theorem joinAt_joinAt {β : Type*} (idx : ℕ) (x y : β) :
    joinAt idx (joinAt idx x y).1 (joinAt idx x y).2 = (x, y) := by
  by_cases h : idx % 2 = 0
  · simp [joinAt, h]
  · simp [joinAt, h]

theorem joinAt_rootHash (idx : ℕ) (left right : HashTree α) :
    joinAt idx left.rootHash right.rootHash =
      ((joinAt idx left right).1.rootHash, (joinAt idx left right).2.rootHash) := by
  by_cases h : idx % 2 = 0
  · simp [joinAt, h]
  · simp [joinAt, h]

/-! ### Climbing -/

/-- The hash at the top of a path. -/
def climb (combine : α → α → α) : α → ℕ → List α → α
  | x, _, [] => x
  | x, idx, sibling :: siblings =>
      climb combine (combine (joinAt idx x sibling).1 (joinAt idx x sibling).2) (idx / 2) siblings

def climbPairs (combine : α → α → α) : α → ℕ → List α → List (α × α)
  | _, _, [] => []
  | x, idx, sibling :: siblings =>
      joinAt idx x sibling :: climbPairs combine
        (combine (joinAt idx x sibling).1 (joinAt idx x sibling).2) (idx / 2) siblings

theorem climb_append (x : α) (idx : ℕ) (lower upper : List α) :
    climb combine x idx (lower ++ upper) =
      climb combine (climb combine x idx lower) (idx / 2 ^ lower.length) upper := by
  induction lower generalizing x idx with
  | nil => simp [climb]
  | cons sibling lower ih =>
      rw [List.cons_append, climb, ih, climb, List.length_cons, Nat.pow_succ',
        Nat.div_div_eq_div_mul]

theorem climbPairs_append (x : α) (idx : ℕ) (lower upper : List α) :
    climbPairs combine x idx (lower ++ upper) =
      climbPairs combine x idx lower ++
        climbPairs combine (climb combine x idx lower) (idx / 2 ^ lower.length) upper := by
  induction lower generalizing x idx with
  | nil => simp [climb, climbPairs]
  | cons sibling lower ih =>
      rw [List.cons_append, climbPairs, ih, climbPairs, climb, List.length_cons, Nat.pow_succ',
        Nat.div_div_eq_div_mul, List.cons_append]

/-- The pair that is combined at the top when the last sibling is `s`. -/
def topPair (combine : α → α → α) (x : α) (idx : ℕ) (siblings : List α) (s : α) : α × α :=
  joinAt (idx / 2 ^ siblings.length) (climb combine x idx siblings) s

theorem climb_append_singleton (x : α) (idx : ℕ) (siblings : List α) (s : α) :
    climb combine x idx (siblings ++ [s]) =
      combine (topPair combine x idx siblings s).1 (topPair combine x idx siblings s).2 :=
  climb_append x idx siblings [s]

theorem climbPairs_append_singleton (x : α) (idx : ℕ) (siblings : List α) (s : α) :
    climbPairs combine x idx (siblings ++ [s]) =
      climbPairs combine x idx siblings ++ [topPair combine x idx siblings s] :=
  climbPairs_append x idx siblings [s]

/-! ### Descending -/

/-- The subtree that the low `k` bits of an index lead to, the highest first, with the
siblings on the way from the bottom up. -/
def descend : ℕ → HashTree α → ℕ → Option (HashTree α × List α)
  | 0, t, _ => some (t, [])
  | _ + 1, leaf _, _ => none
  | k + 1, node _ left right, idx =>
      (descend k (joinAt (idx / 2 ^ k) left right).1 idx).map fun found =>
        (found.1, found.2 ++ [(joinAt (idx / 2 ^ k) left right).2.rootHash])

theorem length_of_descend {k : ℕ} {t s : HashTree α} {idx : ℕ} {siblings : List α}
    (h : descend k t idx = some (s, siblings)) : siblings.length = k := by
  induction k generalizing t siblings with
  | zero =>
      cases h
      rfl
  | succ k ih =>
      cases t with
      | leaf x => cases h
      | node x left right =>
          obtain ⟨found, hfound, heq⟩ := Option.map_eq_some_iff.mp h
          cases heq
          rw [List.length_append, ih hfound, List.length_singleton]

def Hashed (combine : α → α → α) : HashTree α → Prop
  | leaf _ => True
  | node h left right =>
      h = combine left.rootHash right.rootHash ∧ left.Hashed combine ∧ right.Hashed combine

theorem Halves.hashed {l : List α} {t : HashTree α} (h : Halves combine l t) :
    t.Hashed combine := by
  induction h with
  | leaf x => trivial
  | node _ _ _ ihl ihr => exact ⟨rfl, ihl, ihr⟩

theorem Hashed.joinAt {h : α} {left right : HashTree α}
    (ht : (node h left right).Hashed combine) (idx : ℕ) :
    (joinAt idx left right).1.Hashed combine := by
  by_cases hidx : idx % 2 = 0
  · simpa [HashTree.joinAt, hidx] using ht.2.1
  · simpa [HashTree.joinAt, hidx] using ht.2.2

theorem pairs_joinAt_subset (h : α) (left right : HashTree α) (idx : ℕ) :
    (joinAt idx left right).1.pairs ⊆ (node h left right).pairs := by
  by_cases hidx : idx % 2 = 0
  · simpa [joinAt, hidx] using pairs_left_subset h left right
  · simpa [joinAt, hidx] using pairs_right_subset h left right

theorem climb_of_descend {k : ℕ} {t s : HashTree α} {idx : ℕ} {siblings : List α}
    (ht : t.Hashed combine) (h : descend k t idx = some (s, siblings)) :
    climb combine s.rootHash idx siblings = t.rootHash ∧
      climbPairs combine s.rootHash idx siblings ⊆ t.pairs := by
  induction k generalizing t siblings with
  | zero =>
      cases h
      exact ⟨rfl, List.nil_subset _⟩
  | succ k ih =>
      cases t with
      | leaf x => cases h
      | node x left right =>
          obtain ⟨⟨s', rest⟩, hfound, heq⟩ := Option.map_eq_some_iff.mp h
          cases heq
          obtain ⟨hclimb, hpairs⟩ := ih (ht.joinAt _) hfound
          -- the last sibling is that of the child which the path goes through
          have htop : topPair combine s'.rootHash idx rest
              (joinAt (idx / 2 ^ k) left right).2.rootHash =
                (left.rootHash, right.rootHash) := by
            rw [topPair, hclimb, length_of_descend hfound]
            have hjoin := joinAt_joinAt (idx / 2 ^ k) left.rootHash right.rootHash
            rwa [joinAt_rootHash] at hjoin
          rw [climb_append_singleton, climbPairs_append_singleton, htop]
          refine ⟨ht.1.symm, List.append_subset.mpr ⟨?_, ?_⟩⟩
          · exact List.Subset.trans hpairs (pairs_joinAt_subset x left right _)
          · intro p hp
            rw [List.mem_singleton.mp hp, pairs]
            exact List.mem_cons_self

/-- What climbs to the root is what `descend` finds, unless two different pairs are
combined to the same hash. -/
theorem exists_descend_of_climb {k : ℕ} {t : HashTree α} {x : α} {idx : ℕ}
    {siblings : List α} (ht : t.Hashed combine) (hdeep : (descend k t idx).isSome)
    (hlen : siblings.length = k) (hroot : climb combine x idx siblings = t.rootHash)
    (hcol : ¬ Collision combine (t.pairs ++ climbPairs combine x idx siblings)) :
    ∃ s, descend k t idx = some (s, siblings) ∧ s.rootHash = x := by
  induction k generalizing t siblings with
  | zero =>
      rw [List.length_eq_zero_iff.mp hlen] at hroot ⊢
      exact ⟨t, rfl, hroot.symm⟩
  | succ k ih =>
      cases t with
      | leaf y => cases hdeep
      | node y left right =>
          obtain ⟨rest, s, rfl⟩ := (List.eq_nil_or_concat' siblings).resolve_left
            (List.ne_nil_of_length_eq_add_one hlen)
          have hrest : rest.length = k := by simpa using hlen
          rw [climb_append_singleton] at hroot
          rw [climbPairs_append_singleton] at hcol
          obtain ⟨hfst, hsnd⟩ := eq_of_not_collision hcol (a := (topPair combine x idx rest s).1)
            (b := (topPair combine x idx rest s).2) (c := left.rootHash) (d := right.rootHash)
            (by simp) (by simp [pairs]) (hroot.trans ht.1)
          have htop : joinAt (idx / 2 ^ k) left.rootHash right.rootHash =
              (climb combine x idx rest, s) := by
            have hjoin := joinAt_joinAt (idx / 2 ^ rest.length) (climb combine x idx rest) s
            rwa [← topPair, hfst, hsnd, hrest] at hjoin
          rw [joinAt_rootHash, Prod.mk.injEq] at htop
          obtain ⟨hpath, hside⟩ := htop
          have hdeep' : (descend k (joinAt (idx / 2 ^ k) left right).1 idx).isSome := by
            simpa [descend] using hdeep
          obtain ⟨s', hfound, hs'⟩ := ih (ht.joinAt _) hdeep' hrest hpath.symm fun hc =>
            hcol (hc.append_mono (pairs_joinAt_subset y left right _)
              (List.subset_append_left _ _))
          refine ⟨s', ?_, hs'⟩
          rw [descend, hfound, Option.map_some, hside]

/-! ### Perfect trees -/

theorem Halves.exists_descend {l : List α} {t : HashTree α} (h : Halves combine l t) {k e : ℕ}
    (hlen : l.length = 2 ^ (k + e)) (idx : ℕ) :
    ∃ s siblings block, descend k t idx = some (s, siblings) ∧ Halves combine block s ∧
      block.length = 2 ^ e ∧ ∀ j < 2 ^ e, block[j]? = l[idx % 2 ^ k * 2 ^ e + j]? := by
  induction k generalizing l t with
  | zero =>
      refine ⟨t, [], l, rfl, h, by rw [hlen, Nat.zero_add], ?_⟩
      intro j _
      rw [Nat.pow_zero, Nat.mod_one, Nat.zero_mul, Nat.zero_add]
  | succ k ih =>
      have hpow : 2 ^ (k + 1 + e) = 2 * 2 ^ (k + e) := by
        rw [Nat.add_right_comm, Nat.pow_succ']
      have hpos : 0 < 2 ^ (k + e) := Nat.pow_pos (by decide)
      have hsplit : 2 ^ (k + e) = 2 ^ k * 2 ^ e := Nat.pow_add 2 k e
      obtain ⟨left, right, rfl, hleft, hright⟩ := h.exists_node (by omega)
      have hhalf : l.length / 2 = 2 ^ (k + e) := by omega
      rw [hhalf] at hleft hright
      by_cases hbit : idx / 2 ^ k % 2 = 0
      · obtain ⟨s, siblings, block, hfound, hblock, hsize, hget⟩ :=
          ih hleft (by rw [List.length_take]; omega)
        refine ⟨s, siblings ++ [right.rootHash], block, ?_, hblock, hsize, ?_⟩
        · simp [descend, joinAt, hbit, hfound]
        · intro j hj
          have hlow : idx % 2 ^ k < 2 ^ k := Nat.mod_lt _ (Nat.pow_pos (by decide))
          have hbound : idx % 2 ^ k * 2 ^ e + j < 2 ^ (k + e) := by
            calc idx % 2 ^ k * 2 ^ e + j < idx % 2 ^ k * 2 ^ e + 2 ^ e := by omega
              _ = (idx % 2 ^ k + 1) * 2 ^ e := by rw [Nat.add_mul, Nat.one_mul]
              _ ≤ 2 ^ k * 2 ^ e := Nat.mul_le_mul_right _ hlow
              _ = 2 ^ (k + e) := hsplit.symm
          rw [hget j hj, List.getElem?_take_of_lt hbound, Nat.mod_pow_succ, hbit, Nat.mul_zero,
            Nat.add_zero]
      · obtain ⟨s, siblings, block, hfound, hblock, hsize, hget⟩ :=
          ih hright (by rw [List.length_drop]; omega)
        refine ⟨s, siblings ++ [left.rootHash], block, ?_, hblock, hsize, ?_⟩
        · simp [descend, joinAt, hbit, hfound]
        · intro j hj
          have hone : idx / 2 ^ k % 2 = 1 := by omega
          rw [hget j hj, List.getElem?_drop, Nat.mod_pow_succ, hone, Nat.mul_one, Nat.add_mul,
            ← hsplit]
          congr 1
          omega

theorem Halves.exists_descend_leaf {l : List α} {t : HashTree α} (h : Halves combine l t) {d : ℕ}
    (hlen : l.length = 2 ^ d) (idx : ℕ) :
    ∃ x siblings, descend d t idx = some (.leaf x, siblings) ∧ l[idx % 2 ^ d]? = some x := by
  obtain ⟨s, siblings, block, hfound, hblock, hsize, hget⟩ := h.exists_descend (e := 0) hlen idx
  obtain ⟨x, rfl, rfl⟩ := hblock.eq_leaf hsize
  refine ⟨x, siblings, hfound, ?_⟩
  have hzero := hget 0 (by decide)
  rw [Nat.pow_zero, Nat.mul_one, Nat.add_zero] at hzero
  exact hzero.symm

def leaves : HashTree α → List α
  | leaf h => [h]
  | node _ left right => left.leaves ++ right.leaves

/-- All leaves are `d` levels below the root. -/
def Perfect : ℕ → HashTree α → Prop
  | 0, leaf _ => True
  | d + 1, node _ left right => left.Perfect d ∧ right.Perfect d
  | _, _ => False

/-- The depths of the leaves from left to right, counted from 1 at the root. -/
def leafDepths : HashTree α → List ℕ
  | leaf _ => [1]
  | node _ left right => (left.leafDepths ++ right.leafDepths).map (1 + ·)

theorem Perfect.eq_of_mem_leafDepths {d : ℕ} {t : HashTree α} (h : t.Perfect d) {n : ℕ}
    (hn : n ∈ t.leafDepths) : n = d + 1 := by
  induction d generalizing t n with
  | zero =>
      cases t with
      | leaf x => exact List.mem_singleton.mp hn
      | node x left right => exact h.elim
  | succ d ih =>
      cases t with
      | leaf x => exact h.elim
      | node x left right =>
          obtain ⟨m, hm, rfl⟩ := List.mem_map.mp hn
          have hdepth : m = d + 1 := by
            rcases List.mem_append.mp hm with hm | hm
            · exact ih h.1 hm
            · exact ih h.2 hm
          rw [hdepth, Nat.add_comm]

theorem Halves.leaves_eq {l : List α} {t : HashTree α} (h : Halves combine l t) :
    t.leaves = l := by
  induction h with
  | leaf x => rfl
  | node _ _ _ ihl ihr => rw [leaves, ihl, ihr, List.take_append_drop]

theorem Halves.perfect {l : List α} {t : HashTree α} (h : Halves combine l t) {d : ℕ}
    (hlen : l.length = 2 ^ d) : t.Perfect d := by
  induction d generalizing l t with
  | zero =>
      obtain ⟨x, _, rfl⟩ := h.eq_leaf hlen
      trivial
  | succ d ih =>
      have hpow : 2 ^ (d + 1) = 2 * 2 ^ d := Nat.pow_succ'
      have hpos : 0 < 2 ^ d := Nat.pow_pos (by decide)
      obtain ⟨left, right, rfl, hleft, hright⟩ := h.exists_node (by omega)
      exact ⟨ih hleft (by rw [List.length_take]; omega),
        ih hright (by rw [List.length_drop]; omega)⟩

theorem Perfect.length_leaves {d : ℕ} {t : HashTree α} (h : t.Perfect d) :
    t.leaves.length = 2 ^ d := by
  induction d generalizing t with
  | zero =>
      cases t with
      | leaf x => rfl
      | node x left right => exact h.elim
  | succ d ih =>
      cases t with
      | leaf x => exact h.elim
      | node x left right =>
          rw [leaves, List.length_append, ih h.1, ih h.2, Nat.pow_succ]
          omega

theorem Perfect.halves {d : ℕ} {t : HashTree α} (h : t.Perfect d) (ht : t.Hashed combine) :
    Halves combine t.leaves t := by
  induction d generalizing t with
  | zero =>
      cases t with
      | leaf x => exact Halves.leaf x
      | node x left right => exact h.elim
  | succ d ih =>
      cases t with
      | leaf x => exact h.elim
      | node x left right =>
          have hlen : (left.leaves ++ right.leaves).length = 2 * 2 ^ d := by
            rw [List.length_append, h.1.length_leaves, h.2.length_leaves]
            omega
          have hhalf : (left.leaves ++ right.leaves).length / 2 = left.leaves.length := by
            rw [hlen, h.1.length_leaves]
            omega
          have hpos : 0 < 2 ^ d := Nat.pow_pos (by decide)
          rw [leaves, ht.1]
          refine Halves.node (by omega) ?_ ?_
          · rw [hhalf, List.take_left]
            exact ih h.1 ht.2.1
          · rw [hhalf, List.drop_left]
            exact ih h.2 ht.2.2

/-! ### Paths that order their pairs -/

section Ascend

variable (combine) (order : α → α → α × α)

/-- The hash at the top of a path that puts every pair in an order of its own. -/
def ascend : α → List α → α
  | x, [] => x
  | x, sibling :: siblings =>
      ascend (combine (order x sibling).1 (order x sibling).2) siblings

def ascendPairs : α → List α → List (α × α)
  | _, [] => []
  | x, sibling :: siblings =>
      order x sibling :: ascendPairs (combine (order x sibling).1 (order x sibling).2) siblings

theorem ascend_append_singleton (x : α) (siblings : List α) (s : α) :
    ascend combine order x (siblings ++ [s]) =
      combine (order (ascend combine order x siblings) s).1
        (order (ascend combine order x siblings) s).2 := by
  induction siblings generalizing x with
  | nil => rfl
  | cons sibling siblings ih => rw [List.cons_append, ascend, ih, ascend]

theorem ascendPairs_append_singleton (x : α) (siblings : List α) (s : α) :
    ascendPairs combine order x (siblings ++ [s]) =
      ascendPairs combine order x siblings ++ [order (ascend combine order x siblings) s] := by
  induction siblings generalizing x with
  | nil => rfl
  | cons sibling siblings ih =>
      rw [List.cons_append, ascendPairs, ih, ascendPairs, ascend, List.cons_append]

variable {combine order}

/-- A path with one sibling for each level of a perfect tree starts at a leaf, unless two
different pairs are combined to the same hash. The last pair is that of the root, so what
comes before ends in one of the halves. -/
theorem Halves.mem_of_ascend (horder : ∀ x y, order x y = (x, y) ∨ order x y = (y, x))
    {l : List α} {t : HashTree α} (h : Halves combine l t) {m : ℕ} (hlen : l.length = 2 ^ m)
    {x : α} {siblings : List α} (hm : siblings.length = m)
    (hroot : ascend combine order x siblings = t.rootHash)
    (hcol : ¬ Collision combine (t.pairs ++ ascendPairs combine order x siblings)) : x ∈ l := by
  induction m generalizing l t siblings with
  | zero =>
      obtain ⟨y, rfl, rfl⟩ := h.eq_leaf hlen
      rw [List.length_eq_zero_iff.mp hm] at hroot
      exact List.mem_singleton.mpr hroot
  | succ m ih =>
      have hpow : 2 ^ (m + 1) = 2 * 2 ^ m := Nat.pow_succ'
      have hpos : 0 < 2 ^ m := Nat.pow_pos (by decide)
      obtain ⟨left, right, rfl, hleft, hright⟩ := h.exists_node (by omega)
      obtain ⟨rest, s, rfl⟩ := (List.eq_nil_or_concat' siblings).resolve_left
        (List.ne_nil_of_length_eq_add_one hm)
      have hrest : rest.length = m := by simpa using hm
      rw [ascend_append_singleton] at hroot
      rw [ascendPairs_append_singleton] at hcol
      obtain ⟨hfst, hsnd⟩ := eq_of_not_collision hcol
        (a := (order (ascend combine order x rest) s).1)
        (b := (order (ascend combine order x rest) s).2) (c := left.rootHash)
        (d := right.rootHash) (by simp) (by simp [pairs]) hroot
      rcases horder (ascend combine order x rest) s with heq | heq
      · rw [heq] at hfst
        refine List.mem_of_mem_take (ih hleft ?_ hrest hfst fun hc => hcol ?_)
        · rw [List.length_take]
          omega
        · exact hc.append_mono (pairs_left_subset _ left right) (List.subset_append_left _ _)
      · rw [heq] at hsnd
        refine List.mem_of_mem_drop (ih hright ?_ hrest hsnd fun hc => hcol ?_)
        · rw [List.length_drop]
          omega
        · exact hc.append_mono (pairs_right_subset _ left right) (List.subset_append_left _ _)

end Ascend

end HashTree
