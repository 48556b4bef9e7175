import Mathlib.Data.Nat.Log
import Mathlib.Logic.Basic

/-!
# Hash trees built by halving

A list is hashed into a binary tree by cutting it at half its length, building
both halves and combining their roots with `combine`. `build? combine l` is that
recursion; it has no result on the empty list, where the source recursion does
not end. `Halves combine l t` says without fuel that `t` is the tree of `l`, and
the results below are proved by induction on it.

Nothing is assumed of `combine`. What an injective combiner would give is stated
with the pairs that really occur in the two trees at hand (`pairs`): two lists of
one length with the same root are equal, or two different pairs among those have
the same image.
-/

/-- A binary tree whose nodes carry the hash of their subtree. -/
inductive HashTree (α : Type*) where
  | leaf (h : α)
  | node (h : α) (left right : HashTree α)

namespace HashTree

variable {α β : Type*}

def rootHash : HashTree α → α
  | leaf h => h
  | node h _ _ => h

def pairs : HashTree α → List (α × α)
  | leaf _ => []
  | node _ left right => (left.rootHash, right.rootHash) :: (left.pairs ++ right.pairs)

def map (g : α → β) : HashTree α → HashTree β
  | leaf h => leaf (g h)
  | node h left right => node (g h) (left.map g) (right.map g)

theorem pairs_left_subset (h : α) (left right : HashTree α) :
    left.pairs ⊆ (node h left right).pairs := by
  intro p hp
  simp [pairs, hp]

theorem pairs_right_subset (h : α) (left right : HashTree α) :
    right.pairs ⊆ (node h left right).pairs := by
  intro p hp
  simp [pairs, hp]

@[simp] theorem rootHash_map (g : α → β) (t : HashTree α) :
    (t.map g).rootHash = g t.rootHash := by
  cases t <;> rfl

def buildBelow (combine : α → α → α) : ℕ → List α → Option (HashTree α)
  | _, [h] => some (leaf h)
  | 0, _ => none
  | fuel + 1, l => do
      let left ← buildBelow combine fuel (l.take (l.length / 2))
      let right ← buildBelow combine fuel (l.drop (l.length / 2))
      some (node (combine left.rootHash right.rootHash) left right)

/-- The tree of a list; `none` when the recursion does not end. -/
def build? (combine : α → α → α) (l : List α) : Option (HashTree α) :=
  buildBelow combine l.length l

/-- `t` is the tree that halving builds over `l`. -/
inductive Halves (combine : α → α → α) : List α → HashTree α → Prop
  | leaf (h : α) : Halves combine [h] (leaf h)
  | node {l : List α} {left right : HashTree α} (hlen : 2 ≤ l.length)
      (hleft : Halves combine (l.take (l.length / 2)) left)
      (hright : Halves combine (l.drop (l.length / 2)) right) :
      Halves combine l (node (combine left.rootHash right.rootHash) left right)

section Build

variable {combine : α → α → α}

theorem buildBelow_succ {fuel : ℕ} {l : List α} (hlen : 2 ≤ l.length) :
    buildBelow combine (fuel + 1) l =
      (buildBelow combine fuel (l.take (l.length / 2))).bind fun left =>
        (buildBelow combine fuel (l.drop (l.length / 2))).bind fun right =>
          some (node (combine left.rootHash right.rootHash) left right) := by
  match l, hlen with
  | a :: b :: l, _ => rfl

theorem exists_buildBelow {fuel : ℕ} {l : List α} (hl : l ≠ []) (hfuel : l.length ≤ fuel) :
    ∃ t, buildBelow combine fuel l = some t ∧ Halves combine l t := by
  induction fuel generalizing l with
  | zero =>
      have hnil : l = [] := List.length_eq_zero_iff.mp (Nat.le_zero.mp hfuel)
      exact absurd hnil hl
  | succ fuel ih =>
      by_cases hlen : 2 ≤ l.length
      · have hdrop : l.drop (l.length / 2) ≠ [] := by
          rw [ne_eq, List.drop_eq_nil_iff]; omega
        have htake : l.take (l.length / 2) ≠ [] := by
          rw [ne_eq, List.take_eq_nil_iff, not_or]
          exact ⟨by omega, hl⟩
        obtain ⟨left, hbl, hhl⟩ := ih htake (by rw [List.length_take]; omega)
        obtain ⟨right, hbr, hhr⟩ := ih hdrop (by rw [List.length_drop]; omega)
        refine ⟨_, ?_, Halves.node hlen hhl hhr⟩
        rw [buildBelow_succ hlen, hbl, hbr]
        rfl
      · match l, hl, hlen with
        | [h], _, _ => exact ⟨_, rfl, Halves.leaf h⟩
        | a :: b :: l, _, hlen => exact absurd (by simp) hlen

theorem exists_build? (combine : α → α → α) {l : List α} (hl : l ≠ []) :
    ∃ t, build? combine l = some t ∧ Halves combine l t :=
  exists_buildBelow hl le_rfl

theorem Halves.ne_nil {l : List α} {t : HashTree α} (h : Halves combine l t) : l ≠ [] := by
  cases h with
  | leaf h => simp
  | node hlen _ _ =>
      intro hnil
      subst hnil
      simp at hlen

theorem Halves.exists_node {l : List α} {t : HashTree α} (h : Halves combine l t)
    (hlen : 2 ≤ l.length) :
    ∃ left right, t = .node (combine left.rootHash right.rootHash) left right ∧
      Halves combine (l.take (l.length / 2)) left ∧
      Halves combine (l.drop (l.length / 2)) right := by
  cases h with
  | leaf h => simp at hlen
  | node _ hleft hright => exact ⟨_, _, rfl, hleft, hright⟩

theorem Halves.eq_leaf {l : List α} {t : HashTree α} (h : Halves combine l t)
    (hlen : l.length = 1) : ∃ x, l = [x] ∧ t = .leaf x := by
  cases h with
  | leaf x => exact ⟨x, rfl, rfl⟩
  | node hge _ _ => omega

theorem Halves.unique {l : List α} {t t' : HashTree α} (h : Halves combine l t)
    (h' : Halves combine l t') : t = t' := by
  induction h generalizing t' with
  | leaf x =>
      obtain ⟨y, hy, rfl⟩ := h'.eq_leaf rfl
      cases hy
      rfl
  | node hlen _ _ ihl ihr =>
      obtain ⟨left', right', rfl, hl', hr'⟩ := h'.exists_node hlen
      rw [ihl hl', ihr hr']

theorem build?_eq_some_iff {l : List α} {t : HashTree α} :
    build? combine l = some t ↔ Halves combine l t := by
  constructor
  · intro h
    have hl : l ≠ [] := by
      rintro rfl
      simp [build?, buildBelow] at h
    obtain ⟨t', hb, ht'⟩ := exists_build? combine hl
    rw [hb, Option.some.injEq] at h
    exact h ▸ ht'
  · intro h
    obtain ⟨t', hb, ht'⟩ := exists_build? combine h.ne_nil
    rw [hb, h.unique ht']

end Build

theorem Halves.map {combine : α → α → α} {combine' : β → β → β} {g : α → β}
    (hg : ∀ x y, g (combine x y) = combine' (g x) (g y)) {l : List α} {t : HashTree α}
    (h : Halves combine l t) : Halves combine' (l.map g) (t.map g) := by
  induction h with
  | leaf x => exact Halves.leaf (g x)
  | @node l left right hlen _ _ ihl ihr =>
      rw [HashTree.map, hg, ← rootHash_map g left, ← rootHash_map g right]
      refine Halves.node (by simpa using hlen) ?_ ?_
      · simpa [List.map_take] using ihl
      · simpa [List.map_drop] using ihr

theorem Halves.rootHash_of {combine : α → α → α} {P : α → Prop} {l : List α} {t : HashTree α}
    (h : Halves combine l t) (hleaf : ∀ x ∈ l, P x) (hout : ∀ a b, P (combine a b)) :
    P t.rootHash := by
  cases h with
  | leaf x => exact hleaf x (List.mem_singleton_self x)
  | node _ _ _ => exact hout _ _

theorem Halves.forall_mem_pairs {combine : α → α → α} {P : α → Prop} {l : List α}
    {t : HashTree α} (h : Halves combine l t) (hleaf : ∀ x ∈ l, P x)
    (hout : ∀ a b, P (combine a b)) {p : α × α} (hp : p ∈ t.pairs) : P p.1 ∧ P p.2 := by
  induction h with
  | leaf x => cases hp
  | @node l left right _ hleft hright ihl ihr =>
      have htake : ∀ x ∈ l.take (l.length / 2), P x := fun x hx =>
        hleaf x (List.mem_of_mem_take hx)
      have hdrop : ∀ x ∈ l.drop (l.length / 2), P x := fun x hx =>
        hleaf x (List.mem_of_mem_drop hx)
      rw [pairs, List.mem_cons, List.mem_append] at hp
      rcases hp with rfl | hp | hp
      · exact ⟨hleft.rootHash_of htake hout, hright.rootHash_of hdrop hout⟩
      · exact ihl htake hp
      · exact ihr hdrop hp

theorem Halves.eq_pair {combine : α → α → α} {a b : α} {t : HashTree α}
    (h : Halves combine [a, b] t) : t = .node (combine a b) (.leaf a) (.leaf b) := by
  obtain ⟨left, right, rfl, hleft, hright⟩ := h.exists_node le_rfl
  obtain ⟨x, hx, rfl⟩ := hleft.eq_leaf (by simp)
  obtain ⟨y, hy, rfl⟩ := hright.eq_leaf (by simp)
  have hxa : a = x := by simpa using hx
  have hyb : b = y := by simpa using hy
  rw [hxa, hyb]
  rfl

theorem Halves.rootHash_triple {combine : α → α → α} {a b c : α} {t : HashTree α}
    (h : Halves combine [a, b, c] t) : t.rootHash = combine a (combine b c) := by
  obtain ⟨left, right, rfl, hleft, hright⟩ := h.exists_node (by simp)
  obtain ⟨x, hx, rfl⟩ := hleft.eq_leaf (by simp)
  have hxa : a = x := by simpa using hx
  have hpair : Halves combine [b, c] right := by simpa using hright
  rw [hxa, hpair.eq_pair]
  rfl

theorem Halves.head?_eq {combine : α → α → α} {P : α → Prop}
    (hfirst : ∀ a b, P a → P b → combine a b = a) {l : List α} {t : HashTree α}
    (h : Halves combine l t) (hleaf : ∀ x ∈ l, P x) : l.head? = some t.rootHash := by
  induction h with
  | leaf x => rfl
  | @node l left right hlen _ _ ihl ihr =>
      have htake : ∀ x ∈ l.take (l.length / 2), P x := fun x hx =>
        hleaf x (List.mem_of_mem_take hx)
      have hdrop : ∀ x ∈ l.drop (l.length / 2), P x := fun x hx =>
        hleaf x (List.mem_of_mem_drop hx)
      have hleft := htake _ (List.mem_of_mem_head? (ihl htake))
      have hright := hdrop _ (List.mem_of_mem_head? (ihr hdrop))
      rw [rootHash, hfirst _ _ hleft hright, ← ihl htake, List.head?_take, if_neg (by omega)]

theorem Halves.congr {combine combine' : α → α → α} {l : List α} {t : HashTree α}
    (h : Halves combine l t) (hpairs : ∀ p ∈ t.pairs, combine p.1 p.2 = combine' p.1 p.2) :
    Halves combine' l t := by
  induction h with
  | leaf x => exact Halves.leaf x
  | @node l left right hlen _ _ ihl ihr =>
      rw [hpairs (left.rootHash, right.rootHash) (by simp [pairs])]
      exact Halves.node hlen
        (ihl fun p hp => hpairs p (pairs_left_subset _ left right hp))
        (ihr fun p hp => hpairs p (pairs_right_subset _ left right hp))

/-! ### Binding -/

/-- Two different pairs of the list have the same image. -/
def Collision (combine : α → α → α) (ps : List (α × α)) : Prop :=
  ∃ p ∈ ps, ∃ q ∈ ps, p ≠ q ∧ combine p.1 p.2 = combine q.1 q.2

theorem Collision.append_mono {combine : α → α → α} {ps ps' qs qs' : List (α × α)}
    (hp : ps ⊆ ps') (hq : qs ⊆ qs') (h : Collision combine (ps ++ qs)) :
    Collision combine (ps' ++ qs') := by
  have hsub : ps ++ qs ⊆ ps' ++ qs' :=
    List.append_subset.mpr ⟨fun _ h => List.mem_append_left _ (hp h),
      fun _ h => List.mem_append_right _ (hq h)⟩
  obtain ⟨p, hp, q, hq, hne, heq⟩ := h
  exact ⟨p, hsub hp, q, hsub hq, hne, heq⟩

theorem eq_of_not_collision {combine : α → α → α} {ps : List (α × α)}
    (h : ¬ Collision combine ps) {a b c d : α} (hp : (a, b) ∈ ps) (hq : (c, d) ∈ ps)
    (heq : combine a b = combine c d) : a = c ∧ b = d := by
  by_contra hne
  refine h ⟨(a, b), hp, (c, d), hq, ?_, heq⟩
  rw [ne_eq, Prod.mk.injEq]
  exact hne

/-- Two lists of one length with the same root are equal, unless two different
pairs of their trees are combined to the same hash. -/
theorem Halves.eq_of_rootHash_eq {combine : α → α → α} {l₁ l₂ : List α}
    {t₁ t₂ : HashTree α} (h₁ : Halves combine l₁ t₁) (h₂ : Halves combine l₂ t₂)
    (hlen : l₁.length = l₂.length) (hroot : t₁.rootHash = t₂.rootHash)
    (hcol : ¬ Collision combine (t₁.pairs ++ t₂.pairs)) : l₁ = l₂ := by
  induction h₁ generalizing l₂ t₂ with
  | leaf x =>
      obtain ⟨y, rfl, rfl⟩ := h₂.eq_leaf hlen.symm
      exact congrArg (fun z => [z]) hroot
  | @node l₁ left₁ right₁ hge _ _ ihl ihr =>
      obtain ⟨left₂, right₂, rfl, hl₂, hr₂⟩ := h₂.exists_node (by omega)
      obtain ⟨hl, hr⟩ := eq_of_not_collision hcol
        (by simp [pairs]) (by simp [pairs]) hroot
      have htake := ihl hl₂ (by rw [List.length_take, List.length_take, hlen]) hl
        fun hc => hcol (hc.append_mono (pairs_left_subset _ _ _) (pairs_left_subset _ _ _))
      have hdrop := ihr hr₂ (by rw [List.length_drop, List.length_drop, hlen]) hr
        fun hc => hcol (hc.append_mono (pairs_right_subset _ _ _) (pairs_right_subset _ _ _))
      rw [← List.take_append_drop (l₁.length / 2) l₁, htake, hdrop,
        List.take_append_drop]

/-! ### Telling shapes apart -/

/-- Over copies of a fixed point of the combiner nothing but that hash occurs, so
the length leaves no trace. -/
theorem Halves.pairs_of_fixed {combine : α → α → α} {z : α} (hz : combine z z = z)
    {l : List α} {t : HashTree α} (h : Halves combine l t) (hl : ∀ x ∈ l, x = z) :
    t.rootHash = z ∧ ∀ p ∈ t.pairs, p = (z, z) := by
  induction h with
  | leaf x => exact ⟨hl x List.mem_cons_self, fun p hp => by simp [pairs] at hp⟩
  | @node l left right _ _ _ ihl ihr =>
      obtain ⟨hleft, hpl⟩ := ihl fun x hx => hl x (List.mem_of_mem_take hx)
      obtain ⟨hright, hpr⟩ := ihr fun x hx => hl x (List.mem_of_mem_drop hx)
      refine ⟨by rw [rootHash, hleft, hright, hz], ?_⟩
      intro p hp
      rw [pairs, List.mem_cons, List.mem_append] at hp
      rcases hp with rfl | hp | hp
      · rw [hleft, hright]
      · exact hpl p hp
      · exact hpr p hp

/-- A combiner that only records the parity of the depth along the leftmost
branch, with two marks for odd and even depth. -/
def depthParity [DecidableEq α] (odd even : α) (x _y : α) : α :=
  if x = odd then even else odd

theorem length_take_half (l : List α) : (l.take (l.length / 2)).length = l.length / 2 := by
  rw [List.length_take]
  omega

/-- Over leaves that are none of the marks, the root under `depthParity` tells
whether the depth of the leftmost branch, `Nat.log 2` of the length, is odd. -/
theorem Halves.rootHash_depthParity [DecidableEq α] {odd even : α} (hne : odd ≠ even)
    {l : List α} {t : HashTree α} (h : Halves (depthParity odd even) l t)
    (hlen : 2 ≤ l.length) (hodd : odd ∉ l) :
    t.rootHash = if Nat.log 2 l.length % 2 = 1 then odd else even := by
  induction h with
  | leaf x => simp at hlen
  | @node l left right _ hleft _ ihl _ =>
      have hlog : Nat.log 2 l.length = Nat.log 2 (l.length / 2) + 1 :=
        Nat.log_of_one_lt_of_le Nat.one_lt_two hlen
      by_cases hone : l.length / 2 = 1
      · -- the leftmost branch ends in a leaf
        obtain ⟨x, hx, rfl⟩ := hleft.eq_leaf (by rw [length_take_half, hone])
        have hxl : x ∈ l := List.mem_of_mem_take (i := l.length / 2) (by rw [hx]; simp)
        have hxodd : x ≠ odd := fun hxo => hodd (hxo ▸ hxl)
        simp [rootHash, depthParity, hxodd, hlog, hone]
      · have hroot := ihl (by rw [length_take_half]; omega)
          fun hmem => hodd (List.mem_of_mem_take hmem)
        rw [length_take_half] at hroot
        rw [rootHash, hroot, depthParity, hlog]
        by_cases hpar : Nat.log 2 (l.length / 2) % 2 = 1
        · rw [if_pos hpar, if_pos rfl, if_neg (by omega)]
        · rw [if_neg hpar, if_neg (Ne.symm hne), if_pos (by omega)]

theorem Halves.rootHash_depthParity_of_odd [DecidableEq α] {odd even : α} (hne : odd ≠ even)
    {l : List α} {t : HashTree α} (h : Halves (depthParity odd even) l t)
    (hodd : ∀ x ∈ l, x = odd) :
    t.rootHash = if Nat.log 2 l.length % 2 = 1 then even else odd := by
  induction h with
  | leaf x => exact hodd x (List.mem_singleton_self x)
  | @node l left right hlen _ _ ihl _ =>
      have hlog : Nat.log 2 l.length = Nat.log 2 (l.length / 2) + 1 :=
        Nat.log_of_one_lt_of_le Nat.one_lt_two hlen
      have hroot := ihl fun x hx => hodd x (List.mem_of_mem_take hx)
      rw [length_take_half] at hroot
      rw [rootHash, hroot, depthParity, hlog]
      by_cases hpar : Nat.log 2 (l.length / 2) % 2 = 1
      · rw [if_pos hpar, if_neg (Ne.symm hne), if_neg (by omega)]
      · rw [if_neg hpar, if_pos rfl, if_pos (by omega)]

end HashTree
