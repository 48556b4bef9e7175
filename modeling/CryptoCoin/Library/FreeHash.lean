import CryptoCoin.Library.HashPath
import Mathlib.Data.List.Induction

/-!
# Combiners without collisions

What is true of a hash tree "unless there is a collision" may fail without one only if
some combiner has no collision on the tree. Over every list of `2 ^ d` leaves there is
one whose results are taken from a supply of fresh hashes (`exists_free`): the inner
nodes are numbered by the blocks of leaves they stand over, and a pair of hashes is
combined to the fresh hash for the number of the block that splits into them.

Where the leaves may be chosen, a combiner that adds sizes will do: with leaves that stand
for one position each, the hash of a block says where it begins and how long it is
(`Halves.of_spans`). If it says how long the block is and no more, paths of a wrong length
need not start at a leaf (`exists_ascend_of_ne_pow`).

A combiner that marks one hash tells leaves from combined hashes (`Halves.rootHash_mark`).

A combiner without collisions on a tree may still have a preimage of a leaf. Such a
combiner has paths of any length from a hash that is no leaf up to the root
(`exists_long_path`).
-/

namespace HashTree

variable {α : Type*} {combine : α → α → α}

/-! ### A combiner without collisions -/

section Free

/-- The lists over which the inner nodes of a tree of depth `d` stand. -/
def blocks : ℕ → List α → List (List α)
  | 0, _ => []
  | d + 1, l => l :: (blocks d (l.take (l.length / 2)) ++ blocks d (l.drop (l.length / 2)))

theorem length_blocks (d : ℕ) (l : List α) : (blocks d l).length = 2 ^ d - 1 := by
  induction d generalizing l with
  | zero => rfl
  | succ d ih =>
      have hpos : 0 < 2 ^ d := Nat.pow_pos (by decide)
      rw [blocks, List.length_cons, List.length_append, ih, ih, Nat.pow_succ]
      omega

/-- A single leaf of `l`, or one of the blocks. -/
def Known (l : List α) (bs : List (List α)) (a : List α) : Prop :=
  (∃ x ∈ l, a = [x]) ∨ 2 ≤ a.length ∧ a ∈ bs

theorem Known.mono {l l' : List α} {bs bs' : List (List α)} (hl : l ⊆ l') (hbs : bs ⊆ bs')
    {a : List α} (h : Known l bs a) : Known l' bs' a := by
  rcases h with ⟨x, hx, ha⟩ | ⟨hlen, ha⟩
  · exact Or.inl ⟨x, hl hx, ha⟩
  · exact Or.inr ⟨hlen, hbs ha⟩

theorem known_self {d : ℕ} {l : List α} (hlen : l.length = 2 ^ d) : Known l (blocks d l) l := by
  cases d with
  | zero =>
      obtain ⟨x, rfl⟩ := List.length_eq_one_iff.mp hlen
      exact Or.inl ⟨x, List.mem_singleton_self x, rfl⟩
  | succ d =>
      have hpos : 0 < 2 ^ d := Nat.pow_pos (by decide)
      exact Or.inr ⟨by rw [hlen, Nat.pow_succ]; omega, List.mem_cons_self⟩

theorem known_halves {d : ℕ} {l : List α} (hlen : l.length = 2 ^ d) {b : List α}
    (hb : b ∈ blocks d l) :
    2 ≤ b.length ∧ Known l (blocks d l) (b.take (b.length / 2)) ∧
      Known l (blocks d l) (b.drop (b.length / 2)) := by
  induction d generalizing l with
  | zero => cases hb
  | succ d ih =>
      have hpos : 0 < 2 ^ d := Nat.pow_pos (by decide)
      have hpow : 2 ^ (d + 1) = 2 * 2 ^ d := Nat.pow_succ'
      have htake : (l.take (l.length / 2)).length = 2 ^ d := by rw [List.length_take]; omega
      have hdrop : (l.drop (l.length / 2)).length = 2 ^ d := by rw [List.length_drop]; omega
      have hleft : blocks d (l.take (l.length / 2)) ⊆ blocks (d + 1) l := by
        intro c hc
        exact List.mem_cons_of_mem _ (List.mem_append_left _ hc)
      have hright : blocks d (l.drop (l.length / 2)) ⊆ blocks (d + 1) l := by
        intro c hc
        exact List.mem_cons_of_mem _ (List.mem_append_right _ hc)
      rw [blocks, List.mem_cons, List.mem_append] at hb
      rcases hb with rfl | hb | hb
      · exact ⟨by omega, (known_self htake).mono (List.take_subset _ _) hleft,
          (known_self hdrop).mono (List.drop_subset _ _) hright⟩
      · obtain ⟨htwo, hfst, hsnd⟩ := ih htake hb
        exact ⟨htwo, hfst.mono (List.take_subset _ _) hleft,
          hsnd.mono (List.take_subset _ _) hleft⟩
      · obtain ⟨htwo, hfst, hsnd⟩ := ih hdrop hb
        exact ⟨htwo, hfst.mono (List.drop_subset _ _) hright,
          hsnd.mono (List.drop_subset _ _) hright⟩

variable [DecidableEq α] (fresh : ℕ → α)

/-- A single leaf is its own digest, a block has a fresh hash for its number. -/
def digest (bs : List (List α)) : List α → α
  | [x] => x
  | a => fresh (bs.idxOf a)

theorem digest_of_two_le {bs : List (List α)} {a : List α} (h : 2 ≤ a.length) :
    digest fresh bs a = fresh (bs.idxOf a) := by
  match a, h with
  | x :: y :: a, _ => rfl

def Splits (bs : List (List α)) (x y : α) (b : List α) : Prop :=
  digest fresh bs (b.take (b.length / 2)) = x ∧ digest fresh bs (b.drop (b.length / 2)) = y

instance (bs : List (List α)) (x y : α) : DecidablePred (Splits fresh bs x y) :=
  fun _ => inferInstanceAs (Decidable (_ ∧ _))

/-- The fresh hash for the number of the first block that splits into the arguments. -/
def freeCombine (bs : List (List α)) (x y : α) : α :=
  fresh (bs.findIdx fun b => Splits fresh bs x y b)

theorem findIdx_congr {β : Type*} {p q : β → Bool} {bs : List β} (h : ∀ b ∈ bs, p b = q b) :
    bs.findIdx p = bs.findIdx q := by
  induction bs with
  | nil => rfl
  | cons b bs ih =>
      rw [List.findIdx_cons, List.findIdx_cons, h b List.mem_cons_self,
        ih fun c hc => h c (List.mem_cons_of_mem b hc)]

section Supply

variable {fresh} {d : ℕ} {l : List α} (hlen : l.length = 2 ^ d)
  (hinj : ∀ m < 2 ^ d, ∀ n < 2 ^ d, fresh m = fresh n → m = n) (hfresh : ∀ n, fresh n ∉ l)

include hinj in
theorem eq_of_fresh_idxOf_eq {a b : List α} (ha : a ∈ blocks d l) (hb : b ∈ blocks d l)
    (h : fresh ((blocks d l).idxOf a) = fresh ((blocks d l).idxOf b)) : a = b := by
  have hpos : 0 < 2 ^ d := Nat.pow_pos (by decide)
  have hlt : ∀ {c : List α}, c ∈ blocks d l → (blocks d l).idxOf c < 2 ^ d := by
    intro c hc
    have hidx := List.idxOf_lt_length_of_mem hc
    rw [length_blocks] at hidx
    omega
  exact (List.idxOf_inj ha).mp (hinj _ (hlt ha) _ (hlt hb) h)

include hinj hfresh in
theorem digest_inj {a b : List α} (ha : Known l (blocks d l) a) (hb : Known l (blocks d l) b)
    (h : digest fresh (blocks d l) a = digest fresh (blocks d l) b) : a = b := by
  rcases ha with ⟨x, hx, rfl⟩ | ⟨hal, ha⟩
  · rcases hb with ⟨y, _, rfl⟩ | ⟨hbl, _⟩
    · exact congrArg (fun z => [z]) h
    · rw [digest_of_two_le fresh hbl] at h
      change x = fresh _ at h
      rw [h] at hx
      exact absurd hx (hfresh _)
  · rw [digest_of_two_le fresh hal] at h
    rcases hb with ⟨y, hy, rfl⟩ | ⟨hbl, hb⟩
    · change fresh _ = y at h
      rw [← h] at hy
      exact absurd hy (hfresh _)
    · rw [digest_of_two_le fresh hbl] at h
      exact eq_of_fresh_idxOf_eq hinj ha hb h

include hlen hinj hfresh in
theorem freeCombine_of_mem {b : List α} (hb : b ∈ blocks d l) :
    freeCombine fresh (blocks d l) (digest fresh (blocks d l) (b.take (b.length / 2)))
        (digest fresh (blocks d l) (b.drop (b.length / 2))) =
      fresh ((blocks d l).idxOf b) := by
  obtain ⟨_, htake, hdrop⟩ := known_halves hlen hb
  -- no other block splits into the same digests
  have honly : ∀ c ∈ blocks d l, Splits fresh (blocks d l)
      (digest fresh (blocks d l) (b.take (b.length / 2)))
      (digest fresh (blocks d l) (b.drop (b.length / 2))) c ↔ c = b := by
    intro c hc
    constructor
    · rintro ⟨hfst, hsnd⟩
      obtain ⟨_, htake', hdrop'⟩ := known_halves hlen hc
      rw [← List.take_append_drop (c.length / 2) c, digest_inj hinj hfresh htake' htake hfst,
        digest_inj hinj hfresh hdrop' hdrop hsnd, List.take_append_drop]
    · rintro rfl
      exact ⟨rfl, rfl⟩
  rw [freeCombine, List.idxOf]
  congr 1
  apply findIdx_congr
  intro c hc
  rw [decide_eq_decide.mpr (honly c hc), beq_eq_decide]

include hlen hinj hfresh in
theorem exists_freeTree {e : ℕ} {b : List α} (hb : b.length = 2 ^ e)
    (hsub : blocks e b ⊆ blocks d l) :
    ∃ t, Halves (freeCombine fresh (blocks d l)) b t ∧
      t.rootHash = digest fresh (blocks d l) b ∧
      ∀ p ∈ t.pairs, ∃ c ∈ blocks d l, p = (digest fresh (blocks d l) (c.take (c.length / 2)),
        digest fresh (blocks d l) (c.drop (c.length / 2))) := by
  induction e generalizing b with
  | zero =>
      obtain ⟨x, rfl⟩ := List.length_eq_one_iff.mp hb
      refine ⟨.leaf x, Halves.leaf x, rfl, ?_⟩
      intro p hp
      cases hp
  | succ e ih =>
      have hpow : 2 ^ (e + 1) = 2 * 2 ^ e := Nat.pow_succ'
      have hpos : 0 < 2 ^ e := Nat.pow_pos (by decide)
      rw [blocks, List.cons_subset, List.append_subset] at hsub
      obtain ⟨hmem, hleft, hright⟩ := hsub
      obtain ⟨left, hhl, hrl, hpl⟩ := ih (b := b.take (b.length / 2))
        (by rw [List.length_take]; omega) hleft
      obtain ⟨right, hhr, hrr, hpr⟩ := ih (b := b.drop (b.length / 2))
        (by rw [List.length_drop]; omega) hright
      have htwo : 2 ≤ b.length := by omega
      refine ⟨_, Halves.node htwo hhl hhr, ?_, ?_⟩
      · rw [rootHash, hrl, hrr, freeCombine_of_mem hlen hinj hfresh hmem,
          digest_of_two_le fresh htwo]
      · intro p hp
        rw [pairs, List.mem_cons, List.mem_append] at hp
        rcases hp with rfl | hp | hp
        · exact ⟨b, hmem, by rw [hrl, hrr]⟩
        · exact hpl p hp
        · exact hpr p hp

include hlen hinj hfresh in
/-- Over `2 ^ d` leaves there is a combiner without collisions that only gives fresh
hashes. -/
theorem exists_free :
    ∃ combine t, Halves combine l t ∧ ¬ Collision combine t.pairs ∧
      ∀ x y, ∃ n < 2 ^ d, combine x y = fresh n := by
  obtain ⟨t, ht, _, hpairs⟩ := exists_freeTree hlen hinj hfresh hlen (List.Subset.refl _)
  refine ⟨freeCombine fresh (blocks d l), t, ht, ?_, ?_⟩
  · rintro ⟨p, hp, q, hq, hne, heq⟩
    obtain ⟨b, hb, rfl⟩ := hpairs p hp
    obtain ⟨c, hc, rfl⟩ := hpairs q hq
    rw [freeCombine_of_mem hlen hinj hfresh hb, freeCombine_of_mem hlen hinj hfresh hc] at heq
    have hbc : b = c := eq_of_fresh_idxOf_eq hinj hb hc heq
    exact hne (by rw [hbc])
  · intro x y
    refine ⟨_, ?_, rfl⟩
    have hpos : 0 < 2 ^ d := Nat.pow_pos (by decide)
    have hle : (blocks d l).findIdx (fun b => Splits fresh (blocks d l) x y b) ≤
        (blocks d l).length := List.findIdx_le_length
    rw [length_blocks] at hle
    omega

end Supply

end Free

/-! ### Combiners that add sizes -/

section Spans

variable {span : ℕ → ℕ → α} {bound : ℕ}

/-- The hashes of the two halves of the block of `k` leaves from position `s` on. -/
def spanPair (span : ℕ → ℕ → α) (s k : ℕ) : α × α := (span s (k / 2), span (s + k / 2) (k - k / 2))

variable (hcombine : ∀ s m n, s + m + n ≤ bound →
  combine (span s m) (span (s + m) n) = span s (m + n))
include hcombine

theorem combine_spanPair {s k : ℕ} (h : s + k ≤ bound) :
    combine (spanPair span s k).1 (spanPair span s k).2 = span s k := by
  rw [spanPair, hcombine _ _ _ (by omega), Nat.add_sub_cancel' (Nat.div_le_self k 2)]

theorem Halves.of_spans {s n : ℕ} (hn : s + n ≤ bound) {t : HashTree α}
    (h : Halves combine ((List.range' s n).map fun i => span i 1) t) :
    t.rootHash = span s n ∧
      ∀ p ∈ t.pairs, ∃ s' k, 2 ≤ k ∧ s' + k ≤ bound ∧ p = spanPair span s' k := by
  generalize hl : (List.range' s n).map (fun i => span i 1) = l at h
  induction h generalizing s n with
  | leaf x =>
      have hone : n = 1 := by simpa using congrArg List.length hl
      subst hone
      refine ⟨(List.cons.inj hl).1.symm, ?_⟩
      intro p hp
      cases hp
  | @node l left right hlen _ _ ihl ihr =>
      have hsize : l.length = n := by simp [← hl]
      have hsplit : l = (List.range' s (n / 2)).map (fun i => span i 1) ++
          (List.range' (s + n / 2) (n - n / 2)).map (fun i => span i 1) := by
        rw [← List.map_append, List.range'_append_1, Nat.add_sub_cancel' (Nat.div_le_self n 2), hl]
      have htake : (List.range' s (n / 2)).map (fun i => span i 1) = l.take (l.length / 2) := by
        rw [hsize, hsplit, List.take_left' (by simp)]
      have hdrop : (List.range' (s + n / 2) (n - n / 2)).map (fun i => span i 1) =
          l.drop (l.length / 2) := by
        rw [hsize, hsplit, List.drop_left' (by simp)]
      obtain ⟨hleft, hpl⟩ := ihl (by omega) htake
      obtain ⟨hright, hpr⟩ := ihr (by omega) hdrop
      constructor
      · rw [rootHash, hleft, hright]
        exact combine_spanPair hcombine hn
      · intro p hp
        rw [pairs, List.mem_cons, List.mem_append] at hp
        rcases hp with rfl | hp | hp
        · exact ⟨s, n, by omega, hn, by rw [hleft, hright, spanPair]⟩
        · exact hpl p hp
        · exact hpr p hp

end Spans

/-- A combiner that adds numbers has paths of every length to the root over `n` ones, and
all but those as long as a perfect tree is deep may start at another number: some half of
`n` is not the next smaller power of two. -/
theorem exists_ascend_of_ne_pow {digest : ℕ → α} {order : α → α → α × α} {bound : ℕ}
    (hcombine : ∀ m n, m + n ≤ bound → combine (digest m) (digest n) = digest (m + n))
    (horder : ∀ m n, m ≤ n → n ≤ bound → order (digest m) (digest n) = (digest m, digest n) ∧
      order (digest n) (digest m) = (digest m, digest n))
    {m n : ℕ} (hn : n ≤ bound) (hne : n ≠ 2 ^ m) :
    ∃ c ≤ bound, c ≠ 1 ∧ ∃ siblings : List α, siblings.length = m ∧
      ascend combine order (digest c) siblings = digest n ∧
      ∀ p ∈ ascendPairs combine order (digest c) siblings,
        ∃ k ≤ bound, p = (digest (k / 2), digest (k - k / 2)) := by
  induction m generalizing n with
  | zero =>
      refine ⟨n, hn, hne, [], rfl, rfl, ?_⟩
      intro p hp
      cases hp
  | succ m ih =>
      have hpow : 2 ^ (m + 1) = 2 * 2 ^ m := Nat.pow_succ'
      have htop : combine (digest (n / 2)) (digest (n - n / 2)) = digest n := by
        rw [hcombine _ _ (by omega), Nat.add_sub_cancel' (Nat.div_le_self n 2)]
      obtain ⟨hsmall, hlarge⟩ := horder (n / 2) (n - n / 2) (by omega) (by omega)
      -- in both cases the last pair is that of the halves of `n`
      have hextend : ∀ c siblings s, order (ascend combine order (digest c) siblings) s =
            (digest (n / 2), digest (n - n / 2)) →
          (∀ p ∈ ascendPairs combine order (digest c) siblings,
            ∃ k ≤ bound, p = (digest (k / 2), digest (k - k / 2))) →
          ascend combine order (digest c) (siblings ++ [s]) = digest n ∧
            ∀ p ∈ ascendPairs combine order (digest c) (siblings ++ [s]),
              ∃ k ≤ bound, p = (digest (k / 2), digest (k - k / 2)) := by
        intro c siblings s hlast hpairs
        rw [ascend_append_singleton, ascendPairs_append_singleton, hlast]
        refine ⟨htop, ?_⟩
        intro p hp
        rcases List.mem_append.mp hp with hp | hp
        · exact hpairs p hp
        · exact ⟨n, hn, List.mem_singleton.mp hp⟩
      have hhalf : n / 2 ≠ 2 ^ m ∨ n - n / 2 ≠ 2 ^ m := by omega
      rcases hhalf with hhalf | hhalf
      · obtain ⟨c, hc, hone, siblings, hlen, hroot, hpairs⟩ := ih (by omega) hhalf
        exact ⟨c, hc, hone, siblings ++ [digest (n - n / 2)], by simp [hlen],
          hextend c siblings _ (by rw [hroot, hsmall]) hpairs⟩
      · obtain ⟨c, hc, hone, siblings, hlen, hroot, hpairs⟩ := ih (by omega) hhalf
        exact ⟨c, hc, hone, siblings ++ [digest (n / 2)], by simp [hlen],
          hextend c siblings _ (by rw [hroot, hlarge]) hpairs⟩

/-! ### A combiner that marks a hash -/

section Mark

variable [DecidableEq α]

/-- The combiner that tells whether one of the arguments is `s`. -/
def mark (s seen unseen a b : α) : α := if a = s ∨ b = s then seen else unseen

theorem ascend_mark {order : α → α → α × α}
    (horder : ∀ x y, order x y = (x, y) ∨ order x y = (y, x)) (s seen unseen x : α)
    (siblings : List α) :
    ascend (mark s seen unseen) order x siblings = siblings.foldl (mark s seen unseen) x := by
  induction siblings generalizing x with
  | nil => rfl
  | cons y siblings ih =>
      have hpair : mark s seen unseen (order x y).1 (order x y).2 = mark s seen unseen x y := by
        rcases horder x y with heq | heq
        · rw [heq]
        · simp only [heq, mark, or_comm]
      rw [ascend, hpair, ih, List.foldl_cons]

/-- With its own mark for unmarked pairs the combiner counts, modulo two, how often hashes
other than the marks have been combined. -/
theorem foldl_mark_parity {odd even x : α} (hne : even ≠ odd) (hx : x ≠ odd) {siblings : List α}
    (hsiblings : ∀ y ∈ siblings, y ≠ odd) (hcons : siblings ≠ []) :
    siblings.foldl (mark odd even odd) x = if siblings.length % 2 = 1 then odd else even := by
  induction siblings using List.reverseRecOn with
  | nil => exact absurd rfl hcons
  | append_singleton siblings y ih =>
      have hy : y ≠ odd := hsiblings y (List.mem_append_right _ (List.mem_singleton_self y))
      rw [List.foldl_append, List.foldl_cons, List.foldl_nil, List.length_append,
        List.length_singleton]
      by_cases hnil : siblings = []
      · subst hnil
        simp [mark, hx, hy]
      · rw [ih (fun z hz => hsiblings z (List.mem_append_left _ hz)) hnil]
        by_cases hpar : siblings.length % 2 = 1
        · rw [if_pos hpar, if_neg (by omega), mark, if_pos (Or.inl rfl)]
        · rw [if_neg hpar, if_pos (by omega), mark, if_neg (by simp [hne, hy])]

theorem Halves.rootHash_mark {s seen unseen : α} (hseen : seen ≠ s) (hunseen : unseen ≠ s)
    {l : List α} {t : HashTree α} (hlen : 4 ≤ l.length)
    (h : Halves (mark s seen unseen) l t) : t.rootHash = unseen := by
  have hcombined : ∀ {l : List α} {t : HashTree α}, 2 ≤ l.length →
      Halves (mark s seen unseen) l t → t.rootHash ≠ s := by
    intro l t htwo ht
    obtain ⟨left, right, rfl, _, _⟩ := ht.exists_node htwo
    rw [rootHash, mark]
    by_cases hchild : left.rootHash = s ∨ right.rootHash = s
    · rwa [if_pos hchild]
    · rwa [if_neg hchild]
  obtain ⟨left, right, rfl, hleft, hright⟩ := h.exists_node (by omega)
  have hl : left.rootHash ≠ s := hcombined (by rw [List.length_take]; omega) hleft
  have hr : right.rootHash ≠ s := hcombined (by rw [List.length_drop]; omega) hright
  rw [rootHash, mark, if_neg (by simp [hl, hr])]

end Mark

/-! ### Paths that are too long -/

theorem Halves.ne_of_mem_pairs {x : α} {l : List α} {t : HashTree α} (h : Halves combine l t)
    (hl : x ∉ l) (hout : ∀ a b, combine a b ≠ x) {p : α × α} (hp : p ∈ t.pairs) :
    p.1 ≠ x ∧ p.2 ≠ x := by
  apply h.forall_mem_pairs (P := fun y => y ≠ x) _ hout hp
  rintro y hy rfl
  exact hl hy

section Long

variable [DecidableEq α]

/-- The combiner with a hash `x` that gives itself when combined with itself, and `y`
when combined with any other. -/
def withLoop (combine : α → α → α) (x y a b : α) : α :=
  if a = x then if b = x then x else y else if b = x then y else combine a b

theorem withLoop_of_ne {x y a b : α} (ha : a ≠ x) (hb : b ≠ x) :
    withLoop combine x y a b = combine a b := by
  rw [withLoop, if_neg ha, if_neg hb]

theorem withLoop_self (x y : α) : withLoop combine x y x x = x := by
  rw [withLoop, if_pos rfl, if_pos rfl]

theorem withLoop_joinAt {x y : α} (hne : y ≠ x) (idx : ℕ) :
    withLoop combine x y (joinAt idx x y).1 (joinAt idx x y).2 = y := by
  by_cases h : idx % 2 = 0
  · simp [joinAt, h, withLoop, hne]
  · simp [joinAt, h, withLoop, hne]

theorem climb_withLoop_replicate (combine : α → α → α) (x y : α) (idx n : ℕ) :
    climb (withLoop combine x y) x idx (List.replicate n x) = x ∧
      ∀ p ∈ climbPairs (withLoop combine x y) x idx (List.replicate n x), p = (x, x) := by
  induction n generalizing idx with
  | zero =>
      refine ⟨rfl, ?_⟩
      intro p hp
      cases hp
  | succ n ih =>
      have hjoin : joinAt idx x x = (x, x) := by
        rw [joinAt, ite_self]
      rw [List.replicate_succ, climb, climbPairs, hjoin, withLoop_self]
      refine ⟨(ih (idx / 2)).1, ?_⟩
      intro p hp
      rcases List.mem_cons.mp hp with rfl | hp
      · rfl
      · exact (ih (idx / 2)).2 p hp

theorem not_collision_withLoop {x y : α} {l : List α} {ps : List (α × α)}
    (hcol : ¬ Collision combine ps) (hps : ∀ p ∈ ps, p.1 ≠ x ∧ p.2 ≠ x) (hx : x ∉ l) (hy : y ∈ l)
    (hleaf : ∀ a b, combine a b ∉ l) (hout : ∀ a b, combine a b ≠ x) (idx : ℕ)
    {qs : List (α × α)} (hqs : ∀ q ∈ qs, q ∈ ps ∨ q = (x, x) ∨ q = joinAt idx x y) :
    ¬ Collision (withLoop combine x y) qs := by
  have hne : y ≠ x := by
    rintro rfl
    exact hx hy
  rintro ⟨p, hp, q, hq, hdiff, heq⟩
  have hvalue : ∀ p ∈ ps, withLoop combine x y p.1 p.2 = combine p.1 p.2 := by
    intro p hp
    exact withLoop_of_ne (hps p hp).1 (hps p hp).2
  -- a pair of the tree gives a combined hash, the others give `x` and `y`
  have hmixed : ∀ p ∈ ps, ∀ q, q = (x, x) ∨ q = joinAt idx x y →
      withLoop combine x y p.1 p.2 ≠ withLoop combine x y q.1 q.2 := by
    intro p hp q hq heq
    rw [hvalue p hp] at heq
    rcases hq with rfl | rfl
    · rw [withLoop_self] at heq
      exact hout _ _ heq
    · rw [withLoop_joinAt hne] at heq
      exact hleaf _ _ (heq ▸ hy)
  rcases hqs p hp with hp | hp
  · rcases hqs q hq with hq | hq
    · rw [hvalue p hp, hvalue q hq] at heq
      exact hcol ⟨p, hp, q, hq, hdiff, heq⟩
    · exact hmixed p hp q hq heq
  · rcases hqs q hq with hq | hq
    · exact hmixed q hq p hp heq.symm
    · rcases hp with rfl | rfl
      · rcases hq with rfl | rfl
        · exact hdiff rfl
        · rw [withLoop_self, withLoop_joinAt hne] at heq
          exact hne heq.symm
      · rcases hq with rfl | rfl
        · rw [withLoop_self, withLoop_joinAt hne] at heq
          exact hne heq
        · exact hdiff rfl

/-- A path may be longer than the tree is deep: a combiner may have a preimage of a
leaf, and this is no collision. -/
theorem Halves.exists_long_path {d : ℕ} {l : List α} {t : HashTree α} (h : Halves combine l t)
    (hlen : l.length = 2 ^ d) (hcol : ¬ Collision combine t.pairs) {x : α} (hx : x ∉ l)
    (hleaf : ∀ a b, combine a b ∉ l) (hout : ∀ a b, combine a b ≠ x) (idx n : ℕ) :
    ∃ combine' siblings, Halves combine' l t ∧ siblings.length = d + n + 1 ∧
      climb combine' x idx siblings = t.rootHash ∧
      ¬ Collision combine' (t.pairs ++ climbPairs combine' x idx siblings) := by
  obtain ⟨y, upper, hfound, hget⟩ := h.exists_descend_leaf hlen (idx / 2 ^ (n + 1))
  have hy : y ∈ l := List.mem_of_getElem? hget
  have hne : y ≠ x := by
    rintro rfl
    exact hx hy
  have htree : Halves (withLoop combine x y) l t := by
    apply h.congr
    intro p hp
    obtain ⟨hfst, hsnd⟩ := h.ne_of_mem_pairs hx hout hp
    exact (withLoop_of_ne hfst hsnd).symm
  obtain ⟨hclimb, hpairs⟩ := climb_of_descend htree.hashed hfound
  obtain ⟨hloop, hlooped⟩ := climb_withLoop_replicate combine x y idx n
  have htop : topPair (withLoop combine x y) x idx (List.replicate n x) y =
      joinAt (idx / 2 ^ n) x y := by
    rw [topPair, hloop, List.length_replicate]
  have hlower : climb (withLoop combine x y) x idx (List.replicate n x ++ [y]) = y := by
    rw [climb_append_singleton, htop, withLoop_joinAt hne]
  have hsize : (List.replicate n x ++ [y]).length = n + 1 := by
    rw [List.length_append, List.length_replicate, List.length_singleton]
  refine ⟨withLoop combine x y, (List.replicate n x ++ [y]) ++ upper, htree, ?_, ?_, ?_⟩
  · rw [List.length_append, hsize, length_of_descend hfound]
    omega
  · rw [climb_append, hlower, hsize]
    exact hclimb
  · rw [climbPairs_append, climbPairs_append_singleton, htop, hlower, hsize]
    apply not_collision_withLoop hcol (fun p hp => h.ne_of_mem_pairs hx hout hp) hx hy hleaf hout
      (idx / 2 ^ n)
    intro q hq
    rcases List.mem_append.mp hq with hq | hq
    · exact Or.inl hq
    · rcases List.mem_append.mp hq with hq | hq
      · rcases List.mem_append.mp hq with hq | hq
        · exact Or.inr (Or.inl (hlooped q hq))
        · exact Or.inr (Or.inr (List.mem_singleton.mp hq))
      · exact Or.inl (hpairs hq)

end Long

end HashTree
