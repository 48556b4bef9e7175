import Mathlib.Algebra.BigOperators.Group.List.Basic
import Mathlib.Data.Finset.Card
import Mathlib.Tactic.Ring

/-!
# Machine words as bytes and as summands

`beBytes n x` writes the natural number `x` in `n` big-endian bytes and
`ofBeBytes` reads such a string back; shifts of a 64-bit word cut out the same bytes
(`shifts_eq_beBytes`). Records of a fixed width are concatenated
without separators, so a concatenation determines its records only once their
number is known; `flatMap_append_inj` is that statement, with a `key` for
encoders that drop a part of the record.

The second half compares a running sum in 64-bit arithmetic with the exact sum
of the same list.
-/

namespace Words

/-- The `n` low bytes of `x`, most significant first. -/
def beBytes : ℕ → ℕ → List UInt8
  | 0, _ => []
  | n + 1, x => UInt8.ofNat (x / 256 ^ n) :: beBytes n x

/-- The number that a byte string denotes, most significant byte first. -/
def ofBeBytes : List UInt8 → ℕ
  | [] => 0
  | b :: bs => b.toNat * 256 ^ bs.length + ofBeBytes bs

@[simp] theorem length_beBytes (n x : ℕ) : (beBytes n x).length = n := by
  induction n with
  | zero => rfl
  | succ n ih => simp [beBytes, ih]

theorem ofBeBytes_beBytes (n x : ℕ) : ofBeBytes (beBytes n x) = x % 256 ^ n := by
  induction n with
  | zero => simp [beBytes, ofBeBytes, Nat.mod_one]
  | succ n ih =>
      have hdigit : (UInt8.ofNat (x / 256 ^ n)).toNat = x / 256 ^ n % 256 := by simp
      rw [beBytes, ofBeBytes, ih, length_beBytes, hdigit, pow_succ, Nat.mod_mul]
      ring

theorem beBytes_add_mul (n x k : ℕ) : beBytes n (k * 256 ^ n + x) = beBytes n x := by
  induction n generalizing k with
  | zero => rfl
  | succ n ih =>
      have hshift : k * 256 ^ (n + 1) + x = (k * 256) * 256 ^ n + x := by ring
      have hdigit : (k * 256 * 256 ^ n + x) / 256 ^ n = k * 256 + x / 256 ^ n := by
        rw [Nat.mul_comm (k * 256), Nat.mul_add_div (Nat.pow_pos (by decide))]
      have hbyte : UInt8.ofNat (k * 256 + x / 256 ^ n) = UInt8.ofNat (x / 256 ^ n) := by
        apply UInt8.toNat_inj.mp
        simp only [UInt8.toNat_ofNat']
        omega
      rw [beBytes, beBytes, hshift, ih, hdigit, hbyte]

theorem ofBeBytes_lt (bs : List UInt8) : ofBeBytes bs < 256 ^ bs.length := by
  induction bs with
  | nil => exact Nat.one_pos
  | cons b bs ih =>
      have hb : b.toNat + 1 ≤ 256 := b.toNat_lt
      calc ofBeBytes (b :: bs) < b.toNat * 256 ^ bs.length + 256 ^ bs.length :=
            Nat.add_lt_add_left ih _
        _ = (b.toNat + 1) * 256 ^ bs.length := by ring
        _ ≤ 256 * 256 ^ bs.length := Nat.mul_le_mul_right _ hb
        _ = 256 ^ (b :: bs).length := by rw [List.length_cons, pow_succ, Nat.mul_comm]

theorem beBytes_ofBeBytes (bs : List UInt8) : beBytes bs.length (ofBeBytes bs) = bs := by
  induction bs with
  | nil => rfl
  | cons b bs ih =>
      have hhead : ofBeBytes (b :: bs) / 256 ^ bs.length = b.toNat := by
        rw [ofBeBytes, Nat.mul_comm, Nat.mul_add_div (Nat.pow_pos (by decide)),
          Nat.div_eq_of_lt (ofBeBytes_lt bs), Nat.add_zero]
      rw [List.length_cons, beBytes, hhead, ofBeBytes, beBytes_add_mul, ih, UInt8.ofNat_toNat]

theorem beBytes_inj {n x y : ℕ} (hx : x < 256 ^ n) (hy : y < 256 ^ n)
    (h : beBytes n x = beBytes n y) : x = y := by
  have hread := congrArg ofBeBytes h
  rw [ofBeBytes_beBytes, ofBeBytes_beBytes, Nat.mod_eq_of_lt hx, Nat.mod_eq_of_lt hy]
    at hread
  exact hread

theorem beBytes_zero (n : ℕ) : beBytes n 0 = List.replicate n 0 := by
  induction n with
  | zero => rfl
  | succ n ih => simp [beBytes, ih, List.replicate_succ]

theorem beBytes_lt_beBytes {n x y : ℕ} (hxy : x < y) (hy : y < 256 ^ n) :
    beBytes n x < beBytes n y := by
  induction n generalizing x y with
  | zero => omega
  | succ n ih =>
      have hpow : 256 ^ (n + 1) = 256 * 256 ^ n := by rw [pow_succ, Nat.mul_comm]
      have hdigit : ∀ z, z < 256 ^ (n + 1) → (UInt8.ofNat (z / 256 ^ n)).toNat = z / 256 ^ n := by
        intro z hz
        rw [UInt8.toNat_ofNat', Nat.mod_eq_of_lt]
        rw [Nat.div_lt_iff_lt_mul (Nat.pow_pos (by decide))]
        omega
      have hlow : ∀ z, beBytes n z = beBytes n (z % 256 ^ n) := by
        intro z
        conv_lhs => rw [← Nat.div_add_mod' z (256 ^ n)]
        exact beBytes_add_mul n _ _
      rw [beBytes, beBytes, List.cons_lt_cons_iff, UInt8.lt_iff_toNat_lt, hdigit x (by omega),
        hdigit y hy]
      rcases Nat.lt_or_ge (x / 256 ^ n) (y / 256 ^ n) with hlt | hge
      · exact Or.inl hlt
      · -- the first digits agree, so the rests differ
        have heq : x / 256 ^ n = y / 256 ^ n :=
          Nat.le_antisymm (Nat.div_le_div_right hxy.le) hge
        have hrest : x % 256 ^ n < y % 256 ^ n := by
          have hx := Nat.div_add_mod x (256 ^ n)
          have hy := Nat.div_add_mod y (256 ^ n)
          rw [heq] at hx
          omega
        refine Or.inr ⟨by rw [heq], ?_⟩
        rw [hlow x, hlow y]
        exact ih hrest (Nat.mod_lt _ (Nat.pow_pos (by decide)))

theorem two_pow_eight_mul (n : ℕ) : 2 ^ (8 * n) = 256 ^ n := pow_mul 2 8 n

theorem toUInt8_shiftRight (w : UInt64) {k : UInt64} {n : ℕ} (hk : k.toNat = 8 * n)
    (hn : n < 8) : (w >>> k).toUInt8 = UInt8.ofNat (w.toNat / 256 ^ n) := by
  apply UInt8.toNat_inj.mp
  rw [UInt64.toNat_toUInt8, UInt64.toNat_shiftRight, hk, Nat.mod_eq_of_lt (by omega : 8 * n < 64),
    Nat.shiftRight_eq_div_pow, two_pow_eight_mul, UInt8.toNat_ofNat']

theorem shifts_eq_beBytes (w : UInt64) :
    [(w >>> 56).toUInt8, (w >>> 48).toUInt8, (w >>> 40).toUInt8, (w >>> 32).toUInt8,
      (w >>> 24).toUInt8, (w >>> 16).toUInt8, (w >>> 8).toUInt8, w.toUInt8] =
        beBytes 8 w.toNat := by
  have hlast : w.toUInt8 = UInt8.ofNat (w.toNat / 256 ^ 0) := by simp
  simp only [beBytes]
  rw [toUInt8_shiftRight w (n := 7) rfl (by omega), toUInt8_shiftRight w (n := 6) rfl (by omega),
    toUInt8_shiftRight w (n := 5) rfl (by omega), toUInt8_shiftRight w (n := 4) rfl (by omega),
    toUInt8_shiftRight w (n := 3) rfl (by omega), toUInt8_shiftRight w (n := 2) rfl (by omega),
    toUInt8_shiftRight w (n := 1) rfl (by omega), hlast]

theorem exists_beBytes_notMem {w : ℕ} {l : List (List UInt8)} (hl : l.length < 256 ^ w) :
    ∃ n, beBytes w n ∉ l := by
  have hinj : Set.InjOn (beBytes w) (Finset.range (256 ^ w)) := by
    intro m hm n hn h
    rw [Finset.coe_range, Set.mem_Iio] at hm hn
    exact beBytes_inj hm hn h
  have hcard : l.toFinset.card < ((Finset.range (256 ^ w)).image (beBytes w)).card := by
    rw [Finset.card_image_of_injOn hinj, Finset.card_range]
    exact (List.toFinset_card_le l).trans_lt hl
  obtain ⟨bs, hbs, hnot⟩ := Finset.exists_mem_notMem_of_card_lt_card hcard
  obtain ⟨n, _, rfl⟩ := Finset.mem_image.mp hbs
  exact ⟨n, fun hmem => hnot (List.mem_toFinset.mpr hmem)⟩

theorem exists_beBytes_ne {α : Type*} (f : α → List UInt8) {w : ℕ} {l : List α}
    (hl : l.length < 256 ^ w) : ∃ n, ∀ a ∈ l, f a ≠ beBytes w n := by
  obtain ⟨n, hn⟩ := exists_beBytes_notMem (w := w) (l := l.map f) (by rwa [List.length_map])
  refine ⟨n, ?_⟩
  intro a ha heq
  exact hn (List.mem_map.mpr ⟨a, ha, heq⟩)

theorem map_eq_map_of_imp {α β γ : Type*} {f : α → β} {key : α → γ} {l₁ l₂ : List α}
    (hkey : ∀ a ∈ l₁, ∀ b ∈ l₂, f a = f b → key a = key b) (h : l₁.map f = l₂.map f) :
    l₁.map key = l₂.map key := by
  induction l₁ generalizing l₂ with
  | nil =>
      cases l₂ with
      | nil => rfl
      | cons b l₂ => cases h
  | cons a l₁ ih =>
      cases l₂ with
      | nil => cases h
      | cons b l₂ =>
          obtain ⟨hhead, htail⟩ := List.cons.inj h
          rw [List.map_cons, List.map_cons, hkey a List.mem_cons_self b List.mem_cons_self hhead,
            ih (fun x hx y hy => hkey x (List.mem_cons_of_mem a hx) y (List.mem_cons_of_mem b hy))
              htail]

section FixedWidth

variable {α β : Type*} {f : α → List UInt8} {w : ℕ}

theorem length_flatMap_of_width {l : List α} (hw : ∀ a ∈ l, (f a).length = w) :
    (l.flatMap f).length = w * l.length := by
  induction l with
  | nil => simp
  | cons a l ih =>
      have htail := ih fun b hb => hw b (List.mem_cons_of_mem _ hb)
      rw [List.flatMap_cons, List.length_append, htail, hw a List.mem_cons_self,
        List.length_cons]
      ring

/-- Two concatenations of equally many records of one width agree record by
record, up to what the encoder keeps of a record. -/
theorem flatMap_append_inj {key : α → β} {l₁ l₂ : List α} {s t : List UInt8}
    (hw₁ : ∀ a ∈ l₁, (f a).length = w) (hw₂ : ∀ b ∈ l₂, (f b).length = w)
    (hkey : ∀ a ∈ l₁, ∀ b ∈ l₂, f a = f b → key a = key b)
    (hlen : l₁.length = l₂.length) (h : l₁.flatMap f ++ s = l₂.flatMap f ++ t) :
    l₁.map key = l₂.map key ∧ s = t := by
  induction l₁ generalizing l₂ with
  | nil =>
      have hnil : l₂ = [] := List.length_eq_zero_iff.mp hlen.symm
      subst hnil
      exact ⟨rfl, by simpa using h⟩
  | cons a l₁ ih =>
      cases l₂ with
      | nil => simp at hlen
      | cons b l₂ =>
          simp only [List.flatMap_cons, List.append_assoc] at h
          have hab : (f a).length = (f b).length := by
            rw [hw₁ a List.mem_cons_self, hw₂ b List.mem_cons_self]
          obtain ⟨hfirst, hrest⟩ := List.append_inj h hab
          have htail := ih (fun x hx => hw₁ x (List.mem_cons_of_mem _ hx))
            (fun y hy => hw₂ y (List.mem_cons_of_mem _ hy))
            (fun x hx y hy => hkey x (List.mem_cons_of_mem _ hx) y (List.mem_cons_of_mem _ hy))
            (by simpa using hlen) hrest
          have hhead := hkey a List.mem_cons_self b List.mem_cons_self hfirst
          exact ⟨by rw [List.map_cons, List.map_cons, hhead, htail.1], htail.2⟩

theorem flatMap_eq_replicate_zero {l : List α} (h : ∀ a ∈ l, f a = List.replicate w 0) :
    l.flatMap f = List.replicate (w * l.length) 0 := by
  induction l with
  | nil => simp
  | cons a l ih =>
      rw [List.flatMap_cons, h a List.mem_cons_self,
        ih fun b hb => h b (List.mem_cons_of_mem _ hb), List.replicate_append_replicate,
        List.length_cons, Nat.mul_succ, Nat.add_comm]

end FixedWidth

section Sums

variable {α : Type*}

theorem toNat_foldl_add (g : α → UInt64) (l : List α) (acc : UInt64) :
    (l.foldl (fun acc a => acc + g a) acc).toNat =
      (acc.toNat + (l.map fun a => (g a).toNat).sum) % 2 ^ 64 := by
  induction l generalizing acc with
  | nil => simp [Nat.mod_eq_of_lt acc.toNat_lt]
  | cons a l ih =>
      rw [List.foldl_cons, ih, UInt64.toNat_add, Nat.mod_add_mod, List.map_cons,
        List.sum_cons, Nat.add_assoc]

end Sums

end Words
