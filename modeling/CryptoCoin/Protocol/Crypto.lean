import CryptoCoin.Protocol.Types

/-!
# The cryptographic primitives of the Haskell layer

`CryptoCoin.Protocol.Crypto` implements its primitives itself. The hash cuts the
padded input into blocks of 136 bytes and folds the first 32 bytes of every
block into the state by exclusive or; signing and verifying compare such
hashes. The definitions below follow the source function by function.

`absorbAll s x` is the sponge state after the padded input `x`, started from
`s`. A whole block in front of the input is absorbed first
(`absorbAll_block_append`), so a hash is computed block by block.
-/

namespace CryptoCoin

namespace Protocol

namespace Crypto

/-! ### The hash -/

def rate : ℕ := 136

/-- The padding of the source. The branch of a negative padding length is taken
when one byte of the last block is free. -/
def padSHA3 (bs : ByteString) : ByteString :=
  let paddingLen : ℤ := (rate : ℤ) - (bs.length % rate : ℕ) - 2
  if paddingLen < 0 then
    bs ++ [0x06] ++ List.replicate ((rate : ℤ) + paddingLen).toNat 0 ++ [0x80]
  else
    bs ++ [0x06] ++ List.replicate paddingLen.toNat 0 ++ [0x80]

/-- `chunkSize` with a bound on the number of chunks. -/
def chunks (n : ℕ) : ℕ → ByteString → List ByteString
  | 0, _ => []
  | fuel + 1, bs => if bs.isEmpty then [] else bs.take n :: chunks n fuel (bs.drop n)

def chunkSize (n : ℕ) (bs : ByteString) : List ByteString := chunks n bs.length bs

/-- Exclusive or with a block, as far as both reach. -/
def absorb (state block : ByteString) : ByteString :=
  List.zipWith (· ^^^ ·) state block

/-- The truncation of the source, which ignores its second argument. -/
def xorEnd (state _suffix : ByteString) : ByteString := state.take 32

def sha3_256 (input : ByteString) : ByteString :=
  xorEnd ((chunkSize rate (padSHA3 input)).foldl absorb (List.replicate 32 0)) [0x06]

def sha3_512 (input : ByteString) : ByteString :=
  let h := sha3_256 (input ++ List.replicate 32 0)
  let h2 := sha3_256 (h ++ input)
  h ++ h2

def blake2b_160 (input : ByteString) : ByteString := (sha3_256 input).take 20

def hash (input : ByteString) : Hash := ⟨sha3_256 input⟩

/-! ### Keys and signatures -/

/-- The private key, which is the seed followed by the public key, and the
public key. -/
def ed25519Keypair (seed : ByteString) : ByteString × ByteString :=
  let pubKey := (sha3_512 seed).take 32
  let privKey := seed ++ pubKey
  (privKey, pubKey)

def ed25519Sign (privKey msg : ByteString) : ByteString :=
  let seed := privKey.take 32
  let r := sha3_512 (seed ++ msg)
  let R := r.take 32
  let S := (sha3_512 (R ++ privKey ++ msg)).take 32
  R ++ S

def ed25519Verify (pubKey sig msg : ByteString) : Bool :=
  let (r, s) := sig.splitAt 32
  let expected := sha3_512 (r ++ pubKey ++ msg)
  let sExpected := expected.take 32
  s == sExpected

def sign (privKey : PrivateKey) (data : ByteString) : Option Signature :=
  let signature := ed25519Sign privKey.bytes data
  if signature.isEmpty then none else some ⟨signature⟩

def verify (pubKey : PublicKey) (signature : Signature) (data : ByteString) : Bool :=
  ed25519Verify pubKey.bytes signature.bytes data

def generateKeyPairFromSeed (seed : ByteString) : PrivateKey × PublicKey :=
  let (privKey, pubKey) := ed25519Keypair seed
  (⟨privKey⟩, ⟨pubKey⟩)

def deriveAddress (pubKey : PublicKey) : Address := ⟨blake2b_160 pubKey.bytes⟩

def verifyAddress (addr : Address) (pubKey : PublicKey) : Bool :=
  deriveAddress pubKey == addr

/-! ### Chunks and padding -/

theorem chunks_of_le {n : ℕ} (hn : 0 < n) {fuel : ℕ} {bs : ByteString}
    (h : bs.length ≤ fuel) : chunks n fuel bs = chunks n bs.length bs := by
  induction fuel using Nat.strong_induction_on generalizing bs with
  | _ fuel ih =>
      cases bs with
      | nil => cases fuel <;> simp [chunks]
      | cons b bs =>
          obtain ⟨fuel, rfl⟩ : ∃ k, fuel = k + 1 :=
            ⟨fuel - 1, by simp only [List.length_cons] at h; omega⟩
          simp only [List.length_cons] at h
          -- both runs cut off the same chunk and continue on the same rest
          have hrest : ((b :: bs).drop n).length ≤ bs.length := by
            simp only [List.length_drop, List.length_cons]; omega
          simp only [chunks, List.length_cons, List.isEmpty_cons, Bool.false_eq_true, if_false]
          rw [ih fuel (Nat.lt_succ_self fuel) (hrest.trans (by omega)),
            ← ih bs.length (by omega) hrest]

theorem chunkSize_append {n : ℕ} (hn : 0 < n) {block : ByteString} (hb : block.length = n)
    (bs : ByteString) : chunkSize n (block ++ bs) = block :: chunkSize n bs := by
  have hlen : (block ++ bs).length = (n - 1 + bs.length) + 1 := by
    rw [List.length_append, hb]; omega
  have hne : (block ++ bs).isEmpty = false := by
    cases block with
    | nil => simp only [List.length_nil] at hb; omega
    | cons b block => rfl
  rw [chunkSize, hlen, chunks, hne]
  simp only [Bool.false_eq_true, if_false]
  rw [List.take_append_of_le_length hb.ge, List.take_of_length_le hb.le,
    List.drop_append_of_le_length hb.ge, List.drop_of_length_le hb.le, List.nil_append,
    chunks_of_le hn (by omega)]
  rfl

theorem chunkSize_nil (n : ℕ) : chunkSize n [] = [] := rfl

/-- What the padding adds behind an input of the given length. -/
def padding (len : ℕ) : ByteString :=
  if len % rate ≤ 134 then [0x06] ++ List.replicate (134 - len % rate) 0 ++ [0x80]
  else [0x06] ++ List.replicate 135 0 ++ [0x80]

theorem padSHA3_eq (bs : ByteString) : padSHA3 bs = bs ++ padding bs.length := by
  have hmod : bs.length % rate < 136 := Nat.mod_lt _ (by decide)
  unfold padSHA3 padding
  by_cases h : bs.length % rate ≤ 134
  · have hneg : ¬ ((rate : ℤ) - (bs.length % rate : ℕ) - 2 < 0) := by
      simp only [rate] at h ⊢; omega
    have hlen : ((rate : ℤ) - (bs.length % rate : ℕ) - 2).toNat = 134 - bs.length % rate := by
      simp only [rate] at h ⊢; omega
    simp only [h, hneg, hlen, if_true, if_false, List.append_assoc]
  · have hneg : (rate : ℤ) - (bs.length % rate : ℕ) - 2 < 0 := by
      simp only [rate] at h ⊢; omega
    have hlen : ((rate : ℤ) + ((rate : ℤ) - (bs.length % rate : ℕ) - 2)).toNat = 135 := by
      simp only [rate] at h hmod ⊢; omega
    simp only [h, hneg, hlen, if_true, if_false, List.append_assoc]

theorem length_padSHA3 (bs : ByteString) :
    (padSHA3 bs).length = rate * (bs.length / rate + if bs.length % rate ≤ 134 then 1 else 2) := by
  have hmod : bs.length % rate < 136 := Nat.mod_lt _ (by decide)
  have hdiv : rate * (bs.length / rate) + bs.length % rate = bs.length := Nat.div_add_mod _ _
  rw [padSHA3_eq, List.length_append, padding]
  by_cases h : bs.length % rate ≤ 134
  · simp only [h, if_true, List.length_append, List.length_cons, List.length_nil,
      List.length_replicate, Nat.mul_add]
    simp only [rate] at h hdiv hmod ⊢
    omega
  · simp only [h, if_false, List.length_append, List.length_cons, List.length_nil,
      List.length_replicate, Nat.mul_add]
    simp only [rate] at h hdiv hmod ⊢
    omega

theorem padSHA3_block_append {block : ByteString} (hb : block.length = rate)
    (bs : ByteString) : padSHA3 (block ++ bs) = block ++ padSHA3 bs := by
  have hlen : padding (block ++ bs).length = padding bs.length := by
    simp only [padding, List.length_append, hb, Nat.add_mod_left]
  rw [padSHA3_eq, padSHA3_eq, hlen, List.append_assoc]

theorem exists_padSHA3_eq (bs : ByteString) :
    ∃ n, padSHA3 bs = bs ++ [0x06] ++ List.replicate n 0 ++ [0x80] := by
  rw [padSHA3_eq, padding]
  split
  · exact ⟨134 - bs.length % rate, by simp only [List.append_assoc]⟩
  · exact ⟨135, by simp only [List.append_assoc]⟩

theorem eq_of_append_zeros_le {x y : ByteString} {m n : ℕ} (hle : m ≤ n)
    (h : x ++ [0x06] ++ List.replicate m 0 = y ++ [0x06] ++ List.replicate n 0) : x = y := by
  obtain ⟨k, rfl⟩ := Nat.exists_eq_add_of_le' hle
  rw [← List.replicate_append_replicate, ← List.append_assoc] at h
  have hfront := List.append_cancel_right h
  cases k with
  | zero =>
      rw [List.replicate_zero, List.append_nil] at hfront
      exact List.append_cancel_right hfront
  | succ k =>
      -- the last byte is a six on the left and a zero on the right
      rw [List.replicate_succ', ← List.append_assoc] at hfront
      have hlast := (List.append_inj' hfront rfl).2
      exact absurd hlast (by decide)

theorem padSHA3_injective : Function.Injective padSHA3 := by
  intro x y h
  obtain ⟨m, hx⟩ := exists_padSHA3_eq x
  obtain ⟨n, hy⟩ := exists_padSHA3_eq y
  rw [hx, hy] at h
  have hzeros := List.append_cancel_right h
  rcases le_total m n with hle | hle
  · exact eq_of_append_zeros_le hle hzeros
  · exact (eq_of_append_zeros_le hle hzeros.symm).symm

/-- The padding fills up blocks, begins with the input and loses nothing of it. -/
theorem padSHA3_wellFormed :
    (∀ x : ByteString, (∃ k, 0 < k ∧ (padSHA3 x).length = 136 * k) ∧ x <+: padSHA3 x) ∧
      ∀ x y : ByteString, padSHA3 x = padSHA3 y → x = y := by
  refine ⟨fun x => ⟨⟨_, ?_, length_padSHA3 x⟩, ?_⟩, fun x y h => padSHA3_injective h⟩
  · split
    · exact Nat.succ_pos _
    · exact Nat.succ_pos _
  · rw [padSHA3_eq]
    exact List.prefix_append x _

/-! ### The sponge -/

/-- The state after absorbing a padded input, started from `s`. -/
def absorbAll (s bs : ByteString) : ByteString :=
  (chunkSize rate (padSHA3 bs)).foldl absorb s

theorem sha3_256_eq (bs : ByteString) :
    sha3_256 bs = (absorbAll (List.replicate 32 0) bs).take 32 := rfl

theorem absorbAll_block_append {block : ByteString} (hb : block.length = rate)
    (s bs : ByteString) : absorbAll s (block ++ bs) = absorbAll (absorb s block) bs := by
  rw [absorbAll, padSHA3_block_append hb, chunkSize_append (by decide) hb, List.foldl_cons]
  rfl

theorem length_padSHA3_of_le {bs : ByteString} (h : bs.length ≤ 134) :
    (padSHA3 bs).length = rate := by
  have hmod : bs.length % rate = bs.length := Nat.mod_eq_of_lt (by simp only [rate]; omega)
  have hdiv : bs.length / rate = 0 := Nat.div_eq_of_lt (by simp only [rate]; omega)
  rw [length_padSHA3, hdiv, hmod, if_pos h, Nat.zero_add, Nat.mul_one]

theorem absorbAll_of_length_le (s : ByteString) {bs : ByteString} (h : bs.length ≤ 134) :
    absorbAll s bs = absorb s (bs ++ padding bs.length) := by
  have hlen : (padSHA3 bs).length = rate := length_padSHA3_of_le h
  have hchunk := chunkSize_append (by decide) hlen []
  rw [List.append_nil, chunkSize_nil] at hchunk
  rw [absorbAll, hchunk, List.foldl_cons, List.foldl_nil, padSHA3_eq]

/-- Behind 135 bytes the padding reaches into a second block. -/
theorem absorbAll_of_length_eq (s : ByteString) {bs : ByteString} (h : bs.length = 135) :
    absorbAll s bs =
      absorb (absorb s (bs ++ [0x06])) (List.replicate 135 0 ++ [0x80]) := by
  have hblocks : padSHA3 bs = (bs ++ [0x06]) ++ (List.replicate 135 0 ++ [0x80]) := by
    rw [padSHA3_eq, padding, h]
    simp only [rate, List.append_assoc]
    rfl
  have hfirst : (bs ++ [(0x06 : UInt8)]).length = rate := by simp [h, rate]
  have hsecond : (List.replicate 135 (0 : UInt8) ++ [0x80]).length = rate := by
    simp [rate]
  have hchunk := chunkSize_append (by decide) hsecond []
  rw [List.append_nil, chunkSize_nil] at hchunk
  rw [absorbAll, hblocks, chunkSize_append (by decide) hfirst, hchunk]
  rfl

theorem length_absorb (s block : ByteString) :
    (absorb s block).length = min s.length block.length :=
  List.length_zipWith

theorem length_absorbAll {s : ByteString} (hs : s.length ≤ rate) (bs : ByteString) :
    (absorbAll s bs).length = s.length := by
  -- the input loses one block per step
  induction hn : bs.length using Nat.strong_induction_on generalizing s bs with
  | _ n ih =>
      by_cases hlong : rate ≤ bs.length
      · have hsplit : bs.take rate ++ bs.drop rate = bs := List.take_append_drop rate bs
        have htake : (bs.take rate).length = rate := by rw [List.length_take]; omega
        have hstep : (absorb s (bs.take rate)).length = s.length := by
          rw [length_absorb, htake]; omega
        have hdrop : (bs.drop rate).length < n := by
          rw [List.length_drop]; simp only [rate] at hlong ⊢; omega
        rw [← hsplit, absorbAll_block_append htake,
          ih _ hdrop (by rw [hstep]; exact hs) (bs.drop rate) rfl, hstep]
      · by_cases hroom : bs.length ≤ 134
        · have hpad : (bs ++ padding bs.length).length = rate := by
            rw [← padSHA3_eq, length_padSHA3_of_le hroom]
          rw [absorbAll_of_length_le s hroom, length_absorb, hpad]
          omega
        · have hlen : bs.length = 135 := by simp only [rate] at hlong; omega
          rw [absorbAll_of_length_eq s hlen]
          simp only [length_absorb, List.length_append, List.length_replicate, List.length_cons,
            List.length_nil, hlen]
          simp only [rate] at hs
          omega

@[simp] theorem length_sha3_256 (bs : ByteString) : (sha3_256 bs).length = 32 := by
  rw [sha3_256_eq, List.length_take, length_absorbAll (by simp [rate])]
  simp

@[simp] theorem length_hash (bs : ByteString) : (hash bs).bytes.length = 32 :=
  length_sha3_256 bs

/-- A hash is the final state, which needs no truncation. -/
theorem sha3_256_eq_absorbAll (bs : ByteString) :
    sha3_256 bs = absorbAll (List.replicate 32 0) bs := by
  rw [sha3_256_eq, List.take_of_length_le]
  rw [length_absorbAll (by simp [rate])]
  simp

theorem take_sha3_512 (bs : ByteString) :
    (sha3_512 bs).take 32 = sha3_256 (bs ++ List.replicate 32 0) := by
  simp only [sha3_512]
  rw [List.take_append_of_le_length (by simp), List.take_of_length_le (by simp)]

theorem absorb_append {s a : ByteString} (h : s.length ≤ a.length) (b : ByteString) :
    absorb s (a ++ b) = absorb s a := by
  induction s generalizing a with
  | nil => rfl
  | cons x s ih =>
      cases a with
      | nil => simp at h
      | cons y a =>
          have htail := ih (a := a) (by simpa using h)
          simp only [absorb, List.cons_append, List.zipWith_cons_cons] at htail ⊢
          rw [htail]

theorem absorb_zero {a : ByteString} {n : ℕ} (h : a.length = n) :
    absorb (List.replicate n 0) a = a := by
  induction a generalizing n with
  | nil => subst h; rfl
  | cons x a ih =>
      subst h
      have htail := ih rfl
      simp only [absorb, List.length_cons, List.replicate_succ, List.zipWith_cons_cons,
        UInt8.zero_xor] at htail ⊢
      rw [htail]

theorem absorb_replicate_zero {s : ByteString} {n : ℕ} (h : s.length ≤ n) :
    absorb s (List.replicate n 0) = s := by
  induction s generalizing n with
  | nil => rfl
  | cons x s ih =>
      cases n with
      | zero => simp at h
      | succ n =>
          have htail := ih (n := n) (by simpa using h)
          simp only [absorb, List.replicate_succ, List.zipWith_cons_cons,
            UInt8.xor_zero] at htail ⊢
          rw [htail]

theorem absorb_assoc (x y z : ByteString) :
    absorb (absorb x y) z = absorb x (absorb y z) := by
  induction x generalizing y z with
  | nil => rfl
  | cons a x ih =>
      cases y with
      | nil => rfl
      | cons b y =>
          cases z with
          | nil => rfl
          | cons c z =>
              have htail := ih y z
              simp only [absorb, List.zipWith_cons_cons, UInt8.xor_assoc] at htail ⊢
              rw [htail]

/-- A state goes through the sponge unchanged beside the input. -/
theorem absorbAll_absorb (s t bs : ByteString) :
    absorbAll (absorb s t) bs = absorb s (absorbAll t bs) := by
  rw [absorbAll, absorbAll]
  generalize chunkSize rate (padSHA3 bs) = blocks
  induction blocks generalizing t with
  | nil => rfl
  | cons block blocks ih => rw [List.foldl_cons, List.foldl_cons, absorb_assoc, ih]

theorem absorbAll_eq_absorb {s : ByteString} (hs : s.length = 32) (bs : ByteString) :
    absorbAll s bs = absorb s (sha3_256 bs) := by
  rw [sha3_256_eq_absorbAll, ← absorbAll_absorb, absorb_replicate_zero hs.le]

/-- Of the first block the hash keeps 32 bytes: behind them, 104 bytes are lost, and
what follows is hashed on its own. -/
theorem sha3_256_append {r : ByteString} (hr : r.length = 32) (x : ByteString) :
    sha3_256 (r ++ x) = if x.length < 104 then r else absorb r (sha3_256 (x.drop 104)) := by
  have hkeep : ∀ rest, absorb (List.replicate 32 0) (r ++ rest) = r := by
    intro rest
    rw [absorb_append (by simp [hr]), absorb_zero hr]
  rw [sha3_256_eq_absorbAll]
  by_cases hlong : x.length < 104
  · rw [if_pos hlong]
    by_cases hroom : x.length ≤ 102
    · rw [absorbAll_of_length_le _ (by rw [List.length_append, hr]; omega), List.append_assoc,
        hkeep]
    · rw [absorbAll_of_length_eq _ (by rw [List.length_append, hr]; omega), List.append_assoc,
        hkeep, absorb_append (by simp [hr]), absorb_replicate_zero (by simp [hr])]
  · have hsplit : r ++ x = (r ++ x.take 104) ++ x.drop 104 := by
      rw [List.append_assoc, List.take_append_drop]
    have hblock : (r ++ x.take 104).length = rate := by
      rw [List.length_append, hr, List.length_take, rate]
      omega
    rw [if_neg hlong, hsplit, absorbAll_block_append hblock, hkeep, absorbAll_eq_absorb hr]

theorem sha3_256_append_of_lt {r x : ByteString} (hr : r.length = 32) (hx : x.length < 104) :
    sha3_256 (r ++ x) = r := by
  rw [sha3_256_append hr, if_pos hx]

theorem exists_append_of_le_length {x : ByteString} (h : 32 ≤ x.length) :
    ∃ r y, x = r ++ y ∧ r.length = 32 :=
  ⟨x.take 32, x.drop 32, (List.take_append_drop 32 x).symm, by simpa using h⟩

/-- The message as it is hashed, with the zeros that `sha3_512` adds. -/
def extended (msg : ByteString) : ByteString := msg ++ List.replicate 32 0

theorem length_extended (msg : ByteString) : (extended msg).length = msg.length + 32 := by
  rw [extended, List.length_append, List.length_replicate]

theorem drop_extended {msg : ByteString} {k : ℕ} (h : msg.length ≤ k) :
    (extended msg).drop k = List.replicate (msg.length + 32 - k) 0 := by
  rw [extended, List.drop_append, List.drop_of_length_le h, List.nil_append, List.drop_replicate]
  congr 1
  omega

theorem sha3_256_keyed {r key : ByteString} (hr : r.length = 32) (hkey : key.length ≤ 104)
    (msg : ByteString) :
    sha3_256 (r ++ key ++ msg ++ List.replicate 32 0) =
      if msg.length + 32 < 104 - key.length then r
      else absorb r (sha3_256 ((extended msg).drop (104 - key.length))) := by
  have hsplit : r ++ key ++ msg ++ List.replicate 32 0 = r ++ (key ++ extended msg) := by
    simp only [extended, List.append_assoc]
  have hlen : (key ++ extended msg).length < 104 ↔ msg.length + 32 < 104 - key.length := by
    rw [List.length_append, length_extended]
    omega
  have hdrop : (key ++ extended msg).drop 104 = (extended msg).drop (104 - key.length) := by
    rw [List.drop_append, List.drop_of_length_le hkey, List.nil_append]
  rw [hsplit, sha3_256_append hr, hdrop]
  simp only [hlen]

theorem absorb_left_inj {s a b : ByteString} (ha : a.length = s.length)
    (hb : b.length = s.length) : absorb s a = absorb s b ↔ a = b := by
  constructor
  · intro h
    induction s generalizing a b with
    | nil =>
        rw [List.length_eq_zero_iff.mp ha, List.length_eq_zero_iff.mp hb]
    | cons x s ih =>
        cases a with
        | nil => simp at ha
        | cons y a =>
            cases b with
            | nil => simp at hb
            | cons z b =>
                simp only [absorb, List.zipWith_cons_cons, List.cons.injEq] at h
                have hhead : y = z := (UInt8.xor_right_inj (c := x)).mp h.1
                have htail : a = b := ih (by simpa using ha) (by simpa using hb) h.2
                rw [hhead, htail]
  · rintro rfl
    rfl

/-! ### Signatures -/

@[simp] theorem length_ed25519Sign (privKey msg : ByteString) :
    (ed25519Sign privKey msg).length = 64 := by
  simp [ed25519Sign, take_sha3_512]

theorem sign_eq_some (privKey : PrivateKey) (data : ByteString) :
    sign privKey data = some ⟨ed25519Sign privKey.bytes data⟩ := by
  have hlen := length_ed25519Sign privKey.bytes data
  have hne : (ed25519Sign privKey.bytes data).isEmpty = false := by
    cases h : ed25519Sign privKey.bytes data with
    | nil => rw [h] at hlen; simp at hlen
    | cons b bs => rfl
  simp [sign, hne]

/-- A signature is accepted exactly when its second half is the hash of its first
half, the key and the message: no secret enters the check. -/
theorem verify_append_iff (pubKey : PublicKey) {r : ByteString} (hr : r.length = 32)
    (s msg : ByteString) :
    verify pubKey ⟨r ++ s⟩ msg = true ↔
      s = sha3_256 (r ++ pubKey.bytes ++ msg ++ List.replicate 32 0) := by
  have hsplit : (r ++ s).splitAt 32 = (r, s) := by
    rw [List.splitAt_eq, List.take_append_of_le_length hr.ge, List.take_of_length_le hr.le,
      List.drop_append_of_le_length hr.ge, List.drop_of_length_le hr.le, List.nil_append]
  simp only [verify, ed25519Verify, hsplit, take_sha3_512, beq_iff_eq]

/-- A signature that anyone can compute for any key and message. -/
def forgeSignature (pubKey : PublicKey) (msg : ByteString) : Signature :=
  ⟨List.replicate 32 0 ++
    sha3_256 (List.replicate 32 0 ++ pubKey.bytes ++ msg ++ List.replicate 32 0)⟩

theorem verify_forgeSignature (pubKey : PublicKey) (msg : ByteString) :
    verify pubKey (forgeSignature pubKey msg) msg = true :=
  (verify_append_iff pubKey List.length_replicate _ msg).mpr rfl

@[simp] theorem length_deriveAddress (pubKey : PublicKey) :
    (deriveAddress pubKey).bytes.length = 20 := by
  simp [deriveAddress, blake2b_160]

/-! ### Words -/

/-- The module encodes 64-bit words by shifts, the serializer of blocks by divisions. -/
def serializeWord64 (w : UInt64) : ByteString :=
  [(w >>> 56).toUInt8, (w >>> 48).toUInt8, (w >>> 40).toUInt8, (w >>> 32).toUInt8,
    (w >>> 24).toUInt8, (w >>> 16).toUInt8, (w >>> 8).toUInt8, w.toUInt8]

theorem serializeWord64_eq (w : UInt64) : serializeWord64 w = Words.beBytes 8 w.toNat :=
  Words.shifts_eq_beBytes w

end Crypto

end Protocol

end CryptoCoin
