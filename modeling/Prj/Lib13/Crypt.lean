import Prj.Base.Arena

/-!
The interface to the ciphers (`lib13/crypt13.c`, `lib13/include/crypt13i.h`).

`size_t` has 32 bits, as in the objects of the repository. What the ciphers compute for their keys is given.
A result `none` is a call that touches a byte that it must not, or does not return.
-/
namespace Prj.Lib13
open Prj.Base Option

section Model
/-- `CRYPT13_ALG_NONE` and so on. -/
inductive Alg
  | none
  | des
  | des3
  | aes
  | rc4
  | xtea
  | ntru
  deriving DecidableEq, Repr

/-- The column `blocksize` of the table `crypt13_alg`. -/
def Alg.blocksize : Alg → ℕ
  | .none => 1
  | .des => 8
  | .des3 => 8
  | .aes => 16
  | .rc4 | .xtea | .ntru => 0

/-- `ctx` and `params` of every algorithm. A message that `ntru_encrypt` refuses has no result. -/
structure Keyed where
  aes : BlockPair 16
  des3 : BlockPair 8
  ntruEncLen : ℕ
  ntruEncrypt : List UInt8 → Option (List UInt8)
  ntruDecrypt : List UInt8 → List UInt8
  ntruEncLen_pos : 0 < ntruEncLen
  length_ntruEncrypt : ∀ msg enc, ntruEncrypt msg = some enc → enc.length = ntruEncLen

/-- `struct crypt13`; `magic` says whether it holds `MAGIC13_CR13`. -/
structure Crypt13 where
  magic : Bool
  alg : Alg
  keyed : Keyed

inductive CryptError
  | misuse
  | internal
  | implement
  deriving DecidableEq, Repr

def sizeTop : ℕ := 2 ^ 32

def crypt13Init (s : Crypt13) (alg : Alg) (keyed : Keyed) : Except CryptError Crypt13 :=
  if s.magic then .error .misuse
  else
    match alg with
    | .none | .aes | .des3 | .ntru => .ok ⟨true, alg, keyed⟩
    | .des | .rc4 | .xtea => .error .implement

/-- `_crypt13_cryptblocks` -/
def cryptblocks (blocksize insize : ℕ) : ℕ :=
  if insize % blocksize ≠ 0 then insize / blocksize + 1 else insize / blocksize

/-- The negative code `E13_MISUSE` and -1 are returned as sizes. -/
def crypt13EncSize (s : Crypt13) (initsize : ℕ) : ℕ :=
  if s.magic = false then sizeTop - 100021
  else
    match s.alg with
    | .aes | .des | .des3 => cryptblocks s.alg.blocksize initsize * s.alg.blocksize % sizeTop
    | .ntru => s.keyed.ntruEncLen
    | .none => initsize
    | .rc4 | .xtea => sizeTop - 1

/-- `memcpy` between places that do not overlap, unless they are the same. -/
def copy (a : Arena sizeTop) (input insize out : ℕ) : Option (Arena sizeTop) :=
  if out ≠ input then (a.read input insize).bind (a.write out) else some a

/-- `for(i = 0; i < total; i += s->blocksize)`. More than `total` rounds are needed only if it does not end. -/
def cryptLoop (blocksize : ℕ) (f : List UInt8 → List UInt8) (a : Arena sizeTop) (input total out : ℕ) :
    Option (Except CryptError (ℕ × Arena sizeTop)) :=
  (blockLoop blocksize f input out total (total + 1) 0 a).map .ok

def crypt13Encrypt (s : Crypt13) (a : Arena sizeTop) (input insize out : ℕ) :
    Option (Except CryptError (ℕ × Arena sizeTop)) :=
  let total := s.alg.blocksize * cryptblocks s.alg.blocksize insize % sizeTop
  if s.magic = false then some (.error .misuse)
  else
    match s.alg with
    | .none => (copy a input insize out).map fun a => .ok (insize, a)
    | .aes => cryptLoop Alg.aes.blocksize s.keyed.aes.enc a input total out
    | .des3 => cryptLoop Alg.des3.blocksize s.keyed.des3.enc a input total out
    | .ntru => do
      let msg ← a.read input insize
      match s.keyed.ntruEncrypt msg with
      | none => some (.error .internal)
      | some enc =>
        let a ← a.write out enc
        return .ok (s.keyed.ntruEncLen, a)
    | .des | .rc4 | .xtea => some (.error .implement)

/-- The counter runs up to `insize`, which is not made a multiple of the block size. -/
def crypt13Decrypt (s : Crypt13) (a : Arena sizeTop) (input insize out : ℕ) :
    Option (Except CryptError (ℕ × Arena sizeTop)) :=
  if s.magic = false then some (.error .misuse)
  else
    match s.alg with
    | .none => (copy a input insize out).map fun a => .ok (insize, a)
    | .aes => cryptLoop Alg.aes.blocksize s.keyed.aes.dec a input insize out
    | .des3 => cryptLoop Alg.des3.blocksize s.keyed.des3.dec a input insize out
    | .ntru => do
      let enc ← a.read input s.keyed.ntruEncLen
      let msg := s.keyed.ntruDecrypt enc
      let a ← a.write out msg
      return .ok (msg.length, a)
    | .des | .rc4 | .xtea => some (.error .implement)

end Model

theorem le_cryptblocks_mul {w insize : ℕ} (hw : 0 < w) : insize ≤ cryptblocks w insize * w := by
  have hdiv := Nat.div_add_mod' insize w
  have hmod := Nat.mod_lt insize hw
  unfold cryptblocks
  split_ifs with h
  · rw [Nat.succ_mul]
    omega
  · omega

theorem cryptblocks_mul {w : ℕ} (hw : 0 < w) (n : ℕ) : cryptblocks w (n * w) * w = n * w := by
  rw [cryptblocks, if_neg (by simp), Nat.mul_div_cancel _ hw]

section RoundTrip
/-- The algorithms with functions on blocks, and the one that copies. -/
def Alg.Plain (alg : Alg) : Prop := alg = .none ∨ alg = .aes ∨ alg = .des3

def Crypt13.padded (s : Crypt13) (insize : ℕ) : ℕ := cryptblocks s.alg.blocksize insize * s.alg.blocksize

/-- What the output of `crypt13_encrypt` is for: the input block by block. -/
def Crypt13.enc (s : Crypt13) (bs : List UInt8) : List UInt8 :=
  match s.alg with
  | .aes => mapBlocks 16 s.keyed.aes.enc (bs.length / 16) bs
  | .des3 => mapBlocks 8 s.keyed.des3.enc (bs.length / 8) bs
  | _ => bs

def Crypt13.dec (s : Crypt13) (bs : List UInt8) : List UInt8 :=
  match s.alg with
  | .aes => mapBlocks 16 s.keyed.aes.dec (bs.length / 16) bs
  | .des3 => mapBlocks 8 s.keyed.des3.dec (bs.length / 8) bs
  | _ => bs

variable {s : Crypt13} {a : Arena sizeTop} {input insize out dst w n p : ℕ} {bs : List UInt8}

theorem lt_sizeTop (h : a.Covers out n) : n < sizeTop := by
  by_cases hn : n = 0
  · rw [hn]
    decide
  · exact h.lt (Nat.pos_of_ne_zero hn)

theorem cryptLoop_eq {f : List UInt8 → List UInt8} (hw : 0 < w) (hf : ∀ b, b.length = w → (f b).length = w)
    (hin : a.Covers input (n * w)) (hout : a.Covers out (n * w)) (hplaces : SameOrApart input out (n * w)) :
    cryptLoop w f a input (n * w) out = some (.ok (n * w, a.put out
      (mapBlocks w f ((fetch a.bytes input (n * w)).length / w) (fetch a.bytes input (n * w))))) := by
  have hfuel : n < n * w + 1 := Nat.lt_succ_of_le (Nat.le_mul_of_pos_right _ hw)
  have hlast : n ≠ 0 → 0 + (n - 1) * w < n * w := by
    intro hn
    rw [Nat.zero_add]
    exact Nat.mul_lt_mul_of_pos_right (by omega) hw
  have hloop := blockLoop_eq (i := 0) (m := n) hf hfuel (by rw [Nat.zero_add]; exact lt_sizeTop hout)
    (by rw [Nat.zero_add]) hlast hin hout hplaces
  rw [cryptLoop, hloop, length_fetch, Nat.mul_div_cancel _ hw]
  simp only [Nat.zero_add, Nat.add_zero, map_some]

theorem copy_eq (hin : a.Covers input n) (hout : a.Covers out n) :
    copy a input n out = some (a.put out (fetch a.bytes input n)) := by
  by_cases h : out = input
  · subst h
    have hbytes : store a.bytes out (fetch a.bytes out n) = a.bytes :=
      store_of_fetch (by rw [length_fetch])
    rw [copy, if_neg (not_not.2 rfl), Arena.put, hbytes]
  · rw [copy, if_pos h, Arena.read_of_covers hin, bind_some, Arena.write_of_covers (by rw [length_fetch]; exact hout)]

section
variable (hmagic : s.magic = true) (halg : s.alg.Plain)
include hmagic halg

theorem crypt13EncSize_eq (hout : a.Covers out (s.padded insize)) : crypt13EncSize s insize = s.padded insize := by
  have hlt := lt_sizeTop hout
  unfold Crypt13.padded at hlt ⊢
  rw [crypt13EncSize, if_neg (by simp [hmagic])]
  rcases halg with h | h | h
  · simp [h, Alg.blocksize, cryptblocks, Nat.mod_one]
  all_goals
    simp only [h] at hlt ⊢
    exact Nat.mod_eq_of_lt hlt

theorem crypt13Encrypt_eq (hin : a.Covers input (s.padded insize)) (hout : a.Covers out (s.padded insize))
    (hplaces : SameOrApart input out (s.padded insize)) : crypt13Encrypt s a input insize out =
      some (.ok (s.padded insize, a.put out (s.enc (fetch a.bytes input (s.padded insize))))) := by
  have hlt := lt_sizeTop hout
  unfold Crypt13.padded at hlt hin hout hplaces ⊢
  rw [crypt13Encrypt, if_neg (by simp [hmagic]), Nat.mul_comm, Nat.mod_eq_of_lt hlt]
  rcases halg with h | h | h
  · simp only [h, Alg.blocksize, cryptblocks, Nat.mod_one, ne_eq, not_true_eq_false, if_false, Nat.div_one,
      Nat.mul_one] at hin hout ⊢
    rw [copy_eq hin hout, map_some, Crypt13.enc, h]
  · simp only [h] at hin hout hplaces ⊢
    rw [Crypt13.enc, h]
    exact cryptLoop_eq (by decide) s.keyed.aes.length_enc hin hout hplaces
  · simp only [h] at hin hout hplaces ⊢
    rw [Crypt13.enc, h]
    exact cryptLoop_eq (by decide) s.keyed.des3.length_enc hin hout hplaces

theorem crypt13Decrypt_eq (hin : a.Covers input (n * s.alg.blocksize)) (hout : a.Covers out (n * s.alg.blocksize))
    (hplaces : SameOrApart input out (n * s.alg.blocksize)) :
    crypt13Decrypt s a input (n * s.alg.blocksize) out = some (.ok (n * s.alg.blocksize,
      a.put out (s.dec (fetch a.bytes input (n * s.alg.blocksize))))) := by
  rw [crypt13Decrypt, if_neg (by simp [hmagic])]
  rcases halg with h | h | h
  · rw [copy_eq hin hout, map_some, Crypt13.dec, h]
  · simp only [h] at hin hout hplaces ⊢
    rw [Crypt13.dec, h]
    exact cryptLoop_eq (by decide) s.keyed.aes.length_dec hin hout hplaces
  · simp only [h] at hin hout hplaces ⊢
    rw [Crypt13.dec, h]
    exact cryptLoop_eq (by decide) s.keyed.des3.length_dec hin hout hplaces

end

theorem Alg.Plain.blocksize_pos {alg : Alg} (h : alg.Plain) : 0 < alg.blocksize := by
  rcases h with rfl | rfl | rfl <;> decide

section
variable (h : bs.length = n * s.alg.blocksize)
include h

theorem Crypt13.length_enc : (s.enc bs).length = bs.length := by
  unfold Crypt13.enc
  split
  case h_1 halg =>
    rw [halg] at h
    exact length_mapBlocks_div (by decide) s.keyed.aes.length_enc h
  case h_2 halg =>
    rw [halg] at h
    exact length_mapBlocks_div (by decide) s.keyed.des3.length_enc h
  case h_3 => rfl

theorem Crypt13.length_dec : (s.dec bs).length = bs.length := by
  unfold Crypt13.dec
  split
  case h_1 halg =>
    rw [halg] at h
    exact length_mapBlocks_div (by decide) s.keyed.aes.length_dec h
  case h_2 halg =>
    rw [halg] at h
    exact length_mapBlocks_div (by decide) s.keyed.des3.length_dec h
  case h_3 => rfl

theorem Crypt13.dec_enc : s.dec (s.enc bs) = bs := by
  have hlen := s.length_enc h
  unfold Crypt13.dec
  split
  case h_1 halg =>
    rw [hlen, Crypt13.enc, halg]
    rw [halg] at h
    rw [h, Alg.blocksize, Nat.mul_div_cancel _ (by decide)]
    exact s.keyed.aes.mapBlocks_dec_enc h
  case h_2 halg =>
    rw [hlen, Crypt13.enc, halg]
    rw [halg] at h
    rw [h, Alg.blocksize, Nat.mul_div_cancel _ (by decide)]
    exact s.keyed.des3.mapBlocks_dec_enc h
  case h_3 haes hdes3 => simp [Crypt13.enc]

end

/-- The buffers have room for the padded input, and need not have more: a touch of any other byte would be a
fault. -/
theorem crypt13Decrypt_crypt13Encrypt (s : Crypt13) (hmagic : s.magic = true) (halg : s.alg.Plain)
    (a : Arena sizeTop) (input insize out dst : ℕ) (hin : a.Covers input (s.padded insize))
    (hout : a.Covers out (s.padded insize)) (hdst : a.Covers dst (s.padded insize))
    (henc : SameOrApart input out (s.padded insize)) (hdec : SameOrApart out dst (s.padded insize)) :
    ∃ a₁ a₂, crypt13Encrypt s a input insize out = some (.ok (crypt13EncSize s insize, a₁)) ∧
      crypt13Decrypt s a₁ out (crypt13EncSize s insize) dst = some (.ok (crypt13EncSize s insize, a₂)) ∧
      fetch a₂.bytes dst insize = fetch a.bytes input insize ∧ crypt13EncSize s insize = s.padded insize ∧
      (∀ p, p < out ∨ out + s.padded insize ≤ p → a₁.bytes p = a.bytes p) ∧
      ∀ p, p < dst ∨ dst + s.padded insize ≤ p → a₂.bytes p = a₁.bytes p := by
  have hsize := crypt13EncSize_eq hmagic halg hout
  have hlen : (fetch a.bytes input (s.padded insize)).length =
      cryptblocks s.alg.blocksize insize * s.alg.blocksize := length_fetch ..
  have hlenenc : (s.enc (fetch a.bytes input (s.padded insize))).length = s.padded insize :=
    (s.length_enc hlen).trans hlen
  have hread : s.dec (fetch (a.put out (s.enc (fetch a.bytes input (s.padded insize)))).bytes out
      (s.padded insize)) = fetch a.bytes input (s.padded insize) := by
    rw [Arena.bytes_put, fetch_store_of_length hlenenc, s.dec_enc hlen]
  have hle : insize ≤ s.padded insize := le_cryptblocks_mul halg.blocksize_pos
  have hrun := crypt13Decrypt_eq (a := a.put out (s.enc (fetch a.bytes input (s.padded insize)))) hmagic halg
    hout hdst hdec
  rw [← Crypt13.padded, hread] at hrun
  rw [hsize]
  refine ⟨_, _, crypt13Encrypt_eq hmagic halg hin hout henc, hrun, ?_, rfl, ?_, ?_⟩
  · rw [fetch_eq_take hle, Arena.bytes_put, fetch_store_of_length (length_fetch ..), ← fetch_eq_take hle]
  · intro p hp
    rcases hp with hp | hp
    · exact store_of_lt hp
    · exact store_of_le (by rw [hlenenc]; exact hp)
  · intro p hp
    rcases hp with hp | hp
    · exact store_of_lt hp
    · exact store_of_le (by rw [hlen]; exact hp)

/-- `crypt13_encrypt` with the output in the place of the input, from the first byte of `mem` on: the size of
the output and the bytes that are written. -/
def Crypt13.encryptInPlace (s : Crypt13) (mem : ℕ → UInt8) (insize : ℕ) : Except CryptError (ℕ × List UInt8) :=
  let total := s.alg.blocksize * cryptblocks s.alg.blocksize insize % sizeTop
  if s.magic = false then .error .misuse
  else
    match s.alg with
    | .none => .ok (insize, [])
    | .aes | .des3 => .ok (total, s.enc (fetch mem 0 total))
    | .ntru =>
      match s.keyed.ntruEncrypt (fetch mem 0 insize) with
      | none => .error .internal
      | some enc => .ok (s.keyed.ntruEncLen, enc)
    | .des | .rc4 | .xtea => .error .implement

theorem fetch_shift (mem : ℕ → UInt8) (p n : ℕ) : fetch (fun i => mem (p + i)) 0 n = fetch mem p n := by
  simp only [fetch, Nat.zero_add]

theorem crypt13Encrypt_inPlace (halg : s.alg.Plain) (hcovers : a.Covers p (s.padded insize)) :
    crypt13Encrypt s a p insize p =
      some ((s.encryptInPlace (fun i => a.bytes (p + i)) insize).map fun r => (r.1, a.put p r.2)) := by
  by_cases hmagic : s.magic = false
  · simp [crypt13Encrypt, Crypt13.encryptInPlace, hmagic, Except.map]
  have hlt := lt_sizeTop hcovers
  have hrun := crypt13Encrypt_eq (by simpa using hmagic) halg hcovers hcovers (.inl (Eq.refl p))
  unfold Crypt13.padded at hlt hrun
  rw [hrun, Crypt13.encryptInPlace, if_neg hmagic, Nat.mul_comm s.alg.blocksize, Nat.mod_eq_of_lt hlt, fetch_shift]
  rcases halg with h | h | h
  · have hbytes : store a.bytes p (fetch a.bytes p insize) = a.bytes := store_of_fetch (by rw [length_fetch])
    simp [h, Except.map, Alg.blocksize, cryptblocks, Nat.mod_one, Crypt13.enc, Arena.put, hbytes, store_nil]
  all_goals simp only [h, Except.map]

def reverseKeyed : Keyed where
  aes := .reversal _
  des3 := .reversal _
  ntruEncLen := 1
  ntruEncrypt _ := none
  ntruDecrypt _ := []
  ntruEncLen_pos := by decide
  length_ntruEncrypt _ _ h := by cases h

def oneBlock : Arena sizeTop where
  bytes p := .ofNat p
  owned p := 16 ≤ p && p < 32
  owned_range p hp := by
    simp only [Bool.and_eq_true, decide_eq_true_eq] at hp
    unfold sizeTop
    omega

theorem crypt13Decrypt_crypt13Encrypt_oneBlock : ∃ a₁ a₂,
    crypt13Encrypt ⟨true, .aes, reverseKeyed⟩ oneBlock 16 5 16 = some (.ok (16, a₁)) ∧
      crypt13Decrypt ⟨true, .aes, reverseKeyed⟩ a₁ 16 16 16 = some (.ok (16, a₂)) ∧
      fetch a₂.bytes 16 5 = [16, 17, 18, 19, 20] := by
  have hcovers : oneBlock.Covers 16 16 := by decide
  obtain ⟨a₁, a₂, henc, hdec, hbytes, -⟩ := crypt13Decrypt_crypt13Encrypt ⟨true, .aes, reverseKeyed⟩ rfl
    (.inr (.inl rfl)) oneBlock 16 5 16 16 hcovers hcovers hcovers (.inl rfl) (.inl rfl)
  exact ⟨a₁, a₂, henc, hdec, hbytes⟩

theorem crypt13Encrypt_inPlace_oneBlock : crypt13Encrypt ⟨true, .aes, reverseKeyed⟩ oneBlock 16 5 16 =
    some ((Crypt13.encryptInPlace ⟨true, .aes, reverseKeyed⟩ (fun i => oneBlock.bytes (16 + i)) 5).map fun r =>
      (r.1, oneBlock.put 16 r.2)) :=
  crypt13Encrypt_inPlace (.inr (.inl rfl)) (by decide)

end RoundTrip
end Prj.Lib13
