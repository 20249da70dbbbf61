import KvJet.Lib.Orbit
import KvJet.Server.Cluster
import Mathlib.Data.FinEnum

/-!
# What the hash of a key can be

Every point of the ring is the hash of some key (`hashString_surjective`).

One more byte `c` of the key takes the hash `h` to `(h ^^^ c) * p`, which is injective in `h`. So
the hashes of keys are a set that some permutations keep, and what a permutation maps into it was
in it. The byte 0 only multiplies by `p`; so the last byte of a hash can be exchanged for any other
(`exchange`), and the bytes before it can be counted up (`count`), since exchanging 0 for 1
multiplies out to an odd number of them.
-/

namespace KvJet
namespace Server
namespace Cluster

/-- The prime of the hash, and its inverse. -/
def hashPrime : UInt64 := 0x100000001b3

def hashInverse : UInt64 := 0xce965057aff6957b

/-- How far the upper bytes go when 0 is exchanged for 1, and the inverse of that. -/
def countStep : UInt64 := 0x7e8ce5d2aff6957b

def countInverse : UInt64 := 0xffffff4d000001b3

/-- One more byte. -/
def hashByte (c : UInt8) (h : UInt64) : UInt64 := (h ^^^ c.toUInt64) * hashPrime

theorem hashString_concat (str : Bytes) (c : UInt8) :
    hashString (str ++ [c]) = hashByte c (hashString str) := by
  simp [hashString, hashByte, hashPrime]

def Hashes : Set UInt64 := {h | ∃ str, hashString str = h}

theorem hashByte_mem {h : UInt64} (c : UInt8) (hh : h ∈ Hashes) : hashByte c h ∈ Hashes := by
  obtain ⟨str, rfl⟩ := hh
  exact ⟨str ++ [c], hashString_concat str c⟩

theorem mul_prime_injective : (fun h : UInt64 => h * hashPrime).Injective := by
  intro a b hab
  have hunit : hashPrime * hashInverse = 1 := by decide
  have hcancel : a * hashPrime * hashInverse = b * hashPrime * hashInverse :=
    congrArg (· * hashInverse) hab
  rwa [UInt64.mul_assoc, UInt64.mul_assoc, hunit, UInt64.mul_one, UInt64.mul_one] at hcancel

theorem mul_prime_mem {h : UInt64} (hh : h ∈ Hashes) : h * hashPrime ∈ Hashes := by
  have h0 := hashByte_mem 0 hh
  rwa [hashByte, show (0 : UInt8).toUInt64 = 0 from rfl, UInt64.xor_zero] at h0

/-- The last byte can be exchanged. -/
theorem exchange {h : UInt64} (c : UInt8) (hh : h ∈ Hashes) : h ^^^ c.toUInt64 ∈ Hashes :=
  Orbit.mem_of_map_eq (f := hashByte c) mul_prime_injective (fun _ hx => hashByte_mem c hx)
    (fun _ hx => mul_prime_mem hx) rfl hh

/-! ## The last byte and the others -/

theorem nat_xor_low {a b : Nat} (hb : b < 2 ^ 8) : 2 ^ 8 * a ^^^ b = 2 ^ 8 * a + b := by
  refine Nat.eq_of_testBit_eq fun j => ?_
  rw [Nat.testBit_xor, Nat.testBit_two_pow_mul_add _ hb, Nat.testBit_two_pow_mul]
  by_cases hj : j < 8
  · simp [hj, Nat.not_le.mpr hj]
  · have hle : 2 ^ 8 ≤ 2 ^ j := Nat.pow_le_pow_right (by decide) (Nat.le_of_not_lt hj)
    simp [hj, Nat.le_of_not_lt hj, Nat.testBit_lt_two_pow (Nat.lt_of_lt_of_le hb hle)]

theorem xor_low (q : UInt64) (c : UInt8) : 256 * q ^^^ c.toUInt64 = 256 * q + c.toUInt64 := by
  have hq : (256 * q).toNat = 2 ^ 8 * (q.toNat % 2 ^ 56) := by
    rw [UInt64.toNat_mul, ← Nat.mul_mod_mul_left]
    rfl
  have hc : c.toUInt64.toNat < 2 ^ 8 := c.toNat_lt
  have hlt := Nat.mod_lt q.toNat (Nat.two_pow_pos 56)
  apply UInt64.toNat_inj.mp
  rw [UInt64.toNat_xor, UInt64.toNat_add, hq, nat_xor_low hc]
  exact (Nat.mod_eq_of_lt (by omega)).symm

theorem eq_low (h : UInt64) : h = 256 * (h / 256) + h.toUInt8.toUInt64 := by
  apply UInt64.toNat_inj.mp
  have hlt := h.toNat_lt
  rw [UInt64.toNat_add, UInt64.toNat_mul, UInt64.toNat_div, UInt8.toNat_toUInt64,
    UInt64.toNat_toUInt8]
  show h.toNat = (256 * (h.toNat / 256) % 2 ^ 64 + h.toNat % 256) % 2 ^ 64
  omega

/-- A hash stays one when its last byte is taken away. -/
theorem upper_mem {h : UInt64} (hh : h ∈ Hashes) : 256 * (h / 256) ∈ Hashes := by
  have hlow := exchange h.toUInt8 hh
  have hback : 256 * (h / 256) ^^^ h.toUInt8.toUInt64 = h := by
    rw [xor_low, ← eq_low]
  rwa [← hback, UInt64.xor_assoc, hback, UInt64.xor_self, UInt64.xor_zero] at hlow

theorem mul_low {q p k c : UInt64} (h : p = 256 * k + c) :
    (256 * q + 1) * p = 256 * (q * p + k) + c := by
  rw [h]
  grind

theorem mul_upper {q p k e : UInt64} (h : e * p = k) :
    256 * (q + e) * p = 256 * (q * p + k) := by
  rw [← h]
  grind

/-- One step up: 1 in the last byte and multiplied, without its last byte, and not multiplied. -/
theorem count_one {q : UInt64} (hq : 256 * q ∈ Hashes) : 256 * (q + countStep) ∈ Hashes := by
  have hone : (256 * q + 1) * hashPrime ∈ Hashes := by
    have h := mul_prime_mem (exchange 1 hq)
    rwa [xor_low] at h
  have hprime : hashPrime = 256 * 0x100000001 + (179 : UInt8).toUInt64 := by decide
  rw [mul_low hprime, ← xor_low] at hone
  have hupper : 256 * (q * hashPrime + 0x100000001) ∈ Hashes := by
    have h := exchange 179 hone
    rwa [UInt64.xor_assoc, UInt64.xor_self, UInt64.xor_zero] at h
  have hstep : countStep * hashPrime = 0x100000001 := by decide
  rw [← mul_upper hstep] at hupper
  exact Orbit.mem_of_map_mem mul_prime_injective (fun _ hx => mul_prime_mem hx) hupper

theorem count {q : UInt64} (hq : 256 * q ∈ Hashes) (n : Nat) :
    256 * (q + UInt64.ofNat n * countStep) ∈ Hashes := by
  induction n with
  | zero =>
    rw [show UInt64.ofNat 0 = 0 from rfl, UInt64.zero_mul, UInt64.add_zero]
    exact hq
  | succ n ih =>
    have hnext : q + UInt64.ofNat n * countStep + countStep
        = q + UInt64.ofNat (n + 1) * countStep := by
      rw [UInt64.ofNat_add]
      generalize countStep = e
      grind
    rw [← hnext]
    exact count_one ih

/-- **Every number is the hash of a key.** -/
theorem hashString_surjective (h : UInt64) : ∃ str, hashString str = h := by
  have hstart : (0xcbf29ce484222325 : UInt64) ∈ Hashes := ⟨[], rfl⟩
  have hupper := upper_mem hstart
  generalize (0xcbf29ce484222325 : UInt64) / 256 = q at hupper
  have hcount := count hupper ((h / 256 - q) * countInverse).toNat
  have hreach : q + UInt64.ofNat ((h / 256 - q) * countInverse).toNat * countStep = h / 256 := by
    have hinverse : countInverse * countStep = 1 := by decide
    rw [UInt64.ofNat_toNat, UInt64.mul_assoc, hinverse, UInt64.mul_one, UInt64.add_comm,
      UInt64.sub_add_cancel]
  rw [hreach] at hcount
  have hlast := exchange h.toUInt8 hcount
  rwa [xor_low, ← eq_low] at hlast

end Cluster
end Server
end KvJet
