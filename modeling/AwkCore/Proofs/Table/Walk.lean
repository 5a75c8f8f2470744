import Mathlib.Algebra.Ring.Parity
import Mathlib.Data.Finset.Card
import Mathlib.Data.Nat.ModEq
import Mathlib.Tactic.Ring
import AwkCore.Table

/-!
# Walks come to every place

Once the bits of the hash are used up, a walk goes from a place to five times that place and one
more. Modulo a power of two this recurrence has full period, so a walk over an index of that size
comes to every place. The number of steps that `Table.reach` allows is enough for it.
-/
namespace AwkCore.Walk

/-- A step of a walk with no bits of the hash left, before it is reduced to the size of the index. -/
def stride (i : ℕ) : ℕ := 5 * i + 1

/-- The number that a row of ones writes in base five. -/
def repunit : ℕ → ℕ
  | 0 => 0
  | d + 1 => 5 * repunit d + 1

theorem repunit_succ (d : ℕ) : repunit (d + 1) = 5 * repunit d + 1 := rfl

theorem stride_iterate (d i : ℕ) : stride^[d] i = i + repunit d * (4 * i + 1) := by
  induction d with
  | zero => simp [repunit]
  | succ d ih =>
    rw [Function.iterate_succ_apply', ih, stride, repunit]
    ring

theorem repunit_add_self (e : ℕ) : repunit (e + e) = 2 * (repunit e * (2 * repunit e + 1)) := by
  have zero : ∀ d, stride^[d] 0 = repunit d := fun d => by simp [stride_iterate]
  rw [← zero (e + e), Function.iterate_add_apply, zero, stride_iterate]
  ring

theorem even_repunit {d : ℕ} : Even (repunit d) ↔ Even d := by
  induction d with
  | zero => simp [repunit]
  | succ d ih =>
    rw [repunit_succ, Nat.even_add_one, Nat.even_add_one, Nat.even_mul, ih]
    simp [show ¬ Even 5 by decide]

theorem two_pow_dvd_of_repunit {k d : ℕ} (h : 2 ^ k ∣ repunit d) : 2 ^ k ∣ d := by
  induction k generalizing d with
  | zero => simp
  | succ k ih =>
    have even : Even d := even_repunit.mp (even_iff_two_dvd.mpr (dvd_trans (by simp [pow_succ]) h))
    obtain ⟨e, rfl⟩ := even
    rw [repunit_add_self, pow_succ'] at h
    have odd : Nat.Coprime (2 ^ k) (2 * repunit e + 1) := by
      apply Nat.Coprime.pow_left
      simp
    have half := odd.dvd_of_dvd_mul_right (Nat.dvd_of_mul_dvd_mul_left (by simp) h)
    rw [pow_succ', ← two_mul]
    exact Nat.mul_dvd_mul_left 2 (ih half)

/-- Strides come back to where they started only after a multiple of the period. -/
theorem stride_period {k d i : ℕ} (h : stride^[d] i ≡ i [MOD 2 ^ k]) : 2 ^ k ∣ d := by
  rw [stride_iterate] at h
  have gap : 2 ^ k ∣ repunit d * (4 * i + 1) :=
    (Nat.modEq_zero_iff_dvd.mp (Nat.ModEq.add_left_cancel' i (by simpa using h)))
  have odd : Nat.Coprime (2 ^ k) (4 * i + 1) := by
    apply Nat.Coprime.pow_left
    rw [show 4 * i + 1 = 2 * (2 * i) + 1 by ring]
    simp
  exact two_pow_dvd_of_repunit (odd.dvd_of_dvd_mul_right gap)

theorem stride_injOn (k i : ℕ) :
    Set.InjOn (fun d => stride^[d] i % 2 ^ k) (Finset.range (2 ^ k)) := by
  -- It is enough to look at two numbers of strides in ascending order.
  have ordered : ∀ a b, a ≤ b → b < 2 ^ k → stride^[a] i % 2 ^ k = stride^[b] i % 2 ^ k → a = b := by
    intro a b hab hb he
    obtain ⟨d, rfl⟩ := Nat.exists_eq_add_of_le hab
    rw [Nat.add_comm a d, Function.iterate_add_apply] at he
    have := Nat.eq_zero_of_dvd_of_lt (stride_period he.symm) (by omega)
    omega
  intro a ha b hb he
  simp only [Finset.coe_range, Set.mem_Iio] at ha hb
  rcases Nat.le_total a b with h | h
  · exact ordered a b h hb he
  · exact (ordered b a h ha he.symm).symm

theorem stride_covers {k p : ℕ} (i : ℕ) (hp : p < 2 ^ k) : ∃ d < 2 ^ k, stride^[d] i % 2 ^ k = p := by
  have surj := Finset.surjOn_of_injOn_of_card_le (t := Finset.range (2 ^ k))
    (fun d => stride^[d] i % 2 ^ k)
    (fun d _ => by simpa using Nat.mod_lt _ (Nat.two_pow_pos k)) (stride_injOn k i) le_rfl
  obtain ⟨d, hd, he⟩ := surj (by simpa using hp)
  exact ⟨d, by simpa using hd, he⟩

theorem start_place_lt {size : ℕ} (hash : UInt32) (hs : 0 < size) :
    (start size hash).place < size := Nat.mod_lt _ hs

theorem next_place_lt {size : ℕ} (w : Walk) (hs : 0 < size) : (w.next size).place < size :=
  Nat.mod_lt _ hs

theorem iterate_place_lt {size : ℕ} {w : Walk} (hw : w.place < size) (i : ℕ) :
    ((next size)^[i] w).place < size := by
  cases i with
  | zero => exact hw
  | succ i =>
    rw [Function.iterate_succ_apply']
    exact next_place_lt _ (by omega)

theorem iterate_perturb (size : ℕ) (w : Walk) (i : ℕ) :
    ((next size)^[i] w).perturb = w.perturb / 32 ^ i := by
  induction i with
  | zero => simp
  | succ i ih =>
    rw [Function.iterate_succ_apply', next, ih, Nat.div_div_eq_div_mul, pow_succ]

/-- A walk whose bits of the hash are used up goes on by strides. -/
theorem iterate_place {size : ℕ} {w : Walk} (hw : w.place < size) (used : w.perturb < 32) (i : ℕ) :
    ((next size)^[i] w).place = stride^[i] w.place % size := by
  induction i with
  | zero => simpa using (Nat.mod_eq_of_lt hw).symm
  | succ i ih =>
    have zero : w.perturb / 32 ^ i / 32 = 0 := by
      rw [Nat.div_div_eq_div_mul, ← pow_succ]
      exact Nat.div_eq_of_lt (used.trans_le (Nat.le_self_pow (by simp) 32))
    simp only [Function.iterate_succ_apply', next, iterate_perturb, zero, ih, stride]
    simp [Nat.add_mod, Nat.mul_mod]

/-- Every walk over an index whose size is a power of two comes to every place in reach. -/
theorem covers (k : ℕ) (hash : UInt32) {p : ℕ} (hp : p < 2 ^ k) :
    ∃ i < 2 ^ k + 7, ((next (2 ^ k))^[i] (start (2 ^ k) hash)).place = p := by
  -- Six steps use up all but two bits of the hash.
  let w := (next (2 ^ k))^[6] (start (2 ^ k) hash)
  have hw : w.place < 2 ^ k := iterate_place_lt (start_place_lt hash (Nat.two_pow_pos k)) 6
  have used : w.perturb < 32 := by
    have hash_lt : hash.toNat < 2 ^ 32 := hash.toNat_lt
    simp only [w, iterate_perturb, start]
    omega
  obtain ⟨d, hd, he⟩ := stride_covers w.place hp
  refine ⟨d + 6, by omega, ?_⟩
  rw [Function.iterate_add_apply]
  exact (iterate_place hw used d).trans he

end AwkCore.Walk
