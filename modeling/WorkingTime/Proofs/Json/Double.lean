/-
Which written integers are not too large for a double.

An integer of at most 64 bits keeps all its digits when a double is made of it, and
rounding adds at most the distance to the next double, so the product that is compared
with the limit stays far below it (`Numeral.overflows_ofInt`).
-/
import WorkingTime.Proofs.Json.Numeral

namespace WorkingTime

namespace Double

theorem nearest_le (n : Nat) : nearest n ≤ n + spacing n := by
  have hbelow : n / spacing n * spacing n ≤ n := Nat.div_mul_le_self n (spacing n)
  rw [nearest]
  split
  · omega
  · rw [Nat.add_one_mul]
    omega

theorem spacing_le {n k : Nat} (h : n < 2 ^ (precision + k)) : spacing n ≤ 2 ^ k := by
  rw [spacing, Nat.one_shiftLeft]
  refine Nat.pow_le_pow_right (by decide) ?_
  rcases Nat.eq_zero_or_pos n with rfl | hpos
  · simp [precision]
  · have hlog : n.log2 < precision + k := (Nat.log2_lt (Nat.ne_of_gt hpos)).mpr h
    omega

end Double

namespace Numeral

theorem append_of_lt {kept : Nat} {digits : List Char}
    (h : digits.foldl (fun n c => 10 * n + Text.digitValue c) kept < UInt64.size) :
    append kept digits = (digits.foldl (fun n c => 10 * n + Text.digitValue c) kept, 0) := by
  have hgrows : ∀ (digits : List Char) (kept : Nat),
      kept ≤ digits.foldl (fun n c => 10 * n + Text.digitValue c) kept := by
    intro digits
    induction digits with
    | nil => exact Nat.le_refl
    | cons c rest ih => exact fun kept => Nat.le_trans (by omega) (ih (10 * kept + _))
  induction digits generalizing kept with
  | nil => rfl
  | cons c rest ih =>
      have hlonger : 10 * kept + Text.digitValue c < UInt64.size :=
        Nat.lt_of_le_of_lt (hgrows rest _) h
      rw [append, if_pos hlonger, ih h, List.foldl_cons]

theorem leading_ofInt {n : Int} (h : n.natAbs < UInt64.size) :
    (ofInt n).leading = (n.natAbs, 0) := by
  have hvalue : (Text.decimal n.natAbs).foldl (fun n c => 10 * n + Text.digitValue c) 0 =
      n.natAbs := Text.value_decimal n.natAbs
  have hwhole : append 0 (Text.decimal n.natAbs) = (n.natAbs, 0) := by
    rw [append_of_lt (hvalue.trans_lt h), hvalue]
  simp only [leading, ofInt, hwhole]
  rfl

theorem overflows_ofInt {n : Int} (h : n.natAbs < UInt64.size) : (ofInt n).overflows = false := by
  have hone : Double.nearest (Nat.pow 10 0) = 1 := by decide
  have hbound : Double.nearest n.natAbs < Double.limit :=
    calc Double.nearest n.natAbs
        ≤ n.natAbs + Double.spacing n.natAbs := Double.nearest_le _
      _ ≤ n.natAbs + 2 ^ 11 := Nat.add_le_add_left (Double.spacing_le (k := 11) h) _
      _ < UInt64.size + 2 ^ 11 := Nat.add_lt_add_right h _
      _ < Double.limit := by decide +kernel
  rw [overflows, leading_ofInt h]
  split
  · rfl
  · rfl
  next number e _ heq =>
    obtain ⟨rfl, he⟩ := Prod.mk.inj heq
    obtain rfl : e = 0 := (Int.ofNat.inj he).symm
    rw [hone, Nat.mul_one]
    simp [largestPower, hbound]

end Numeral

end WorkingTime
