import Mathlib.Data.List.Basic

/-! Text with a number in it: what `printf` makes of `%d`. -/

namespace LearnCLinux.Format

theorem toNat_digit {c : Char} {n : Nat} (hc : c ∈ Nat.toDigits 10 n) :
    48 ≤ c.toNat ∧ c.toNat ≤ 57 :=
  Char.isDigit_iff_toNat.mp (Nat.isDigit_of_mem_toDigits (by decide) (by decide) hc)

def decimal (n : Int32) : List UInt8 :=
  (if n.toInt < 0 then [0x2D] else []) ++ (Nat.toDigits 10 n.toInt.natAbs).map Char.toUInt8

example : decimal (-2147483648) = "-2147483648".toUTF8.toList := by decide +kernel

theorem length_decimal_le (n : Int32) : (decimal n).length ≤ 11 := by
  have hlow := n.le_toInt
  have hhigh := n.toInt_lt
  have hdigits : (Nat.toDigits 10 n.toInt.natAbs).length ≤ 10 := by
    rw [Nat.length_toDigits_le_iff (by decide) (by decide)]
    omega
  rw [decimal, List.length_append, List.length_map]
  split
  · rw [List.length_singleton]
    omega
  · rw [List.length_nil]
    omega

theorem zero_notMem_decimal (n : Int32) : 0 ∉ decimal n := by
  intro hzero
  rcases List.mem_append.mp hzero with hsign | hdigit
  · split at hsign
    · simp at hsign
    · cases hsign
  · obtain ⟨c, hc, heq⟩ := List.mem_map.mp hdigit
    have hrange := toNat_digit hc
    have hbyte : c.toNat % 256 = 0 := congrArg UInt8.toNat heq
    omega

def natural (n : Nat) : List UInt8 := (Nat.toDigits 10 n).map Char.toUInt8

theorem zero_notMem_natural (n : Nat) : 0 ∉ natural n := by
  intro hzero
  obtain ⟨c, hc, heq⟩ := List.mem_map.mp hzero
  have hrange := toNat_digit hc
  have hbyte : c.toNat % 256 = 0 := congrArg UInt8.toNat heq
  omega

theorem natural_injective : Function.Injective natural := by
  have hback : ∀ n, (natural n).map (fun b => Char.ofNat b.toNat) = Nat.toDigits 10 n := by
    intro n
    rw [natural, List.map_map]
    conv_rhs => rw [← List.map_id (Nat.toDigits 10 n)]
    apply List.map_congr_left
    intro c hc
    have hrange := toNat_digit hc
    have hbyte : c.toUInt8.toNat = c.toNat := by
      change c.toNat % 256 = c.toNat
      omega
    rw [Function.comp_apply, hbyte, Char.ofNat_toNat, id]
  intro m n h
  have hdigits : Nat.toDigits 10 m = Nat.toDigits 10 n := by rw [← hback m, h, hback n]
  rw [← Nat.ofDigitChars_ten_toDigits (n := m), hdigits, Nat.ofDigitChars_ten_toDigits]

def textAround (before after : List UInt8) (n : Int32) : List UInt8 := before ++ decimal n ++ after

variable {before after : List UInt8}

theorem length_textAround_le (n : Int32) :
    (textAround before after n).length ≤ before.length + 11 + after.length := by
  have hdecimal := length_decimal_le n
  rw [textAround, List.length_append, List.length_append]
  omega

theorem zero_notMem_textAround (hbefore : 0 ∉ before) (hafter : 0 ∉ after) (n : Int32) :
    0 ∉ textAround before after n := by
  simp only [textAround, List.mem_append, not_or]
  exact ⟨⟨hbefore, zero_notMem_decimal n⟩, hafter⟩

end LearnCLinux.Format
